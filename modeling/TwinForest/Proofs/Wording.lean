import TwinForest.Proofs.Descendants
import TwinForest.Proofs.Preorder

/-!
# What indexing makes of the wording

The wording of a forest is its shape together with the texts and kinds at its nodes. Keys, positions
and the order in which the nodes were stored are no part of it. When two pairs are indexed from
forests of the same wording, node for node they get the same number, depth, content class, count of
descendants and mark. The two runs are followed side by side, pass by pass.
-/

namespace TwinForest

inductive Wording where
  | list (opening closing : String)
  | atom (kind : AtomKind) (content : String)
deriving DecidableEq, Repr

def Form.wording : Form → Wording
  | list opening closing _ => .list opening.content closing.content
  | atom a => .atom a.kind a.content

def Forest.wording (f : Forest Node) : Forest Wording :=
  f.map (·.form.wording)

def Nodes.wording (nodes : Nodes) (roots : List Key) : Except Fault (Forest Wording) :=
  (roots.mapM nodes.item).map fun ts => (Forest.ofTrees ts).wording

/-! ## Forests of one shape -/

namespace Forest

variable {α : Type u} {β : Type v} {γ : Type w} {δ : Type x}

/-- Two forests have the same shape, and the labels at the same places are related. -/
inductive Forall₂ (R : α → β → Prop) : Forest α → Forest β → Prop where
  | nil : Forall₂ R nil nil
  | cons {a : α} {b : β} {f f' : Forest α} {g g' : Forest β} :
      R a b → Forall₂ R f g → Forall₂ R f' g' → Forall₂ R (cons a f f') (cons b g g')

namespace Forall₂

variable {R : α → β → Prop} {f f' : Forest α} {g g' : Forest β}

theorem size_eq (h : Forall₂ R f g) : f.size = g.size := by
  induction h with
  | nil => rfl
  | cons _ _ _ ihc ihr => simp only [size, ihc, ihr]

theorem append (h : Forall₂ R f g) (h' : Forall₂ R f' g') : Forall₂ R (f ++ f') (g ++ g') := by
  induction h with
  | nil => exact h'
  | cons hab hc _ _ ihr => exact .cons hab hc ihr

/-- Two forests of one shape can be split at the same place. -/
theorem of_append {S : α → β → Prop} (hshape : Forall₂ S f g)
    (h : Forall₂ R (f ++ f') (g ++ g')) : Forall₂ R f g ∧ Forall₂ R f' g' := by
  induction hshape with
  | nil => exact ⟨.nil, h⟩
  | cons _ _ _ _ ih =>
    cases h with
    | cons hab hc hr =>
      obtain ⟨hrest, hmore⟩ := ih hr
      exact ⟨.cons hab hc hrest, hmore⟩

theorem map_iff {p : γ → α} {q : δ → β} {f : Forest γ} {g : Forest δ} :
    Forall₂ R (f.map p) (g.map q) ↔ Forall₂ (fun a b => R (p a) (q b)) f g := by
  constructor
  · intro h
    induction f generalizing g with
    | nil =>
      cases g with
      | nil => exact .nil
      | cons => cases h
    | cons a children rest ihc ihr =>
      cases g with
      | nil => cases h
      | cons =>
        cases h with
        | cons hab hc hr => exact .cons hab (ihc hc) (ihr hr)
  · intro h
    induction h with
    | nil => exact .nil
    | cons hab _ _ ihc ihr => exact .cons hab ihc ihr

theorem map_roots_eq {F : α → γ} {G : β → γ} (hFG : ∀ {a b}, R a b → F a = G b)
    (h : Forall₂ R f g) : f.roots.map F = g.roots.map G := by
  induction h with
  | nil => rfl
  | cons hab _ _ _ ihr => simp only [roots, List.map_cons, hFG hab, ihr]

theorem map_preorder_eq {F : α → γ} {G : β → γ} (hFG : ∀ {a b}, R a b → F a = G b)
    (h : Forall₂ R f g) : f.preorder.map F = g.preorder.map G := by
  induction h with
  | nil => rfl
  | cons hab _ _ ihc ihr =>
    simp only [preorder, List.map_cons, List.map_append, hFG hab, ihc, ihr]

end Forall₂

end Forest

/-! ## Agreement, pass by pass -/

def Form.Agrees (f g : Form) : Prop :=
  f.wording = g.wording ∧ f.weight = g.weight

structure Placed.Agrees (n m : Placed) : Prop where
  form : n.node.form.Agrees m.node.form
  id : n.id = m.id
  ancestors : n.ancestors = m.ancestors

structure Classified.Agrees (n m : Classified) : Prop where
  placed : n.toPlaced.Agrees m.toPlaced
  contentId : n.contentId = m.contentId

/-- Two nodes have the same texts and numbers. Their keys, positions and links may differ. -/
structure Marked.Agrees (n m : Marked) : Prop where
  classified : n.toClassified.Agrees m.toClassified
  unique : n.unique = m.unique

/-- In forests of the same wording, the counts of descendants are the same as well. -/
theorem Forest.agrees_of_wording_eq {f g : Forest Node} (h : f.wording = g.wording)
    (hf : ∀ t ∈ f.subtrees, t.Weighed) (hg : ∀ t ∈ g.subtrees, t.Weighed) :
    Forall₂ (fun n m => n.form.Agrees m.form) f g := by
  induction f generalizing g with
  | nil =>
    cases g with
    | nil => exact .nil
    | cons => cases h
  | cons n children rest ihc ihr =>
    cases g with
    | nil => cases h
    | cons m children' rest' =>
      simp only [subtrees, List.forall_mem_cons, List.forall_mem_append] at hf hg
      obtain ⟨hn, hc, hr⟩ := hf
      obtain ⟨hm, hc', hr'⟩ := hg
      simp only [wording, map, cons.injEq] at h
      obtain ⟨hword, hchildren, hrest⟩ := h
      have hbelow := ihc hchildren hc hc'
      have hweight : n.form.weight = m.form.weight := by
        rw [Tree.Weighed] at hn hm
        rw [hn, hm, hbelow.size_eq]
      exact .cons ⟨hword, hweight⟩ hbelow (ihr hrest hr hr')

theorem Placed.number_agrees {f g : Forest Node}
    (h : Forest.Forall₂ (fun n m => n.form.Agrees m.form) f g) (parent parent' : Option Key)
    (ancestors waiting waiting' : Nat) (next : NodeId) :
    Forest.Forall₂ Placed.Agrees (number parent ancestors waiting next f).1
      (number parent' ancestors waiting' next g).1 := by
  induction h generalizing parent parent' ancestors waiting waiting' next with
  | nil => exact .nil
  | cons hform hc hr ihc ihr =>
    refine .cons ⟨hform, rfl, rfl⟩ (ihc _ _ _ _ _ _) ?_
    simp only [(ids_number ..).2, hc.size_eq]
    exact ihr _ _ _ _ _ _

theorem ContentKey.of_eq_of_agrees {f g : Form} (h : f.Agrees g) (ids : List ContentId) :
    ContentKey.of ids f = ContentKey.of ids g := by
  obtain ⟨hword, -⟩ := h
  cases f <;> cases g <;>
    simp_all [Form.wording, ContentKey.of, Atom.normalizedContent]

/-- The two runs look up the same classes, so they have the same table throughout. -/
theorem Classified.classify_agrees {f g : Forest Placed} (h : Forest.Forall₂ Placed.Agrees f g)
    (table : ContentTable) :
    Forest.Forall₂ Classified.Agrees (classify table f).1 (classify table g).1 ∧
      (classify table f).2 = (classify table g).2 := by
  induction h generalizing table with
  | nil => exact ⟨.nil, rfl⟩
  | @cons n m children rest children' rest' hn _ _ ihc ihr =>
    obtain ⟨hbelow, htable⟩ := ihc table
    have hids := hbelow.map_roots_eq (F := contentId) (G := contentId) (·.contentId)
    have hkey := ContentKey.of_eq_of_agrees hn.form ((classify table children).1.roots.map contentId)
    obtain ⟨hbeside, htable'⟩ := ihr ((classify table children).2.intern
      (.of ((classify table children).1.roots.map contentId) n.node.form)).2
    simp only [classify, ← htable, ← hids, ← hkey]
    exact ⟨.cons ⟨hn, rfl⟩ hbelow hbeside, htable'⟩

theorem Tally.count_eq_of_agrees {f g : Forest Classified}
    (h : Forest.Forall₂ Classified.Agrees f g) (tally : Tally) : tally.count f = tally.count g := by
  induction h generalizing tally with
  | nil => rfl
  | cons hn _ _ ihc ihr => simp only [count, hn.contentId, ihc, ihr]

theorem Marked.mark_agrees {tally : Tally} {f g : Forest Classified} {f' g' : Forest Marked}
    (h : Forest.Forall₂ Classified.Agrees f g) (hf : mark tally f = .ok f')
    (hg : mark tally g = .ok g') : Forest.Forall₂ Marked.Agrees f' g' := by
  induction h generalizing f' g' with
  | nil =>
    cases hf
    cases hg
    exact .nil
  | cons hn _ _ ihc ihr =>
    obtain ⟨count, _, _, hcount, hc, hr, rfl⟩ := mark_cons_eq_ok.mp hf
    obtain ⟨count', _, _, hcount', hc', hr', rfl⟩ := mark_cons_eq_ok.mp hg
    rw [hn.contentId, hcount'] at hcount
    cases hcount
    exact .cons ⟨hn, rfl⟩ (ihc hc hc') (ihr hr hr')

/-! ## Pairs -/

namespace Pair.Indexes

variable {nodes nodes' : Nodes} {p q : Pair} {lhs rhs lhs' rhs' : List (Tree Node)}

/-- Pairs of the same wording agree at all their nodes. -/
theorem agrees (h : p.Indexes nodes lhs rhs) (h' : q.Indexes nodes' lhs' rhs')
    (hl : Forest.Forall₂ (fun n m => n.form.Agrees m.form) (.ofTrees lhs) (.ofTrees lhs'))
    (hr : Forest.Forall₂ (fun n m => n.form.Agrees m.form) (.ofTrees rhs) (.ofTrees rhs'))
    (side : Side) :
    Forest.Forall₂ (fun n m => n.toMarked.Agrees m.toMarked) (p.forest side) (q.forest side) := by
  have hplacedl : Forest.Forall₂ Placed.Agrees (p.lhs.map (·.toPlaced)) (q.lhs.map (·.toPlaced)) := by
    rw [h.placed_lhs, h'.placed_lhs]
    exact Placed.number_agrees hl _ _ _ _ _ _
  have hplacedr : Forest.Forall₂ Placed.Agrees (p.rhs.map (·.toPlaced)) (q.rhs.map (·.toPlaced)) := by
    rw [h.placed_rhs, h'.placed_rhs, (Placed.ids_numberSide _ _).2, (Placed.ids_numberSide _ _).2,
      hl.size_eq]
    exact Placed.number_agrees hr _ _ _ _ _ _
  have hplaced : Forest.Forall₂ Placed.Agrees (p.all.map (·.toPlaced)) (q.all.map (·.toPlaced)) := by
    simp only [all, Forest.map_append]
    exact hplacedl.append hplacedr
  have hclassified :
      Forest.Forall₂ Classified.Agrees (p.all.map (·.toClassified)) (q.all.map (·.toClassified)) := by
    rw [h.classified, h'.classified]
    exact (Classified.classify_agrees hplaced ∅).1
  have hmarked := h'.marked
  rw [← Tally.count_eq_of_agrees hclassified ∅] at hmarked
  have hall := Forest.Forall₂.map_iff.mp (Marked.mark_agrees hclassified h.marked hmarked)
  obtain ⟨hlhs, hrhs⟩ := Forest.Forall₂.of_append (Forest.Forall₂.map_iff.mp hplacedl) hall
  cases side with
  | lhs => exact hlhs
  | rhs => exact hrhs

end Pair.Indexes

end TwinForest
