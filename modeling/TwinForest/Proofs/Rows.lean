import Mathlib.Data.List.Nodup
import TwinForest.Proofs.Navigation

/-!
# Rows of siblings

The nodes of a side stand in rows: the roots are one, and the children of every node are another. The
links that the passes write into a node tell where it stands, namely below which node and between which
two others of its row. The number of ancestors goes up by one from a row to the rows below it.
-/

namespace TwinForest

/-! ## Wired forests -/

structure Linked.Between (n : Linked) (parent : Option Key) (ancestors : Nat)
    (previous next : Option Key) : Prop where
  parent_eq : n.parent = parent
  ancestors_eq : n.ancestors = ancestors
  previousSibling_eq : n.previousSibling = previous
  nextSibling_eq : n.nextSibling = next
  prev_eq : n.prev = (previous <|> parent)

namespace Forest

variable {parent previous : Option Key} {ancestors : Nat} {f : Forest Linked} {t : Tree Linked}

/-- Every node of the forest has the links of its place, where the roots have the given parent and the
first of them comes after the given sibling. -/
def Wired (parent : Option Key) (ancestors : Nat) (previous : Option Key) : Forest Linked → Prop
  | .nil => True
  | .cons n children rest =>
    n.Between parent ancestors previous (rest.first?.map (·.node.key)) ∧
      Wired (some n.node.key) (ancestors + 1) none children ∧
      Wired parent ancestors (some n.node.key) rest

/-- A forest is wired by the two passes that write links. -/
theorem Wired.of_passes {waiting : Nat} {next : NodeId}
    (hplaced : f.map (·.toPlaced) = (Placed.number parent ancestors waiting next f.built).1)
    (hlinked : f = Linked.link parent previous (f.map (·.toMarked))) :
    f.Wired parent ancestors previous := by
  induction f generalizing parent previous ancestors waiting next with
  | nil => trivial
  | cons n children rest ihc ihr =>
    simp only [map, built_cons, Placed.number, cons.injEq] at hplaced
    simp only [map, Linked.link, cons.injEq] at hlinked
    obtain ⟨hplace, hchildren, hrest⟩ := hplaced
    obtain ⟨hlink, hchildren', hrest'⟩ := hlinked
    have hnext : (rest.map (·.toMarked)).first?.map (fun m => m.node.key) =
        rest.first?.map (fun m => m.node.key) := by
      cases rest <;> rfl
    refine ⟨?_, ihc hchildren hchildren', ihr hrest hrest'⟩
    exact {
      parent_eq := congrArg Placed.parent hplace
      ancestors_eq := congrArg Placed.ancestors hplace
      previousSibling_eq := congrArg Linked.previousSibling hlink
      nextSibling_eq := (congrArg Linked.nextSibling hlink).trans hnext
      prev_eq := congrArg Linked.prev hlink }

/-- A root of a wired forest is linked to the roots next to it. -/
theorem Wired.between (h : f.Wired parent ancestors previous) {before after : List (Tree Linked)}
    (htrees : f.trees = before ++ t :: after) :
    t.label.Between parent ancestors ((before.getLast?.map (·.label.node.key)) <|> previous)
      (after.head?.map (·.label.node.key)) := by
  induction f generalizing previous before with
  | nil => simp [trees] at htrees
  | cons n children rest _ ih =>
    obtain ⟨hfirst, -, hrest⟩ := h
    cases before with
    | nil =>
      simp only [trees, List.nil_append, List.cons.injEq] at htrees
      obtain ⟨rfl, rfl⟩ := htrees
      have hnext : rest.first?.map (·.node.key) = rest.trees.head?.map (·.label.node.key) := by
        cases rest <;> rfl
      exact hnext ▸ hfirst
    | cons s before =>
      simp only [trees, List.cons_append, List.cons.injEq] at htrees
      obtain ⟨rfl, htrees⟩ := htrees
      have hlast := ih hrest htrees
      -- The root that was passed is the one before, unless another one comes in between.
      cases hb : before.getLast? with
      | none => simpa [List.getLast?_cons, hb] using hlast
      | some s => simpa [List.getLast?_cons, hb] using hlast

/-- The children of every node of a wired forest are wired below it. -/
theorem Wired.children (h : f.Wired parent ancestors previous) (ht : t ∈ f.subtrees) :
    t.children.Wired (some t.label.node.key) (t.label.ancestors + 1) none := by
  induction f generalizing parent previous ancestors with
  | nil => cases ht
  | cons n children rest ihc ihr =>
    obtain ⟨hn, hchildren, hrest⟩ := h
    simp only [subtrees, List.mem_cons, List.mem_append] at ht
    rcases ht with rfl | ht | ht
    · rw [hn.ancestors_eq]
      exact hchildren
    · exact ihc hchildren ht
    · exact ihr hrest ht

/-- A subtree is a root or a child of a subtree. -/
theorem mem_trees_or_child {α : Type u} {f : Forest α} {t : Tree α} (ht : t ∈ f.subtrees) :
    t ∈ f.trees ∨ ∃ s ∈ f.subtrees, t ∈ s.children.trees := by
  induction f with
  | nil => cases ht
  | cons a children rest ihc ihr =>
    simp only [subtrees, trees, List.mem_cons, List.mem_append] at ht ⊢
    rcases ht with rfl | ht | ht
    · exact .inl (.inl rfl)
    · rcases ihc ht with hroot | ⟨s, hs, hchild⟩
      · exact .inr ⟨⟨a, children⟩, .inl rfl, hroot⟩
      · exact .inr ⟨s, .inr (.inl hs), hchild⟩
    · rcases ihr ht with hroot | ⟨s, hs, hchild⟩
      · exact .inl (.inr hroot)
      · exact .inr ⟨s, .inr (.inr hs), hchild⟩

end Forest

/-! ## Places -/

namespace Pair

variable {p : Pair} {nodes : Nodes} {lhs rhs : List (Tree Node)} {side : Side}
variable {above : Option (Tree Linked)} {before after : List (Tree Linked)} {t u : Tree Linked}

theorem mem_all_iff : t ∈ p.all.subtrees ↔ ∃ side, t ∈ p.walk side := by
  rw [all, Forest.subtrees_append, List.mem_append]
  constructor
  · rintro (ht | ht)
    · exact ⟨.lhs, mem_walk.mpr ht⟩
    · exact ⟨.rhs, mem_walk.mpr ht⟩
  · rintro ⟨_ | _, ht⟩
    · exact .inl (mem_walk.mp ht)
    · exact .inr (mem_walk.mp ht)

/-- The children of a node, or the roots of the side when there is none. -/
def row (p : Pair) (side : Side) : Option (Tree Linked) → List (Tree Linked)
  | none => p.roots side
  | some t => t.children.trees

/-- On a side, a node stands below the given one, or among the roots when there is none, between the
given parts of its row. -/
structure Stands (p : Pair) (side : Side) (above : Option (Tree Linked))
    (before : List (Tree Linked)) (t : Tree Linked) (after : List (Tree Linked)) : Prop where
  above_mem : ∀ u ∈ above, u ∈ p.walk side
  row_eq : p.row side above = before ++ t :: after

theorem mem_walk_of_mem_row (habove : ∀ u ∈ above, u ∈ p.walk side) (ht : t ∈ p.row side above) :
    t ∈ p.walk side := by
  cases above with
  | none => exact mem_walk_of_mem_roots ht
  | some u =>
    exact mem_walk.mpr (Forest.mem_subtrees_child (mem_walk.mp (habove u rfl)) ht)

theorem Stands.mem_walk (h : p.Stands side above before t after) :
    ∀ u ∈ before ++ t :: after, u ∈ p.walk side := by
  intro u hu
  exact mem_walk_of_mem_row h.above_mem (h.row_eq ▸ hu)

theorem exists_stands_of_mem_roots (ht : t ∈ p.roots side) :
    ∃ before after, p.Stands side none before t after := by
  obtain ⟨before, after, hrow⟩ := List.append_of_mem ht
  exact ⟨before, after, by simp, hrow⟩

theorem exists_stands_of_mem_children (hu : u ∈ p.walk side) (ht : t ∈ u.children.trees) :
    ∃ before after, p.Stands side (some u) before t after := by
  obtain ⟨before, after, hrow⟩ := List.append_of_mem ht
  exact ⟨before, after, by simpa using hu, hrow⟩

/-- Every node of a side stands in a row. -/
theorem exists_stands (ht : t ∈ p.walk side) :
    ∃ above before after, p.Stands side above before t after := by
  rcases Forest.mem_trees_or_child (mem_walk.mp ht) with hroot | ⟨s, hs, hchild⟩
  · exact ⟨none, exists_stands_of_mem_roots hroot⟩
  · exact ⟨some s, exists_stands_of_mem_children (mem_walk.mpr hs) hchild⟩

namespace Indexes

/-- Nodes with the same key are the same. -/
theorem key_inj (h : p.Indexes nodes lhs rhs) (ht : t ∈ p.all.subtrees) (hu : u ∈ p.all.subtrees)
    (hkey : t.label.node.key = u.label.node.key) : t = u :=
  List.inj_on_of_nodup_map h.nodup_keys ht hu hkey

/-- The nodes below a node are found at the keys that the store has for them. -/
theorem mapM_childKeys (h : p.Indexes nodes lhs rhs) (hn : nodes.Coherent) {k : Key}
    {s : Tree Node} (hk : p.node k = .ok t) (hget : nodes.get? k = some s) :
    s.childKeys.mapM p.node = .ok t.children.trees := by
  obtain ⟨ht, rfl⟩ := (h.node_eq_ok_iff hn).mp hk
  obtain rfl := Option.some.inj ((h.stores_built hn ht).symm.trans hget)
  rw [Tree.childKeys_built]
  refine mapM_eq_ok fun c hc => (h.node_eq_ok_iff hn).mpr ⟨?_, rfl⟩
  exact Forest.mem_subtrees_child ht hc

theorem wired (h : p.Indexes nodes lhs rhs) (side : Side) : (p.forest side).Wired none 0 none := by
  obtain ⟨next, hplaced⟩ := h.placed side
  exact .of_passes hplaced (h.linked side)

/-- The links of a node tell where it stands. -/
theorem between (h : p.Indexes nodes lhs rhs) (hs : p.Stands side above before t after) :
    t.label.Between (above.map (·.label.node.key)) (above.elim 0 (·.label.ancestors + 1))
      (before.getLast?.map (·.label.node.key)) (after.head?.map (·.label.node.key)) := by
  have hfirst : ∀ link : Option Key, (link <|> none) = link := by simp
  cases above with
  | none =>
    have hroot := (h.wired side).between hs.row_eq
    rw [hfirst] at hroot
    exact hroot
  | some u =>
    have hchildren := (h.wired side).children (mem_walk.mp (hs.above_mem u rfl))
    have hchild := hchildren.between hs.row_eq
    rw [hfirst] at hchild
    exact hchild

theorem ancestors_eq (h : p.Indexes nodes lhs rhs) (hs : p.Stands side above before t after) :
    t.label.ancestors = above.elim 0 (·.label.ancestors + 1) :=
  (h.between hs).ancestors_eq

/-- A link to the key of a node of a side leads to this node. -/
theorem follow_map (h : p.Indexes nodes lhs rhs) (hn : nodes.Coherent)
    {target : Option (Tree Linked)} (htarget : ∀ u ∈ target, u ∈ p.walk side) :
    p.follow (target.map (·.label.node.key)) = .ok target := by
  cases target with
  | none => rfl
  | some u =>
    have hu : p.node u.label.node.key = .ok u := h.node_eq hn (htarget u rfl)
    simp [follow, hu]

theorem parent_eq (h : p.Indexes nodes lhs rhs) (hn : nodes.Coherent)
    (hs : p.Stands side above before t after) : p.parent t.label = .ok above := by
  rw [Pair.parent, (h.between hs).parent_eq]
  exact h.follow_map hn hs.above_mem

theorem previousSibling_eq (h : p.Indexes nodes lhs rhs) (hn : nodes.Coherent)
    (hs : p.Stands side above before t after) :
    p.previousSibling t.label = .ok before.getLast? := by
  rw [Pair.previousSibling, (h.between hs).previousSibling_eq]
  apply h.follow_map hn
  intro u hu
  exact hs.mem_walk u (List.mem_append_left _ (List.mem_of_getLast? hu))

theorem nextSibling_eq (h : p.Indexes nodes lhs rhs) (hn : nodes.Coherent)
    (hs : p.Stands side above before t after) : p.nextSibling t.label = .ok after.head? := by
  rw [Pair.nextSibling, (h.between hs).nextSibling_eq]
  apply h.follow_map hn
  intro u hu
  exact hs.mem_walk u
    (List.mem_append_right _ (List.mem_cons_of_mem _ (List.mem_of_mem_head? hu)))

theorem prev_eq (h : p.Indexes nodes lhs rhs) (hn : nodes.Coherent)
    (hs : p.Stands side above before t after) :
    p.prev t.label = .ok (before.getLast? <|> above) := by
  have hprev : t.label.prev = (before.getLast? <|> above).map (·.label.node.key) := by
    rw [(h.between hs).prev_eq]
    cases before.getLast? <;> rfl
  rw [Pair.prev, hprev]
  apply h.follow_map hn
  intro u hu
  cases hlast : before.getLast? with
  | none =>
    rw [hlast] at hu
    exact hs.above_mem u hu
  | some s =>
    rw [hlast] at hu
    obtain rfl := Option.some.inj hu
    exact hs.mem_walk s (List.mem_append_left _ (List.mem_of_getLast? hlast))

end Indexes

end Pair

end TwinForest
