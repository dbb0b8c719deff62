import Mathlib.Data.List.Forall2
import Std.Data.HashMap.Lemmas
import TwinForest.Proofs.Indexing

/-!
# Content classes are classes of equal content

Two nodes of an indexed pair have one class exactly when their content is equal, on whichever sides
they are. The classes are looked up in a table by the classes of the children, so equal classes of
lists come down to equal classes of their children. What makes this work is that no two keys of the
table ever have the same class, and that a key never loses its class.
-/

namespace TwinForest

/-! ## Equal content -/

/-- Whether two nodes have equal content, when the proposition tells this of what lies below them. -/
def Form.SameContent (below : Prop) : Form → Form → Prop
  | list opening closing _, list opening' closing' _ =>
    opening.content = opening'.content ∧ closing.content = closing'.content ∧ below
  | atom a, atom a' => a.normalizedContent = a'.normalizedContent
  | _, _ => False

def Forest.SameContent : Forest Node → Forest Node → Prop
  | nil, nil => True
  | cons n children rest, cons n' children' rest' =>
    n.form.SameContent (children.SameContent children') n'.form ∧ rest.SameContent rest'
  | _, _ => False

/-- Trees with equal content: atoms with equal normalised texts, or lists with equal delimiters and
children of equal content. -/
def Tree.SameContent (s t : Tree Node) : Prop :=
  s.label.form.SameContent (s.children.SameContent t.children) t.label.form

instance Form.decidableSameContent (below : Prop) [Decidable below] :
    (f g : Form) → Decidable (f.SameContent below g)
  | list .., list .. => inferInstanceAs (Decidable (_ ∧ _ ∧ _))
  | atom _, atom _ => inferInstanceAs (Decidable (_ = _))
  | list .., atom _ => isFalse id
  | atom _, list .. => isFalse id

instance Forest.decidableSameContent : (f g : Forest Node) → Decidable (f.SameContent g)
  | nil, nil => isTrue trivial
  | cons _ children rest, cons _ children' rest' =>
    have := decidableSameContent children children'
    have := decidableSameContent rest rest'
    inferInstanceAs (Decidable (_ ∧ _))
  | nil, cons .. => isFalse id
  | cons .., nil => isFalse id

instance (s t : Tree Node) : Decidable (s.SameContent t) :=
  inferInstanceAs (Decidable (Form.SameContent _ _ _))

theorem Forest.sameContent_iff_forall₂ (f g : Forest Node) :
    f.SameContent g ↔ List.Forall₂ Tree.SameContent f.trees g.trees := by
  induction f generalizing g with
  | nil => cases g <;> simp [SameContent, trees]
  | cons n children rest _ ih => cases g <;> simp [SameContent, trees, Tree.SameContent, ih]

def Nodes.SameContent (nodes : Nodes) (k l : Key) : Prop :=
  ∃ s t, nodes.get? k = some s ∧ nodes.get? l = some t ∧ s.SameContent t

instance (nodes : Nodes) (k l : Key) : Decidable (nodes.SameContent k l) :=
  match hk : nodes.get? k, hl : nodes.get? l with
  | some s, some t => decidable_of_iff (s.SameContent t) (by simp [Nodes.SameContent, hk, hl])
  | none, _ => isFalse (by simp [Nodes.SameContent, hk])
  | some _, none => isFalse (by simp [Nodes.SameContent, hl])

theorem ContentKey.of_eq_of_iff (ids ids' : List ContentId) (f g : Form) :
    ContentKey.of ids f = ContentKey.of ids' g ↔ f.SameContent (ids = ids') g := by
  cases f <;> cases g <;> simp [ContentKey.of, Form.SameContent]

/-! ## Tables of classes -/

namespace ContentTable

variable {table table' : ContentTable}

structure Valid (table : ContentTable) : Prop where
  one_le : ∀ {key : ContentKey} {id : ContentId}, table[key]? = some id → 1 ≤ id
  le_size : ∀ {key : ContentKey} {id : ContentId}, table[key]? = some id → id ≤ table.size
  injective : ∀ {key key' : ContentKey} {id : ContentId},
    table[key]? = some id → table[key']? = some id → key = key'

def Grows (table table' : ContentTable) : Prop :=
  ∀ (key : ContentKey) (id : ContentId), table[key]? = some id → table'[key]? = some id

theorem Grows.refl (table : ContentTable) : table.Grows table :=
  fun _ _ hk => hk

theorem Grows.trans {table'' : ContentTable} (h : table.Grows table') (h' : table'.Grows table'') :
    table.Grows table'' :=
  fun key id hk => h' key id (h key id hk)

theorem valid_empty : Valid ∅ where
  one_le h := by simp at h
  le_size h := by simp at h
  injective h := by simp at h

/-- A look-up gives the class of the key and numbers a new one differently from all others. -/
theorem Valid.intern (h : table.Valid) (key : ContentKey) :
    (table.intern key).2.Valid ∧ table.Grows (table.intern key).2 ∧
      (table.intern key).2[key]? = some (table.intern key).1 := by
  unfold ContentTable.intern
  split
  · rename_i id hid
    exact ⟨h, .refl table, hid⟩
  · rename_i hnone
    have hnew : key ∉ table := by simpa using hnone
    have hsize : (table.insert key (table.size + 1)).size = table.size + 1 := by
      rw [Std.HashMap.size_insert, if_neg hnew]
    have hget : ∀ {k i}, (table.insert key (table.size + 1))[k]? = some i →
        (key = k ∧ i = table.size + 1) ∨ (key ≠ k ∧ table[k]? = some i) := by
      intro k i hk
      rw [Std.HashMap.getElem?_insert] at hk
      by_cases hkey : key = k <;> simp_all
    refine ⟨?_, ?_, by simp⟩
    · refine ⟨fun hk => ?_, fun hk => ?_, fun hk hk' => ?_⟩
      · rcases hget hk with ⟨-, rfl⟩ | ⟨-, hk⟩
        · exact Nat.le_add_left 1 _
        · exact h.one_le hk
      · rw [hsize]
        rcases hget hk with ⟨-, rfl⟩ | ⟨-, hk⟩
        · exact le_rfl
        · exact (h.le_size hk).trans (Nat.le_succ _)
      · -- The new class is greater than all that are in the table.
        rcases hget hk with ⟨rfl, hi⟩ | ⟨-, hk⟩ <;> rcases hget hk' with ⟨rfl, hi'⟩ | ⟨-, hk'⟩
        · rfl
        · exact absurd (hi ▸ h.le_size hk') (Nat.not_succ_le_self _)
        · exact absurd (hi' ▸ h.le_size hk) (Nat.not_succ_le_self _)
        · exact h.injective hk hk'
    · intro k i hk
      have hne : key ≠ k := by
        rintro rfl
        simp [hnone] at hk
      simpa [Std.HashMap.getElem?_insert, hne] using hk

end ContentTable

/-! ## Filed nodes -/

def Tree.contentKey (t : Tree Classified) : ContentKey :=
  .of (t.children.roots.map Classified.contentId) t.label.node.form

namespace Classified

variable {table table' : ContentTable} {f g : Forest Classified}

/-- Every node has the class that the table has for its content. -/
def Filed (table : ContentTable) (f : Forest Classified) : Prop :=
  ∀ t ∈ f.subtrees, table[t.contentKey]? = some t.label.contentId

theorem Filed.mono (h : Filed table f) (ht : table.Grows table') : Filed table' f :=
  fun t hf => ht _ _ (h t hf)

theorem filed_cons {n : Classified} {children rest : Forest Classified} :
    Filed table (.cons n children rest) ↔
      table[Tree.contentKey ⟨n, children⟩]? = some n.contentId ∧ Filed table children ∧
        Filed table rest := by
  simp [Filed, Forest.subtrees, or_imp, forall_and]

/-- The pass files all nodes, and keeps the classes that are there. -/
theorem filed_classify (h : table.Valid) (f : Forest Placed) :
    (classify table f).2.Valid ∧ table.Grows (classify table f).2 ∧
      Filed (classify table f).2 (classify table f).1 := by
  induction f generalizing table with
  | nil => exact ⟨h, .refl table, by simp [Filed, classify, Forest.subtrees]⟩
  | cons n children rest ihc ihr =>
    let below := classify table children
    let key := ContentKey.of (below.1.roots.map contentId) n.node.form
    let own := below.2.intern key
    obtain ⟨hvalid, hgrows, hfiled⟩ := ihc h
    obtain ⟨hvalid', hgrows', hown⟩ := hvalid.intern key
    obtain ⟨hvalid'', hgrows'', hfiled'⟩ := ihr hvalid'
    refine ⟨hvalid'', (hgrows.trans hgrows').trans hgrows'', filed_cons.mpr ⟨?_, ?_, hfiled'⟩⟩
    · exact hgrows'' _ _ hown
    · exact hfiled.mono (hgrows'.trans hgrows'')

/-- Filed forests have the same classes at their roots when their content is equal. -/
theorem Filed.roots_eq_iff (ht : table.Valid) (hf : Filed table f) (hg : Filed table g) :
    f.roots.map contentId = g.roots.map contentId ↔
      (f.map (·.node)).SameContent (g.map (·.node)) := by
  induction f generalizing g with
  | nil => cases g <;> simp [Forest.roots, Forest.map, Forest.SameContent]
  | cons n children rest ihc ihr =>
    cases g with
    | nil => simp [Forest.roots, Forest.map, Forest.SameContent]
    | cons n' children' rest' =>
      obtain ⟨hn, hc, hr⟩ := filed_cons.mp hf
      obtain ⟨hn', hc', hr'⟩ := filed_cons.mp hg
      have hids : n.contentId = n'.contentId ↔
          n.node.form.SameContent ((children.map (·.node)).SameContent (children'.map (·.node)))
            n'.node.form := by
        rw [← ihc hc hc', ← ContentKey.of_eq_of_iff]
        constructor
        · intro h
          exact ht.injective hn (h ▸ hn')
        · intro h
          exact Option.some.inj (hn.symm.trans ((congrArg _ h).trans hn'))
      simp only [Forest.roots, List.map_cons, List.cons.injEq, Forest.map, Forest.SameContent, hids,
        ihr hr hr']

/-- Filed nodes have one class when their content is equal. -/
theorem Filed.contentId_eq_iff (htable : table.Valid) (hf : Filed table f) {s t : Tree Classified}
    (hs : s ∈ f.subtrees) (ht : t ∈ f.subtrees) :
    s.label.contentId = t.label.contentId ↔ (s.map (·.node)).SameContent (t.map (·.node)) := by
  -- A tree is a forest of one tree.
  have hone : ∀ u ∈ f.subtrees, Filed table (.cons u.label u.children .nil) := fun u hu =>
    filed_cons.mpr ⟨hf u hu, fun v hv => hf v (Forest.mem_subtrees_trans hu hv),
      by simp [Filed, Forest.subtrees]⟩
  have h := Filed.roots_eq_iff htable (hone s hs) (hone t ht)
  simpa [Forest.roots, Forest.map, Forest.SameContent, Tree.SameContent, Tree.map] using h

end Classified

/-! ## Classes of an indexed pair -/

namespace Pair

variable {nodes : Nodes} {p : Pair} {lhs rhs : List (Tree Node)} {s t : Tree Linked}

theorem mem_subtrees_toClassified (ht : t ∈ p.all.subtrees) :
    t.map (·.toClassified) ∈ (p.all.map (·.toClassified)).subtrees := by
  rw [Forest.subtrees_map]
  exact List.mem_map_of_mem ht

theorem Indexes.filed (h : p.Indexes nodes lhs rhs) :
    ∃ table : ContentTable, table.Valid ∧
      Classified.Filed table (p.all.map (·.toClassified)) := by
  obtain ⟨hvalid, -, hfiled⟩ :=
    Classified.filed_classify ContentTable.valid_empty (p.all.map (·.toPlaced))
  exact ⟨_, hvalid, h.classified ▸ hfiled⟩

theorem Indexes.contentId_eq_iff (h : p.Indexes nodes lhs rhs) (hs : s ∈ p.all.subtrees)
    (ht : t ∈ p.all.subtrees) :
    s.label.contentId = t.label.contentId ↔ s.built.SameContent t.built := by
  obtain ⟨table, hvalid, hfiled⟩ := h.filed
  have hiff := hfiled.contentId_eq_iff hvalid (mem_subtrees_toClassified hs)
    (mem_subtrees_toClassified ht)
  simpa [Tree.built, Tree.map, Function.comp_def] using hiff

theorem Indexes.one_le_contentId (h : p.Indexes nodes lhs rhs) (ht : t ∈ p.all.subtrees) :
    1 ≤ t.label.contentId := by
  obtain ⟨table, hvalid, hfiled⟩ := h.filed
  exact hvalid.one_le (hfiled _ (mem_subtrees_toClassified ht))

/-- The contents of two nodes in the store are equal exactly when their classes are. -/
theorem Indexes.sameContent_iff (h : p.Indexes nodes lhs rhs) (hn : nodes.Coherent)
    (hs : s ∈ p.all.subtrees) (ht : t ∈ p.all.subtrees) :
    nodes.SameContent s.label.node.key t.label.node.key ↔
      s.label.contentId = t.label.contentId := by
  have hgets : nodes.get? s.label.node.key = some s.built := h.stores_built hn hs
  have hgett : nodes.get? t.label.node.key = some t.built := h.stores_built hn ht
  simp [Nodes.SameContent, hgets, hgett, h.contentId_eq_iff hs ht]

/-- Two nodes that the roots reach, on whichever sides, have the same class exactly when their
content is equal. Classes are counted from one. -/
theorem contentId_eq_iff_sameContent {b : Builder} (hb : b.Reachable) {roots roots' : List Key}
    (hp : b.nodes.index roots roots' = .ok p) {k l : Key}
    (hk : b.nodes.Reaches (roots ++ roots') k) (hl : b.nodes.Reaches (roots ++ roots') l) :
    ∃ s t, p.node k = .ok s ∧ p.node l = .ok t ∧ 1 ≤ s.label.contentId ∧
      (s.label.contentId = t.label.contentId ↔ b.nodes.SameContent k l) := by
  have hn := hb.sound.coherent
  obtain ⟨lhs, rhs, rfl, rfl, h⟩ := hn.indexes hp
  obtain ⟨s, hs, hks, hgets⟩ := h.node_of_reaches hn hk
  obtain ⟨t, ht, hlt, hgett⟩ := h.node_of_reaches hn hl
  refine ⟨s, t, hks, hlt, h.one_le_contentId hs, (h.contentId_eq_iff hs ht).trans ?_⟩
  simp [Nodes.SameContent, hgets, hgett]

/-- Lists of two atoms on both sides. The atoms on the right are comments, one of them over two
lines. -/
theorem contentId_eq_across_sides :
    ∃ p s t,
      ((Builder.empty.buildAll [.list ⟨[], "("⟩
          [.atom ⟨[], "x", .normal⟩, .atom ⟨[], "y\nz", .string⟩] ⟨[], ")"⟩]).2.buildAll
        [.list ⟨[⟨3, 0, 1⟩], "("⟩
          [.atom ⟨[], "x\r", .comment⟩, .atom ⟨[], "y\r  z\n", .comment⟩]
          ⟨[], ")"⟩]).2.nodes.index [2] [5] = .ok p ∧
      p.node 2 = .ok s ∧ p.node 5 = .ok t ∧ 1 ≤ s.label.contentId ∧
      s.label.contentId = t.label.contentId := by
  obtain ⟨lhs, rhs, b, b', p, hbefore, hafter, hp⟩ :=
    Builder.Reachable.empty.sound.exists_index
      [.list ⟨[], "("⟩ [.atom ⟨[], "x", .normal⟩, .atom ⟨[], "y\nz", .string⟩] ⟨[], ")"⟩]
      [.list ⟨[⟨3, 0, 1⟩], "("⟩
        [.atom ⟨[], "x\r", .comment⟩, .atom ⟨[], "y\r  z\n", .comment⟩] ⟨[], ")"⟩]
  obtain rfl : [2] = lhs := Except.ok.inj (congrArg Prod.fst hbefore)
  obtain rfl := congrArg Prod.snd hbefore
  obtain rfl : [5] = rhs := Except.ok.inj (congrArg Prod.fst hafter)
  obtain rfl := congrArg Prod.snd hafter
  obtain ⟨s, t, hs, ht, hone, hiff⟩ := contentId_eq_iff_sameContent
    (.buildAll _ (.buildAll _ .empty)) hp (.root (by simp : 2 ∈ [2] ++ [5]))
    (.root (by simp : 5 ∈ [2] ++ [5]))
  exact ⟨p, s, t, hp, hs, ht, hone, hiff.mpr ⟨_, _, rfl, rfl, by decide⟩⟩

end Pair

end TwinForest
