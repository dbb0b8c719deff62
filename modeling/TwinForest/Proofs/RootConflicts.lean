import TwinForest.Proofs.NormalForest
import TwinForest.Proofs.Rows

/-!
# Roots that conflict

While the roots are visited, all that is looked at is whether a key was met before. In a store where
every node has one parent at most this finds exactly the roots that do not go together: trees that
meet are nested, so a node is met twice only when a root is given twice or lies below another root.
Roots that do not conflict can always be indexed, also when they are children of a list that no root
reaches, and then they have no parent.
-/

namespace TwinForest

/-- In a forest without repeated keys, no root lies below a root. -/
theorem Forest.notMem_roots_of_mem_children {ts : List (Tree Node)} {t : Tree Node} {k : Key}
    (hnodup : (ofTrees ts).keys.Nodup) (ht : t ∈ ts) (hk : k ∈ t.children.keys) :
    k ∉ ts.map Tree.key := by
  induction ts with
  | nil => cases ht
  | cons u ts ih =>
    simp only [ofTrees, keys_cons, List.nodup_cons, List.mem_append, not_or,
      List.nodup_append] at hnodup
    obtain ⟨⟨hchildren, hrest⟩, -, hnodup, hdisjoint⟩ := hnodup
    have hroots : ∀ l ∈ ts.map Tree.key, l ∈ (ofTrees ts).keys := fun l hl =>
      (map_key_sublist_keys ts).subset hl
    rw [List.map_cons, List.mem_cons, not_or]
    rcases List.mem_cons.mp ht with rfl | ht
    · constructor
      · rintro rfl
        exact hchildren hk
      · intro hroot
        exact hdisjoint k hk k (hroots k hroot) rfl
    · have hbelow : k ∈ (ofTrees ts).keys := by
        obtain ⟨s, hs, rfl⟩ := mem_keys.mp hk
        apply mem_keys.mpr
        exact ⟨s, mem_subtrees_trans (mem_subtrees_of_mem_trees (by simpa using ht)) hs, rfl⟩
      constructor
      · rintro rfl
        exact hrest hbelow
      · exact ih hnodup ht

namespace Nodes

variable {nodes : Nodes} {roots keys : List Key} {ts : List (Tree Node)} {t : Tree Node}
variable {k l x : Key}

/-! ## Above and below -/

theorem Reaches.below_of_child (h : nodes.Reaches [k] x) (hx : nodes.get? x = some t)
    (hl : l ∈ t.childKeys) : nodes.Below k l := by
  induction h generalizing t l with
  | root hmem =>
    obtain rfl := List.mem_singleton.mp hmem
    exact ⟨t, hx, .root hl⟩
  | child _ hget hmem ih =>
    obtain ⟨u, hu, hreach⟩ := ih hget hmem
    exact ⟨u, hu, hreach.child hx hl⟩

/-- What a key leads to is itself and what lies below it. -/
theorem reaches_singleton_iff : nodes.Reaches [k] l ↔ l = k ∨ nodes.Below k l := by
  constructor
  · intro h
    cases h with
    | root hmem => exact .inl (List.mem_singleton.mp hmem)
    | child hparent hget hmem => exact .inr (hparent.below_of_child hget hmem)
  · rintro (rfl | ⟨t, hget, hreach⟩)
    · exact .root List.mem_cons_self
    · obtain ⟨c, hc, hreach⟩ := reaches_iff_exists_mem.mp hreach
      exact (Reaches.child (.root List.mem_cons_self) hget hc).trans hreach

theorem not_below_of_leaf (hget : nodes.get? k = some t) (hleaf : t.childKeys = []) :
    ¬ nodes.Below k l := by
  rintro ⟨u, hu, hreach⟩
  obtain rfl := Option.some.inj (hget.symm.trans hu)
  obtain ⟨c, hc, -⟩ := reaches_iff_exists_mem.mp hreach
  rw [hleaf] at hc
  cases hc

/-! ## Conflicts -/

/-- Roots that do not go together: one of them is not in the store, one is given twice, or one lies
below another. -/
def Conflict (nodes : Nodes) (roots : List Key) : Prop :=
  (∃ r ∈ roots, nodes.size ≤ r) ∨ ¬ roots.Nodup ∨ ∃ r ∈ roots, ∃ s ∈ roots, nodes.Below r s

theorem not_conflict_iff : ¬ nodes.Conflict roots ↔
    (∀ r ∈ roots, r < nodes.size) ∧ roots.Nodup ∧
      ∀ r ∈ roots, ∀ s ∈ roots, ¬ nodes.Below r s := by
  simp [Conflict, not_or]

/-- A list that has one of the roots as its child is reached only if the roots conflict. -/
theorem not_reaches_of_child (h : ¬ nodes.Conflict roots) (hl : l ∈ roots)
    (hget : nodes.get? k = some t) (hchild : l ∈ t.childKeys) : ¬ nodes.Reaches roots k := by
  obtain ⟨-, -, hapart⟩ := not_conflict_iff.mp h
  intro hreach
  obtain ⟨r, hr, hreach⟩ := reaches_iff_exists_mem.mp hreach
  exact hapart r hr l hl (hreach.below_of_child hget hchild)

namespace Coherent

/-- The store has a tree for every key in range. -/
theorem exists_trees (hn : nodes.Coherent) (hkeys : ∀ k ∈ keys, k < nodes.size) :
    ∃ ts : List (Tree Node), keys = ts.map Tree.key ∧ ∀ t ∈ ts, nodes.Stores t := by
  induction keys with
  | nil => exact ⟨[], rfl, by simp⟩
  | cons k keys ih =>
    obtain ⟨hk, hkeys⟩ := List.forall_mem_cons.mp hkeys
    obtain ⟨ts, rfl, hts⟩ := ih hkeys
    have hget : nodes.get? k = some (nodes.items[k]) := Array.getElem?_eq_getElem hk
    refine ⟨nodes.items[k] :: ts, ?_, ?_⟩
    · rw [List.map_cons, hn.key_of_get? hget]
    · exact List.forall_mem_cons.mpr ⟨hn.stores_of_get? hget, hts⟩

theorem not_conflict_of_nodup (hn : nodes.Coherent) (hts : ∀ t ∈ ts, nodes.Stores t)
    (hnodup : (Forest.ofTrees ts).keys.Nodup) : ¬ nodes.Conflict (ts.map Tree.key) := by
  apply not_conflict_iff.mpr
  refine ⟨?_, hnodup.sublist (Forest.map_key_sublist_keys ts), ?_⟩
  · intro r hr
    obtain ⟨t, ht, rfl⟩ := List.mem_map.mp hr
    exact Store.lt_size_of_get? (hts t ht)
  · intro r hr s hs hbelow
    obtain ⟨t, ht, rfl⟩ := List.mem_map.mp hr
    have hmem := (hn.below_iff (hts t ht)).mp hbelow
    exact Forest.notMem_roots_of_mem_children hnodup ht hmem hs

end Coherent

end Nodes

namespace Builder.Normalizing

variable {b : Builder} {ts : List (Tree Node)}

/-- With one parent for each node, roots that do not conflict lead to every node once. -/
theorem nodup_of_not_conflict (hb : b.Normalizing) (hts : ∀ t ∈ ts, b.nodes.Stores t)
    (h : ¬ b.nodes.Conflict (ts.map Tree.key)) : (Forest.ofTrees ts).keys.Nodup := by
  obtain ⟨-, hnodup, hapart⟩ := Nodes.not_conflict_iff.mp h
  rw [List.Nodup, List.pairwise_map] at hnodup
  have hkey : ∀ t ∈ ts, t.key ∈ ts.map Tree.key := fun t ht => List.mem_map_of_mem ht
  apply hb.sound.coherent.nodup_keys hb.once hb.descending
  · simpa using hts
  · rw [Forest.trees_ofTrees]
    apply hnodup.imp_of_mem
    intro s t hs ht hne
    rw [Nodes.reaches_singleton_iff, Nodes.reaches_singleton_iff, not_or, not_or]
    exact ⟨⟨hne.symm, hapart _ (hkey s hs) _ (hkey t ht)⟩,
      ⟨hne, hapart _ (hkey t ht) _ (hkey s hs)⟩⟩

/-- Roots can be indexed exactly when they do not conflict. -/
theorem exists_index_iff (hb : b.Normalizing) (roots roots' : List Key) :
    (∃ p, b.nodes.index roots roots' = .ok p) ↔ ¬ b.nodes.Conflict (roots ++ roots') := by
  have hn := hb.sound.coherent
  constructor
  · rintro ⟨p, hp⟩
    obtain ⟨lhs, rhs, rfl, rfl, h⟩ := hn.indexes hp
    rw [← List.map_append]
    exact hn.not_conflict_of_nodup h.stores h.nodup
  · intro hconflict
    obtain ⟨hrange, -, -⟩ := Nodes.not_conflict_iff.mp hconflict
    obtain ⟨hl, hr⟩ := List.forall_mem_append.mp hrange
    obtain ⟨lhs, rfl, hls⟩ := hn.exists_trees hl
    obtain ⟨rhs, rfl, hrs⟩ := hn.exists_trees hr
    have hstores : ∀ t ∈ lhs ++ rhs, b.nodes.Stores t := List.forall_mem_append.mpr ⟨hls, hrs⟩
    rw [← List.map_append] at hconflict
    exact hn.exists_index hstores (hb.nodup_of_not_conflict hstores hconflict)

end Builder.Normalizing

namespace Pair

/-- A root has no parent in the pair. -/
theorem Indexes.parent_root {p : Pair} {nodes : Nodes} {lhs rhs : List (Tree Node)} {r : Key}
    (h : p.Indexes nodes lhs rhs) (hn : nodes.Coherent)
    (hr : r ∈ lhs.map Tree.key ++ rhs.map Tree.key) :
    ∃ t, p.node r = .ok t ∧ p.parent t.label = .ok none := by
  have hroot : ∃ side, ∃ t ∈ p.roots side, t.label.node.key = r := by
    rw [Forest.map_key_of_built h.built_lhs, Forest.map_key_of_built h.built_rhs] at hr
    rcases List.mem_append.mp hr with hr | hr
    · exact ⟨.lhs, List.mem_map.mp hr⟩
    · exact ⟨.rhs, List.mem_map.mp hr⟩
  obtain ⟨side, t, ht, rfl⟩ := hroot
  obtain ⟨before, after, hs⟩ := exists_stands_of_mem_roots ht
  exact ⟨t, h.node_eq hn (mem_walk_of_mem_roots ht), h.parent_eq hn hs⟩

/-- Indexing faults exactly when the roots of both sides conflict. In all other cases it gives a pair.
There a root has no parent, even if it is the child of a list: such a list is then not reached. -/
theorem index_faults_iff_conflict {b : Builder} (hb : b.Reachable) (roots roots' : List Key) :
    ((∃ fault, b.nodes.index roots roots' = .error fault) ↔
      b.nodes.Conflict (roots ++ roots')) ∧
    (¬ b.nodes.Conflict (roots ++ roots') →
      ∃ p, b.nodes.index roots roots' = .ok p ∧ ∀ r ∈ roots ++ roots',
        (∃ t, p.node r = .ok t ∧ p.parent t.label = .ok none) ∧
        ∀ k t, b.nodes.get? k = some t → r ∈ t.childKeys →
          ¬ b.nodes.Reaches (roots ++ roots') k) := by
  have hindex := hb.normalizing.exists_index_iff roots roots'
  constructor
  · cases hresult : b.nodes.index roots roots' with
    | error fault =>
      have hconflict : b.nodes.Conflict (roots ++ roots') := by
        by_contra hfree
        obtain ⟨p, hp⟩ := hindex.mpr hfree
        rw [hresult] at hp
        cases hp
      simpa using hconflict
    | ok p => simpa using hindex.mp ⟨p, hresult⟩
  · intro hfree
    obtain ⟨p, hp⟩ := hindex.mpr hfree
    obtain ⟨lhs, rhs, rfl, rfl, h⟩ := hb.sound.coherent.indexes hp
    refine ⟨p, hp, fun r hr => ⟨h.parent_root hb.sound.coherent hr, fun k t hget hchild => ?_⟩⟩
    exact Nodes.not_reaches_of_child hfree hr hget hchild

/-- An atom in a list, and another atom. The two atoms can be indexed, since the list is not reached.
The list cannot be indexed together with its child, nor the child twice, nor a key beyond the store. -/
theorem index_child_of_unreached :
    ∃ b : Builder,
      b = (((Builder.empty.atom ⟨[], "x", .normal⟩).2.list ⟨[], "("⟩ ⟨[], ")"⟩ [0]).2.atom
        ⟨[], "y", .normal⟩).2 ∧
      (∃ t, b.nodes.get? 1 = some t ∧ 0 ∈ t.childKeys) ∧
      (∃ p t, b.nodes.index [0] [2] = .ok p ∧ p.node 0 = .ok t ∧ p.parent t.label = .ok none ∧
        ¬ b.nodes.Reaches ([0] ++ [2]) 1) ∧
      (∃ fault, b.nodes.index [2, 1] [0] = .error fault) ∧
      (∃ fault, b.nodes.index [0, 2] [0] = .error fault) ∧
      ∃ fault, b.nodes.index [0] [3] = .error fault := by
  have hb : Builder.Reachable (((Builder.empty.atom ⟨[], "x", .normal⟩).2.list ⟨[], "("⟩ ⟨[], ")"⟩
      [0]).2.atom ⟨[], "y", .normal⟩).2 := .atom _ (.list _ _ _ (.atom _ .empty))
  refine ⟨_, rfl, ⟨_, rfl, by decide⟩, ?_, ?_, ?_, ?_⟩
  · obtain ⟨p, hp, hroots⟩ := (index_faults_iff_conflict hb [0] [2]).2 <|
      Nodes.not_conflict_iff.mpr ⟨by decide, by decide, fun r hr s _ => by
        simp only [List.cons_append, List.nil_append, List.mem_cons, List.not_mem_nil,
          or_false] at hr
        rcases hr with rfl | rfl
        · exact Nodes.not_below_of_leaf rfl rfl
        · exact Nodes.not_below_of_leaf rfl rfl⟩
    obtain ⟨⟨t, ht, hparent⟩, hlists⟩ := hroots 0 (by simp)
    exact ⟨p, t, hp, ht, hparent, hlists 1 _ rfl (by decide)⟩
  · apply (index_faults_iff_conflict hb [2, 1] [0]).1.mpr
    exact .inr (.inr ⟨1, by simp, 0, by simp, _, rfl, .root (by decide)⟩)
  · exact (index_faults_iff_conflict hb [0, 2] [0]).1.mpr (.inr (.inl (by decide)))
  · exact (index_faults_iff_conflict hb [0] [3]).1.mpr (.inl ⟨3, by simp, by decide⟩)

end Pair

end TwinForest
