import TwinForest.Proofs.ClassNumbers
import TwinForest.Proofs.Intervals
import TwinForest.Proofs.RootConflicts

/-!
# Shared content goes down

When two nodes have equal content, so have their children, one by one. A child has one parent, so what
lies below one of the two is not what lies below the other, and all that lies below a shared node is
shared. Told upwards, a node with unique content makes everything above it unique. A node is never shared
with what lies below it, since classes go down from a node to its children.
-/

namespace TwinForest

namespace Pair

variable {p : Pair} {b : Builder} {lhs rhs : List (Tree Node)} {t u c : Tree Linked}

namespace Indexes

/-- A child has a link to its parent. -/
theorem parent_of_child {nodes : Nodes} (h : p.Indexes nodes lhs rhs) (ht : t ∈ p.all.subtrees)
    (hc : c ∈ t.children.trees) : c.label.parent = some t.label.node.key := by
  obtain ⟨side, ht⟩ := mem_all_iff.mp ht
  obtain ⟨before, after, hs⟩ := exists_stands_of_mem_children ht hc
  exact (h.between hs).parent_eq

/-- The children of nodes of one class are of the same classes, one by one. -/
theorem contentIds_children (h : p.Indexes b.nodes lhs rhs) (hb : b.Normalizing)
    (ht : t ∈ p.all.subtrees) (hu : u ∈ p.all.subtrees)
    (hid : t.label.contentId = u.label.contentId) :
    t.children.trees.map (·.label.contentId) = u.children.trees.map (·.label.contentId) := by
  obtain ⟨table, hvalid, hfiled⟩ := h.filed
  have hkeys : (t.map (·.toClassified)).contentKey = (u.map (·.toClassified)).contentKey := by
    refine hvalid.injective (hfiled _ (mem_subtrees_toClassified ht)) ?_
    exact (hfiled _ (mem_subtrees_toClassified hu)).trans (congrArg some hid.symm)
  rw [contentKey_toClassified, contentKey_toClassified, ContentKey.of_eq_of_iff] at hkeys
  cases hform : t.label.node.form with
  | list opening closing count =>
    cases hform' : u.label.node.form with
    | list opening' closing' count' =>
      rw [hform, hform'] at hkeys
      exact hkeys.2.2
    | atom a' => simp [hform, hform', Form.SameContent] at hkeys
  | atom a =>
    cases hform' : u.label.node.form with
    | list opening' closing' count' => simp [hform, hform', Form.SameContent] at hkeys
    | atom a' => rw [h.trees_of_atom hb ht hform, h.trees_of_atom hb hu hform']

/-- A child of a shared node is shared: the other node of its parent's class has a child of its own class,
and this is another one, since it has another parent. -/
theorem shared_child (h : p.Indexes b.nodes lhs rhs) (hb : b.Normalizing)
    (ht : t ∈ p.all.subtrees) (hshared : t.label.unique = false) (hc : c ∈ t.children.trees) :
    c.label.unique = false := by
  obtain ⟨u, hu, hne, hid⟩ := (h.shared_iff ht).mp hshared
  have hmem : c.label.contentId ∈ u.children.trees.map (·.label.contentId) := by
    rw [h.contentIds_children hb hu ht hid]
    exact List.mem_map_of_mem hc
  obtain ⟨d, hd, hdc⟩ := List.mem_map.mp hmem
  have hcall := Forest.mem_subtrees_child ht hc
  have hdall := Forest.mem_subtrees_child hu hd
  refine (h.shared_iff hcall).mpr ⟨d, hdall, fun hkey => hne ?_, hdc⟩
  obtain rfl := h.key_inj hdall hcall hkey
  exact Option.some.inj ((h.parent_of_child hu hd).symm.trans (h.parent_of_child ht hc))

/-- All that lies below a shared node is shared. -/
theorem shared_below (h : p.Indexes b.nodes lhs rhs) (hb : b.Normalizing)
    (ht : t ∈ p.all.subtrees) (hshared : t.label.unique = false) (hu : u ∈ t.children.subtrees) :
    u.label.unique = false := by
  have hstep : ∀ s, s ∈ p.all.subtrees ∧ s.label.unique = false → ∀ c ∈ s.children.trees,
      c ∈ p.all.subtrees ∧ c.label.unique = false := fun s ⟨hs, hshared⟩ c hc =>
    ⟨Forest.mem_subtrees_child hs hc, h.shared_child hb hs hshared hc⟩
  exact (Forest.forall_subtrees (hstep t ⟨ht, hshared⟩) hstep u hu).2

/-- What lies below a node is of a smaller class. -/
theorem contentId_lt_of_below (h : p.Indexes b.nodes lhs rhs) (hb : b.Normalizing)
    (ht : t ∈ p.all.subtrees) (hu : u ∈ t.children.subtrees) :
    u.label.contentId < t.label.contentId := by
  have hstep : ∀ s, s ∈ p.all.subtrees ∧ s.label.contentId ≤ t.label.contentId →
      ∀ c ∈ s.children.trees, c ∈ p.all.subtrees ∧ c.label.contentId < t.label.contentId :=
    fun s ⟨hs, hle⟩ c hc =>
      ⟨Forest.mem_subtrees_child hs hc, (h.contentId_lt hb hs hc).trans_le hle⟩
  exact (Forest.forall_subtrees (hstep t ⟨ht, le_rfl⟩)
    (fun s ⟨hs, hlt⟩ => hstep s ⟨hs, hlt.le⟩) u hu).2

end Indexes

/-- Content that is unique below a node that the roots reach makes the node unique, and all that lies
below a shared node is shared. No node has the content of one that lies below it. -/
theorem unique_of_below_unique (hb : b.Reachable) {roots roots' : List Key}
    (hp : b.nodes.index roots roots' = .ok p) {k l : Key}
    (hk : b.nodes.Reaches (roots ++ roots') k) (hl : b.nodes.Below k l) :
    ∃ t u, p.node k = .ok t ∧ p.node l = .ok u ∧
      (u.label.unique = true → t.label.unique = true) ∧
      (t.label.unique = false → u.label.unique = false) ∧ ¬ b.nodes.SameContent k l := by
  have hn := hb.sound.coherent
  have hnormal := hb.normalizing
  obtain ⟨lhs, rhs, rfl, rfl, h⟩ := hn.indexes hp
  obtain ⟨t, ht, rfl⟩ := (h.reaches_iff hn).mp hk
  have hreach := hk.trans (Nodes.reaches_singleton_iff.mpr (.inr hl))
  obtain ⟨u, hu, rfl⟩ := (h.reaches_iff hn).mp hreach
  have hbelow := (h.below_iff hn ht hu).mp hl
  have hshared := fun hshared => h.shared_below hnormal ht hshared hbelow
  refine ⟨t, u, (h.node_eq_ok_iff hn).mpr ⟨ht, rfl⟩, (h.node_eq_ok_iff hn).mpr ⟨hu, rfl⟩, ?_,
    hshared, ?_⟩
  · intro hunique
    by_contra hne
    simp [hshared (Bool.eq_false_iff.mpr hne)] at hunique
  · rw [h.sameContent_iff hn ht hu]
    exact (h.contentId_lt_of_below hnormal ht hbelow).ne'

/-- A list within a list on the left, of which the inner one is on the right too. It is shared, and so is
the atom in it. -/
theorem unique_of_below_unique_nested :
    ∃ p s t u,
      ((Builder.empty.buildAll
          [.list ⟨[], "("⟩ [.list ⟨[], "["⟩ [.atom ⟨[], "x", .normal⟩] ⟨[], "]"⟩,
            .atom ⟨[], "y", .normal⟩] ⟨[], ")"⟩]).2.buildAll
        [.list ⟨[], "["⟩ [.atom ⟨[], "x", .normal⟩] ⟨[], "]"⟩]).2.nodes.index [3] [5] = .ok p ∧
      p.node 3 = .ok s ∧ p.node 1 = .ok t ∧ p.node 0 = .ok u ∧
      (t.label.unique = true → s.label.unique = true) ∧
      t.label.unique = false ∧ u.label.unique = false := by
  obtain ⟨hb, p, hp⟩ := Builder.exists_index_of_buildAll
    [.list ⟨[], "("⟩ [.list ⟨[], "["⟩ [.atom ⟨[], "x", .normal⟩] ⟨[], "]"⟩,
      .atom ⟨[], "y", .normal⟩] ⟨[], ")"⟩]
    [.list ⟨[], "["⟩ [.atom ⟨[], "x", .normal⟩] ⟨[], "]"⟩] [3] [5] rfl rfl
  obtain ⟨s, t, hs, ht, hup, -, -⟩ :=
    unique_of_below_unique hb hp (k := 3) (l := 1) (.root (by simp)) ⟨_, rfl, .root (by decide)⟩
  obtain ⟨t', u, ht', hu, -, hdown, -⟩ :=
    unique_of_below_unique hb hp (k := 1) (l := 0)
      (.child (.root (by simp : 3 ∈ [3] ++ [5])) rfl (by decide)) ⟨_, rfl, .root (by decide)⟩
  obtain rfl := Except.ok.inj (ht.symm.trans ht')
  have hn := hb.sound.coherent
  obtain ⟨lhs, rhs, hl, hr, h⟩ := hn.indexes hp
  obtain ⟨v, hv, hnode, -⟩ := h.node_of_reaches hn (k := 5) (hl ▸ hr ▸ .root (by simp))
  obtain ⟨-, hkey⟩ := (h.node_eq_ok_iff hn).mp hnode
  obtain ⟨hmem, hkey'⟩ := (h.node_eq_ok_iff hn).mp ht
  have hshared : t.label.unique = false := by
    refine (h.shared_iff hmem).mpr ⟨v, hv, ?_, ?_⟩
    · rw [hkey, hkey']
      decide
    · rw [← h.sameContent_iff hn hv hmem, hkey, hkey']
      decide
  exact ⟨p, s, t, u, hp, hs, ht, hu, hup, hshared, hdown hshared⟩

end Pair

end TwinForest
