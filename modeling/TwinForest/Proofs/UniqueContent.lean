import TwinForest.Proofs.ContentClasses

/-!
# Unique content

A node of an indexed pair is marked exactly when no other node, on either side and at any depth, has
equal content. The tally counts every node of both sides once, so a class with a count of one has no
second node. All classes are counted before any is looked up.
-/

namespace TwinForest

/-- Among items with different keys, a value that occurs once belongs to one of them only. -/
theorem count_map_eq_one_iff {α κ γ : Type} [DecidableEq γ] {l : List α} {key : α → κ}
    (hkeys : (l.map key).Nodup) (f : α → γ) {a : α} (ha : a ∈ l) :
    (l.map f).count (f a) = 1 ↔ ∀ b ∈ l, key b ≠ key a → f b ≠ f a := by
  obtain ⟨before, after, rfl⟩ := List.append_of_mem ha
  simp only [List.map_append, List.map_cons, List.nodup_append, List.nodup_cons, List.mem_cons,
    List.mem_map] at hkeys
  have hcount : ((before ++ a :: after).map f).count (f a) =
      (before.map f).count (f a) + (after.map f).count (f a) + 1 := by
    simp only [List.map_append, List.map_cons, List.count_append, List.count_cons_self]
    omega
  have hone : ((before ++ a :: after).map f).count (f a) = 1 ↔
      f a ∉ before.map f ∧ f a ∉ after.map f := by
    rw [hcount, ← List.count_eq_zero, ← List.count_eq_zero]
    omega
  rw [hone]
  simp only [List.mem_append, List.mem_cons, List.mem_map]
  grind

namespace Pair

variable {nodes : Nodes} {p : Pair} {lhs rhs : List (Tree Node)} {t : Tree Linked}

/-- The tally of both sides has every node once. -/
theorem counts_contentId (p : Pair) : Tally.Counts (Tally.count ∅ (p.all.map (·.toClassified)))
    (p.all.subtrees.map (·.label.contentId)) := by
  have hcounts := Tally.Counts.empty.count (p.all.map (·.toClassified))
  rw [List.append_nil, Forest.preorder_map, Forest.preorder_eq_map_subtrees, List.map_map,
    List.map_map] at hcounts
  exact hcounts

/-- The mark of a node tells whether its class occurs once among all nodes. -/
theorem Indexes.unique_eq_count (h : p.Indexes nodes lhs rhs) (ht : t ∈ p.all.subtrees) :
    t.label.unique = ((p.all.subtrees.map (·.label.contentId)).count t.label.contentId == 1) := by
  have hmem : t.label.toMarked ∈ (p.all.map (·.toMarked)).preorder := by
    rw [Forest.preorder_map, Forest.preorder_eq_map_subtrees, List.map_map]
    exact List.mem_map_of_mem ht
  obtain ⟨count, hcount, hunique⟩ := Marked.unique_of_mark h.marked _ hmem
  rw [p.counts_contentId, if_pos (List.mem_map_of_mem ht)] at hcount
  rw [hunique, Option.some.inj hcount]

/-- A node is marked when all nodes with other keys have other classes. -/
theorem Indexes.unique_iff (h : p.Indexes nodes lhs rhs) (ht : t ∈ p.all.subtrees) :
    t.label.unique = true ↔ ∀ u ∈ p.all.subtrees, u.label.node.key ≠ t.label.node.key →
      u.label.contentId ≠ t.label.contentId := by
  rw [h.unique_eq_count ht, beq_iff_eq]
  exact count_map_eq_one_iff h.nodup_keys (·.label.contentId) ht

theorem Indexes.shared_iff (h : p.Indexes nodes lhs rhs) (ht : t ∈ p.all.subtrees) :
    t.label.unique = false ↔ ∃ u ∈ p.all.subtrees, u.label.node.key ≠ t.label.node.key ∧
      u.label.contentId = t.label.contentId := by
  rw [← Bool.not_eq_true, h.unique_iff ht]
  grind

/-- A node that the roots reach is marked exactly when no other node that they reach, on either side,
has equal content. Whatever the roots are, no class is missing from the tally. -/
theorem unique_iff_no_other_sameContent {b : Builder} (hb : b.Reachable)
    (roots roots' : List Key) :
    (∀ content key, b.nodes.index roots roots' ≠ .error (.notCounted content key)) ∧
      ∀ p, b.nodes.index roots roots' = .ok p → ∀ k, b.nodes.Reaches (roots ++ roots') k →
        ∃ t, p.node k = .ok t ∧
          (t.label.unique = true ↔ ∀ l, b.nodes.Reaches (roots ++ roots') l → l ≠ k →
            ¬ b.nodes.SameContent k l) := by
  have hn := hb.sound.coherent
  constructor
  · intro content key h
    rcases Nodes.index_error h with ⟨k, hk⟩ | ⟨k, hk⟩
    · cases hk
    · cases hk
  · intro p hp k hk
    obtain ⟨lhs, rhs, rfl, rfl, h⟩ := hn.indexes hp
    obtain ⟨t, ht, hnode, hget⟩ := h.node_of_reaches hn hk
    obtain ⟨-, rfl⟩ := (h.node_eq_ok_iff hn).mp hnode
    have hsame : ∀ u ∈ p.all.subtrees, b.nodes.SameContent t.label.node.key u.label.node.key ↔
        t.label.contentId = u.label.contentId := by
      intro u hu
      have hget' : b.nodes.get? u.label.node.key = some u.built := h.stores_built hn hu
      simp [Nodes.SameContent, hget, hget', h.contentId_eq_iff ht hu]
    refine ⟨t, hnode, (h.unique_iff ht).trans ?_⟩
    constructor
    · intro hother l hl hne hcontent
      obtain ⟨u, hu, rfl⟩ := (h.reaches_iff hn).mp hl
      exact hother u hu hne ((hsame u hu).mp hcontent).symm
    · intro hother u hu hne hid
      exact hother _ ((h.reaches_iff hn).mpr ⟨u, hu, rfl⟩) hne ((hsame u hu).mpr hid.symm)

/-- An atom that is on both sides, below a list that is on one. -/
theorem unique_above_shared :
    ∃ p s t,
      ((Builder.empty.buildAll [.list ⟨[], "("⟩
          [.atom ⟨[], "x", .normal⟩, .atom ⟨[], "y", .normal⟩] ⟨[], ")"⟩]).2.buildAll
        [.atom ⟨[], "x", .keyword⟩]).2.nodes.index [2] [3] = .ok p ∧
      p.node 0 = .ok s ∧ s.label.unique = false ∧ p.node 2 = .ok t ∧ t.label.unique = true := by
  obtain ⟨lhs, rhs, b, b', p, hbefore, hafter, hp⟩ :=
    Builder.Reachable.empty.sound.exists_index
      [.list ⟨[], "("⟩ [.atom ⟨[], "x", .normal⟩, .atom ⟨[], "y", .normal⟩] ⟨[], ")"⟩]
      [.atom ⟨[], "x", .keyword⟩]
  obtain rfl : [2] = lhs := Except.ok.inj (congrArg Prod.fst hbefore)
  obtain rfl := congrArg Prod.snd hbefore
  obtain rfl : [3] = rhs := Except.ok.inj (congrArg Prod.fst hafter)
  obtain rfl := congrArg Prod.snd hafter
  obtain ⟨-, hmarks⟩ := unique_iff_no_other_sameContent
    (.buildAll [.atom ⟨[], "x", .keyword⟩] (.buildAll [.list ⟨[], "("⟩
      [.atom ⟨[], "x", .normal⟩, .atom ⟨[], "y", .normal⟩] ⟨[], ")"⟩] .empty)) [2] [3]
  obtain ⟨s, hs, hshared⟩ := hmarks p hp 0 (.child (.root (by simp : 2 ∈ [2] ++ [3])) rfl (by decide))
  obtain ⟨t, ht, hunique⟩ := hmarks p hp 2 (.root (by simp))
  refine ⟨p, s, t, hp, hs, ?_, ht, ?_⟩
  · rw [← Bool.not_eq_true, hshared]
    intro hother
    exact hother 3 (.root (by simp)) (by decide) (by decide)
  · rw [hunique]
    intro l _ hne hsame
    have hlt : l < 4 := by
      obtain ⟨_, _, -, hl, -⟩ := hsame
      exact Store.lt_size_of_get? hl
    exact (by decide : ∀ l < 4, l ≠ 2 → ¬ Nodes.SameContent _ 2 l) l hlt hne hsame

end Pair

end TwinForest
