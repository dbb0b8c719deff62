import TwinForest.Proofs.Descendants
import TwinForest.Proofs.Preorder
import TwinForest.Proofs.Rows

/-!
# Intervals of numbers

The nodes below a node are numbered right after it, without a gap, so their numbers are an interval.
How long it is was known before the node was numbered: it is the count that the builder wrote into a
list while it was built. The numbers of two nodes and one such count tell whether one lies below the
other.
-/

namespace TwinForest

/-- The number of nodes below a node with this form, as it was counted. -/
def Form.descendants : Form → Nat
  | list _ _ count => count
  | atom _ => 0

theorem Form.weight_eq (form : Form) : form.weight = form.descendants + 1 := by
  cases form <;> rfl

/-- What lies in one piece in a list of consecutive numbers is such a list. -/
theorem eq_range'_of_infix {ids : List Nat} {first n : Nat} (h : ids <:+: List.range' first n) :
    ∃ start, ids = List.range' start ids.length := by
  obtain ⟨before, after, heq⟩ := h
  obtain ⟨m, -, hids, -⟩ := List.range'_eq_append_iff.mp heq.symm
  obtain ⟨l, -, -, hids⟩ := List.range'_eq_append_iff.mp hids.symm
  refine ⟨first + l * 1, ?_⟩
  have hlength : ids.length = m - l := by simp [hids]
  rw [hlength]
  exact hids

namespace Pair

variable {p : Pair} {nodes : Nodes} {lhs rhs : List (Tree Node)} {side : Side}
variable {t u : Tree Linked}

theorem subtrees_all (p : Pair) : p.all.subtrees = p.walk .lhs ++ p.walk .rhs := by
  rw [all, Forest.subtrees_append, walk, walk, Forest.walk_eq_subtrees, Forest.walk_eq_subtrees]
  rfl

namespace Indexes

/-- Nodes with the same number are the same. -/
theorem id_inj (h : p.Indexes nodes lhs rhs) (ht : t ∈ p.all.subtrees) (hu : u ∈ p.all.subtrees)
    (hid : t.label.id = u.label.id) : t = u := by
  have hnodup : ((p.all.subtrees).map (·.label.id)).Nodup := by
    rw [subtrees_all, h.ids_all]
    exact List.nodup_range'
  exact List.inj_on_of_nodup_map hnodup ht hu hid

/-- The nodes below a node have the numbers after its own. -/
theorem ids_children (h : p.Indexes nodes lhs rhs) (ht : t ∈ p.all.subtrees) :
    t.children.subtrees.map (·.label.id) = List.range' (t.label.id + 1) t.children.size := by
  have hinfix := (Forest.subtrees_infix ht).map (·.label.id)
  rw [subtrees_all, h.ids_all] at hinfix
  obtain ⟨start, hids⟩ := eq_range'_of_infix hinfix
  rw [Tree.subtrees, List.map_cons, List.length_cons, List.range'_succ, List.cons.injEq] at hids
  obtain ⟨rfl, hids⟩ := hids
  rw [hids, List.length_map, Forest.length_subtrees]

theorem mem_ids_children_iff (h : p.Indexes nodes lhs rhs) (ht : t ∈ p.all.subtrees) {id : Nat} :
    id ∈ t.children.subtrees.map (·.label.id) ↔
      t.label.id < id ∧ id ≤ t.label.id + t.children.size := by
  rw [h.ids_children ht, List.mem_range'_1, Nat.succ_le_iff, Nat.add_right_comm, Nat.lt_succ_iff]

/-- A node lies below another exactly when its number is in the interval after the other's number that
has as many numbers as there are nodes below. -/
theorem mem_children_iff (h : p.Indexes nodes lhs rhs) (ht : t ∈ p.all.subtrees)
    (hu : u ∈ p.all.subtrees) :
    u ∈ t.children.subtrees ↔
      t.label.id < u.label.id ∧ u.label.id ≤ t.label.id + t.children.size := by
  rw [← h.mem_ids_children_iff ht]
  constructor
  · exact fun hmem => List.mem_map_of_mem hmem
  · intro hmem
    obtain ⟨v, hv, hid⟩ := List.mem_map.mp hmem
    obtain rfl := h.id_inj (Forest.mem_subtrees_trans ht hv) hu hid
    exact hv

/-- A key lies below another in the store exactly when its node lies below the other's. -/
theorem below_iff (h : p.Indexes nodes lhs rhs) (hn : nodes.Coherent) (ht : t ∈ p.all.subtrees)
    (hu : u ∈ p.all.subtrees) :
    nodes.Below t.label.node.key u.label.node.key ↔ u ∈ t.children.subtrees := by
  have hkeys : nodes.Below t.label.node.key u.label.node.key ↔
      u.label.node.key ∈ t.children.built.keys := hn.below_iff (h.stores_built hn ht)
  rw [hkeys, Forest.keys_built]
  constructor
  · intro hmem
    obtain ⟨v, hv, hkey⟩ := List.mem_map.mp hmem
    obtain rfl := h.key_inj (Forest.mem_subtrees_trans ht hv) hu hkey
    exact hv
  · exact fun hmem => List.mem_map_of_mem hmem

/-- The count in a node is the number of nodes below it. -/
theorem descendants_eq (h : p.Indexes nodes lhs rhs) (hn : nodes.Coherent) (hw : nodes.Weighed)
    (ht : t ∈ p.all.subtrees) : t.label.node.form.descendants = t.children.size := by
  have hweight : t.label.node.form.weight = t.children.built.size + 1 :=
    hw _ _ (h.stores_built hn ht)
  rw [Form.weight_eq, Forest.built, Forest.size_map] at hweight
  exact Nat.succ.inj hweight

end Indexes

/-- A node that the roots reach lies below another exactly when its number comes after the other's, by
no more than the count that the builder gave to the other, and every such number is that of a node
below. The numbers of one side are apart from those of the other, so this also tells that nothing
lies below a node of the other side. -/
theorem below_iff_mem_interval {b : Builder} (hb : b.Reachable) {roots roots' : List Key}
    (hp : b.nodes.index roots roots' = .ok p) {k : Key} (hk : b.nodes.Reaches (roots ++ roots') k) :
    ∃ t, p.node k = .ok t ∧
      (∀ l, b.nodes.Reaches (roots ++ roots') l → ∃ u, p.node l = .ok u ∧
        (b.nodes.Below k l ↔ t.label.id < u.label.id ∧
          u.label.id ≤ t.label.id + t.label.node.form.descendants)) ∧
      ∀ id, t.label.id < id → id ≤ t.label.id + t.label.node.form.descendants →
        ∃ l u, b.nodes.Below k l ∧ p.node l = .ok u ∧ u.label.id = id := by
  have hn := hb.sound.coherent
  obtain ⟨lhs, rhs, rfl, rfl, h⟩ := hn.indexes hp
  obtain ⟨t, ht, rfl⟩ := (h.reaches_iff hn).mp hk
  have hnode : ∀ {u}, u ∈ p.all.subtrees → p.node u.label.node.key = .ok u :=
    fun hu => (h.node_eq_ok_iff hn).mpr ⟨hu, rfl⟩
  refine ⟨t, hnode ht, ?_⟩
  rw [h.descendants_eq hn hb.weighed ht]
  constructor
  · intro l hl
    obtain ⟨u, hu, rfl⟩ := (h.reaches_iff hn).mp hl
    exact ⟨u, hnode hu, (h.below_iff hn ht hu).trans (h.mem_children_iff ht hu)⟩
  · intro id hlt hle
    obtain ⟨u, hu, rfl⟩ := List.mem_map.mp ((h.mem_ids_children_iff ht).mpr ⟨hlt, hle⟩)
    have hall := Forest.mem_subtrees_trans ht hu
    exact ⟨_, u, (h.below_iff hn ht hall).mpr hu, hnode hall, rfl⟩

/-- A list around a list with an atom, and an atom that comes after all of it. -/
theorem below_iff_mem_interval_nested :
    ∃ p t u v,
      ((Builder.empty.buildAll
          [.list ⟨[], "("⟩ [.list ⟨[], "["⟩ [.atom ⟨[], "x", .normal⟩] ⟨[], "]"⟩] ⟨[], ")"⟩,
            .atom ⟨[], "y", .normal⟩]).2.buildAll
        [.atom ⟨[], "x", .normal⟩]).2.nodes.index [2, 3] [4] = .ok p ∧
      p.node 2 = .ok t ∧ p.node 0 = .ok u ∧ p.node 3 = .ok v ∧
      (t.label.id < u.label.id ∧ u.label.id ≤ t.label.id + t.label.node.form.descendants) ∧
      ¬ (t.label.id < v.label.id ∧ v.label.id ≤ t.label.id + t.label.node.form.descendants) := by
  obtain ⟨hb, p, hp⟩ := Builder.exists_index_of_buildAll
    [.list ⟨[], "("⟩ [.list ⟨[], "["⟩ [.atom ⟨[], "x", .normal⟩] ⟨[], "]"⟩] ⟨[], ")"⟩,
      .atom ⟨[], "y", .normal⟩]
    [.atom ⟨[], "x", .normal⟩] [2, 3] [4] rfl rfl
  obtain ⟨t, ht, hbelow, -⟩ := below_iff_mem_interval hb hp (.root (by simp : 2 ∈ [2, 3] ++ [4]))
  obtain ⟨v, hv, houtside⟩ := hbelow 3 (.root (by simp))
  obtain ⟨u, hu, hinside⟩ := hbelow 0 <| by
    refine .child (?_ : Nodes.Reaches _ _ 1) rfl (by decide)
    exact .child (.root (by simp : 2 ∈ [2, 3] ++ [4])) rfl (by decide)
  refine ⟨p, t, u, v, hp, ht, hu, hv, hinside.mp ⟨_, rfl, ?_⟩, ?_⟩
  · exact .child (.root (by decide : 1 ∈ [1])) rfl (by decide)
  · rw [← houtside]
    intro h
    have hn := hb.sound.coherent
    exact absurd ((hn.below_iff (k := 2) rfl).mp h) (by decide)

end Pair

end TwinForest
