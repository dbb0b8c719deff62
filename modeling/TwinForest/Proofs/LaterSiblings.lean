import TwinForest.Proofs.Intervals
import TwinForest.Proofs.Links
import TwinForest.Proofs.NormalForest
import TwinForest.Proofs.Predecessors

/-!
# Later siblings

Every node has a count of the nodes that are later siblings of it or of one of its ancestors. The pass
that writes it adds the later siblings of a node to the count of its parent. These are the roots of what
a walk still has to visit when it is done with the node, so they are different nodes of its side that come
after it.
-/

namespace TwinForest

namespace Nodes

def Later (nodes : Nodes) (roots roots' : List Key) (k l : Key) : Prop :=
  ∃ before after, nodes.Row roots roots' (before ++ k :: after) ∧ l ∈ after

/-- The second key is a later sibling of the first or of a node that the first lies below. -/
def Awaits (nodes : Nodes) (roots roots' : List Key) (k l : Key) : Prop :=
  ∃ m, (m = k ∨ nodes.Below m k) ∧ nodes.Later roots roots' m l

end Nodes

/-! ## Counts -/

namespace Forest

/-- Every node of the forest counts its later siblings and those that its ancestors count, where the
roots have the given count above them. -/
def Awaited (above : Nat) : Forest Linked → Prop
  | .nil => True
  | .cons n children rest =>
    n.after = above + rest.width ∧ Awaited n.after children ∧ Awaited above rest

variable {f : Forest Linked} {t : Tree Linked} {above : Nat}

/-- The pass writes the counts, from what the roots and the nodes after their parent are together. -/
theorem Awaited.of_pass {parent : Option Key} {ancestors waiting : Nat} {next : NodeId}
    (hplaced : f.map (·.toPlaced) = (Placed.number parent ancestors waiting next f.built).1)
    (hwaiting : waiting = above + f.width) : f.Awaited above := by
  induction f generalizing parent ancestors waiting above next with
  | nil => trivial
  | cons n children rest ihc ihr =>
    simp only [map, built_cons, Placed.number, cons.injEq] at hplaced
    obtain ⟨hplace, hchildren, hrest⟩ := hplaced
    have hafter : n.after = waiting - 1 := congrArg Placed.after hplace
    have hless : waiting - 1 = above + rest.width := by
      simp only [width] at hwaiting
      omega
    have hwidth : children.built.width = children.width := width_map _ children
    exact ⟨hafter.trans hless, ihc hchildren (by rw [hafter, hwidth]), ihr hrest hless⟩

/-- A root counts the roots after it. -/
theorem Awaited.after_eq (h : f.Awaited above) {before after : List (Tree Linked)}
    (htrees : f.trees = before ++ t :: after) : t.label.after = above + after.length := by
  induction f generalizing before with
  | nil => simp [trees] at htrees
  | cons n children rest _ ih =>
    obtain ⟨hfirst, -, hrest⟩ := h
    cases before with
    | nil =>
      simp only [trees, List.nil_append, List.cons.injEq] at htrees
      obtain ⟨rfl, rfl⟩ := htrees
      rw [hfirst, width_eq_length]
    | cons s before =>
      simp only [trees, List.cons_append, List.cons.injEq] at htrees
      exact ih hrest htrees.2

theorem Awaited.children (h : f.Awaited above) (ht : t ∈ f.subtrees) :
    t.children.Awaited t.label.after := by
  induction f generalizing above with
  | nil => cases ht
  | cons n children rest ihc ihr =>
    obtain ⟨-, hchildren, hrest⟩ := h
    simp only [subtrees, List.mem_cons, List.mem_append] at ht
    rcases ht with rfl | ht | ht
    · exact hchildren
    · exact ihc hchildren ht
    · exact ihr hrest ht

end Forest

/-! ## Places -/

namespace Pair

variable {p : Pair} {nodes : Nodes} {lhs rhs : List (Tree Node)} {side side' : Side}
variable {above above' : Option (Tree Linked)} {before after before' after' : List (Tree Linked)}
variable {later : List (Tree Linked)} {s t u : Tree Linked} {l : Key}

/-- The given nodes come in this order in the walk over a side, after a node and all that lies below
it. -/
def Ahead (p : Pair) (side : Side) (t : Tree Linked) (later : List (Tree Linked)) : Prop :=
  ∃ visited rest, p.walk side = visited ++ t :: (t.children.subtrees ++ rest) ∧
    later.Sublist rest

/-- The later siblings of a root are ahead of it. -/
theorem Ahead.root (hs : p.Stands side none before t after) : p.Ahead side t after := by
  refine ⟨(Forest.ofTrees before).subtrees, (Forest.ofTrees after).subtrees, ?_, ?_⟩
  · rw [walk, Forest.walk_eq_subtrees, ← Forest.subtrees_of_trees_eq hs.row_eq]
  · simpa using (Forest.ofTrees after).trees_sublist_subtrees

/-- What is ahead of a node is ahead of its children, and so are their later siblings. -/
theorem Ahead.child (h : p.Ahead side s later) (hs : p.Stands side (some s) before t after) :
    p.Ahead side t (after ++ later) := by
  obtain ⟨visited, rest, hwalk, hlater⟩ := h
  refine ⟨visited ++ s :: (Forest.ofTrees before).subtrees,
    (Forest.ofTrees after).subtrees ++ rest, ?_, ?_⟩
  · rw [hwalk, Forest.subtrees_of_trees_eq hs.row_eq]
    simp
  · refine List.Sublist.append ?_ hlater
    simpa using (Forest.ofTrees after).trees_sublist_subtrees

theorem Ahead.sublist_walk (h : p.Ahead side t later) : (t :: later).Sublist (p.walk side) := by
  obtain ⟨visited, rest, hwalk, hlater⟩ := h
  rw [hwalk]
  refine List.Sublist.trans (List.Sublist.cons_cons t ?_) (List.sublist_append_right _ _)
  exact hlater.trans (List.sublist_append_right _ _)

/-- The nodes of a row come in order in the walk over their side. -/
theorem row_sublist_walk (habove : ∀ u ∈ above, u ∈ p.walk side) :
    (p.row side above).Sublist (p.walk side) := by
  rw [walk, Forest.walk_eq_subtrees]
  cases above with
  | none => exact (p.forest side).trees_sublist_subtrees
  | some s =>
    have hinfix := Forest.subtrees_infix (mem_walk.mp (habove s rfl))
    exact (s.children.trees_sublist_subtrees.cons s).trans hinfix.sublist

namespace Indexes

/-- A node stands at one place only. -/
theorem stands_unique (h : p.Indexes nodes lhs rhs) (hn : nodes.Coherent)
    (hs : p.Stands side above before t after) (hs' : p.Stands side' above' before' t after') :
    after = after' := by
  obtain rfl : side = side' := by
    rw [← h.side_of_mem_walk (hs.mem_walk t (by simp)),
      h.side_of_mem_walk (hs'.mem_walk t (by simp))]
  obtain rfl : above = above' :=
    Except.ok.inj ((h.parent_eq hn hs).symm.trans (h.parent_eq hn hs'))
  -- A row has no node twice, so there is one way to split it at the node.
  have hnodup : (before ++ t :: after).Nodup :=
    hs.row_eq ▸ (h.nodup_walk side).of_map.sublist (row_sublist_walk hs.above_mem)
  obtain ⟨-, hrest, hapart⟩ := List.nodup_append.mp hnodup
  have hbefore : t ∉ before := fun hmem => hapart t hmem t List.mem_cons_self rfl
  have hafter : t ∉ after := (List.nodup_cons.mp hrest).1
  exact ((List.append_cons_inj_of_notMem hbefore hafter).mp (hs.row_eq.symm.trans hs'.row_eq)).2.2

/-- The later siblings of a node by their keys are those that stand after it. -/
theorem later_iff (h : p.Indexes nodes lhs rhs) (hn : nodes.Coherent)
    (hs : p.Stands side above before t after) :
    nodes.Later (lhs.map Tree.key) (rhs.map Tree.key) t.label.node.key l ↔
      l ∈ after.map (·.label.node.key) := by
  constructor
  · rintro ⟨ks, ls, hrow, hl⟩
    obtain ⟨side', above', habove, hkeys⟩ := (h.row_iff hn).mp hrow
    obtain ⟨before', tail, hsplit, -, htail⟩ := List.map_eq_append_iff.mp hkeys.symm
    obtain ⟨t', after', rfl, hkey, rfl⟩ := List.map_eq_cons_iff.mp htail
    have hs' : p.Stands side' above' before' t' after' := ⟨habove, hsplit⟩
    obtain rfl : t = t' := h.key_inj (mem_all_of_mem_walk (hs.mem_walk t (by simp)))
      (mem_all_of_mem_walk (hs'.mem_walk t' (by simp))) hkey.symm
    rwa [h.stands_unique hn hs hs']
  · intro hl
    refine ⟨before.map (·.label.node.key), _, (h.row_iff hn).mpr ⟨side, above, hs.above_mem, ?_⟩, hl⟩
    rw [hs.row_eq, List.map_append, List.map_cons]

/-- A node has a later sibling only on a side. -/
theorem exists_of_later (h : p.Indexes nodes lhs rhs) (hn : nodes.Coherent) {m : Key}
    (hlater : nodes.Later (lhs.map Tree.key) (rhs.map Tree.key) m l) :
    ∃ v ∈ p.all.subtrees, v.label.node.key = m := by
  obtain ⟨ks, ls, hrow, -⟩ := hlater
  obtain ⟨side, above, habove, hkeys⟩ := (h.row_iff hn).mp hrow
  have hm : m ∈ (p.row side above).map (·.label.node.key) := by simp [← hkeys]
  obtain ⟨v, hv, hkey⟩ := List.mem_map.mp hm
  exact ⟨v, mem_all_of_mem_walk (mem_walk_of_mem_row habove hv), hkey⟩

/-- What a node lies below are its parent and what that lies below. -/
theorem mem_subtrees_iff_above (h : p.Indexes nodes lhs rhs) (hn : nodes.Coherent)
    (hs : p.Stands side above before t after) (hu : u ∈ p.all.subtrees) :
    t ∈ u.children.subtrees ↔ ∃ s ∈ above, s = u ∨ s ∈ u.children.subtrees := by
  have hparent : ∀ {v}, v ∈ p.all.subtrees → t ∈ v.children.trees → above = some v := by
    intro v hv ht
    obtain ⟨side', hv⟩ := mem_all_iff.mp hv
    obtain ⟨_, _, hs'⟩ := exists_stands_of_mem_children hv ht
    exact Except.ok.inj ((h.parent_eq hn hs).symm.trans (h.parent_eq hn hs'))
  constructor
  · intro ht
    rcases Forest.mem_trees_or_child ht with hroot | ⟨s, hs, hchild⟩
    · exact ⟨u, hparent hu hroot, .inl rfl⟩
    · exact ⟨s, hparent (Forest.mem_subtrees_trans hu hs) hchild, .inr hs⟩
  · rintro ⟨s, rfl, hsu⟩
    have hrow : s.children.trees = before ++ t :: after := hs.row_eq
    have ht : t ∈ s.children.subtrees := Forest.mem_subtrees_of_mem_trees (by simp [hrow])
    rcases hsu with rfl | hsu
    · exact ht
    · exact Forest.mem_subtrees_trans hsu ht

theorem awaits_iff_exists (h : p.Indexes nodes lhs rhs) (hn : nodes.Coherent)
    (ht : t ∈ p.all.subtrees) :
    nodes.Awaits (lhs.map Tree.key) (rhs.map Tree.key) t.label.node.key l ↔
      ∃ v ∈ p.all.subtrees, (t = v ∨ t ∈ v.children.subtrees) ∧
        nodes.Later (lhs.map Tree.key) (rhs.map Tree.key) v.label.node.key l := by
  constructor
  · rintro ⟨m, hm, hlater⟩
    obtain ⟨v, hv, rfl⟩ := h.exists_of_later hn hlater
    refine ⟨v, hv, hm.imp (fun hkey => h.key_inj ht hv hkey.symm) fun hbelow => ?_, hlater⟩
    exact (h.below_iff hn hv ht).mp hbelow
  · rintro ⟨v, hv, hvt, hlater⟩
    refine ⟨_, hvt.imp (fun heq => heq ▸ rfl) fun hmem => ?_, hlater⟩
    exact (h.below_iff hn hv ht).mpr hmem

/-- The nodes that a count is about are the later siblings, and those of the parent's count. -/
theorem awaits_iff (h : p.Indexes nodes lhs rhs) (hn : nodes.Coherent)
    (hs : p.Stands side above before t after) :
    nodes.Awaits (lhs.map Tree.key) (rhs.map Tree.key) t.label.node.key l ↔
      l ∈ after.map (·.label.node.key) ∨
        ∃ s ∈ above, nodes.Awaits (lhs.map Tree.key) (rhs.map Tree.key) s.label.node.key l := by
  have ht := mem_all_of_mem_walk (hs.mem_walk t (by simp))
  rw [h.awaits_iff_exists hn ht, ← h.later_iff hn hs]
  constructor
  · rintro ⟨v, hv, rfl | hmem, hlater⟩
    · exact .inl hlater
    · obtain ⟨s, hsome, hsv⟩ := (h.mem_subtrees_iff_above hn hs hv).mp hmem
      have hall := mem_all_of_mem_walk (hs.above_mem s hsome)
      exact .inr ⟨s, hsome, (h.awaits_iff_exists hn hall).mpr ⟨v, hv, hsv, hlater⟩⟩
  · rintro (hlater | ⟨s, hsome, hawaits⟩)
    · exact ⟨t, ht, .inl rfl, hlater⟩
    · have hall := mem_all_of_mem_walk (hs.above_mem s hsome)
      obtain ⟨v, hv, hsv, hlater⟩ := (h.awaits_iff_exists hn hall).mp hawaits
      exact ⟨v, hv, .inr ((h.mem_subtrees_iff_above hn hs hv).mpr ⟨s, hsome, hsv⟩), hlater⟩

/-- The count of a node is that of its parent and its later siblings. -/
theorem after_eq (h : p.Indexes nodes lhs rhs) (hs : p.Stands side above before t after) :
    t.label.after = above.elim 0 (·.label.after) + after.length := by
  obtain ⟨next, hplaced⟩ := h.placed side
  have hawaited : (p.forest side).Awaited 0 := by
    refine .of_pass hplaced ?_
    rw [Forest.built, Forest.width_map, Nat.zero_add]
  cases above with
  | none => exact hawaited.after_eq hs.row_eq
  | some s => exact (hawaited.children (mem_walk.mp (hs.above_mem s rfl))).after_eq hs.row_eq

/-- The nodes that a count is about come after the node in the walk over its side. -/
theorem exists_ahead (h : p.Indexes nodes lhs rhs) (hn : nodes.Coherent) (ht : t ∈ p.walk side) :
    ∃ later, p.Ahead side t later ∧ later.length = t.label.after ∧
      ∀ l, nodes.Awaits (lhs.map Tree.key) (rhs.map Tree.key) t.label.node.key l ↔
        l ∈ later.map (·.label.node.key) := by
  -- From the roots down, every child adds its later siblings to what its parent has.
  have hall : ∀ t ∈ (p.forest side).subtrees, t ∈ p.walk side ∧ ∃ later, p.Ahead side t later ∧
      later.length = t.label.after ∧
      ∀ l, nodes.Awaits (lhs.map Tree.key) (rhs.map Tree.key) t.label.node.key l ↔
        l ∈ later.map (·.label.node.key) := by
    refine Forest.forall_subtrees ?_ ?_
    · intro t ht
      obtain ⟨before, after, hs⟩ := exists_stands_of_mem_roots ht
      refine ⟨mem_walk_of_mem_roots ht, after, .root hs, ?_, fun l => ?_⟩
      · simpa using (h.after_eq hs).symm
      · simpa using h.awaits_iff hn hs
    · rintro s ⟨hwalk, later, hahead, hlength, hlater⟩ t ht
      obtain ⟨before, after, hs⟩ := exists_stands_of_mem_children hwalk ht
      refine ⟨hs.mem_walk t (by simp), after ++ later, hahead.child hs, ?_, fun l => ?_⟩
      · rw [h.after_eq hs, List.length_append, hlength, Nat.add_comm]
        rfl
      · rw [h.awaits_iff hn hs, List.map_append, List.mem_append, ← hlater]
        simp
  exact (hall t (mem_walk.mp ht)).2

/-- The count of a node is the number of nodes that are later siblings of it or of an ancestor. -/
theorem encard_awaits (h : p.Indexes nodes lhs rhs) (hn : nodes.Coherent) (ht : t ∈ p.walk side) :
    {l | nodes.Awaits (lhs.map Tree.key) (rhs.map Tree.key) t.label.node.key l}.encard =
      t.label.after := by
  obtain ⟨later, hahead, hlength, hlater⟩ := h.exists_ahead hn ht
  have hkeys : (later.map (·.label.node.key)).Nodup :=
    (h.nodup_walk side).sublist (((List.sublist_cons_self t later).trans hahead.sublist_walk).map _)
  have hset : {l | nodes.Awaits (lhs.map Tree.key) (rhs.map Tree.key) t.label.node.key l} =
      {l | l ∈ later.map (·.label.node.key)} := Set.ext hlater
  rw [hset, encard_mem_of_nodup hkeys, List.length_map, hlength]

theorem after_lt (h : p.Indexes nodes lhs rhs) (hn : nodes.Coherent) (ht : t ∈ p.walk side) :
    t.label.after < p.sideSize side := by
  obtain ⟨later, hahead, hlength, -⟩ := h.exists_ahead hn ht
  rw [h.sideSize_eq, ← hlength]
  exact hahead.sublist_walk.length_le

theorem exists_first (h : p.Indexes nodes lhs rhs) (side : Side) :
    ∃ first, (p.walk side).map (·.label.id) = List.range' first (p.sideSize side) := by
  cases side with
  | lhs => exact ⟨1, by rw [h.ids_lhs, h.sideSize_eq, length_walk, forest]⟩
  | rhs => exact ⟨1 + p.lhs.size, by rw [h.ids_rhs, h.sideSize_eq, length_walk, forest]⟩

/-- From a node to its children the number goes up, and so does the number of ancestors, by one only. -/
theorem ancestors_lt (h : p.Indexes nodes lhs rhs) (ht : t ∈ p.walk side) :
    t.label.ancestors < p.sideSize side := by
  obtain ⟨first, hids⟩ := h.exists_first side
  have hid : ∀ {t}, t ∈ p.walk side →
      first ≤ t.label.id ∧ t.label.id < first + p.sideSize side := fun ht =>
    List.mem_range'_1.mp (hids ▸ List.mem_map_of_mem ht)
  have hall : ∀ t ∈ (p.forest side).subtrees,
      t ∈ p.walk side ∧ first + t.label.ancestors ≤ t.label.id := by
    refine Forest.forall_subtrees ?_ ?_
    · intro t ht
      obtain ⟨before, after, hs⟩ := exists_stands_of_mem_roots ht
      have hwalk := mem_walk_of_mem_roots ht
      exact ⟨hwalk, h.ancestors_eq hs ▸ (hid hwalk).1⟩
    · rintro s ⟨hwalk, hle⟩ t ht
      obtain ⟨before, after, hs⟩ := exists_stands_of_mem_children hwalk ht
      have ht' := hs.mem_walk t (by simp)
      have hlt := ((h.mem_children_iff (mem_all_of_mem_walk hwalk) (mem_all_of_mem_walk ht')).mp
        (Forest.mem_subtrees_of_mem_trees ht)).1
      exact ⟨ht', h.ancestors_eq hs ▸ Nat.lt_of_le_of_lt hle hlt⟩
  exact Nat.lt_of_add_lt_add_left (Nat.lt_of_le_of_lt (hall t (mem_walk.mp ht)).2 (hid ht).2)

end Indexes

end Pair

end TwinForest
