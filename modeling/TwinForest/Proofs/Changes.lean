import Mathlib.Data.Finset.Card
import TwinForest.Change
import TwinForest.Proofs.Intervals

/-!
# Recorded changes

Changes are recorded by the numbers of nodes. The numbers of both sides of a pair are all different, so
within one pair the map is a map of its nodes: what it has for a node is what was recorded last for this
very node, and the other nodes do not matter.
-/

namespace TwinForest

/-- Records changes for the nodes at some keys, one after the other, and gives what was recorded for each
of them before. -/
def Pair.recordAll (p : Pair) (m : ChangeMap) :
    List (Key × Change) → Except Fault (List (Option Change) × ChangeMap)
  | [] => .ok ([], m)
  | (k, change) :: calls => do
    let t ← p.node k
    let (previous, m) := m.insert t.label change
    let (others, m) ← p.recordAll m calls
    return (previous :: others, m)

def lastRecorded (calls : List (Key × Change)) (k : Key) : Option Change :=
  calls.reverse.lookup k

theorem lastRecorded_concat (calls : List (Key × Change)) (k l : Key) (change : Change) :
    lastRecorded (calls ++ [(k, change)]) l = if l = k then some change else lastRecorded calls l := by
  rw [lastRecorded, List.reverse_concat, List.lookup_cons]
  split <;> simp_all [lastRecorded]

theorem isSome_lastRecorded_iff (calls : List (Key × Change)) (k : Key) :
    (lastRecorded calls k).isSome ↔ k ∈ calls.map Prod.fst := by
  simp [lastRecorded]

namespace ChangeMap

variable {p : Pair} {nodes : Nodes} {lhs rhs : List (Tree Node)} {m : ChangeMap}
variable {calls log : List (Key × Change)} {t u : Tree Linked}

/-- The map has, for every node of the pair, the change that was recorded last for it, and nothing
else. -/
structure Holds (p : Pair) (calls : List (Key × Change)) (m : ChangeMap) : Prop where
  get? : ∀ t ∈ p.all.subtrees, m.get? t.label = lastRecorded calls t.label.node.key
  size : m.size = (calls.map Prod.fst).toFinset.card

theorem Holds.empty (p : Pair) : Holds p [] .empty where
  get? t _ := by simp [ChangeMap.get?, ChangeMap.empty, lastRecorded]
  size := by simp [ChangeMap.size, ChangeMap.empty]

/-- What is recorded for a node is found for it, and nothing changes for the others. -/
theorem get?_insert (h : p.Indexes nodes lhs rhs) (ht : t ∈ p.all.subtrees) (hu : u ∈ p.all.subtrees)
    (m : ChangeMap) (change : Change) :
    (m.insert t.label change).2.get? u.label =
      if u.label.node.key = t.label.node.key then some change else m.get? u.label := by
  have hid : t.label.id = u.label.id ↔ u.label.node.key = t.label.node.key := by
    constructor
    · intro hid
      rw [h.id_inj ht hu hid]
    · intro hkey
      rw [h.key_inj hu ht hkey]
  simp [ChangeMap.get?, ChangeMap.insert, Std.HashMap.getElem?_insert, hid]

theorem isUnchanged_iff (m : ChangeMap) (n : Linked) :
    m.isUnchanged n = true ↔ ∃ partner, m.get? n = some (.unchanged partner) := by
  unfold isUnchanged
  split
  · rename_i partner h
    simp [h]
  · rename_i h
    simp_all

/-- A call gives back the change that was recorded last for its node, and the map has the new one
then. -/
theorem Holds.insert (hm : Holds p calls m) (h : p.Indexes nodes lhs rhs) (ht : t ∈ p.all.subtrees)
    (change : Change) :
    (m.insert t.label change).1 = lastRecorded calls t.label.node.key ∧
      Holds p (calls ++ [(t.label.node.key, change)]) (m.insert t.label change).2 := by
  refine ⟨hm.get? t ht, ?_, ?_⟩
  · intro u hu
    rw [get?_insert h ht hu, lastRecorded_concat, hm.get? u hu]
  · have hkeys : ((calls ++ [(t.label.node.key, change)]).map Prod.fst).toFinset =
        Insert.insert t.label.node.key (calls.map Prod.fst).toFinset := by
      ext k
      simp
    have hmem : t.label.id ∈ m.changes ↔ t.label.node.key ∈ (calls.map Prod.fst).toFinset := by
      rw [Std.HashMap.mem_iff_isSome_getElem?, List.mem_toFinset, ← isSome_lastRecorded_iff,
        ← hm.get? t ht]
      rfl
    have hsize := hm.size
    change (m.changes.insert t.label.id change).size = _
    rw [Std.HashMap.size_insert, hkeys]
    split
    · rename_i hold
      rw [Finset.insert_eq_of_mem (hmem.mp hold)]
      exact hsize
    · rename_i hnew
      rw [Finset.card_insert_of_notMem (mt hmem.mpr hnew)]
      exact congrArg (· + 1) hsize

/-- Calls on nodes of a pair all succeed. Each gives back the change that was recorded last for its node
before it, and the map has those that were recorded last in the end. -/
theorem Holds.recordAll (hm : Holds p log m) (h : p.Indexes nodes lhs rhs) (hn : nodes.Coherent)
    (hcalls : ∀ call ∈ calls, ∃ t ∈ p.all.subtrees, t.label.node.key = call.1) :
    ∃ previous m', p.recordAll m calls = .ok (previous, m') ∧ Holds p (log ++ calls) m' ∧
      previous.length = calls.length ∧
      ∀ before k change after, calls = before ++ (k, change) :: after →
        previous[before.length]? = some (lastRecorded (log ++ before) k) := by
  induction calls generalizing log m with
  | nil => exact ⟨[], m, rfl, by simpa using hm, rfl, by simp⟩
  | cons call calls ih =>
    obtain ⟨⟨t, ht, hkey⟩, hmore⟩ := List.forall_mem_cons.mp hcalls
    obtain ⟨k, change⟩ := call
    obtain rfl : t.label.node.key = k := hkey
    have hnode : p.node t.label.node.key = .ok t := (h.node_eq_ok_iff hn).mpr ⟨ht, rfl⟩
    obtain ⟨hprevious, hnext⟩ := hm.insert h ht change
    obtain ⟨others, m', hrest, hend, hlength, hothers⟩ := ih hnext hmore
    rw [List.append_assoc] at hend
    refine ⟨(m.insert t.label change).1 :: others, m', ?_, hend, congrArg (· + 1) hlength, ?_⟩
    · exact bind_eq_ok_iff.mpr ⟨t, hnode, bind_eq_ok_iff.mpr ⟨(others, m'), hrest, rfl⟩⟩
    · intro before l change' after hsplit
      cases before with
      | nil =>
        cases hsplit
        simpa using hprevious
      | cons call before =>
        obtain ⟨rfl, htail⟩ := List.cons.inj hsplit
        rw [List.length_cons, List.getElem?_cons_succ, hothers before l change' after htail,
          List.append_assoc]
        rfl

end ChangeMap

/-- Whatever changes are recorded for nodes that the roots of a pair reach, in any order and also again:

* all calls succeed, and each gives back the change that was recorded last for the same node;
* the change of a node is the one that was recorded last for it, and tells whether it is unchanged;
* the size is the number of different nodes that were given;
* and no call for one node changes what is found for another. -/
theorem Pair.recordAll_holds_last {b : Builder} (hb : b.Reachable) {roots roots' : List Key} {p : Pair}
    (hp : b.nodes.index roots roots' = .ok p) {calls : List (Key × Change)}
    (hcalls : ∀ call ∈ calls, b.nodes.Reaches (roots ++ roots') call.1) :
    ∃ previous m, p.recordAll .empty calls = .ok (previous, m) ∧
      previous.length = calls.length ∧
      (∀ before k change after, calls = before ++ (k, change) :: after →
        previous[before.length]? = some (lastRecorded before k)) ∧
      (∀ k, b.nodes.Reaches (roots ++ roots') k → ∃ t, p.node k = .ok t ∧
        m.get? t.label = lastRecorded calls k ∧
        (m.isUnchanged t.label = true ↔
          ∃ partner, lastRecorded calls k = some (.unchanged partner))) ∧
      m.size = (calls.map Prod.fst).toFinset.card ∧
      ∀ k l t u change, p.node k = .ok t → p.node l = .ok u → k ≠ l →
        (m.insert t.label change).2.get? u.label = m.get? u.label := by
  have hn := hb.sound.coherent
  obtain ⟨lhs, rhs, rfl, rfl, h⟩ := hn.indexes hp
  obtain ⟨previous, m, hrecord, hm, hlength, hprevious⟩ := (ChangeMap.Holds.empty p).recordAll h hn
    fun call hcall => (h.reaches_iff hn).mp (hcalls call hcall)
  refine ⟨previous, m, hrecord, hlength, hprevious, ?_, hm.size, ?_⟩
  · intro k hk
    obtain ⟨t, ht, rfl⟩ := (h.reaches_iff hn).mp hk
    have hget : m.get? t.label = lastRecorded calls t.label.node.key := hm.get? t ht
    refine ⟨t, (h.node_eq_ok_iff hn).mpr ⟨ht, rfl⟩, hget, ?_⟩
    rw [m.isUnchanged_iff, hget]
  · intro k l t u change hk hl hne
    obtain ⟨ht, rfl⟩ := (h.node_eq_ok_iff hn).mp hk
    obtain ⟨hu, rfl⟩ := (h.node_eq_ok_iff hn).mp hl
    rw [ChangeMap.get?_insert h ht hu, if_neg hne.symm]

/-- An atom on each side, where the left one is recorded again after the right one. -/
theorem Pair.recordAll_holds_second :
    ∃ p s t m,
      ((Builder.empty.buildAll [.atom ⟨[], "x", .normal⟩]).2.buildAll
        [.atom ⟨[], "x", .normal⟩]).2.nodes.index [0] [1] = .ok p ∧
      p.recordAll .empty [(0, .novel), (1, .unchanged ⟨0, 0⟩), (0, .unchanged ⟨0, 1⟩)] =
        .ok ([none, none, some .novel], m) ∧
      p.node 0 = .ok s ∧ m.isUnchanged s.label = true ∧
      p.node 1 = .ok t ∧ m.get? t.label = some (.unchanged ⟨0, 0⟩) ∧ m.size = 2 := by
  obtain ⟨hb, p, hp⟩ := Builder.exists_index_of_buildAll [.atom ⟨[], "x", .normal⟩]
    [.atom ⟨[], "x", .normal⟩] [0] [1] rfl rfl
  obtain ⟨previous, m, hrecord, hlength, hprevious, hget, hsize, -⟩ := recordAll_holds_last hb hp
    (by simp [Nodes.Reaches.root] : ∀ call ∈ [((0 : Key), Change.novel), (1, .unchanged ⟨0, 0⟩),
      (0, .unchanged ⟨0, 1⟩)], _)
  obtain ⟨s, hs, -, hunchanged⟩ := hget 0 (.root (by simp))
  obtain ⟨t, ht, hright, -⟩ := hget 1 (.root (by simp))
  obtain ⟨first, second, third, rfl⟩ := List.length_eq_three.mp hlength
  obtain rfl : first = none := Option.some.inj (hprevious [] 0 _ _ rfl)
  obtain rfl : second = none := Option.some.inj (hprevious [_] 1 _ _ rfl)
  obtain rfl : third = some .novel := Option.some.inj (hprevious [_, _] 0 _ _ rfl)
  exact ⟨p, s, t, m, hp, hrecord, hs, hunchanged.mpr ⟨⟨0, 1⟩, rfl⟩, ht, hright, hsize⟩

end TwinForest
