import Mathlib.Data.List.Perm.Subperm
import TwinForest.Proofs.Intervals
import TwinForest.Proofs.NormalForest

/-!
# Building with numbers of limited size

A machine word has a largest number. Here every number that a builder counts is checked against a limit
at the moment when it is counted, and a call that comes to a greater one gives nothing. In a builder that
has no more nodes than the limit allows, this never happens. A list is built of nodes that have no parent,
so their trees share nothing, and the nodes counted so far are different nodes of the store. For the same
reason a list never counts more nodes than there are before it.
-/

namespace TwinForest

def upTo (limit n : Nat) : Option Nat :=
  if n ≤ limit then some n else none

theorem upTo_eq {limit n : Nat} (h : n ≤ limit) : upTo limit n = some n :=
  if_pos h

/-- Different numbers below a bound are no more than the bound. -/
theorem length_le_of_forall_lt {l : List Nat} {n : Nat} (hnodup : l.Nodup) (hlt : ∀ a ∈ l, a < n) :
    l.length ≤ n := by
  have hsub : l ⊆ List.range n := fun a ha => List.mem_range.mpr (hlt a ha)
  simpa using (List.subperm_of_subset hnodup hsub).length_le

namespace Builder

variable {b : Builder} {limit : Nat}

/-! ## Checked calls -/

/-- Marks nodes as attached, one after the other, and adds up how many nodes are in their trees, up to the
first that is attached already. -/
def gatherWithin (limit : Nat) (attached : Store Bool) (count : Nat) :
    List (Tree Node) → Option (Except Fault Nat × Store Bool)
  | [] => some (.ok count, attached)
  | t :: ts =>
    match attached.item t.key with
    | .error fault => some (.error fault, attached)
    | .ok true => some (.error (.alreadyAttached t.key), attached)
    | .ok false => do
      let weight ← upTo limit t.label.form.weight
      let count ← upTo limit (count + weight)
      gatherWithin limit (attached.put t.key true) count ts

def pushWithin (limit : Nat) (b : Builder) (form : Form) (children : Forest Node) :
    Option (Key × Builder) := do
  let _ ← upTo limit b.nodes.size
  return b.push form children

def encloseWithin (limit : Nat) : Builder → Delimiter → Delimiter → List (Tree Node) →
    Option (Except Fault Key × Builder)
  | ⟨nodes, attached⟩, opening, closing, children => do
    match ← gatherWithin limit attached 0 children with
    | (.error fault, attached) => return (.error fault, ⟨nodes, attached⟩)
    | (.ok count, attached) =>
      let (key, b) ← pushWithin limit ⟨nodes, attached⟩ (.list opening closing count)
        (Forest.ofTrees children)
      return (.ok key, b)

def listWithin (limit : Nat) (b : Builder) (opening closing : Delimiter) (children : List Key) :
    Option (Except Fault Key × Builder) :=
  match children.mapM b.nodes.item with
  | .error fault => some (.error fault, b)
  | .ok children =>
    match kept children with
    | [child] =>
      if opening.content.isEmpty ∧ closing.content.isEmpty then some (.ok child.key, b)
      else b.encloseWithin limit opening closing [child]
    | children => b.encloseWithin limit opening closing children

/-- The builders that calls with checked numbers lead to from the one without nodes. -/
inductive ReachableWithin (limit : Nat) : Builder → Prop where
  | empty : ReachableWithin limit .empty
  | atom {b b' : Builder} {key : Key} (a : Atom) : ReachableWithin limit b →
      b.pushWithin limit (.atom a.trim) .nil = some (key, b') → ReachableWithin limit b'
  | list {b b' : Builder} {result : Except Fault Key} (opening closing : Delimiter)
      (children : List Key) : ReachableWithin limit b →
      b.listWithin limit opening closing children = some (result, b') → ReachableWithin limit b'

/-! ## What is counted -/

theorem mem_childKeys_of_get? {nodes : Nodes} {k c : Key} {t : Tree Node}
    (hget : nodes.get? k = some t) (hc : c ∈ t.childKeys) : c ∈ nodes.childKeys :=
  List.mem_flatMap.mpr ⟨t, Array.mem_toList_iff.mpr (Array.mem_of_getElem? hget), hc⟩

/-- Trees that can all be attached share no node. -/
theorem Normalizing.nodup_of_attach_ok (h : b.Normalizing) {ts : List (Tree Node)}
    (hts : ∀ t ∈ ts, b.nodes.Stores t) (hok : (attach b.attached (ts.map Tree.key)).1 = .ok ()) :
    (Forest.ofTrees ts).keys.Nodup := by
  obtain ⟨hnodup, hfree, -⟩ := of_attach_ok hok
  -- What leads to a node that is not the node itself goes through its parent, and it has none.
  have hroot : ∀ {s t}, t ∈ ts → b.nodes.Reaches [s] t.key → t.key = s := by
    intro s t ht hreach
    cases hreach with
    | root hmem => exact List.mem_singleton.mp hmem
    | child _ hget hmem =>
      have hflag := h.attached _ (mem_childKeys_of_get? hget hmem)
      rw [hfree _ (List.mem_map_of_mem ht)] at hflag
      cases hflag
  refine h.sound.coherent.nodup_keys h.once h.descending (by simpa using hts) ?_
  rw [Forest.trees_ofTrees]
  refine (List.pairwise_map.mp hnodup).imp_of_mem fun hs ht hne => ⟨fun hreach => ?_, fun hreach => ?_⟩
  · exact hne (hroot ht hreach).symm
  · exact hne (hroot hs hreach)

/-- Trees that can all be attached have no more nodes than the store. -/
theorem Normalizing.weigh_le (h : b.Normalizing) (hw : b.nodes.Weighed) {ts : List (Tree Node)}
    (hts : ∀ t ∈ ts, b.nodes.Stores t) (hok : (attach b.attached (ts.map Tree.key)).1 = .ok ()) :
    weigh ts ≤ b.nodes.size := by
  rw [weigh_eq_size fun t ht => hw _ t (hts t ht), ← Forest.length_preorder,
    ← List.length_map (f := Node.key)]
  refine length_le_of_forall_lt (h.nodup_of_attach_ok hts hok) fun k hk => ?_
  obtain ⟨s, hs, rfl⟩ := Forest.mem_keys.mp hk
  exact Store.lt_size_of_get? (h.sound.coherent.stores_subtree (by simpa using hts) s hs)

/-- What a list counts is at most its key, since what lies below it comes before it in the store. -/
theorem Reachable.descendants_le (hb : b.Reachable) {k : Key} {t : Tree Node}
    (hget : b.nodes.get? k = some t) : t.label.form.descendants ≤ k := by
  have h := hb.normalizing
  have hn := h.sound.coherent
  have hweight : t.label.form.weight = t.children.size + 1 := hb.weighed k t hget
  rw [Form.weight_eq, Nat.add_right_cancel_iff, ← Forest.length_preorder,
    ← List.length_map (f := Node.key)] at hweight
  rw [hweight]
  exact length_le_of_forall_lt (h.nodup_keys_children hget) fun x hx =>
    (hn.reaches_and_lt h.descending hget hx).2

/-! ## Checked calls give what calls give -/

/-- The numbers are within the limit if they are for all nodes up to each one that can be attached. -/
theorem gatherWithin_eq {flags : Store Bool} {count : Nat} {ts : List (Tree Node)}
    (h : ∀ first, first <+: ts → (attach flags (first.map Tree.key)).1 = .ok () →
      count + weigh first ≤ limit) :
    gatherWithin limit flags count ts =
      some ((attach flags (ts.map Tree.key)).1.map fun _ => count + weigh ts,
        (attach flags (ts.map Tree.key)).2) := by
  induction ts generalizing flags count with
  | nil => rfl
  | cons t ts ih =>
    -- Nothing is counted any more at the first node that cannot be attached.
    cases hitem : flags.item t.key with
    | error fault => simp [gatherWithin, attach, hitem, Except.map]
    | ok flag =>
      cases flag with
      | true => simp [gatherWithin, attach, hitem, Except.map]
      | false =>
        have hattach : ∀ us : List (Tree Node), attach flags ((t :: us).map Tree.key) =
            attach (flags.put t.key true) (us.map Tree.key) := by
          simp [attach, hitem]
        have hsum : ∀ us, count + weigh (t :: us) = count + t.label.form.weight + weigh us := by
          intro us
          rw [Nat.add_assoc]
          rfl
        have hone : count + t.label.form.weight ≤ limit := by
          have hfirst := h [t] (List.prefix_append [t] ts) (by rw [hattach]; rfl)
          rwa [hsum] at hfirst
        rw [hattach, hsum, ← ih]
        · simp [gatherWithin, hitem, upTo_eq hone, upTo_eq (Nat.le_of_add_left_le hone)]
        · intro first hstart hok
          rw [← hsum]
          exact h (t :: first) (List.cons_prefix_cons.mpr ⟨rfl, hstart⟩) (by rw [hattach, hok])

theorem pushWithin_eq (hsize : b.nodes.size ≤ limit) (form : Form) (children : Forest Node) :
    b.pushWithin limit form children = some (b.push form children) := by
  simp [pushWithin, upTo_eq hsize]

theorem encloseWithin_eq (h : b.Normalizing) (hw : b.nodes.Weighed) (hsize : b.nodes.size ≤ limit)
    (opening closing : Delimiter) {ts : List (Tree Node)} (hts : ∀ t ∈ ts, b.nodes.Stores t) :
    b.encloseWithin limit opening closing ts = some (b.enclose opening closing ts) := by
  have hgather : gatherWithin limit b.attached 0 ts =
      some ((attach b.attached (ts.map Tree.key)).1.map fun _ => 0 + weigh ts,
        (attach b.attached (ts.map Tree.key)).2) := by
    refine gatherWithin_eq fun first hstart hok => ?_
    rw [Nat.zero_add]
    exact (h.weigh_le hw (fun t ht => hts t (hstart.subset ht)) hok).trans hsize
  obtain ⟨nodes, flags⟩ := b
  simp only [encloseWithin, enclose, hgather]
  obtain ⟨result, flags'⟩ := attach flags (ts.map Tree.key)
  cases result with
  | error fault => rfl
  | ok done =>
    have hpush := pushWithin_eq (b := ⟨nodes, flags'⟩) hsize (.list opening closing (weigh ts))
      (Forest.ofTrees ts)
    simp [Except.map, hpush]

/-- With no more nodes than the limit allows, a checked call gives what the call gives. -/
theorem listWithin_eq (hb : b.Reachable) (hsize : b.nodes.size ≤ limit)
    (opening closing : Delimiter) (keys : List Key) :
    b.listWithin limit opening closing keys = some (b.list opening closing keys) := by
  cases hfound : keys.mapM b.nodes.item with
  | error fault => simp only [listWithin, list, hfound]
  | ok ts =>
    obtain ⟨-, hstored⟩ := hb.sound.coherent.mapM_item hfound
    have henclose := encloseWithin_eq hb.normalizing hb.weighed hsize opening closing
      (fun t ht => hstored t (kept_sublist.subset ht))
    simp only [listWithin, list, hfound]
    generalize kept ts = children at henclose
    rcases children with _ | ⟨child, _ | ⟨second, rest⟩⟩
    · exact henclose
    · by_cases hempty : opening.content.isEmpty ∧ closing.content.isEmpty
      · simp only [if_pos hempty]
      · simp only [if_neg hempty, henclose]
    · exact henclose

theorem size_le_list (b : Builder) (opening closing : Delimiter) (keys : List Key) :
    b.nodes.size ≤ (b.list opening closing keys).2.nodes.size := by
  rcases list_state_cases b opening closing keys with h | ⟨ts, -, h | ⟨-, -, h⟩⟩
  · rw [h]
  · rw [h]
  · rw [h]
    simp [push]

/-- A builder that has no more nodes than the limit allows can be reached with checked calls. -/
theorem Reachable.within (hb : b.Reachable) (hsize : b.nodes.size ≤ limit) :
    b.ReachableWithin limit := by
  -- No call takes nodes away, so the limit holds of every builder on the way.
  have hinv : Invariant fun b => b.Reachable ∧
      (b.nodes.size ≤ limit → b.ReachableWithin limit) := {
    empty := ⟨.empty, fun _ => .empty⟩
    atom := by
      rintro b a ⟨hb, ih⟩
      refine ⟨hb.atom a, fun hsize => ?_⟩
      have hgrown : (b.atom a).2.nodes.size = b.nodes.size + 1 := Store.size_alloc _ _
      have hless : b.nodes.size ≤ limit := by omega
      exact .atom a (ih hless) (pushWithin_eq hless _ _)
    list := by
      rintro b opening closing keys ⟨hb, ih⟩
      refine ⟨hb.list opening closing keys, fun hsize => ?_⟩
      have hless := (size_le_list b opening closing keys).trans hsize
      exact .list opening closing keys (ih hless) (listWithin_eq hb hless opening closing keys) }
  exact (hinv.holds hb).2 hsize

end Builder

end TwinForest
