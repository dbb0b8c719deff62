import Std.Data.HashMap.Lemmas
import TwinForest.Proofs.CheckedBuilding
import TwinForest.Proofs.LaterSiblings

/-!
# Indexing with numbers of limited size

The passes of an index count nodes: their numbers, their ancestors, the nodes that come after them, the
classes met so far and the nodes of each class. Here all of these are checked when they are counted, as
the calls of a builder are. No count goes beyond the number of indexed nodes, except that the next number
ends one above it. Since no node is indexed twice, these are no more than the nodes of the store, and
whatever the store has room for can be indexed with numbers of the same size.

## Main definitions

* `Placed.numberWithin`, `Classified.classifyWithin`, `Tally.countWithin`: the passes with checked numbers.
* `Nodes.indexWithin`: an index with checked numbers.
* `Pair.Fits`: all numbers of a pair, and of what it was built from, fit in words.

## Main results

* `Placed.numberWithin_eq`, `Classified.classifyWithin_eq`, `Tally.countWithin_eq`: how large the numbers of
  a pass get.
* `Nodes.indexForestsWithin_eq`: and those of an index.
* `Pair.numbers_fit_in_words`: stores that are not too large are indexed without an overflow.
-/

namespace TwinForest

def minus (n m : Nat) : Option Nat :=
  if m ≤ n then some (n - m) else none

theorem minus_eq {n m : Nat} (h : m ≤ n) : minus n m = some (n - m) :=
  if_pos h

theorem Forest.width_le_size {α : Type u} (f : Forest α) : f.width ≤ f.size := by
  induction f with
  | nil => exact Nat.le_refl 0
  | cons a children rest _ ih =>
    simp only [width, size]
    omega

/-! ## Numbers and places -/

namespace Placed

/-- Numbers the nodes of a forest as `number` does, where so many nodes come after the parent of the
roots. Every number is checked against the limit. -/
def numberWithin (limit : Nat) (parent : Option Key) (ancestors above next : Nat) :
    Forest Node → Option (Forest Placed × NodeId)
  | .nil => some (.nil, next)
  | .cons node children rest => do
    let after ← upTo limit (above + rest.width)
    let following ← upTo limit (next + 1)
    let deeper ← upTo limit (ancestors + 1)
    let below ← numberWithin limit (some node.key) deeper after following children
    let beside ← numberWithin limit parent ancestors above below.2 rest
    return (.cons { node, id := next, parent, ancestors, after } below.1 beside.1, beside.2)

/-- Along a forest, every number goes up by no more than there are nodes. -/
theorem numberWithin_eq {limit ancestors above next : Nat} {f : Forest Node}
    (hnext : next + f.size ≤ limit) (hancestors : ancestors + f.size ≤ limit)
    (habove : above + f.size ≤ limit) (parent : Option Key) :
    numberWithin limit parent ancestors above next f =
      some (number parent ancestors (above + f.width) next f) := by
  induction f generalizing parent ancestors above next with
  | nil => rfl
  | cons n children rest ihc ihr =>
    -- The node uses up one number, which pays for the step down to its children.
    have hwidth := rest.width_le_size
    simp only [Forest.size] at hnext hancestors habove
    have hbelow : numberWithin limit (some n.key) (ancestors + 1) (above + rest.width) (next + 1)
        children = some (number (some n.key) (ancestors + 1) (above + rest.width + children.width)
          (next + 1) children) := ihc (by omega) (by omega) (by omega) _
    have hcounter := (ids_number (some n.key) (ancestors + 1) (above + rest.width + children.width)
      (next + 1) children).2
    have hbeside : numberWithin limit parent ancestors above (next + 1 + children.size) rest =
        some (number parent ancestors (above + rest.width) (next + 1 + children.size) rest) :=
      ihr (by omega) (by omega) (by omega) _
    have hwaiting : above + (Forest.cons n children rest).width - 1 = above + rest.width := rfl
    simp only [numberWithin, number, hwaiting, upTo_eq (by omega : above + rest.width ≤ limit),
      upTo_eq (by omega : next + 1 ≤ limit), upTo_eq (by omega : ancestors + 1 ≤ limit), hbelow,
      hcounter, hbeside, Option.bind_eq_bind, Option.bind_some, pure]

theorem numberWithin_eq_numberSide {limit next : Nat} {f : Forest Node} (h : next + f.size ≤ limit) :
    numberWithin limit none 0 0 next f = some (numberSide next f) := by
  rw [numberWithin_eq h (by omega) (by omega), Nat.zero_add]
  rfl

theorem size_numberSide (next : NodeId) (f : Forest Node) : (numberSide next f).1.size = f.size := by
  rw [← Forest.size_map Placed.node, numberSide, map_node_number]

end Placed

/-! ## Classes -/

theorem ContentTable.size_intern_le (table : ContentTable) (key : ContentKey) :
    (table.intern key).2.size ≤ table.size + 1 := by
  unfold ContentTable.intern
  split
  · exact Nat.le_succ _
  · exact Std.HashMap.size_insert_le

namespace Classified

variable {table : ContentTable} {limit : Nat}

/-- Gives every node its class as `classify` does. The number that a new class would have is checked, also
where the class is known. -/
def classifyWithin (limit : Nat) (table : ContentTable) :
    Forest Placed → Option (Forest Classified × ContentTable)
  | .nil => some (.nil, table)
  | .cons placed children rest => do
    let below ← classifyWithin limit table children
    let key := ContentKey.of (below.1.roots.map contentId) placed.node.form
    let _ ← upTo limit (below.2.size + 1)
    let own := below.2.intern key
    let beside ← classifyWithin limit own.2 rest
    return (.cons { placed with contentId := own.1 } below.1 beside.1, beside.2)

/-- There is no more than one new class for each node. -/
theorem size_classify_le (table : ContentTable) (f : Forest Placed) :
    (classify table f).2.size ≤ table.size + f.size := by
  induction f generalizing table with
  | nil => exact Nat.le_refl _
  | cons n children rest ihc ihr =>
    have hbelow := ihc table
    have hown := (classify table children).2.size_intern_le
      (.of ((classify table children).1.roots.map contentId) n.node.form)
    have hbeside := ihr ((classify table children).2.intern
      (.of ((classify table children).1.roots.map contentId) n.node.form)).2
    simp only [classify, Forest.size]
    omega

theorem classifyWithin_eq {f : Forest Placed} (h : table.size + f.size ≤ limit) :
    classifyWithin limit table f = some (classify table f) := by
  induction f generalizing table with
  | nil => rfl
  | cons n children rest ihc ihr =>
    simp only [Forest.size] at h
    let key := ContentKey.of ((classify table children).1.roots.map contentId) n.node.form
    have hbelow := size_classify_le table children
    have hown := (classify table children).2.size_intern_le key
    have hrest : classifyWithin limit ((classify table children).2.intern key).2 rest =
        some (classify ((classify table children).2.intern key).2 rest) := ihr (by omega)
    simp only [classifyWithin, classify, ihc (by omega : table.size + children.size ≤ limit),
      upTo_eq (by omega : (classify table children).2.size + 1 ≤ limit), Option.bind_eq_bind,
      Option.bind_some, pure]
    rw [hrest]
    rfl

theorem classifyWithin_empty {f : Forest Placed} (h : f.size ≤ limit) :
    classifyWithin limit ∅ f = some (classify ∅ f) := by
  apply classifyWithin_eq
  rwa [Std.HashMap.size_empty, Nat.zero_add]

theorem classifyWithin_classify {f g : Forest Placed} (h : f.size + g.size ≤ limit) :
    classifyWithin limit (classify ∅ f).2 g = some (classify (classify ∅ f).2 g) := by
  apply classifyWithin_eq
  have hfirst := size_classify_le ∅ f
  rw [Std.HashMap.size_empty] at hfirst
  omega

theorem size_classify (table : ContentTable) (f : Forest Placed) :
    (classify table f).1.size = f.size := by
  rw [← Forest.size_map toPlaced, map_toPlaced_classify]

end Classified

/-! ## Tallies -/

namespace Tally

variable {tally : Tally} {limit : Nat}

def countWithin (limit : Nat) (tally : Tally) : Forest Classified → Option Tally
  | .nil => some tally
  | .cons n children rest => do
    let count ← upTo limit (tally.getD n.contentId 0 + 1)
    let below ← countWithin limit (tally.insert n.contentId count) children
    countWithin limit below rest

theorem getD_add_le (tally : Tally) (id id' : ContentId) :
    (tally.add id).getD id' 0 ≤ tally.getD id' 0 + 1 := by
  rw [add, Std.HashMap.getD_insert]
  split
  · rename_i heq
    rw [eq_of_beq heq]
  · exact Nat.le_succ _

theorem getD_count_le (tally : Tally) (f : Forest Classified) (id : ContentId) :
    (tally.count f).getD id 0 ≤ tally.getD id 0 + f.size := by
  induction f generalizing tally with
  | nil => exact Nat.le_refl _
  | cons n children rest ihc ihr =>
    have hown := tally.getD_add_le n.contentId id
    have hbelow := ihc (tally.add n.contentId)
    have hbeside := ihr ((tally.add n.contentId).count children)
    simp only [count, Forest.size]
    omega

theorem countWithin_eq {f : Forest Classified} (h : ∀ id, tally.getD id 0 + f.size ≤ limit) :
    tally.countWithin limit f = some (tally.count f) := by
  induction f generalizing tally with
  | nil => rfl
  | cons n children rest ihc ihr =>
    simp only [Forest.size] at h
    have hown : tally.getD n.contentId 0 + 1 ≤ limit := by
      have := h n.contentId
      omega
    have hbelow : (tally.add n.contentId).countWithin limit children =
        some ((tally.add n.contentId).count children) := by
      refine ihc fun id => ?_
      have := h id
      have := tally.getD_add_le n.contentId id
      omega
    have hbeside : ((tally.add n.contentId).count children).countWithin limit rest =
        some (((tally.add n.contentId).count children).count rest) := by
      refine ihr fun id => ?_
      have := h id
      have := tally.getD_add_le n.contentId id
      have := (tally.add n.contentId).getD_count_le children id
      omega
    rw [add] at hbelow hbeside
    simp only [countWithin, count, add, upTo_eq hown, hbelow, hbeside, Option.bind_eq_bind,
      Option.bind_some]

theorem countWithin_empty {f : Forest Classified} (h : f.size ≤ limit) :
    countWithin limit ∅ f = some (count ∅ f) := by
  apply countWithin_eq
  intro id
  rwa [Std.HashMap.getD_empty, Nat.zero_add]

theorem countWithin_count {f g : Forest Classified} (h : f.size + g.size ≤ limit) :
    (count ∅ f).countWithin limit g = some ((count ∅ f).count g) := by
  apply countWithin_eq
  intro id
  have hfirst := getD_count_le ∅ f id
  rw [Std.HashMap.getD_empty] at hfirst
  omega

end Tally

/-! ## Indexing -/

namespace Nodes

variable {nodes : Nodes} {numbers counts : Nat}

/-- Indexes two forests that share no node as `indexForests` does. The numbers of nodes and places are
checked against the first limit, those of classes and the counts of their nodes against the second. -/
def indexForestsWithin (numbers counts : Nat) (nodes : Nodes) (lhs rhs : Forest Node) :
    Option (Except Fault Pair) := do
  let left ← Placed.numberWithin numbers none 0 0 1 lhs
  let lhsSize ← minus left.2 1
  let right ← Placed.numberWithin numbers none 0 0 left.2 rhs
  let size ← minus right.2 1
  let leftClasses ← Classified.classifyWithin counts ∅ left.1
  let rightClasses ← Classified.classifyWithin counts leftClasses.2 right.1
  let leftTally ← Tally.countWithin counts ∅ leftClasses.1
  let tally ← leftTally.countWithin counts rightClasses.1
  let _ ← minus size lhsSize
  return do
    let lhs ← Marked.mark tally leftClasses.1
    let rhs ← Marked.mark tally rightClasses.1
    let lhs := Linked.link none none lhs
    let rhs := Linked.link none none rhs
    return {
      nodes, lhs, rhs
      table := ⟨enter (enter (nodes.column none).items lhs) rhs⟩
      lhsSize, size
      classes := rightClasses.2.size
      singles := tally.singles }

def indexWithin (numbers counts : Nat) (nodes : Nodes) (lhs rhs : List Key) :
    Option (Except Fault Pair) :=
  match nodes.side ∅ lhs with
  | .error fault => some (.error fault)
  | .ok (left, seen) =>
    match nodes.side seen rhs with
    | .error fault => some (.error fault)
    | .ok (right, _) => nodes.indexForestsWithin numbers counts left right

/-- The numbers go up to one more than there are nodes, and the counts up to the number of nodes. -/
theorem indexForestsWithin_eq {lhs rhs : Forest Node} (hnumbers : lhs.size + rhs.size + 1 ≤ numbers)
    (hcounts : lhs.size + rhs.size ≤ counts) :
    nodes.indexForestsWithin numbers counts lhs rhs = some (nodes.indexForests lhs rhs) := by
  let left := Placed.numberSide 1 lhs
  let right := Placed.numberSide left.2 rhs
  have hleft : Placed.numberWithin numbers none 0 0 1 lhs = some left :=
    Placed.numberWithin_eq_numberSide (by omega)
  have hnext : 1 + lhs.size = left.2 := (Placed.ids_numberSide 1 lhs).2.symm
  have hright : Placed.numberWithin numbers none 0 0 left.2 rhs = some right :=
    Placed.numberWithin_eq_numberSide (by omega)
  have hlast : 1 + lhs.size + rhs.size = right.2 :=
    hnext ▸ (Placed.ids_numberSide left.2 rhs).2.symm
  have hplaced : left.1.size = lhs.size := Placed.size_numberSide 1 lhs
  have hplaced' : right.1.size = rhs.size := Placed.size_numberSide left.2 rhs
  let leftClasses := Classified.classify ∅ left.1
  let rightClasses := Classified.classify leftClasses.2 right.1
  have hclasses : Classified.classifyWithin counts ∅ left.1 = some leftClasses :=
    Classified.classifyWithin_empty (by omega)
  have hclasses' : Classified.classifyWithin counts leftClasses.2 right.1 = some rightClasses :=
    Classified.classifyWithin_classify (by omega)
  have hclassified : leftClasses.1.size = left.1.size := Classified.size_classify ∅ left.1
  have hclassified' : rightClasses.1.size = right.1.size := Classified.size_classify _ right.1
  have htally : Tally.countWithin counts ∅ leftClasses.1 = some (Tally.count ∅ leftClasses.1) :=
    Tally.countWithin_empty (by omega)
  have htally' : (Tally.count ∅ leftClasses.1).countWithin counts rightClasses.1 =
      some ((Tally.count ∅ leftClasses.1).count rightClasses.1) :=
    Tally.countWithin_count (by omega)
  have hlhs := minus_eq (n := left.2) (m := 1) (by omega)
  have hboth := minus_eq (n := right.2) (m := 1) (by omega)
  have hrhs := minus_eq (n := right.2 - 1) (m := left.2 - 1) (by omega)
  simp only [indexForestsWithin, hleft, hright, hclasses, hclasses', htally, htally', hlhs, hboth,
    hrhs, Option.bind_eq_bind, Option.bind_some]
  rfl

theorem size_of_indexForests {lhs rhs : Forest Node} {p : Pair}
    (h : nodes.indexForests lhs rhs = .ok p) : p.size = lhs.size + rhs.size := by
  simp only [indexForests, bind_eq_ok_iff, pure_eq_ok_iff] at h
  obtain ⟨_, -, _, -, rfl⟩ := h
  have hlast := (Placed.ids_numberSide (Placed.numberSide 1 lhs).2 rhs).2
  rw [(Placed.ids_numberSide 1 lhs).2] at hlast
  simp only [(Placed.ids_numberSide 1 lhs).2, hlast]
  omega

/-- What can be indexed can be indexed with checked numbers. -/
theorem indexWithin_eq {roots roots' : List Key} {p : Pair}
    (hp : nodes.index roots roots' = .ok p) (hnumbers : p.size + 1 ≤ numbers)
    (hcounts : p.size ≤ counts) :
    nodes.indexWithin numbers counts roots roots' = some (.ok p) := by
  obtain ⟨f, seen, g, seen', hl, hr, hforests⟩ := index_eq_ok.mp hp
  rw [size_of_indexForests hforests] at hnumbers hcounts
  simp only [indexWithin, hl, hr, indexForestsWithin_eq hnumbers hcounts, hforests]

end Nodes

/-! ## Words -/

namespace Pair

variable {p : Pair} {nodes : Nodes} {lhs rhs : List (Tree Node)}

/-- The numbers of a builder and of a pair that was indexed from it fit in words of 32 bits: checked calls
lead to the builder, whatever is built next can be built with checked numbers, and a checked index gives
the pair. The index stays within closer limits, too. The next number goes up to one more than there are
nodes, classes and their counts up to the number of nodes. A list counts no more nodes than come before it
in the store, and the places of a node are counted within its side. -/
structure Fits (p : Pair) (b : Builder) (roots roots' : List Key) : Prop where
  built : b.ReachableWithin (UInt32.size - 1)
  atom : ∀ a : Atom, b.pushWithin (UInt32.size - 1) (.atom a.trim) .nil = some (b.atom a)
  list : ∀ opening closing keys, b.listWithin (UInt32.size - 1) opening closing keys =
    some (b.list opening closing keys)
  indexed : b.nodes.indexWithin (UInt32.size - 1) (UInt32.size - 1) roots roots' = some (.ok p)
  close : b.nodes.indexWithin (p.size + 1) p.size roots roots' = some (.ok p)
  counter : ∃ ls rs, roots.mapM b.nodes.item = .ok ls ∧ roots'.mapM b.nodes.item = .ok rs ∧
    (Placed.numberSide (Placed.numberSide 1 (.ofTrees ls)).2 (.ofTrees rs)).2 = p.size + 1
  size : {k | b.nodes.Reaches (roots ++ roots') k}.encard = p.size
  size_le : p.size ≤ b.nodes.size
  descendants_le : ∀ {k t}, b.nodes.get? k = some t → t.label.form.descendants ≤ k
  place : ∀ {k}, b.nodes.Reaches (roots ++ roots') k → ∃ t, p.node k = .ok t ∧
    {l | b.nodes.Awaits roots roots' k l}.encard = t.label.after ∧
    t.label.after < p.sideSize (p.side t.label) ∧ t.label.ancestors < p.sideSize (p.side t.label)

namespace Indexes

theorem length_all (h : p.Indexes nodes lhs rhs) : p.all.built.keys.length = p.size := by
  rw [h.size_eq_add, Forest.keys, List.length_map, Forest.length_preorder, Forest.built,
    Forest.size_map, all, Forest.size_append]

theorem encard_reaches (h : p.Indexes nodes lhs rhs) (hn : nodes.Coherent) :
    {k | nodes.Reaches (lhs.map Tree.key ++ rhs.map Tree.key) k}.encard = p.size := by
  have hset : {k | nodes.Reaches (lhs.map Tree.key ++ rhs.map Tree.key) k} =
      {k | k ∈ p.all.built.keys} := by
    rw [← List.map_append, h.built_all]
    exact Set.ext fun k => hn.reaches_iff h.stores
  rw [hset, encard_mem_of_nodup h.nodup_all, h.length_all]

theorem size_le (h : p.Indexes nodes lhs rhs) (hn : nodes.Coherent) : p.size ≤ nodes.size := by
  rw [← h.length_all]
  refine length_le_of_forall_lt h.nodup_all fun k hk => ?_
  rw [Forest.keys_built, List.mem_map] at hk
  obtain ⟨t, ht, rfl⟩ := hk
  exact Store.lt_size_of_get? (h.stores_built hn ht)

end Indexes

/-- A store with two nodes less than there are words, or fewer, is built and indexed without a number that
does not fit in a word. -/
theorem numbers_fit_in_words {b : Builder} (hb : b.Reachable) (hsize : b.nodes.size + 2 ≤ UInt32.size)
    {roots roots' : List Key} (hp : b.nodes.index roots roots' = .ok p) : p.Fits b roots roots' := by
  have hn := hb.sound.coherent
  obtain ⟨lhs, rhs, rfl, rfl, h⟩ := hn.indexes hp
  have hle := h.size_le hn
  obtain ⟨hls, hrs⟩ := List.forall_mem_append.mp h.stores
  refine {
    built := hb.within (by omega)
    atom := fun _ => Builder.pushWithin_eq (by omega) _ _
    list := Builder.listWithin_eq hb (by omega)
    indexed := Nodes.indexWithin_eq hp (by omega) (by omega)
    close := Nodes.indexWithin_eq hp (Nat.le_refl _) (Nat.le_refl _)
    counter := ⟨lhs, rhs, Nodes.mapM_item_map_key hls, Nodes.mapM_item_map_key hrs, ?_⟩
    size := h.encard_reaches hn
    size_le := hle
    descendants_le := hb.descendants_le
    place := ?_ }
  · rw [(Placed.ids_numberSide _ _).2, (Placed.ids_numberSide _ _).2, h.size_lhs, h.size_rhs,
      h.size_eq_add, Nat.add_assoc, Nat.add_comm]
  · intro k hk
    obtain ⟨t, ht, rfl⟩ := (h.reaches_iff hn).mp hk
    obtain ⟨side, hside⟩ := mem_all_iff.mp ht
    rw [h.node_eq hn hside]
    refine ⟨t, rfl, h.encard_awaits hn hside, ?_⟩
    rw [h.side_of_mem_walk hside]
    exact ⟨h.after_lt hn hside, h.ancestors_lt hside⟩

/-- An atom in a list that comes before another atom, all in a list, and an atom on the right. -/
theorem numbers_fit_in_words_nested :
    ∃ (b : Builder) (p : Pair) (t : Tree Linked),
      b = ((Builder.empty.buildAll
          [.list ⟨[], "("⟩ [.list ⟨[], "["⟩ [.atom ⟨[], "x", .normal⟩, .atom ⟨[], "x", .normal⟩]
            ⟨[], "]"⟩, .atom ⟨[], "y", .normal⟩] ⟨[], ")"⟩]).2.buildAll
        [.atom ⟨[], "x", .normal⟩]).2 ∧
      b.nodes.size + 2 ≤ UInt32.size ∧ b.nodes.index [4] [5] = .ok p ∧ p.Fits b [4] [5] ∧
      p.node 0 = .ok t ∧ {l | b.nodes.Awaits [4] [5] 0 l}.encard = t.label.after := by
  obtain ⟨hb, p, hp⟩ := Builder.exists_index_of_buildAll
    [.list ⟨[], "("⟩ [.list ⟨[], "["⟩ [.atom ⟨[], "x", .normal⟩, .atom ⟨[], "x", .normal⟩]
      ⟨[], "]"⟩, .atom ⟨[], "y", .normal⟩] ⟨[], ")"⟩]
    [.atom ⟨[], "x", .normal⟩] [4] [5] rfl rfl
  have hfits := numbers_fit_in_words hb (by decide) hp
  obtain ⟨t, ht, hafter, -, -⟩ := hfits.place (k := 0) <| by
    refine .child (?_ : Nodes.Reaches _ _ 2) rfl (by decide)
    exact .child (.root (by simp : 4 ∈ [4] ++ [5])) rfl (by decide)
  exact ⟨_, p, t, rfl, by decide, hp, hfits, ht, hafter⟩

end Pair

end TwinForest
