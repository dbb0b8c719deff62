import Std.Data.HashSet.Lemmas
import TwinForest.Pair.Navigation
import TwinForest.Proofs.Normalization
import TwinForest.Proofs.Passes

/-!
# Indexing

Two lists of roots can be indexed when the store has them and no node lies below two of them, and
only then. The indexed pair has the two forests of the store, with what the passes add to them, and a
node is found at its key when it lies on a side, and only then.

## Main definitions

* `Forest.built`, `Tree.built`: what lies under an indexed forest or tree.
* `Pair.all`: both sides as one forest.
* `Pair.Indexes`: a pair comes from the given trees of a store, pass by pass.

## Main results

* `Nodes.Coherent.indexes`, `Nodes.Coherent.exists_index`: what indexing gives, and when it succeeds.
* `Nodes.index_error`: what it complains of otherwise.
* `Pair.Indexes.node_eq_ok_iff`: the nodes that can be looked up are those on a side.
* `Pair.Indexes.reaches_iff`: and those are the nodes that the roots reach.
* `Builder.Sound.exists_index`: what is built for two files can be indexed.
-/

namespace TwinForest

def Forest.built (f : Forest Linked) : Forest Node :=
  f.map fun n => n.node

def Tree.built (t : Tree Linked) : Tree Node :=
  t.map fun n => n.node

theorem Tree.built_key (t : Tree Linked) : t.built.key = t.label.node.key := rfl

namespace Forest

@[simp] theorem built_cons (n : Linked) (children rest : Forest Linked) :
    built (.cons n children rest) = .cons n.node children.built rest.built := rfl

@[simp] theorem built_append (f g : Forest Linked) : (f ++ g).built = f.built ++ g.built := by
  simp [built]

theorem trees_built (f : Forest Linked) : f.built.trees = f.trees.map Tree.built :=
  trees_map _ f

theorem subtrees_built (f : Forest Linked) : f.built.subtrees = f.subtrees.map Tree.built :=
  subtrees_map _ f

theorem keys_built (f : Forest Linked) :
    f.built.keys = f.subtrees.map fun t => t.label.node.key := by
  rw [keys_eq_map_subtrees, subtrees_built, List.map_map]
  rfl

theorem map_key_of_built {f : Forest Linked} {ts : List (Tree Node)} (h : f.built = .ofTrees ts) :
    ts.map Tree.key = f.trees.map fun t => t.label.node.key := by
  rw [← trees_ofTrees ts, ← h, trees_built, List.map_map]
  rfl

end Forest

theorem Tree.childKeys_built (t : Tree Linked) :
    t.built.childKeys = t.children.trees.map fun c => c.label.node.key := by
  rw [Tree.childKeys_eq]
  change t.children.built.trees.map Tree.key = _
  rw [Forest.trees_built, List.map_map]
  rfl

namespace Nodes

/-! ## Visiting nodes once -/

theorem reach_cons_eq_ok {seen seen' : Std.HashSet Key} {n : Node} {children rest : Forest Node} :
    reach seen (.cons n children rest) = .ok seen' ↔
      n.key ∉ seen ∧ ∃ below, reach (seen.insert n.key) children = .ok below ∧
        reach below rest = .ok seen' := by
  rw [reach]
  by_cases hn : n.key ∈ seen
  · simp [hn]
  · simp [hn, bind_eq_ok_iff]

/-- A visit that succeeds meets every key once and none that was seen before. -/
theorem reach_ok {seen seen' : Std.HashSet Key} {f : Forest Node} (h : reach seen f = .ok seen') :
    f.keys.Nodup ∧ (∀ k ∈ f.keys, k ∉ seen) ∧ ∀ k, k ∈ seen' ↔ k ∈ seen ∨ k ∈ f.keys := by
  induction f generalizing seen seen' with
  | nil => cases h; simp
  | cons n children rest ihc ihr =>
    obtain ⟨hn, below, hc, hr⟩ := reach_cons_eq_ok.mp h
    obtain ⟨hcn, hcs, hcb⟩ := ihc hc
    obtain ⟨hrn, hrs, hrb⟩ := ihr hr
    simp only [Std.HashSet.mem_insert, beq_iff_eq] at hcs hcb
    simp only [hcb] at hrs hrb
    simp only [Forest.keys_cons, List.nodup_cons, List.nodup_append, List.mem_cons, List.mem_append]
    grind

/-- Different keys that were not seen before can be visited. -/
theorem exists_reach (seen : Std.HashSet Key) {f : Forest Node} (hnodup : f.keys.Nodup)
    (hseen : ∀ k ∈ f.keys, k ∉ seen) : ∃ seen', reach seen f = .ok seen' := by
  induction f generalizing seen with
  | nil => exact ⟨seen, rfl⟩
  | cons n children rest ihc ihr =>
    simp only [Forest.keys_cons, List.nodup_cons, List.nodup_append, List.mem_cons,
      List.mem_append] at hnodup hseen
    have hc : ∀ k ∈ children.keys, k ∉ seen.insert n.key := by
      intro k hk
      rw [Std.HashSet.mem_insert, beq_iff_eq]
      grind
    obtain ⟨below, hc⟩ := ihc (seen.insert n.key) hnodup.2.1 hc
    obtain ⟨-, -, hbelow⟩ := reach_ok hc
    have hr : ∀ k ∈ rest.keys, k ∉ below := by
      intro k hk
      rw [hbelow, Std.HashSet.mem_insert, beq_iff_eq]
      grind
    obtain ⟨seen', hr⟩ := ihr below hnodup.2.2.1 hr
    exact ⟨seen', reach_cons_eq_ok.mpr ⟨hseen _ (.inl rfl), below, hc, hr⟩⟩

theorem side_cons_eq_ok {nodes : Nodes} {seen seen' : Std.HashSet Key} {key : Key}
    {keys : List Key} {f : Forest Node} :
    nodes.side seen (key :: keys) = .ok (f, seen') ↔
      ∃ t below rest, nodes.item key = .ok t ∧
        reach seen (.cons t.label t.children .nil) = .ok below ∧
        nodes.side below keys = .ok (rest, seen') ∧ f = .cons t.label t.children rest := by
  simp only [side, bind_eq_ok_iff]
  constructor
  · rintro ⟨t, ht, below, hb, ⟨rest, seen''⟩, hr, h⟩
    cases h
    exact ⟨t, below, rest, ht, hb, hr, rfl⟩
  · rintro ⟨t, below, rest, ht, hb, hr, rfl⟩
    exact ⟨t, ht, below, hb, (rest, seen'), hr, rfl⟩

/-- A side that succeeds has the trees at its roots, and meets every key of them once. -/
theorem Coherent.side_ok {nodes : Nodes} (hn : nodes.Coherent) {seen seen' : Std.HashSet Key}
    {roots : List Key} {f : Forest Node} (h : nodes.side seen roots = .ok (f, seen')) :
    ∃ ts : List (Tree Node), roots = ts.map Tree.key ∧ f = .ofTrees ts ∧
      (∀ t ∈ ts, nodes.Stores t) ∧ f.keys.Nodup ∧ (∀ k ∈ f.keys, k ∉ seen) ∧
      ∀ k, k ∈ seen' ↔ k ∈ seen ∨ k ∈ f.keys := by
  induction roots generalizing seen f with
  | nil =>
    cases h
    exact ⟨[], rfl, rfl, by simp⟩
  | cons key keys ih =>
    obtain ⟨t, below, rest, hitem, hreach, hside, rfl⟩ := side_cons_eq_ok.mp h
    have hget := Store.item_eq_ok_iff.mp hitem
    obtain ⟨hnodup, hseen, hbelow⟩ := reach_ok hreach
    obtain ⟨ts, rfl, rfl, hts, hnodup', hseen', hend⟩ := ih hside
    refine ⟨t :: ts, by rw [List.map_cons, hn.key_of_get? hget], rfl, ?_, ?_⟩
    · intro u hu
      rcases List.mem_cons.mp hu with rfl | hu
      · exact hn.stores_of_get? hget
      · exact hts u hu
    · simp only [Forest.keys_cons, Forest.keys_nil, List.append_nil, List.nodup_cons,
        List.mem_cons] at hnodup hseen hbelow
      simp only [hbelow] at hseen' hend
      simp only [Forest.keys_cons, List.nodup_cons, List.nodup_append, List.mem_cons,
        List.mem_append]
      grind

/-- A side succeeds on trees of the store that share no node, none of which was seen before. -/
theorem exists_side {nodes : Nodes} (seen : Std.HashSet Key) {ts : List (Tree Node)}
    (hts : ∀ t ∈ ts, nodes.Stores t) (hnodup : (Forest.ofTrees ts).keys.Nodup)
    (hseen : ∀ k ∈ (Forest.ofTrees ts).keys, k ∉ seen) :
    ∃ seen', nodes.side seen (ts.map Tree.key) = .ok (.ofTrees ts, seen') := by
  induction ts generalizing seen with
  | nil => exact ⟨seen, rfl⟩
  | cons t ts ih =>
    simp only [Forest.ofTrees, Forest.keys_cons, List.nodup_cons, List.nodup_append, List.mem_cons,
      List.mem_append] at hnodup hseen
    obtain ⟨hroot, hchildren, hrest, hdisjoint⟩ := hnodup
    have hkeys : (Forest.cons t.label t.children .nil).keys = t.label.key :: t.children.keys := by
      simp
    have htree : (t.label.key :: t.children.keys).Nodup :=
      List.nodup_cons.mpr ⟨fun h => hroot (.inl h), hchildren⟩
    have hfirst : ∀ k ∈ t.label.key :: t.children.keys, k ∉ seen := by grind
    rw [← hkeys] at htree hfirst
    obtain ⟨below, hreach⟩ := exists_reach seen htree hfirst
    obtain ⟨-, -, hbelow⟩ := reach_ok hreach
    have hlater : ∀ k ∈ (Forest.ofTrees ts).keys, k ∉ below := by
      intro k hk
      rw [hbelow, hkeys, List.mem_cons]
      grind
    obtain ⟨seen', hside⟩ := ih below (fun u hu => hts u (List.mem_cons_of_mem _ hu)) hrest hlater
    exact ⟨seen', side_cons_eq_ok.mpr ⟨t, below, .ofTrees ts,
      Store.item_eq_ok_iff.mpr (hts t List.mem_cons_self), hreach, hside, rfl⟩⟩

/-- What a visit can complain of. -/
theorem reach_error {seen : Std.HashSet Key} {f : Forest Node} {fault : Fault}
    (h : reach seen f = .error fault) : ∃ k, fault = .reachedTwice k := by
  induction f generalizing seen with
  | nil => cases h
  | cons n children rest ihc ihr =>
    rw [reach] at h
    split at h
    · cases h
      exact ⟨n.key, rfl⟩
    · rcases bind_eq_error_iff.mp h with hc | ⟨below, -, hr⟩
      · exact ihc hc
      · exact ihr hr

/-- What a side can complain of. -/
theorem side_error {nodes : Nodes} {seen : Std.HashSet Key} {roots : List Key} {fault : Fault}
    (h : nodes.side seen roots = .error fault) :
    (∃ k, fault = .outOfRange nodes.size k) ∨ ∃ k, fault = .reachedTwice k := by
  induction roots generalizing seen with
  | nil => cases h
  | cons key keys ih =>
    simp only [side, bind_eq_error_iff] at h
    rcases h with hitem | ⟨t, -, hreach | ⟨below, -, hside | ⟨_, -, h⟩⟩⟩
    · rw [Store.item] at hitem
      split at hitem
      · cases hitem
      · cases hitem
        exact .inl ⟨key, rfl⟩
    · exact .inr (reach_error hreach)
    · exact ih hside
    · cases h

/-! ## The table of nodes -/

variable {table : Array (Option (Tree Linked))} {f : Forest Linked}

@[simp] theorem size_enter (table : Array (Option (Tree Linked))) (f : Forest Linked) :
    (enter table f).size = table.size := by
  induction f generalizing table with
  | nil => rfl
  | cons n children rest ihc ihr => simp [enter, ihc, ihr]

theorem getElem?_enter_of_notMem {k : Key} (h : k ∉ f.built.keys) :
    (enter table f)[k]? = table[k]? := by
  induction f generalizing table with
  | nil => rfl
  | cons n children rest ihc ihr =>
    simp only [Forest.built_cons, Forest.keys_cons, List.mem_cons, List.mem_append, not_or] at h
    rw [enter, ihr h.2.2, ihc h.2.1, Array.getElem?_setIfInBounds_ne (Ne.symm h.1)]

/-- Nodes with different keys are all found where they were entered. -/
theorem getElem?_enter_of_mem {t : Tree Linked} (hnodup : f.built.keys.Nodup)
    (ht : t ∈ f.subtrees) (hlt : t.label.node.key < table.size) :
    (enter table f)[t.label.node.key]? = some (some t) := by
  induction f generalizing table with
  | nil => cases ht
  | cons n children rest ihc ihr =>
    simp only [Forest.built_cons, Forest.keys_cons, List.nodup_cons, List.nodup_append,
      List.mem_append, not_or] at hnodup
    have hkey : ∀ {g : Forest Linked}, t ∈ g.subtrees → t.label.node.key ∈ g.built.keys :=
      fun {g} hg => by
        rw [Forest.keys_built]
        exact List.mem_map_of_mem hg
    simp only [Forest.subtrees, List.mem_cons, List.mem_append] at ht
    rw [enter]
    rcases ht with rfl | ht | ht
    · rw [getElem?_enter_of_notMem hnodup.1.2, getElem?_enter_of_notMem hnodup.1.1]
      exact Array.getElem?_setIfInBounds_self_of_lt hlt
    · rw [getElem?_enter_of_notMem fun h => hnodup.2.2.2 _ (hkey ht) _ h rfl]
      exact ihc hnodup.2.1 ht (by simpa using hlt)
    · exact ihr hnodup.2.2.1 ht (by simpa using hlt)

end Nodes

/-! ## Indexed pairs -/

namespace Pair

def all (p : Pair) : Forest Linked :=
  p.lhs ++ p.rhs

/-- The pair comes from the given trees of a store, which share no node. What each pass added can be
had from the result of the passes before it. -/
structure Indexes (p : Pair) (nodes : Nodes) (lhs rhs : List (Tree Node)) : Prop where
  stores : ∀ t ∈ lhs ++ rhs, nodes.Stores t
  nodup : (Forest.ofTrees (lhs ++ rhs)).keys.Nodup
  nodes_eq : p.nodes = nodes
  placed_lhs : p.lhs.map (·.toPlaced) = (Placed.numberSide 1 (.ofTrees lhs)).1
  placed_rhs : p.rhs.map (·.toPlaced) =
    (Placed.numberSide (Placed.numberSide 1 (.ofTrees lhs)).2 (.ofTrees rhs)).1
  classified : p.all.map (·.toClassified) = (Classified.classify ∅ (p.all.map (·.toPlaced))).1
  marked : Marked.mark (Tally.count ∅ (p.all.map (·.toClassified)))
    (p.all.map (·.toClassified)) = .ok (p.all.map (·.toMarked))
  linked_lhs : p.lhs = Linked.link none none (p.lhs.map (·.toMarked))
  linked_rhs : p.rhs = Linked.link none none (p.rhs.map (·.toMarked))
  table_eq : p.table.items = Nodes.enter (Nodes.enter (nodes.column none).items p.lhs) p.rhs
  lhsSize_eq : p.lhsSize = (Placed.numberSide 1 (.ofTrees lhs)).2 - 1
  size_eq : p.size =
    (Placed.numberSide (Placed.numberSide 1 (.ofTrees lhs)).2 (.ofTrees rhs)).2 - 1
  classes_eq : p.classes = (Classified.classify ∅ (p.all.map (·.toPlaced))).2.size
  singles_eq : p.singles = (Tally.count ∅ (p.all.map (·.toClassified))).singles

end Pair

namespace Nodes

variable {nodes : Nodes} {p : Pair} {lhs rhs : List (Tree Node)}

/-- The parts of an indexed pair are what the passes give. -/
theorem indexes_of_indexForests (hstores : ∀ t ∈ lhs ++ rhs, nodes.Stores t)
    (hnodup : (Forest.ofTrees (lhs ++ rhs)).keys.Nodup)
    (h : nodes.indexForests (.ofTrees lhs) (.ofTrees rhs) = .ok p) : p.Indexes nodes lhs rhs := by
  let left := Placed.numberSide 1 (.ofTrees lhs)
  let right := Placed.numberSide left.2 (.ofTrees rhs)
  let leftClasses := Classified.classify ∅ left.1
  let rightClasses := Classified.classify leftClasses.2 right.1
  let tally := (Tally.count ∅ leftClasses.1).count rightClasses.1
  obtain ⟨lm, hl, h⟩ := bind_eq_ok_iff.mp h
  obtain ⟨rm, hr, h⟩ := bind_eq_ok_iff.mp h
  cases h
  -- What the passes gave, read off the linked forests.
  have hlm : (Linked.link none none lm).map (·.toMarked) = lm := Linked.map_toMarked_link ..
  have hrm : (Linked.link none none rm).map (·.toMarked) = rm := Linked.map_toMarked_link ..
  have hlc : (Linked.link none none lm).map (·.toClassified) = leftClasses.1 :=
    (Linked.map_link (·.toClassified) ..).trans (Marked.map_toClassified_mark hl)
  have hrc : (Linked.link none none rm).map (·.toClassified) = rightClasses.1 :=
    (Linked.map_link (·.toClassified) ..).trans (Marked.map_toClassified_mark hr)
  have hlp : (Linked.link none none lm).map (·.toPlaced) = left.1 := by
    rw [← Classified.map_toPlaced_classify ∅ left.1, ← hlc, Forest.map_map]
    rfl
  have hrp : (Linked.link none none rm).map (·.toPlaced) = right.1 := by
    rw [← Classified.map_toPlaced_classify leftClasses.2 right.1, ← hrc, Forest.map_map]
    rfl
  have hcount := Tally.count_append ∅ leftClasses.1 rightClasses.1
  have hclasses := Classified.classify_append ∅ left.1 right.1
  exact {
    stores := hstores
    nodup := hnodup
    nodes_eq := rfl
    placed_lhs := hlp
    placed_rhs := hrp
    classified := by
      simp only [Pair.all, Forest.map_append]
      rw [hlc, hrc, hlp, hrp, hclasses]
    marked := by
      simp only [Pair.all, Forest.map_append]
      rw [hlc, hrc, hlm, hrm, hcount]
      exact Marked.mark_append hl hr
    linked_lhs := by rw [hlm]
    linked_rhs := by rw [hrm]
    table_eq := rfl
    lhsSize_eq := rfl
    size_eq := rfl
    classes_eq := by
      simp only [Pair.all, Forest.map_append]
      rw [hlp, hrp, hclasses]
    singles_eq := by
      simp only [Pair.all, Forest.map_append]
      rw [hlc, hrc, hcount] }

/-- Forests can always be indexed: every class that is looked up was counted. -/
theorem exists_indexForests (nodes : Nodes) (f g : Forest Node) :
    ∃ p, nodes.indexForests f g = .ok p := by
  let left := Placed.numberSide 1 f
  let right := Placed.numberSide left.2 g
  let leftClasses := Classified.classify ∅ left.1
  let rightClasses := Classified.classify leftClasses.2 right.1
  let tally := (Tally.count ∅ leftClasses.1).count rightClasses.1
  have hcounts := (Tally.Counts.empty.count leftClasses.1).count rightClasses.1
  have hcounted : ∀ n ∈ leftClasses.1.preorder ++ rightClasses.1.preorder,
      tally[n.contentId]? ≠ none := by
    intro n hn
    rw [hcounts n.contentId, if_pos]
    · simp
    · simp only [List.mem_append, List.mem_map] at hn ⊢
      grind
  obtain ⟨lm, hl⟩ := Marked.exists_mark fun n hn => hcounted n (List.mem_append_left _ hn)
  obtain ⟨rm, hr⟩ := Marked.exists_mark fun n hn => hcounted n (List.mem_append_right _ hn)
  exact ⟨_, bind_eq_ok_iff.mpr ⟨lm, hl, bind_eq_ok_iff.mpr ⟨rm, hr, rfl⟩⟩⟩

theorem index_eq_ok {roots roots' : List Key} :
    nodes.index roots roots' = .ok p ↔
      ∃ f seen g seen', nodes.side ∅ roots = .ok (f, seen) ∧
        nodes.side seen roots' = .ok (g, seen') ∧ nodes.indexForests f g = .ok p := by
  simp only [index, bind_eq_ok_iff]
  constructor
  · rintro ⟨⟨f, seen⟩, hl, ⟨g, seen'⟩, hr, hp⟩
    exact ⟨f, seen, g, seen', hl, hr, hp⟩
  · rintro ⟨f, seen, g, seen', hl, hr, hp⟩
    exact ⟨(f, seen), hl, (g, seen'), hr, hp⟩

/-- An indexed pair comes from the trees that the store has at the roots. -/
theorem Coherent.indexes (hn : nodes.Coherent) {roots roots' : List Key}
    (h : nodes.index roots roots' = .ok p) :
    ∃ lhs rhs : List (Tree Node), roots = lhs.map Tree.key ∧ roots' = rhs.map Tree.key ∧
      p.Indexes nodes lhs rhs := by
  obtain ⟨f, seen, g, seen', hl, hr, hp⟩ := index_eq_ok.mp h
  obtain ⟨lhs, rfl, rfl, hls, hln, -, hseen⟩ := hn.side_ok hl
  obtain ⟨rhs, rfl, rfl, hrs, hrn, hdisjoint, -⟩ := hn.side_ok hr
  refine ⟨lhs, rhs, rfl, rfl, indexes_of_indexForests ?_ ?_ hp⟩
  · intro t ht
    exact (List.mem_append.mp ht).elim (hls t) (hrs t)
  · rw [Forest.ofTrees_append, Forest.keys_append, List.nodup_append]
    refine ⟨hln, hrn, fun k hk l hl hkl => ?_⟩
    exact hdisjoint l hl ((hseen l).mpr (.inr (hkl ▸ hk)))

/-- Trees of a store that share no node can be indexed. -/
theorem Coherent.exists_index (hn : nodes.Coherent) (hstores : ∀ t ∈ lhs ++ rhs, nodes.Stores t)
    (hnodup : (Forest.ofTrees (lhs ++ rhs)).keys.Nodup) :
    ∃ p, nodes.index (lhs.map Tree.key) (rhs.map Tree.key) = .ok p := by
  rw [Forest.ofTrees_append, Forest.keys_append, List.nodup_append] at hnodup
  obtain ⟨hln, hrn, hdisjoint⟩ := hnodup
  obtain ⟨hls, hrs⟩ := List.forall_mem_append.mp hstores
  obtain ⟨seen, hl⟩ := exists_side ∅ hls hln (by simp)
  obtain ⟨-, -, -, -, -, -, hseen⟩ := hn.side_ok hl
  have hnew : ∀ k ∈ (Forest.ofTrees rhs).keys, k ∉ seen := by
    intro k hk hmem
    rcases (hseen k).mp hmem with hmem | hmem
    · simp at hmem
    · exact hdisjoint k hmem k hk rfl
  obtain ⟨seen', hr⟩ := exists_side seen hrs hrn hnew
  obtain ⟨p, hp⟩ := exists_indexForests nodes (.ofTrees lhs) (.ofTrees rhs)
  exact ⟨p, index_eq_ok.mpr ⟨_, seen, _, seen', hl, hr, hp⟩⟩

/-- What indexing can complain of. -/
theorem index_error {roots roots' : List Key} {fault : Fault}
    (h : nodes.index roots roots' = .error fault) :
    (∃ k, fault = .outOfRange nodes.size k) ∨ ∃ k, fault = .reachedTwice k := by
  simp only [index, bind_eq_error_iff] at h
  rcases h with hl | ⟨⟨f, seen⟩, -, hr | ⟨⟨g, seen'⟩, -, hp⟩⟩
  · exact side_error hl
  · exact side_error hr
  · obtain ⟨p, hok⟩ := exists_indexForests nodes f g
    rw [hok] at hp
    cases hp

theorem enter_append (table : Array (Option (Tree Linked))) (f g : Forest Linked) :
    enter table (f ++ g) = enter (enter table f) g := by
  induction f generalizing table with
  | nil => rfl
  | cons n children rest _ ih => simp [enter, ih]

end Nodes

theorem Pair.table_of_node {p : Pair} {k : Key} {t : Tree Linked} (h : p.node k = .ok t) :
    p.table.get? k = some (some t) := by
  obtain ⟨_, -, h⟩ := bind_eq_ok_iff.mp h
  split at h
  · cases h
    assumption
  · cases h

namespace Pair.Indexes

variable {nodes : Nodes} {p : Pair} {lhs rhs : List (Tree Node)} {k : Key} {t : Tree Linked}

theorem built_lhs (h : p.Indexes nodes lhs rhs) : p.lhs.built = .ofTrees lhs := by
  rw [← Placed.map_node_number none 0 (Forest.ofTrees lhs).width 1 (.ofTrees lhs)]
  change _ = (Placed.numberSide 1 (.ofTrees lhs)).1.map Placed.node
  rw [← h.placed_lhs, Forest.map_map]
  rfl

theorem built_rhs (h : p.Indexes nodes lhs rhs) : p.rhs.built = .ofTrees rhs := by
  rw [← Placed.map_node_number none 0 (Forest.ofTrees rhs).width
    (Placed.numberSide 1 (.ofTrees lhs)).2 (.ofTrees rhs)]
  change _ = (Placed.numberSide _ (.ofTrees rhs)).1.map Placed.node
  rw [← h.placed_rhs, Forest.map_map]
  rfl

theorem built_all (h : p.Indexes nodes lhs rhs) : p.all.built = .ofTrees (lhs ++ rhs) := by
  rw [all, Forest.built_append, h.built_lhs, h.built_rhs, Forest.ofTrees_append]

theorem nodup_all (h : p.Indexes nodes lhs rhs) : p.all.built.keys.Nodup :=
  h.built_all ▸ h.nodup

/-- No two nodes have the same key. -/
theorem nodup_keys (h : p.Indexes nodes lhs rhs) :
    (p.all.subtrees.map fun t => t.label.node.key).Nodup := by
  rw [← Forest.keys_built]
  exact h.nodup_all

/-- Everything on a side is in the store. -/
theorem stores_built (h : p.Indexes nodes lhs rhs) (hn : nodes.Coherent) (ht : t ∈ p.all.subtrees) :
    nodes.Stores t.built := by
  have hsub : t.built ∈ (Forest.ofTrees (lhs ++ rhs)).subtrees := by
    rw [← h.built_all, Forest.subtrees_built]
    exact List.mem_map_of_mem ht
  exact hn.stores_subtree (by simpa using h.stores) _ hsub

/-- A node is found at its key when it lies on a side, and only then. -/
theorem node_eq_ok_iff (h : p.Indexes nodes lhs rhs) (hn : nodes.Coherent) :
    p.node k = .ok t ↔ t ∈ p.all.subtrees ∧ t.label.node.key = k := by
  have htable : p.table.get? k = (Nodes.enter (nodes.column none).items p.all)[k]? := by
    rw [Store.get?, h.table_eq, all, Nodes.enter_append]
  have hfound : ∀ u ∈ p.all.subtrees, u.label.node.key = k → p.table.get? k = some (some u) := by
    rintro u hu rfl
    rw [htable]
    refine Nodes.getElem?_enter_of_mem h.nodup_all hu ?_
    simpa [Store.column, Tree.built_key] using Store.lt_size_of_get? (h.stores_built hn hu)
  constructor
  · intro hk
    have hget := table_of_node hk
    by_cases hmem : k ∈ p.all.built.keys
    · rw [Forest.keys_built, List.mem_map] at hmem
      obtain ⟨u, hu, hkey⟩ := hmem
      rw [hfound u hu hkey] at hget
      cases hget
      exact ⟨hu, hkey⟩
    · -- The table has nothing at the other keys.
      rw [htable, Nodes.getElem?_enter_of_notMem hmem] at hget
      simp [Store.column, Array.getElem?_replicate] at hget
  · rintro ⟨ht, rfl⟩
    have hget : nodes.get? t.label.node.key = some t.built := h.stores_built hn ht
    simp [node, Nodes.node, h.nodes_eq, hget, hfound t ht rfl, bind, Except.bind, pure, Except.pure]

/-- The nodes on a side are those that the roots reach. -/
theorem reaches_iff (h : p.Indexes nodes lhs rhs) (hn : nodes.Coherent) :
    nodes.Reaches (lhs.map Tree.key ++ rhs.map Tree.key) k ↔
      ∃ t ∈ p.all.subtrees, t.label.node.key = k := by
  rw [← List.map_append, hn.reaches_iff h.stores, ← h.built_all, Forest.keys_built, List.mem_map]

/-- A node that the roots reach is found at its key, over what the store has there. -/
theorem node_of_reaches (h : p.Indexes nodes lhs rhs) (hn : nodes.Coherent)
    (hk : nodes.Reaches (lhs.map Tree.key ++ rhs.map Tree.key) k) :
    ∃ t ∈ p.all.subtrees, p.node k = .ok t ∧ nodes.get? k = some t.built := by
  obtain ⟨t, ht, rfl⟩ := (h.reaches_iff hn).mp hk
  exact ⟨t, ht, (h.node_eq_ok_iff hn).mpr ⟨ht, rfl⟩, h.stores_built hn ht⟩

end Pair.Indexes

/-- What is built for two files can be indexed. -/
theorem Builder.Sound.exists_index {b : Builder} (hb : b.Sound) (before after : List ParseTree) :
    ∃ lhs rhs b' b'' p, b.buildAll before = (.ok lhs, b') ∧ b'.buildAll after = (.ok rhs, b'') ∧
      b''.nodes.index lhs rhs = .ok p := by
  obtain ⟨ts, b', hbefore, hts, -⟩ := Built.buildAll hb before
  obtain ⟨us, b'', hafter, hus, -⟩ := Built.buildAll hts.sound after
  have hboth := hts.append hus
  obtain ⟨p, hp⟩ := hboth.sound.coherent.exists_index hboth.stores hboth.nodup
  exact ⟨_, _, b', b'', p, hbefore, hafter, hp⟩

/-- Two files that are built from nothing, with the given roots, can be indexed at these. -/
theorem Builder.exists_index_of_buildAll (before after : List ParseTree) (lhs rhs : List Key)
    (hl : (empty.buildAll before).1 = .ok lhs)
    (hr : ((empty.buildAll before).2.buildAll after).1 = .ok rhs) :
    ((empty.buildAll before).2.buildAll after).2.Reachable ∧
      ∃ p, ((empty.buildAll before).2.buildAll after).2.nodes.index lhs rhs = .ok p := by
  obtain ⟨_, _, b, b', p, hbefore, hafter, hp⟩ := Reachable.empty.sound.exists_index before after
  refine ⟨.buildAll after (.buildAll before .empty), p, ?_⟩
  rw [hbefore] at hl hr ⊢
  rw [hafter] at hr ⊢
  cases hl
  cases hr
  exact hp

end TwinForest
