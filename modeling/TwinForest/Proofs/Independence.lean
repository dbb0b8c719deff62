import TwinForest.Proofs.Preorder
import TwinForest.Proofs.UniqueContent

/-!
# The left side does not depend on the right

The left side of a pair is numbered, classified and linked before anything of the right side is looked
at, so all that is known of its nodes is the same whatever the right side is. The marks for unique
content are the exception, as the tally has both sides. With more roots on the right, a node can only
lose its mark.
-/

namespace TwinForest

/-- All that is known of a node but its mark. -/
def Linked.unmarked (n : Linked) : Linked :=
  { n with unique := false }

def Classified.unmarked (n : Classified) : Marked :=
  { n with unique := false }

/-! ## The passes over the left side -/

namespace Forest

variable {α : Type u} {β : Type v}

/-- Forests that are put together can be told apart when the first has a given number of trees. -/
theorem append_inj_left {f f' g g' : Forest α} (h : f ++ g = f' ++ g') (hw : f.width = f'.width) :
    f = f' := by
  induction f generalizing f' with
  | nil =>
    cases f' with
    | nil => rfl
    | cons a children rest => simp [width] at hw
  | cons a children rest _ ih =>
    cases f' with
    | nil => simp [width] at hw
    | cons b children' rest' =>
      simp only [cons_append, cons.injEq] at h
      obtain ⟨rfl, rfl, hrest⟩ := h
      rw [ih hrest (Nat.succ.inj hw)]

end Forest

/-- Links do not depend on the marks. -/
theorem Linked.map_unmarked_link (parent previous : Option Key) (f : Forest Marked) :
    (link parent previous f).map unmarked =
      link parent previous ((f.map (·.toClassified)).map Classified.unmarked) := by
  induction f generalizing parent previous with
  | nil => rfl
  | cons n children rest ihc ihr =>
    have hnext : (((rest.map (·.toClassified)).map Classified.unmarked).first?.map
        fun m => m.node.key) = rest.first?.map fun m => m.node.key := by
      cases rest <;> rfl
    simp only [link, Forest.map, ihc, ihr, hnext]
    rfl

namespace Nodes

variable {nodes : Nodes} {ts us : List (Tree Node)}

/-- Trees of a store can be told by their keys. -/
theorem eq_of_map_key (hts : ∀ t ∈ ts, nodes.Stores t) (hus : ∀ t ∈ us, nodes.Stores t)
    (h : ts.map Tree.key = us.map Tree.key) : ts = us :=
  Except.ok.inj ((mapM_item_map_key hts).symm.trans (h ▸ mapM_item_map_key hus))

/-- The pair that is indexed from the keys of some trees comes from these trees. -/
theorem Coherent.indexes_of_map_key (hn : nodes.Coherent) {p : Pair}
    (hts : ∀ t ∈ ts, nodes.Stores t) (hus : ∀ t ∈ us, nodes.Stores t)
    (h : nodes.index (ts.map Tree.key) (us.map Tree.key) = .ok p) : p.Indexes nodes ts us := by
  obtain ⟨lhs, rhs, hl, hr, hindexes⟩ := hn.indexes h
  obtain rfl := eq_of_map_key hts (hindexes.stores_side .lhs) hl
  obtain rfl := eq_of_map_key hus (hindexes.stores_side .rhs) hr
  exact hindexes

end Nodes

namespace Pair

variable {p q : Pair} {nodes nodes' : Nodes} {lhs rhs lhs' rhs' : List (Tree Node)}
  {s t : Tree Linked} {k : Key}

namespace Indexes

/-- The classes of the left side are found before any of the right side is looked up. -/
theorem classified_lhs (h : p.Indexes nodes lhs rhs) :
    p.lhs.map (·.toClassified) = (Classified.classify ∅ (p.lhs.map (·.toPlaced))).1 := by
  have hall := h.classified
  simp only [all, Forest.map_append, Classified.classify_append] at hall
  refine Forest.append_inj_left hall ?_
  rw [← Forest.width_map Classified.toPlaced (Classified.classify _ _).1,
    Classified.map_toPlaced_classify, Forest.width_map, Forest.width_map]

/-- But for the marks, the left side is a function of the trees on the left. -/
theorem unmarked_lhs (h : p.Indexes nodes lhs rhs) :
    p.lhs.map Linked.unmarked = Linked.link none none
      ((Classified.classify ∅ (Placed.numberSide 1 (.ofTrees lhs)).1).1.map
        Classified.unmarked) := by
  have hclassified : (p.lhs.map (·.toMarked)).map (·.toClassified) =
      (Classified.classify ∅ (Placed.numberSide 1 (.ofTrees lhs)).1).1 := by
    rw [← h.placed_lhs, ← h.classified_lhs, Forest.map_map]
    rfl
  rw [h.linked_lhs, Linked.map_unmarked_link, hclassified]

theorem unmarked_lhs_eq (h : p.Indexes nodes lhs rhs) (h' : q.Indexes nodes' lhs rhs') :
    p.lhs.map Linked.unmarked = q.lhs.map Linked.unmarked := by
  rw [h.unmarked_lhs, h'.unmarked_lhs]

/-- A node of the left side is on the left side of the other pair, and differs in its mark only. -/
theorem exists_unmarked_eq (h : p.Indexes nodes lhs rhs) (h' : q.Indexes nodes' lhs rhs')
    (hs : s ∈ p.walk .lhs) :
    ∃ t ∈ q.walk .lhs, s.label.unmarked = t.label.unmarked := by
  have hmem : s.map Linked.unmarked ∈ (q.lhs.map Linked.unmarked).subtrees := by
    rw [← h.unmarked_lhs_eq h', Forest.subtrees_map]
    exact List.mem_map_of_mem (mem_walk.mp hs)
  rw [Forest.subtrees_map, List.mem_map] at hmem
  obtain ⟨t, ht, heq⟩ := hmem
  exact ⟨t, mem_walk.mpr ht, (congrArg Tree.label heq).symm⟩

/-! ## Shared content -/

/-- All nodes of the first pair are nodes of the second one. -/
theorem exists_built_eq (h : p.Indexes nodes lhs rhs) (h' : q.Indexes nodes' lhs' rhs')
    (hsub : ∀ t ∈ lhs ++ rhs, t ∈ lhs' ++ rhs') (hs : s ∈ p.all.subtrees) :
    ∃ t ∈ q.all.subtrees, t.built = s.built := by
  have hmem : s.built ∈ p.all.built.subtrees := by
    rw [Forest.subtrees_built]
    exact List.mem_map_of_mem hs
  rw [h.built_all, Forest.subtrees_ofTrees, List.mem_flatMap] at hmem
  obtain ⟨r, hr, hmem⟩ := hmem
  have hmem' : s.built ∈ q.all.built.subtrees := by
    rw [h'.built_all, Forest.subtrees_ofTrees]
    exact List.mem_flatMap.mpr ⟨r, hsub r hr, hmem⟩
  rw [Forest.subtrees_built, List.mem_map] at hmem'
  exact hmem'

/-- A node with a node of equal content beside it keeps that one among more nodes. -/
theorem shared_of_shared (h : p.Indexes nodes lhs rhs) (h' : q.Indexes nodes' lhs' rhs')
    (hsub : ∀ t ∈ lhs ++ rhs, t ∈ lhs' ++ rhs') (hs : s ∈ p.all.subtrees)
    (ht : t ∈ q.all.subtrees) (hst : t.built = s.built) (hshared : s.label.unique = false) :
    t.label.unique = false := by
  obtain ⟨u, hu, hne, hcontent⟩ := (h.shared_iff hs).mp hshared
  obtain ⟨v, hv, huv⟩ := h.exists_built_eq h' hsub hu
  refine (h'.shared_iff ht).mpr ⟨v, hv, ?_, ?_⟩
  · rw [← Tree.built_key, ← Tree.built_key, huv, hst, Tree.built_key, Tree.built_key]
    exact hne
  · rw [h'.contentId_eq_iff hv ht, huv, hst, ← h.contentId_eq_iff hu hs]
    exact hcontent

end Indexes

/-! ## Pairs of one store, and of files -/

theorem map_label_walk {α : Type} (p : Pair) (side : Side) (g : Linked → α) :
    (p.walk side).map (fun t => g t.label) = ((p.forest side).map g).preorder := by
  rw [walk, Forest.walk_eq_subtrees, Forest.preorder_map, Forest.preorder_eq_map_subtrees,
    List.map_map]
  rfl

/-- With any file after it, the trees that are built for a file become the left side, and the trees of
the file after it the right side. -/
theorem exists_ofTrees_built {b : Builder} {before : List ParseTree}
    (hbefore : Builder.empty.buildAll before = (.ok (lhs.map Tree.key), b))
    (hbuilt : Builder.Built .empty b lhs) (after : List ParseTree) :
    ∃ (p : Pair) (b' : Builder) (rhs : List (Tree Node)), ofTrees before after = .ok p ∧
      b'.Reachable ∧ p.Indexes b'.nodes lhs rhs ∧
      rhs.map Tree.parseTree = after.map ParseTree.normalize := by
  obtain ⟨rhs, b', hafter, hbuilt', hread⟩ := Builder.Built.buildAll hbuilt.sound after
  have hboth := hbuilt.append hbuilt'
  have hn := hboth.sound.coherent
  obtain ⟨hls, hrs⟩ := List.forall_mem_append.mp hboth.stores
  obtain ⟨p, hp⟩ := hn.exists_index hboth.stores hboth.nodup
  refine ⟨p, b', rhs, ?_, ?_, hn.indexes_of_map_key hls hrs hp, hread⟩
  · simp only [ofTrees, hbefore, hafter]
    exact hp
  · simpa only [hbefore, hafter] using (Builder.Reachable.empty.buildAll before).buildAll after

theorem exists_ofTrees_indexes {b : Builder} {before : List ParseTree}
    (hbefore : Builder.empty.buildAll before = (.ok (lhs.map Tree.key), b))
    (hbuilt : Builder.Built .empty b lhs) (after : List ParseTree) :
    ∃ p nodes rhs, ofTrees before after = .ok p ∧ p.Indexes nodes lhs rhs := by
  obtain ⟨p, b', rhs, hp, -, h, -⟩ := exists_ofTrees_built hbefore hbuilt after
  exact ⟨p, b'.nodes, rhs, hp, h⟩

/-- Whatever roots a store is indexed with on the right, the nodes on the left differ in their marks
only, and with more roots on the right all that is shared stays so. The same holds of one file that is
indexed with different files after it. -/
theorem lhs_independent_of_rhs {b : Builder} (hb : b.Reachable) {roots others others' : List Key}
    (hp : b.nodes.index roots others = .ok p) (hq : b.nodes.index roots others' = .ok q) :
    (∀ k, b.nodes.Reaches roots k → ∃ s t, p.node k = .ok s ∧ q.node k = .ok t ∧
        s.label.unmarked = t.label.unmarked) ∧
      (∀ more, others' = others ++ more → ∀ k, b.nodes.Reaches (roots ++ others) k →
        ∃ s t, p.node k = .ok s ∧ q.node k = .ok t ∧
          (s.label.unique = false → t.label.unique = false)) ∧
      ∀ before after after' : List ParseTree, ∃ p' q', ofTrees before after = .ok p' ∧
        ofTrees before after' = .ok q' ∧
        (p'.walk .lhs).map (·.label.unmarked) = (q'.walk .lhs).map (·.label.unmarked) := by
  have hn := hb.sound.coherent
  obtain ⟨lhs, rhs, rfl, rfl, h⟩ := hn.indexes hp
  obtain ⟨lhs', rhs', hroots, rfl, h'⟩ := hn.indexes hq
  obtain rfl := Nodes.eq_of_map_key (h.stores_side .lhs) (h'.stores_side .lhs) hroots
  refine ⟨fun k hk => ?_, ?_, ?_⟩
  · have hreach : b.nodes.Reaches ((Side.pick lhs rhs .lhs).map Tree.key) k := hk
    obtain ⟨s, hs, rfl⟩ := (h.reaches_side_iff hn).mp hreach
    obtain ⟨t, ht, heq⟩ := h.exists_unmarked_eq h' hs
    have hkey : s.label.node.key = t.label.node.key := congrArg (fun n => n.node.key) heq
    exact ⟨s, t, h.node_eq hn hs, hkey ▸ h'.node_eq hn ht, heq⟩
  · intro more hmore k hk
    have hsub : ∀ t ∈ lhs ++ rhs, t ∈ lhs ++ rhs' := by
      obtain ⟨us, vs, rfl, hus, -⟩ := List.map_eq_append_iff.mp hmore
      have hstores : ∀ t ∈ us, b.nodes.Stores t := fun t ht =>
        h'.stores_side .rhs t (List.mem_append_left vs ht)
      obtain rfl := Nodes.eq_of_map_key hstores (h.stores_side .rhs) hus
      intro t ht
      rw [← List.append_assoc]
      exact List.mem_append_left vs ht
    obtain ⟨s, hs, hnode, hget⟩ := h.node_of_reaches hn hk
    obtain ⟨t, ht, hst⟩ := h.exists_built_eq h' hsub hs
    have hkey : t.label.node.key = k :=
      (congrArg Tree.key hst).trans (hn.key_of_get? hget)
    exact ⟨s, t, hnode, (h'.node_eq_ok_iff hn).mpr ⟨ht, hkey⟩,
      h.shared_of_shared h' hsub hs ht hst⟩
  · intro before after after'
    obtain ⟨ts, b', hbefore, hbuilt, -⟩ := Builder.Built.buildAll Builder.Reachable.empty.sound before
    obtain ⟨p', _, _, hp', hindexes⟩ := exists_ofTrees_indexes hbefore hbuilt after
    obtain ⟨q', _, _, hq', hindexes'⟩ := exists_ofTrees_indexes hbefore hbuilt after'
    refine ⟨p', q', hp', hq', ?_⟩
    rw [map_label_walk, map_label_walk]
    exact congrArg Forest.preorder (hindexes.unmarked_lhs_eq hindexes')

/-- Two atoms on the left, of which one is on the right as well, and then both are. -/
theorem lhs_independent_of_second_atom :
    ∃ (b : Builder) (p q : Pair),
      b = (Builder.empty.buildAll [.atom ⟨[], "x", .normal⟩, .atom ⟨[], "y", .normal⟩,
        .atom ⟨[], "y", .normal⟩, .atom ⟨[], "x", .normal⟩]).2 ∧
      b.nodes.index [0, 1] [2] = .ok p ∧ b.nodes.index [0, 1] [2, 3] = .ok q ∧
      (∃ s t, p.node 0 = .ok s ∧ q.node 0 = .ok t ∧ s.label.unmarked = t.label.unmarked) ∧
      ∃ s t, p.node 1 = .ok s ∧ q.node 1 = .ok t ∧
        (s.label.unique = false → t.label.unique = false) := by
  let leaf (key : Key) (content : String) : Tree Node := ⟨⟨key, .atom ⟨[], content, .normal⟩⟩, .nil⟩
  let b : Builder := (Builder.empty.buildAll [.atom ⟨[], "x", .normal⟩, .atom ⟨[], "y", .normal⟩,
    .atom ⟨[], "y", .normal⟩, .atom ⟨[], "x", .normal⟩]).2
  have hb : b.Reachable := .buildAll _ .empty
  have hstores : ∀ t ∈ [leaf 0 "x", leaf 1 "y"] ++ [leaf 2 "y"], b.nodes.Stores t := by
    unfold Nodes.Stores
    decide
  have hstores' : ∀ t ∈ [leaf 0 "x", leaf 1 "y"] ++ [leaf 2 "y", leaf 3 "x"], b.nodes.Stores t := by
    unfold Nodes.Stores
    decide
  obtain ⟨p, hp⟩ := hb.sound.coherent.exists_index hstores (by decide)
  obtain ⟨q, hq⟩ := hb.sound.coherent.exists_index hstores' (by decide)
  obtain ⟨hsame, hshared, -⟩ := lhs_independent_of_rhs hb hp hq
  exact ⟨b, p, q, rfl, hp, hq, hsame 0 (.root (by decide)), hshared [3] rfl 1 (.root (by decide))⟩

end Pair

end TwinForest
