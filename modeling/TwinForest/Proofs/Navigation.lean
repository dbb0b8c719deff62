import TwinForest.Proofs.Indexing

/-!
# Navigation in a pair

Every key that an indexed pair hands out leads to a node: the keys of the roots, those of the
children that the store has below a node, and the links of a node. Nothing that is read from a pair
is missing, so two files can be built, indexed and read without a fault.
-/

namespace TwinForest

/-! ## Where links lead -/

def LeadsInto (keys : List Key) (link : Option Key) : Prop :=
  ∀ key ∈ link, key ∈ keys

theorem leadsInto_none (keys : List Key) : LeadsInto keys none := by
  simp [LeadsInto]

theorem leadsInto_some {keys : List Key} {key : Key} : LeadsInto keys (some key) ↔ key ∈ keys := by
  simp [LeadsInto]

theorem LeadsInto.orElse {keys : List Key} {a b : Option Key} (ha : LeadsInto keys a)
    (hb : LeadsInto keys b) : LeadsInto keys (a <|> b) := by
  cases a with
  | none => exact hb
  | some key => exact ha

/-- The parents of numbered nodes are the given one and nodes of the forest. -/
theorem Placed.parent_leadsInto {keys : List Key} {parent : Option Key}
    (ancestors waiting : Nat) (next : NodeId) {f : Forest Node} (hparent : LeadsInto keys parent)
    (hf : ∀ k ∈ f.keys, k ∈ keys) :
    ∀ n ∈ (number parent ancestors waiting next f).1.preorder, LeadsInto keys n.parent := by
  induction f generalizing parent ancestors waiting next with
  | nil => simp [number, Forest.preorder]
  | cons n children rest ihc ihr =>
    simp only [Forest.keys_cons, List.forall_mem_cons, List.forall_mem_append] at hf
    obtain ⟨hn, hc, hr⟩ := hf
    simp only [number, Forest.preorder, List.forall_mem_cons, List.forall_mem_append]
    exact ⟨hparent, ihc _ _ _ (leadsInto_some.mpr hn) hc, ihr _ _ _ hparent hr⟩

/-- The links of linked nodes are the given ones and nodes of the forest. -/
theorem Linked.siblings_leadInto {keys : List Key} {parent previous : Option Key}
    {f : Forest Marked} (hparent : LeadsInto keys parent) (hprevious : LeadsInto keys previous)
    (hf : ∀ n ∈ f.preorder, n.node.key ∈ keys) :
    ∀ n ∈ (link parent previous f).preorder, LeadsInto keys n.previousSibling ∧
      LeadsInto keys n.nextSibling ∧ LeadsInto keys n.prev := by
  induction f generalizing parent previous with
  | nil => simp [link, Forest.preorder]
  | cons n children rest ihc ihr =>
    simp only [Forest.preorder, List.forall_mem_cons, List.forall_mem_append] at hf
    obtain ⟨hn, hc, hr⟩ := hf
    have hself : LeadsInto keys (some n.node.key) := leadsInto_some.mpr hn
    have hnext : LeadsInto keys (rest.first?.map (·.node.key)) := by
      cases rest with
      | nil => exact leadsInto_none keys
      | cons m _ _ => exact leadsInto_some.mpr (hr m (by simp [Forest.preorder]))
    simp only [link, Forest.preorder, List.forall_mem_cons, List.forall_mem_append]
    exact ⟨⟨hprevious, hnext, hprevious.orElse hparent⟩,
      ihc hself (leadsInto_none keys) hc, ihr hparent hself hr⟩

/-! ## Look-ups -/

namespace Pair

variable {p : Pair} {nodes : Nodes} {lhs rhs : List (Tree Node)} {t : Tree Linked}

def children (p : Pair) (key : Key) : Except Fault (List (Tree Linked)) := do
  let t ← p.nodes.node key
  t.childKeys.mapM p.node

/-- A walk over the trees on a stack visits the given nodes. Each visit takes a tree from the stack
and puts in its place the children that are looked up for it. -/
inductive Visits (p : Pair) : List (Tree Linked) → List (Tree Linked) → Prop where
  | done : Visits p [] []
  | visit {t : Tree Linked} {children stack visited : List (Tree Linked)} :
      p.children t.label.node.key = .ok children → Visits p (children ++ stack) visited →
      Visits p (t :: stack) (t :: visited)

def Arrives (p : Pair) (side : Side) (target : Except Fault (Option (Tree Linked))) : Prop :=
  ∃ r, target = .ok r ∧ ∀ t ∈ r, t ∈ p.walk side

/-- All that can be read from a pair is there: its nodes, with their children and links, the nodes
that a walk visits and a dump shows, and the comments. -/
structure Navigable (p : Pair) : Prop where
  node : ∀ side, ∀ t ∈ p.walk side, p.node t.label.node.key = .ok t
  children : ∀ side, ∀ t ∈ p.walk side, p.children t.label.node.key = .ok t.children.trees
  walk : ∀ side, p.Visits (p.roots side) (p.walk side)
  dump : ∀ side, ∃ visited, p.Visits (p.roots side) visited ∧
    p.dumpSide side = side.name ++ "\n" ++ String.join (visited.map fun t => dumpLine t.label)
  parent : ∀ side, ∀ t ∈ p.walk side, p.Arrives side (p.parent t.label)
  previousSibling : ∀ side, ∀ t ∈ p.walk side, p.Arrives side (p.previousSibling t.label)
  nextSibling : ∀ side, ∀ t ∈ p.walk side, p.Arrives side (p.nextSibling t.label)
  prev : ∀ side, ∀ t ∈ p.walk side, p.Arrives side (p.prev t.label)
  commentPositions : ∀ side, ∃ spans, p.commentPositions side = .ok spans

theorem mem_walk {side : Side} : t ∈ p.walk side ↔ t ∈ (p.forest side).subtrees := by
  rw [walk, Forest.walk_eq_subtrees]

theorem mem_walk_of_mem_roots {side : Side} (ht : t ∈ p.roots side) : t ∈ p.walk side :=
  mem_walk.mpr (Forest.mem_subtrees_of_mem_trees ht)

theorem mem_all_of_mem_walk {side : Side} (ht : t ∈ p.walk side) : t ∈ p.all.subtrees := by
  rw [all, Forest.subtrees_append, List.mem_append]
  cases side with
  | lhs => exact .inl (mem_walk.mp ht)
  | rhs => exact .inr (mem_walk.mp ht)

namespace Indexes

variable {side : Side}

/-- The nodes of a side have the places that a numbering of the side gave them. -/
theorem placed (h : p.Indexes nodes lhs rhs) (side : Side) :
    ∃ next, (p.forest side).map (·.toPlaced) =
      (Placed.numberSide next (p.forest side).built).1 := by
  cases side with
  | lhs => exact ⟨_, h.built_lhs ▸ h.placed_lhs⟩
  | rhs => exact ⟨_, h.built_rhs ▸ h.placed_rhs⟩

theorem linked (h : p.Indexes nodes lhs rhs) (side : Side) :
    p.forest side = Linked.link none none ((p.forest side).map (·.toMarked)) := by
  cases side with
  | lhs => exact h.linked_lhs
  | rhs => exact h.linked_rhs

theorem node_eq (h : p.Indexes nodes lhs rhs) (hn : nodes.Coherent) (ht : t ∈ p.walk side) :
    p.node t.label.node.key = .ok t :=
  (h.node_eq_ok_iff hn).mpr ⟨mem_all_of_mem_walk ht, rfl⟩

theorem nodes_node_eq (h : p.Indexes nodes lhs rhs) (hn : nodes.Coherent)
    (ht : t ∈ p.walk side) : p.nodes.node t.label.node.key = .ok t.built := by
  have hget : nodes.get? t.label.node.key = some t.built :=
    h.stores_built hn (mem_all_of_mem_walk ht)
  simp [Nodes.node, h.nodes_eq, hget]

/-- The children that the store has below a node are those that it has on its side. -/
theorem children_eq (h : p.Indexes nodes lhs rhs) (hn : nodes.Coherent)
    (ht : t ∈ p.walk side) : p.children t.label.node.key = .ok t.children.trees := by
  rw [Pair.children, h.nodes_node_eq hn ht]
  change t.built.childKeys.mapM p.node = _
  rw [Tree.childKeys_built]
  refine mapM_eq_ok fun c hc => ?_
  have hwalk : c ∈ p.walk side := mem_walk.mpr (Forest.mem_subtrees_child (mem_walk.mp ht) hc)
  exact h.node_eq hn hwalk

/-- A walk over the trees of a forest visits all its nodes before what is left on the stack. -/
theorem visits_append (h : p.Indexes nodes lhs rhs) (hn : nodes.Coherent) {f : Forest Linked}
    (hf : ∀ t ∈ f.subtrees, t ∈ p.walk side) {stack visited : List (Tree Linked)}
    (hv : p.Visits stack visited) : p.Visits (f.trees ++ stack) (f.subtrees ++ visited) := by
  induction f generalizing stack visited with
  | nil => exact hv
  | cons n children rest ihc ihr =>
    simp only [Forest.subtrees, List.forall_mem_cons, List.forall_mem_append] at hf
    obtain ⟨hroot, hc, hr⟩ := hf
    simp only [Forest.trees, Forest.subtrees, List.cons_append, List.append_assoc]
    exact .visit (h.children_eq hn hroot) (ihc hc (ihr hr hv))

theorem visits_walk (h : p.Indexes nodes lhs rhs) (hn : nodes.Coherent) (side : Side) :
    p.Visits (p.roots side) (p.walk side) := by
  have hvisits := h.visits_append hn (f := p.forest side) (fun _ ht => mem_walk.mpr ht) .done
  rw [List.append_nil, List.append_nil, ← Forest.walk_eq_subtrees] at hvisits
  exact hvisits

/-- A link to a key of a side leads to a node of the side. -/
theorem arrives_follow (h : p.Indexes nodes lhs rhs) (hn : nodes.Coherent) {link : Option Key}
    (hlink : LeadsInto (p.forest side).built.keys link) : p.Arrives side (p.follow link) := by
  cases link with
  | none => exact ⟨none, rfl, by simp⟩
  | some key =>
    have hkey := leadsInto_some.mp hlink
    rw [Forest.keys_built, List.mem_map] at hkey
    obtain ⟨t, ht, rfl⟩ := hkey
    have ht := mem_walk.mpr ht
    refine ⟨some t, ?_, by simpa using ht⟩
    rw [follow, h.node_eq hn ht]
    rfl

theorem parent_leadsInto (h : p.Indexes nodes lhs rhs) (ht : t ∈ p.walk side) :
    LeadsInto (p.forest side).built.keys t.label.parent := by
  obtain ⟨next, hplaced⟩ := h.placed side
  have hmem : t.label.toPlaced ∈ ((p.forest side).map fun n => n.toPlaced).preorder := by
    rw [Forest.preorder_map, Forest.preorder_eq_map_subtrees]
    exact List.mem_map_of_mem (List.mem_map_of_mem (mem_walk.mp ht))
  rw [hplaced] at hmem
  exact Placed.parent_leadsInto _ _ _ (leadsInto_none _) (fun k hk => hk) _ hmem

theorem siblings_leadInto (h : p.Indexes nodes lhs rhs) (ht : t ∈ p.walk side) :
    LeadsInto (p.forest side).built.keys t.label.previousSibling ∧
      LeadsInto (p.forest side).built.keys t.label.nextSibling ∧
      LeadsInto (p.forest side).built.keys t.label.prev := by
  have hkeys : ∀ n ∈ ((p.forest side).map fun n => n.toMarked).preorder,
      n.node.key ∈ (p.forest side).built.keys := by
    intro n hn
    rw [Forest.preorder_map, Forest.preorder_eq_map_subtrees, List.map_map, List.mem_map] at hn
    obtain ⟨u, hu, rfl⟩ := hn
    rw [Forest.keys_built]
    exact List.mem_map_of_mem hu
  have hmem : t.label ∈ (p.forest side).preorder := by
    rw [Forest.preorder_eq_map_subtrees]
    exact List.mem_map_of_mem (mem_walk.mp ht)
  rw [h.linked side] at hmem
  exact Linked.siblings_leadInto (leadsInto_none _) (leadsInto_none _) hkeys _ hmem

/-- The roots that were indexed are found at their keys. -/
theorem mapM_node_roots (h : p.Indexes nodes lhs rhs) (hn : nodes.Coherent) (side : Side) :
    ((p.roots side).map fun t => t.label.node.key).mapM p.node = .ok (p.roots side) :=
  mapM_eq_ok fun _ ht => h.node_eq hn (mem_walk_of_mem_roots ht)

theorem commentPositions_eq (h : p.Indexes nodes lhs rhs) (hn : nodes.Coherent) (side : Side) :
    p.commentPositions side = .ok (((p.roots side).map Tree.built).flatMap Nodes.commentsOf) := by
  have hkeys : (p.forest side).roots.map (·.node.key) =
      ((p.roots side).map Tree.built).map Tree.key := by
    rw [Forest.roots_eq_map_trees, List.map_map, List.map_map]
    rfl
  have hroots : ∀ t ∈ (p.roots side).map Tree.built, nodes.Stores t := by
    intro t ht
    obtain ⟨u, hu, rfl⟩ := List.mem_map.mp ht
    exact h.stores_built hn (mem_all_of_mem_walk (mem_walk_of_mem_roots hu))
  rw [commentPositions, hkeys, h.nodes_eq, Nodes.commentPositions_map_key hroots]

/-- An indexed pair is navigable. -/
theorem navigable (h : p.Indexes nodes lhs rhs) (hn : nodes.Coherent) : p.Navigable where
  node _ _ ht := h.node_eq hn ht
  children _ _ ht := h.children_eq hn ht
  walk := h.visits_walk hn
  dump side := ⟨p.walk side, h.visits_walk hn side, rfl⟩
  parent _ _ ht := h.arrives_follow hn (h.parent_leadsInto ht)
  previousSibling _ _ ht := h.arrives_follow hn (h.siblings_leadInto ht).1
  nextSibling _ _ ht := h.arrives_follow hn (h.siblings_leadInto ht).2.1
  prev _ _ ht := h.arrives_follow hn (h.siblings_leadInto ht).2.2
  commentPositions side := ⟨_, h.commentPositions_eq hn side⟩

end Indexes

/-- Two files can always be built one after the other, indexed and read. No step of it faults, and
the roots of the pair are what was built. -/
theorem ofTrees_navigable (before after : List ParseTree) :
    ∃ lhs rhs b b' p, Builder.empty.buildAll before = (.ok lhs, b) ∧
      b.buildAll after = (.ok rhs, b') ∧ b'.nodes.index lhs rhs = .ok p ∧
      Pair.ofTrees before after = .ok p ∧ lhs.mapM p.node = .ok (p.roots .lhs) ∧
      rhs.mapM p.node = .ok (p.roots .rhs) ∧ p.Navigable := by
  obtain ⟨lhs, rhs, b, b', p, hbefore, hafter, hindex⟩ :=
    Builder.Reachable.empty.sound.exists_index before after
  have hreach : b'.Reachable := by
    simpa only [hbefore, hafter] using (Builder.Reachable.empty.buildAll before).buildAll after
  have hn := hreach.sound.coherent
  obtain ⟨ls, rs, rfl, rfl, h⟩ := hn.indexes hindex
  refine ⟨_, _, b, b', p, hbefore, hafter, hindex, ?_, ?_, ?_, h.navigable hn⟩
  · simp only [Pair.ofTrees, hbefore, hafter]
    exact hindex
  · rw [Forest.map_key_of_built h.built_lhs]
    exact h.mapM_node_roots hn .lhs
  · rw [Forest.map_key_of_built h.built_rhs]
    exact h.mapM_node_roots hn .rhs

end Pair

end TwinForest
