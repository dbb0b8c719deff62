import TwinForest.Node
import TwinForest.Proofs.Except
import TwinForest.Proofs.Forest

/-!
# Stores of nodes

A store has every node together with what lies below it. It is coherent when these agree: a node is
found at the key that it carries, and so is every child of it. Which nodes some roots reach can then
be told by keys, child by child, or by the trees that the store has at the roots.

## Main definitions

* `Nodes.Stores`, `Nodes.Coherent`: a tree is found at its key; so is everything below it.
* `Nodes.Reaches`: a node is a root, or a child of a node that is reached.
* `Nodes.Below`: a node is reached from the children of another one.
* `Forest.keys`: the keys of a forest in pre-order.

## Main results

* `Nodes.Coherent.alloc`: a new node above stored ones keeps a store coherent.
* `Nodes.Coherent.reaches_iff`: roots reach the keys of their forest, and no others.
* `Nodes.Coherent.below_iff`: the keys below a node are those of its tree.
-/

namespace TwinForest

/-! ## Look-ups -/

namespace Store

variable {α : Type u} {s : Store α} {a : α} {k : Key}

@[simp] theorem size_alloc (s : Store α) (a : α) : (s.alloc a).2.size = s.size + 1 := by
  simp [alloc, size]

@[simp] theorem size_put (s : Store α) (k : Key) (a : α) : (s.put k a).size = s.size := by
  simp [put, size]

theorem lt_size_of_get? (h : s.get? k = some a) : k < s.size :=
  (Array.getElem?_eq_some_iff.mp h).1

theorem get?_alloc (s : Store α) (a : α) (k : Key) :
    (s.alloc a).2.get? k = if k = s.size then some a else s.get? k := by
  simp only [alloc, get?, Array.getElem?_push]
  rfl

theorem get?_alloc_of_lt (a : α) (h : k < s.size) : (s.alloc a).2.get? k = s.get? k := by
  rw [get?_alloc, if_neg (Nat.ne_of_lt h)]

theorem get?_put_ne {l : Key} (h : l ≠ k) (a : α) : (s.put l a).get? k = s.get? k := by
  simp [put, get?, Array.getElem?_setIfInBounds_ne h]

theorem get?_put_self (a : α) (h : k < s.size) : (s.put k a).get? k = some a := by
  simp [put, get?, Array.getElem?_setIfInBounds_self_of_lt h]

theorem item_eq_ok_iff : s.item k = .ok a ↔ s.get? k = some a := by
  unfold item
  cases s.get? k <;> simp

end Store

/-! ## Keys -/

theorem Tree.childKeys_eq (t : Tree Node) : t.childKeys = t.children.trees.map Tree.key := by
  simp [Tree.childKeys, Forest.roots_eq_map_trees, Tree.key]

namespace Forest

def keys (f : Forest Node) : List Key :=
  f.preorder.map Node.key

@[simp] theorem keys_nil : keys .nil = [] := rfl

@[simp] theorem keys_cons (n : Node) (children rest : Forest Node) :
    keys (.cons n children rest) = n.key :: (children.keys ++ rest.keys) := by
  simp [keys, preorder]

@[simp] theorem keys_append (f g : Forest Node) : (f ++ g).keys = f.keys ++ g.keys := by
  simp [keys]

theorem keys_eq_map_subtrees (f : Forest Node) : f.keys = f.subtrees.map Tree.key := by
  simp [keys, preorder_eq_map_subtrees, Tree.key]

/-- The keys of the roots come in order among those of all nodes. -/
theorem map_key_sublist_keys (ts : List (Tree Node)) :
    (ts.map Tree.key).Sublist (ofTrees ts).keys := by
  have hroots := (ofTrees ts).trees_sublist_subtrees.map Tree.key
  rwa [trees_ofTrees, ← keys_eq_map_subtrees] at hroots

theorem mem_keys {f : Forest Node} {k : Key} : k ∈ f.keys ↔ ∃ t ∈ f.subtrees, t.key = k := by
  rw [keys_eq_map_subtrees, List.mem_map]

end Forest

namespace Nodes

variable {nodes : Nodes} {s t : Tree Node} {k : Key}

def Stores (nodes : Nodes) (t : Tree Node) : Prop :=
  nodes.get? t.key = some t

/-- Every node is found at the key that it carries, and every child of it as well. -/
structure Coherent (nodes : Nodes) : Prop where
  key_of_get? : ∀ {k t}, nodes.get? k = some t → t.key = k
  stores_child : ∀ {t}, nodes.Stores t → ∀ c ∈ t.children.trees, nodes.Stores c

inductive Reaches (nodes : Nodes) (roots : List Key) : Key → Prop where
  | root {key : Key} : key ∈ roots → Reaches nodes roots key
  | child {key parent : Key} {t : Tree Node} : Reaches nodes roots parent →
      nodes.get? parent = some t → key ∈ t.childKeys → Reaches nodes roots key

/-- The second key lies below the first: it is reached from the children of the node there. -/
def Below (nodes : Nodes) (k l : Key) : Prop :=
  ∃ t, nodes.get? k = some t ∧ nodes.Reaches t.childKeys l

/-- The trees of a store are found at their keys. -/
theorem mapM_item_map_key {ts : List (Tree Node)} (hts : ∀ t ∈ ts, nodes.Stores t) :
    (ts.map Tree.key).mapM nodes.item = .ok ts :=
  mapM_eq_ok fun t ht => Store.item_eq_ok_iff.mpr (hts t ht)

/-- The comments below some trees of a store are those of the trees, one after the other. -/
theorem commentPositions_map_key {ts : List (Tree Node)} (hts : ∀ t ∈ ts, nodes.Stores t) :
    nodes.commentPositions (ts.map Tree.key) = .ok (ts.flatMap commentsOf) := by
  have hnodes : (ts.map Tree.key).mapM nodes.node = .ok ts := by
    refine mapM_eq_ok fun t ht => ?_
    have hget : nodes.get? t.key = some t := hts t ht
    simp [node, hget]
  rw [commentPositions, hnodes]
  rfl

namespace Coherent

theorem stores_of_get? (hn : nodes.Coherent) (h : nodes.get? k = some t) : nodes.Stores t := by
  rw [Stores, hn.key_of_get? h, h]

theorem empty : Coherent Store.empty where
  key_of_get? h := by simp [Store.empty, Store.get?] at h
  stores_child h := by simp [Stores, Store.empty, Store.get?] at h

/-- A new node above stored ones keeps a store coherent. -/
theorem alloc (hn : nodes.Coherent) {form : Form} {children : Forest Node}
    (hc : ∀ c ∈ children.trees, nodes.Stores c) :
    Coherent (nodes.alloc ⟨⟨nodes.size, form⟩, children⟩).2 where
  key_of_get? {k t} h := by
    rw [Store.get?_alloc] at h
    split at h
    · cases h
      exact (Eq.symm ‹_›)
    · exact hn.key_of_get? h
  stores_child {t} h c hct := by
    have old : ∀ {u}, nodes.Stores u → Stores (nodes.alloc ⟨⟨nodes.size, form⟩, children⟩).2 u :=
      fun hu => (Store.get?_alloc_of_lt _ (Store.lt_size_of_get? hu)).trans hu
    rw [Stores, Store.get?_alloc] at h
    split at h
    · cases h
      exact old (hc c hct)
    · exact old (hn.stores_child h c hct)

/-- With its roots, everything in a forest is found at its key. -/
theorem stores_subtree (hn : nodes.Coherent) {f : Forest Node}
    (hf : ∀ t ∈ f.trees, nodes.Stores t) : ∀ s ∈ f.subtrees, nodes.Stores s :=
  Forest.forall_subtrees hf fun _ ht => hn.stores_child ht

/-- What the look-up of some keys gives are the trees that the store has there. -/
theorem mapM_item (hn : nodes.Coherent) {keys : List Key} {ts : List (Tree Node)}
    (h : keys.mapM nodes.item = .ok ts) : ts.map Tree.key = keys ∧ ∀ t ∈ ts, nodes.Stores t := by
  induction keys generalizing ts with
  | nil => cases h; simp
  | cons k keys ih =>
    rw [List.mapM_cons] at h
    obtain ⟨t, hk, h⟩ := bind_eq_ok_iff.mp h
    obtain ⟨us, hks, h⟩ := bind_eq_ok_iff.mp h
    cases h
    have hget := Store.item_eq_ok_iff.mp hk
    obtain ⟨hkeys, hus⟩ := ih hks
    refine ⟨by rw [List.map_cons, hkeys, hn.key_of_get? hget], ?_⟩
    intro u hu
    rcases List.mem_cons.mp hu with rfl | hu
    · exact hn.stores_of_get? hget
    · exact hus u hu

theorem reaches_subtree (hn : nodes.Coherent) {roots : List Key} {f : Forest Node}
    (hs : ∀ t ∈ f.trees, nodes.Stores t) (hr : ∀ t ∈ f.trees, nodes.Reaches roots t.key) :
    ∀ s ∈ f.subtrees, nodes.Reaches roots s.key := by
  have hboth : ∀ s ∈ f.subtrees, nodes.Stores s ∧ nodes.Reaches roots s.key := by
    refine Forest.forall_subtrees (fun t ht => ⟨hs t ht, hr t ht⟩) ?_
    rintro t ⟨hstored, hreach⟩ c hc
    refine ⟨hn.stores_child hstored c hc, hreach.child hstored ?_⟩
    rw [Tree.childKeys_eq]
    exact List.mem_map_of_mem hc
  exact fun s hmem => (hboth s hmem).2

/-- Roots reach the keys of the forest that the store has at them, and no others. -/
theorem reaches_iff (hn : nodes.Coherent) {ts : List (Tree Node)}
    (hts : ∀ t ∈ ts, nodes.Stores t) :
    nodes.Reaches (ts.map Tree.key) k ↔ k ∈ (Forest.ofTrees ts).keys := by
  have hstored : ∀ s ∈ (Forest.ofTrees ts).subtrees, nodes.Stores s :=
    hn.stores_subtree (by simpa using hts)
  constructor
  · intro h
    induction h with
    | root hk => exact (Forest.map_key_sublist_keys ts).subset hk
    | child _ hget hk ih =>
      obtain ⟨t, ht, rfl⟩ := Forest.mem_keys.mp ih
      obtain rfl := Option.some.inj ((hstored t ht).symm.trans hget)
      rw [Tree.childKeys_eq] at hk
      obtain ⟨c, hc, rfl⟩ := List.mem_map.mp hk
      exact Forest.mem_keys.mpr ⟨c, Forest.mem_subtrees_child ht hc, rfl⟩
  · intro h
    obtain ⟨s, hs, rfl⟩ := Forest.mem_keys.mp h
    refine hn.reaches_subtree (by simpa using hts) ?_ s hs
    intro t ht
    exact .root (List.mem_map_of_mem (by simpa using ht))

/-- What lies below a node are the keys of its children's forest. -/
theorem below_iff (hn : nodes.Coherent) {l : Key} (hget : nodes.get? k = some t) :
    nodes.Below k l ↔ l ∈ t.children.keys := by
  have hchildren : nodes.Reaches t.childKeys l ↔ l ∈ t.children.keys := by
    rw [Tree.childKeys_eq, hn.reaches_iff (hn.stores_child (hn.stores_of_get? hget)),
      Forest.ofTrees_trees]
  constructor
  · rintro ⟨u, hu, hreach⟩
    obtain rfl := Option.some.inj (hget.symm.trans hu)
    exact hchildren.mp hreach
  · intro hl
    exact ⟨t, hget, hchildren.mpr hl⟩

end Coherent

end Nodes

end TwinForest
