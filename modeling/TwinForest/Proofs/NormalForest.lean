import Mathlib.Data.Set.Card
import TwinForest.Proofs.Descendants

/-!
# Stores are forests in normal form

However a builder was called, and whether or not the calls failed, its nodes are a forest in normal
form. A node is flagged before it becomes a child and never loses its flag, so it has one parent at
most. A list comes after its children in the store, so nothing lies below itself. From these two it
follows that the trees at two keys share nothing unless one of them lies within the other, and so
that a list counts every node below it once.

## Main definitions

* `Nodes.childKeys`: the keys of all children in a store.
* `Tree.Normal`: what a builder sees to at a single node.
* `Builder.Normalizing`: what all calls keep.
* `Builder.NormalForest`: the forest in normal form, told by keys.

## Main results

* `Nodes.nested_of_reaches`: with one parent for each node, trees that meet are nested.
* `Builder.Normalizing.nodup_keys_children`: no node lies twice below another.
* `Builder.Reachable.normalForest`: every reachable builder has a forest in normal form.
-/

namespace TwinForest

/-- A list without repetitions has as many members as its length tells. -/
theorem encard_mem_of_nodup {α : Type u} [DecidableEq α] {l : List α} (h : l.Nodup) :
    {a | a ∈ l}.encard = l.length := by
  rw [← List.coe_toFinset, Set.encard_coe_eq_coe_finsetCard, List.toFinset_card_of_nodup h]

namespace Nodes

variable {nodes : Nodes} {roots : List Key} {c k l x : Key} {s t : Tree Node}

/-! ## Parents -/

def childKeys (nodes : Nodes) : List Key :=
  nodes.items.toList.flatMap Tree.childKeys

@[simp] theorem childKeys_alloc (nodes : Nodes) (t : Tree Node) :
    childKeys (nodes.alloc t).2 = nodes.childKeys ++ t.childKeys := by
  simp [childKeys, Store.alloc]

theorem nodup_childKeys_of_get? (hone : nodes.childKeys.Nodup) (hk : nodes.get? k = some t) :
    t.childKeys.Nodup :=
  (List.nodup_flatMap.mp hone).1 t (Array.mem_toList_iff.mpr (Array.mem_of_getElem? hk))

/-- A node has one parent only. -/
theorem parent_unique (hone : nodes.childKeys.Nodup) (hk : nodes.get? k = some s)
    (hl : nodes.get? l = some t) (hs : c ∈ s.childKeys) (ht : c ∈ t.childKeys) : k = l := by
  have hdisjoint := List.pairwise_iff_getElem.mp (List.nodup_flatMap.mp hone).2
  obtain ⟨hk', rfl⟩ := Array.getElem?_eq_some_iff.mp hk
  obtain ⟨hl', rfl⟩ := Array.getElem?_eq_some_iff.mp hl
  rcases Nat.lt_trichotomy k l with hlt | heq | hlt
  · exact absurd ht (hdisjoint k l (by simpa using hk') (by simpa using hl') hlt hs)
  · exact heq
  · exact absurd hs (hdisjoint l k (by simpa using hl') (by simpa using hk') hlt ht)

/-! ## What keys lead to -/

theorem Reaches.trans (h : nodes.Reaches roots k) (h' : nodes.Reaches [k] x) :
    nodes.Reaches roots x := by
  induction h' with
  | root hx =>
    obtain rfl := List.mem_singleton.mp hx
    exact h
  | child _ hget hx ih => exact ih.child hget hx

theorem reaches_iff_exists_mem : nodes.Reaches roots x ↔ ∃ r ∈ roots, nodes.Reaches [r] x := by
  constructor
  · intro h
    induction h with
    | root hx => exact ⟨_, hx, .root List.mem_cons_self⟩
    | child _ hget hx ih =>
      obtain ⟨r, hr, hreach⟩ := ih
      exact ⟨r, hr, hreach.child hget hx⟩
  · rintro ⟨r, hr, h⟩
    exact (Reaches.root hr).trans h

/-- When trees meet, one of them lies within the other. -/
theorem nested_of_reaches (hone : nodes.childKeys.Nodup) (hk : nodes.Reaches [k] x)
    (hl : nodes.Reaches [l] x) : nodes.Reaches [l] k ∨ nodes.Reaches [k] l := by
  -- Going up from the shared node, both ways have the same parents until one of them ends.
  induction hk with
  | root hx =>
    obtain rfl := List.mem_singleton.mp hx
    exact .inl hl
  | child hparent hget hx ih =>
    cases hl with
    | root hx' =>
      obtain rfl := List.mem_singleton.mp hx'
      exact .inr (hparent.child hget hx)
    | child hparent' hget' hx' =>
      obtain rfl := parent_unique hone hget hget' hx hx'
      exact ih hparent'

def Descending (nodes : Nodes) : Prop :=
  ∀ {k t}, nodes.get? k = some t → ∀ c ∈ t.childKeys, c < k

theorem Reaches.le (hlt : nodes.Descending) (h : nodes.Reaches roots x)
    (hroots : ∀ r ∈ roots, r ≤ k) : x ≤ k := by
  induction h with
  | root hx => exact hroots _ hx
  | child _ hget hx ih => exact (Nat.le_of_lt (hlt hget _ hx)).trans ih

/-- Two children of one node are not nested. -/
theorem not_reaches_sibling (hone : nodes.childKeys.Nodup) (hlt : nodes.Descending)
    (hget : nodes.get? k = some t) (hc : c ∈ t.childKeys) (hx : x ∈ t.childKeys) (hne : c ≠ x) :
    ¬ nodes.Reaches [c] x := by
  intro h
  cases h with
  | root hmem => exact hne (List.mem_singleton.mp hmem).symm
  | child hparent hget' hx' =>
    obtain rfl := parent_unique hone hget hget' hx hx'
    have hle : k ≤ c := hparent.le hlt (by simp)
    exact Nat.not_lt_of_le hle (hlt hget c hc)

/-- The keys of a forest are those that its roots lead to, one by one. -/
theorem Coherent.mem_keys_iff (hn : nodes.Coherent) {f : Forest Node}
    (hf : ∀ t ∈ f.trees, nodes.Stores t) :
    x ∈ f.keys ↔ ∃ t ∈ f.trees, nodes.Reaches [t.key] x := by
  rw [← Forest.ofTrees_trees f, ← hn.reaches_iff (by simpa using hf), reaches_iff_exists_mem]
  simp

/-- What lies below a node is reached from it, and comes before it in the store. -/
theorem Coherent.reaches_and_lt (hn : nodes.Coherent) (hlt : nodes.Descending)
    (hget : nodes.get? k = some t) (hx : x ∈ t.children.keys) : nodes.Reaches [k] x ∧ x < k := by
  obtain ⟨c, hc, hreach⟩ := (hn.mem_keys_iff (hn.stores_child (hn.stores_of_get? hget))).mp hx
  have hmem : c.key ∈ t.childKeys := by
    rw [Tree.childKeys_eq]
    exact List.mem_map_of_mem hc
  have hle : x ≤ c.key := hreach.le hlt (by simp)
  exact ⟨((Reaches.root List.mem_cons_self).child hget hmem).trans hreach,
    hle.trans_lt (hlt hget _ hmem)⟩

/-- A forest of trees of which none lies within another has no key twice. -/
theorem Coherent.nodup_keys (hn : nodes.Coherent) (hone : nodes.childKeys.Nodup)
    (hlt : nodes.Descending) {f : Forest Node} (hf : ∀ t ∈ f.trees, nodes.Stores t)
    (hroots : f.trees.Pairwise fun s t =>
      ¬ nodes.Reaches [s.key] t.key ∧ ¬ nodes.Reaches [t.key] s.key) : f.keys.Nodup := by
  induction f with
  | nil => exact List.nodup_nil
  | cons n children rest ihc ihr =>
    simp only [Forest.trees, List.forall_mem_cons, List.pairwise_cons] at hf hroots
    obtain ⟨hroot, hrest⟩ := hf
    obtain ⟨hapart, hrests⟩ := hroots
    have hget : nodes.get? n.key = some ⟨n, children⟩ := hroot
    have hstored := hn.stores_child hroot
    have hkeys : (⟨n, children⟩ : Tree Node).childKeys = children.trees.map Tree.key :=
      Tree.childKeys_eq _
    have hbelow : ∀ x ∈ children.keys, nodes.Reaches [n.key] x ∧ x < n.key := fun x hx =>
      hn.reaches_and_lt hlt hget hx
    have hdisjoint : ∀ x, nodes.Reaches [n.key] x → x ∉ rest.keys := by
      intro x hx hmem
      obtain ⟨t, ht, hreach⟩ := (hn.mem_keys_iff hrest).mp hmem
      rcases nested_of_reaches hone hx hreach with h | h
      · exact (hapart t ht).2 h
      · exact (hapart t ht).1 h
    have hsiblings : children.trees.Pairwise fun s t =>
        ¬ nodes.Reaches [s.key] t.key ∧ ¬ nodes.Reaches [t.key] s.key := by
      have hnodup := nodup_childKeys_of_get? hone hget
      rw [hkeys, List.Nodup, List.pairwise_map] at hnodup
      refine hnodup.imp_of_mem fun hs ht hne => ?_
      have hs := hkeys ▸ List.mem_map_of_mem hs
      have ht := hkeys ▸ List.mem_map_of_mem ht
      exact ⟨not_reaches_sibling hone hlt hget hs ht hne,
        not_reaches_sibling hone hlt hget ht hs hne.symm⟩
    rw [Forest.keys_cons, List.nodup_cons, List.mem_append, List.nodup_append, not_or]
    refine ⟨⟨fun h => Nat.lt_irrefl _ (hbelow _ h).2, hdisjoint _ (.root List.mem_cons_self)⟩,
      ihc hstored hsiblings, ihr hrest hrests, ?_⟩
    rintro x hx _ hy rfl
    exact hdisjoint x (hbelow x hx).1 hy

end Nodes

/-! ## Single nodes -/

/-- What a builder sees to at a single node: it comes after its children, none of these is an atom
without text, a list without delimiters has not just one of them, and an atom has none. -/
structure Tree.Normal (t : Tree Node) : Prop where
  child_lt : ∀ c ∈ t.childKeys, c < t.key
  text : ∀ n ∈ t.children.roots, n.form.isEmptyAtom = false
  several : ∀ {opening closing count}, t.label.form = .list opening closing count →
    opening.content = "" → closing.content = "" → t.childKeys.length ≠ 1
  leaf : ∀ {a}, t.label.form = .atom a → t.childKeys = []

namespace Builder

variable {b : Builder}

theorem normal_atom (k : Key) (a : Atom) : Tree.Normal ⟨⟨k, .atom a⟩, .nil⟩ where
  child_lt := by simp [Tree.childKeys, Forest.roots]
  text := by simp [Forest.roots]
  several h := by cases h
  leaf _ := rfl

/-- A list of what is kept of some nodes is normal, unless it is a single one without delimiters. -/
theorem normal_list {ts : List (Tree Node)} {k : Key} (hlt : ∀ t ∈ ts, t.key < k)
    {opening closing : Delimiter}
    (hshape : ∀ t, kept ts = [t] → ¬(opening.content.isEmpty ∧ closing.content.isEmpty))
    (count : Nat) :
    Tree.Normal ⟨⟨k, .list opening closing count⟩, Forest.ofTrees (kept ts)⟩ := by
  have hroots : (Forest.ofTrees (kept ts)).roots = (kept ts).map Tree.label := by
    rw [Forest.roots_eq_map_trees, Forest.trees_ofTrees]
  have hkeys : Tree.childKeys ⟨⟨k, .list opening closing count⟩, Forest.ofTrees (kept ts)⟩ =
      (kept ts).map Tree.key := by
    rw [Tree.childKeys_eq, Forest.trees_ofTrees]
  refine { child_lt := ?_, text := ?_, several := ?_, leaf := fun h => by cases h }
  · intro c hc
    rw [hkeys, List.mem_map] at hc
    obtain ⟨t, ht, rfl⟩ := hc
    exact hlt t (kept_sublist.subset ht)
  · intro n hn
    rw [hroots, List.mem_map] at hn
    obtain ⟨t, ht, rfl⟩ := hn
    simpa using (List.mem_filter.mp ht).2
  · intro opening' closing' count' hform ho hc hone
    cases hform
    rw [hkeys, List.length_map, List.length_eq_one_iff] at hone
    obtain ⟨t, ht⟩ := hone
    exact hshape t ht (by simp [ho, hc])

/-! ## What calls keep -/

/-- The nodes of the builder are in normal form, and those that are children are flagged and have
one parent each. -/
structure Normalizing (b : Builder) : Prop where
  sound : b.Sound
  once : b.nodes.childKeys.Nodup
  attached : ∀ c ∈ b.nodes.childKeys, b.attached.get? c = some true
  normal : ∀ {k t}, b.nodes.get? k = some t → t.Normal

namespace Normalizing

theorem empty : Normalizing Builder.empty where
  sound := sound_invariant.empty
  once := List.nodup_nil
  attached c hc := by cases hc
  normal h := by simp [Builder.empty, Store.empty, Store.get?] at h

/-- Flags may be set, but not reset. -/
theorem setFlags (h : b.Normalizing) {flags : Store Bool} (hsize : flags.size = b.attached.size)
    (hflags : ∀ k, b.attached.get? k = some true → flags.get? k = some true) :
    Normalizing ⟨b.nodes, flags⟩ where
  sound := h.sound.setFlags hsize
  once := h.once
  attached c hc := hflags c (h.attached c hc)
  normal := h.normal

/-- A node may be stored above flagged ones that have no parent yet. -/
theorem push (h : b.Normalizing) {form : Form} {children : Forest Node}
    (hstored : ∀ c ∈ children.trees, b.nodes.Stores c)
    (hnormal : Tree.Normal ⟨⟨b.nodes.size, form⟩, children⟩)
    (hnodup : (Tree.childKeys ⟨⟨b.nodes.size, form⟩, children⟩).Nodup)
    (hchildren : ∀ c ∈ Tree.childKeys ⟨⟨b.nodes.size, form⟩, children⟩,
      c ∉ b.nodes.childKeys ∧ b.attached.get? c = some true) :
    (b.push form children).2.Normalizing where
  sound := h.sound.push hstored
  once := by
    change (Nodes.childKeys (b.nodes.alloc ⟨⟨b.nodes.size, form⟩, children⟩).2).Nodup
    rw [Nodes.childKeys_alloc, List.nodup_append]
    refine ⟨h.once, hnodup, ?_⟩
    rintro c hc _ hmem rfl
    exact (hchildren c hmem).1 hc
  attached c hc := by
    change c ∈ Nodes.childKeys (b.nodes.alloc ⟨⟨b.nodes.size, form⟩, children⟩).2 at hc
    rw [Nodes.childKeys_alloc, List.mem_append] at hc
    have hflag : b.attached.get? c = some true := hc.elim (h.attached c) fun hc => (hchildren c hc).2
    exact (Store.get?_alloc_of_lt false (Store.lt_size_of_get? hflag)).trans hflag
  normal {k t} hget := by
    change (b.nodes.alloc ⟨⟨b.nodes.size, form⟩, children⟩).2.get? k = some t at hget
    rw [Store.get?_alloc] at hget
    split at hget
    · cases hget
      exact hnormal
    · exact h.normal hget

theorem list (h : b.Normalizing) (opening closing : Delimiter) (keys : List Key) :
    (b.list opening closing keys).2.Normalizing := by
  rcases list_state_cases b opening closing keys with he | ⟨ts, hfound, hcases⟩
  · rw [he]
    exact h
  · have hflags := h.setFlags (size_attach b.attached ((kept ts).map Tree.key))
      fun k hk => get?_attach_of_true hk _
    rcases hcases with he | ⟨hok, hshape, he⟩
    · rw [he]
      exact hflags
    · obtain ⟨-, hstored⟩ := h.sound.coherent.mapM_item hfound
      obtain ⟨hnodup, hfree, hset⟩ := of_attach_ok hok
      have hkeys : Tree.childKeys ⟨⟨b.nodes.size, .list opening closing (weigh (kept ts))⟩,
          Forest.ofTrees (kept ts)⟩ = (kept ts).map Tree.key := by
        rw [Tree.childKeys_eq, Forest.trees_ofTrees]
      rw [he]
      refine hflags.push (fun c hc => hstored c (kept_sublist.subset (by simpa using hc)))
        (normal_list (fun t ht => Store.lt_size_of_get? (hstored t ht)) hshape _)
        (hkeys ▸ hnodup) fun c hc => ?_
      have hc : c ∈ (kept ts).map Tree.key := hkeys ▸ hc
      -- A child is flagged, and this node was not.
      refine ⟨fun hmem => ?_, hset c hc⟩
      simpa [hfree c hc] using h.attached c hmem

theorem invariant : Invariant Normalizing where
  empty := Normalizing.empty
  atom a h := h.push (by simp [Forest.trees]) (normal_atom _ _)
    (by simp [Tree.childKeys, Forest.roots]) (by simp [Tree.childKeys, Forest.roots])
  list opening closing keys h := h.list opening closing keys

theorem descending (h : b.Normalizing) : b.nodes.Descending := by
  intro k t hget c hc
  rw [← h.sound.coherent.key_of_get? hget]
  exact (h.normal hget).child_lt c hc

/-- No node lies twice below another. -/
theorem nodup_keys_children (h : b.Normalizing) {k : Key} {t : Tree Node}
    (hget : b.nodes.get? k = some t) : t.children.keys.Nodup := by
  have hn := h.sound.coherent
  have htree : (Forest.ofTrees [t]).keys.Nodup := by
    refine hn.nodup_keys h.once h.descending ?_ (by simp)
    simpa using hn.stores_of_get? hget
  simp only [Forest.ofTrees, Forest.keys_cons, Forest.keys_nil, List.append_nil] at htree
  exact (List.nodup_cons.mp htree).2

end Normalizing

theorem Reachable.normalizing (hb : b.Reachable) : b.Normalizing :=
  Normalizing.invariant.holds hb

/-! ## Forests in normal form -/

/-- The builder has one flag for each node, and its nodes are a forest in normal form: a child comes
before its parent in the store, is the child of one list only and once, and is flagged; no child is an
atom without text; a list without delimiters has not just one child; and a list counts the different
nodes below it. -/
structure NormalForest (b : Builder) : Prop where
  flags : b.attached.size = b.nodes.size
  child_lt : ∀ {k t}, b.nodes.get? k = some t → ∀ c ∈ t.childKeys, c < k
  once : b.nodes.childKeys.Nodup
  attached : ∀ c ∈ b.nodes.childKeys, b.attached.get? c = some true
  text : ∀ {k t}, b.nodes.get? k = some t → ∀ c ∈ t.childKeys,
    ∃ u, b.nodes.get? c = some u ∧ ∀ a, u.label.form = .atom a → a.content ≠ ""
  several : ∀ {k t opening closing count}, b.nodes.get? k = some t →
    t.label.form = .list opening closing count → opening.content = "" → closing.content = "" →
    t.childKeys.length ≠ 1
  descendants : ∀ {k t opening closing count}, b.nodes.get? k = some t →
    t.label.form = .list opening closing count →
    {l | b.nodes.Reaches t.childKeys l}.encard = count
  leaf : ∀ {k t a}, b.nodes.get? k = some t → t.label.form = .atom a → t.childKeys = []

/-- After any calls, some of which may have failed, a builder has a forest in normal form. -/
theorem Reachable.normalForest (hb : b.Reachable) : b.NormalForest := by
  have h := hb.normalizing
  have hn := h.sound.coherent
  refine {
    flags := h.sound.flags
    child_lt := h.descending
    once := h.once
    attached := h.attached
    text := ?_
    several := fun hget => (h.normal hget).several
    descendants := ?_
    leaf := fun hget => (h.normal hget).leaf }
  · intro k t hget c hc
    rw [Tree.childKeys_eq, List.mem_map] at hc
    obtain ⟨u, hu, rfl⟩ := hc
    refine ⟨u, hn.stores_child (hn.stores_of_get? hget) u hu, fun a hform hempty => ?_⟩
    have htext := (h.normal hget).text u.label
      (by rw [Forest.roots_eq_map_trees]; exact List.mem_map_of_mem hu)
    simp [hform, Form.isEmptyAtom, hempty] at htext
  · intro k t opening closing count hget hform
    have hbelow : {l | b.nodes.Reaches t.childKeys l} = {l | l ∈ t.children.keys} := by
      refine Set.ext fun l => ?_
      change b.nodes.Reaches t.childKeys l ↔ l ∈ t.children.keys
      rw [Tree.childKeys_eq, hn.reaches_iff (hn.stores_child (hn.stores_of_get? hget)),
        Forest.ofTrees_trees]
    have hcount : count + 1 = t.children.size + 1 := by
      have hweight : t.label.form.weight = t.children.size + 1 := hb.weighed k t hget
      rwa [hform] at hweight
    rw [hbelow, encard_mem_of_nodup (h.nodup_keys_children hget), Forest.keys, List.length_map,
      Forest.length_preorder, Nat.succ_injective hcount]

/-- Two atoms are enclosed in a list and an empty atom is left out of it, then the atoms are asked for
again. That call fails after the new atom was flagged, and the builder goes on. -/
theorem normalForest_after_refusal :
    ∃ b : Builder,
      b = ((((((empty.atom ⟨[], "x", .normal⟩).2.atom ⟨[], "\r", .normal⟩).2.atom
        ⟨[], "y", .normal⟩).2.list ⟨[], "("⟩ ⟨[], ")"⟩ [0, 1, 2]).2.atom
        ⟨[], "z", .normal⟩).2.list ⟨[], ""⟩ ⟨[], ""⟩ [4, 0]).2 ∧
      b.attached.get? 4 = some true ∧ 4 ∉ b.nodes.childKeys ∧ b.nodes.childKeys = [0, 2] ∧
      b.NormalForest :=
  ⟨_, rfl, by decide, by decide, by decide,
    Reachable.normalForest (.list _ _ _ (.atom _ (.list _ _ _ (.atom _ (.atom _ (.atom _ .empty))))))⟩

end Builder

end TwinForest
