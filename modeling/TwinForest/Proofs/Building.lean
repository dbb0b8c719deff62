import Mathlib.Data.List.Flatten
import Mathlib.Data.Nat.Basic
import Mathlib.Order.Basic
import TwinForest.Builder
import TwinForest.Proofs.Nodes

/-!
# What builders keep

A builder is sound when it has one flag for every node and its nodes are coherent. Every call keeps a
builder sound, also one that fails. Building parse trees does more: it never fails, it touches
nothing that was there before, and the trees that it gives are new, share no node with one another
and have no parent yet. This is why a list can always take them as its children.

## Main definitions

* `Builder.Reachable`, `Builder.Invariant`: the builders that calls lead to, and what they share.
* `Builder.Sound`: the invariant of all of them.
* `Builder.Grows`: a builder has all that another one has, unchanged.
* `Builder.Built`: some trees were built, and none of them is a child.

## Main results

* `Builder.Invariant.holds`: what atoms and lists keep holds of every reachable builder.
* `Builder.Reachable.sound`: reachable builders are sound.
* `Builder.Built.enclose`, `Builder.Built.list`: built trees become the children of a built tree.
-/

namespace TwinForest.Builder

variable {b b' b'' : Builder} {ts us : List (Tree Node)} {opening closing : Delimiter}

/-! ## Sequences of calls -/

/-- The builders that calls lead to from the one without nodes, whether the calls fail or not. -/
inductive Reachable : Builder → Prop where
  | empty : Reachable empty
  | atom {b : Builder} (a : Atom) : Reachable b → Reachable (b.atom a).2
  | list {b : Builder} (opening closing : Delimiter) (children : List Key) :
      Reachable b → Reachable (b.list opening closing children).2
  | build {b : Builder} (t : ParseTree) : Reachable b → Reachable (b.build t).2
  | buildAll {b : Builder} (ts : List ParseTree) : Reachable b → Reachable (b.buildAll ts).2

/-- A property that atoms and lists keep, from the builder without nodes on. -/
structure Invariant (P : Builder → Prop) : Prop where
  empty : P Builder.empty
  atom : ∀ {b} a, P b → P (b.atom a).2
  list : ∀ {b} opening closing children, P b → P (b.list opening closing children).2

mutual

theorem Invariant.build {P : Builder → Prop} (hP : Invariant P) (t : ParseTree) (b : Builder)
    (hb : P b) : P (b.build t).2 := by
  cases t with
  | atom a => exact hP.atom a hb
  | list opening children closing =>
    have hall := hP.buildAll children b hb
    simp only [Builder.build]
    split <;> rename_i h <;> rw [h] at hall
    · exact hall
    · exact hP.list _ _ _ hall

theorem Invariant.buildAll {P : Builder → Prop} (hP : Invariant P) (ts : List ParseTree)
    (b : Builder) (hb : P b) : P (b.buildAll ts).2 := by
  cases ts with
  | nil => exact hb
  | cons t ts =>
    have hone := hP.build t b hb
    simp only [Builder.buildAll]
    split <;> rename_i b' h <;> rw [h] at hone
    · exact hone
    · have hall := hP.buildAll ts b' hone
      split <;> rename_i h' <;> rw [h'] at hall
      · exact hall
      · exact hall

end

/-- What atoms and lists keep holds of every reachable builder. -/
theorem Invariant.holds {P : Builder → Prop} (hP : Invariant P) (hb : b.Reachable) : P b := by
  induction hb with
  | empty => exact hP.empty
  | atom a _ ih => exact hP.atom a ih
  | list opening closing children _ ih => exact hP.list opening closing children ih
  | build t _ ih => exact hP.build t _ ih
  | buildAll ts _ ih => exact hP.buildAll ts _ ih

/-! ## What a call does -/

theorem kept_sublist : (kept ts).Sublist ts :=
  List.filter_sublist

@[simp] theorem size_attach (flags : Store Bool) (keys : List Key) :
    (attach flags keys).2.size = flags.size := by
  induction keys generalizing flags with
  | nil => rfl
  | cons k keys ih =>
    simp only [attach]
    split
    · rfl
    · rfl
    · simp [ih]

/-- Only the flags of the given nodes change. -/
theorem get?_attach_of_notMem {flags : Store Bool} {keys : List Key} {k : Key} (h : k ∉ keys) :
    (attach flags keys).2.get? k = flags.get? k := by
  induction keys generalizing flags with
  | nil => rfl
  | cons l keys ih =>
    simp only [List.mem_cons, not_or] at h
    simp only [attach]
    split
    · rfl
    · rfl
    · rw [ih h.2, Store.get?_put_ne (Ne.symm h.1)]

/-- Different nodes without a parent can all be attached. -/
theorem attach_ok {flags : Store Bool} {keys : List Key} (hnodup : keys.Nodup)
    (hfree : ∀ k ∈ keys, flags.get? k = some false) : (attach flags keys).1 = .ok () := by
  induction keys generalizing flags with
  | nil => rfl
  | cons k keys ih =>
    obtain ⟨hk, hnodup⟩ := List.nodup_cons.mp hnodup
    have hitem : flags.item k = .ok false := Store.item_eq_ok_iff.mpr (hfree k List.mem_cons_self)
    simp only [attach, hitem]
    refine ih hnodup fun l hl => ?_
    have hne : k ≠ l := fun h => hk (h ▸ hl)
    rw [Store.get?_put_ne hne]
    exact hfree l (List.mem_cons_of_mem _ hl)

/-- A node with a parent keeps it, whether the others can be attached or not. -/
theorem get?_attach_of_true {flags : Store Bool} {k : Key} (h : flags.get? k = some true)
    (keys : List Key) : (attach flags keys).2.get? k = some true := by
  induction keys generalizing flags with
  | nil => exact h
  | cons l keys ih =>
    simp only [attach]
    split
    · exact h
    · exact h
    · refine ih ?_
      by_cases hl : l = k
      · subst hl
        exact Store.get?_put_self true (Store.lt_size_of_get? h)
      · rw [Store.get?_put_ne hl, h]

/-- Nodes that could be attached are different, had no parent, and have one now. -/
theorem of_attach_ok {flags : Store Bool} {keys : List Key} (h : (attach flags keys).1 = .ok ()) :
    keys.Nodup ∧ (∀ k ∈ keys, flags.get? k = some false) ∧
      ∀ k ∈ keys, (attach flags keys).2.get? k = some true := by
  induction keys generalizing flags with
  | nil => simp
  | cons k keys ih =>
    cases hitem : flags.item k with
    | error fault => simp [attach, hitem] at h
    | ok flag =>
      cases flag with
      | true => simp [attach, hitem] at h
      | false =>
        have hattach : attach flags (k :: keys) = attach (flags.put k true) keys := by
          simp [attach, hitem]
        have hfree := Store.item_eq_ok_iff.mp hitem
        have hput : (flags.put k true).get? k = some true :=
          Store.get?_put_self true (Store.lt_size_of_get? hfree)
        rw [hattach] at h ⊢
        obtain ⟨hnodup, hold, hnew⟩ := ih h
        have hk : k ∉ keys := fun hmem => by simpa [hput] using hold k hmem
        have hne : ∀ l ∈ keys, k ≠ l := fun l hl heq => hk (heq ▸ hl)
        refine ⟨List.nodup_cons.mpr ⟨hk, hnodup⟩, ?_, ?_⟩
        · intro l hl
          rcases List.mem_cons.mp hl with rfl | hl
          · exact hfree
          · rw [← Store.get?_put_ne (hne l hl) true, hold l hl]
        · intro l hl
          rcases List.mem_cons.mp hl with rfl | hl
          · exact get?_attach_of_true hput keys
          · exact hnew l hl

/-- An enclosing list either fails at a child, and only flags change, or is stored. -/
theorem enclose_cases (b : Builder) (opening closing : Delimiter) (children : List (Tree Node)) :
    (∃ fault, (attach b.attached (children.map Tree.key)).1 = .error fault ∧
      b.enclose opening closing children =
        (.error fault, ⟨b.nodes, (attach b.attached (children.map Tree.key)).2⟩)) ∨
    ((attach b.attached (children.map Tree.key)).1 = .ok () ∧
      b.enclose opening closing children = (.ok b.nodes.size,
        (push ⟨b.nodes, (attach b.attached (children.map Tree.key)).2⟩
          (.list opening closing (weigh children)) (Forest.ofTrees children)).2)) := by
  obtain ⟨nodes, flags⟩ := b
  simp only [enclose]
  split
  · rename_i h
    exact .inl ⟨_, by rw [h], by rw [h]⟩
  · rename_i h
    exact .inr ⟨by rw [h], by rw [h]; rfl⟩

/-- A list of found children is its only child, if that is all it keeps and it has no delimiters,
or else encloses what it keeps. -/
theorem list_cases {keys : List Key} (h : keys.mapM b.nodes.item = .ok ts)
    (opening closing : Delimiter) :
    (∃ t, kept ts = [t] ∧ opening.content.isEmpty ∧ closing.content.isEmpty ∧
      b.list opening closing keys = (.ok t.key, b)) ∨
    ((∀ t, kept ts = [t] → ¬(opening.content.isEmpty ∧ closing.content.isEmpty)) ∧
      b.list opening closing keys = b.enclose opening closing (kept ts)) := by
  simp only [list, h]
  split
  · rename_i t hkept
    split
    · rename_i hempty
      exact .inl ⟨t, hkept, hempty.1, hempty.2, rfl⟩
    · rename_i hempty
      exact .inr ⟨fun _ _ => hempty, by rw [hkept]⟩
  · rename_i hkept
    exact .inr ⟨fun t ht => absurd ht (hkept t), rfl⟩

/-- A call for a list leaves the builder as it is, or it fails at a child and only flags change, or it
stores a list of the children that it keeps. -/
theorem list_state_cases (b : Builder) (opening closing : Delimiter) (keys : List Key) :
    (b.list opening closing keys).2 = b ∨
    ∃ ts, keys.mapM b.nodes.item = .ok ts ∧
      ((b.list opening closing keys).2 =
          ⟨b.nodes, (attach b.attached ((kept ts).map Tree.key)).2⟩ ∨
        (attach b.attached ((kept ts).map Tree.key)).1 = .ok () ∧
          (∀ t, kept ts = [t] → ¬(opening.content.isEmpty ∧ closing.content.isEmpty)) ∧
          (b.list opening closing keys).2 =
            (push ⟨b.nodes, (attach b.attached ((kept ts).map Tree.key)).2⟩
              (.list opening closing (weigh (kept ts))) (Forest.ofTrees (kept ts))).2) := by
  cases hfound : keys.mapM b.nodes.item with
  | error fault => exact .inl (by simp [list, hfound])
  | ok ts =>
    rcases list_cases hfound opening closing with ⟨t, -, -, -, h⟩ | ⟨hshape, h⟩
    · exact .inl (by rw [h])
    · refine .inr ⟨ts, rfl, ?_⟩
      rcases enclose_cases b opening closing (kept ts) with ⟨fault, -, he⟩ | ⟨hok, he⟩
      · exact .inl (by rw [h, he])
      · exact .inr ⟨hok, hshape, by rw [h, he]⟩

/-! ## Soundness -/

structure Sound (b : Builder) : Prop where
  flags : b.attached.size = b.nodes.size
  coherent : b.nodes.Coherent

theorem Sound.push (hb : b.Sound) {form : Form} {children : Forest Node}
    (hc : ∀ c ∈ children.trees, b.nodes.Stores c) : (b.push form children).2.Sound where
  flags := by simp [Builder.push, hb.flags]
  coherent := hb.coherent.alloc hc

theorem Sound.setFlags (hb : b.Sound) {flags : Store Bool} (h : flags.size = b.attached.size) :
    Sound ⟨b.nodes, flags⟩ :=
  ⟨h.trans hb.flags, hb.coherent⟩

theorem Sound.list (hb : b.Sound) (opening closing : Delimiter) (keys : List Key) :
    (b.list opening closing keys).2.Sound := by
  rcases list_state_cases b opening closing keys with h | ⟨ts, hfound, hcases⟩
  · rw [h]
    exact hb
  · have hflags := hb.setFlags (size_attach b.attached ((kept ts).map Tree.key))
    rcases hcases with h | ⟨-, -, h⟩
    · rw [h]
      exact hflags
    · obtain ⟨-, hstored⟩ := hb.coherent.mapM_item hfound
      rw [h]
      exact hflags.push fun c hc => hstored c (kept_sublist.subset (by simpa using hc))

theorem sound_invariant : Invariant Sound where
  empty := ⟨rfl, .empty⟩
  atom a hb := hb.push (by simp [Forest.trees])
  list opening closing keys hb := hb.list opening closing keys

theorem Reachable.sound (hb : b.Reachable) : b.Sound :=
  sound_invariant.holds hb

/-! ## Growth -/

/-- All that the first builder has is unchanged in the second: its nodes, and whether they have a
parent. -/
structure Grows (b b' : Builder) : Prop where
  size_le : b.nodes.size ≤ b'.nodes.size
  get?_nodes : ∀ {k}, k < b.nodes.size → b'.nodes.get? k = b.nodes.get? k
  get?_attached : ∀ {k}, k < b.nodes.size → b'.attached.get? k = b.attached.get? k

theorem Grows.refl (b : Builder) : b.Grows b :=
  ⟨le_rfl, fun _ => rfl, fun _ => rfl⟩

theorem Grows.trans (h : b.Grows b') (h' : b'.Grows b'') : b.Grows b'' where
  size_le := h.size_le.trans h'.size_le
  get?_nodes hk := (h'.get?_nodes (hk.trans_le h.size_le)).trans (h.get?_nodes hk)
  get?_attached hk := (h'.get?_attached (hk.trans_le h.size_le)).trans (h.get?_attached hk)

theorem Grows.stores (h : b.Grows b') {t : Tree Node} (ht : b.nodes.Stores t) :
    b'.nodes.Stores t :=
  (h.get?_nodes (Store.lt_size_of_get? ht)).trans ht

theorem Sound.grows_push (hb : b.Sound) (form : Form) (children : Forest Node) :
    b.Grows (b.push form children).2 where
  size_le := by simp [Builder.push]
  get?_nodes hk := Store.get?_alloc_of_lt _ hk
  get?_attached hk := Store.get?_alloc_of_lt _ (hb.flags ▸ hk)

/-! ## Built trees -/

/-- From the first builder to the second, the given trees were built. They are new, share no node,
and have no parent. -/
structure Built (b b' : Builder) (ts : List (Tree Node)) : Prop where
  grows : b.Grows b'
  sound : b'.Sound
  stores : ∀ t ∈ ts, b'.nodes.Stores t
  free : ∀ t ∈ ts, b'.attached.get? t.key = some false
  fresh : ∀ k ∈ (Forest.ofTrees ts).keys, b.nodes.size ≤ k
  nodup : (Forest.ofTrees ts).keys.Nodup

namespace Built

theorem nil (hb : b.Sound) : Built b b [] where
  grows := .refl b
  sound := hb
  stores := by simp
  free := by simp
  fresh := by simp [Forest.ofTrees]
  nodup := by simp [Forest.ofTrees]

theorem stores_subtree (h : Built b b' ts) :
    ∀ s ∈ (Forest.ofTrees ts).subtrees, b'.nodes.Stores s :=
  h.sound.coherent.stores_subtree (by simpa using h.stores)

theorem lt_size (h : Built b b' ts) {k : Key} (hk : k ∈ (Forest.ofTrees ts).keys) :
    k < b'.nodes.size := by
  obtain ⟨s, hs, rfl⟩ := Forest.mem_keys.mp hk
  exact Store.lt_size_of_get? (h.stores_subtree s hs)

/-- What is built later shares no node with what was built before. -/
theorem append (h : Built b b' ts) (h' : Built b' b'' us) : Built b b'' (ts ++ us) where
  grows := h.grows.trans h'.grows
  sound := h'.sound
  stores t ht := by
    rcases List.mem_append.mp ht with ht | ht
    · exact h'.grows.stores (h.stores t ht)
    · exact h'.stores t ht
  free t ht := by
    rcases List.mem_append.mp ht with ht | ht
    · rw [h'.grows.get?_attached (Store.lt_size_of_get? (h.stores t ht))]
      exact h.free t ht
    · exact h'.free t ht
  fresh k hk := by
    rw [Forest.ofTrees_append, Forest.keys_append, List.mem_append] at hk
    rcases hk with hk | hk
    · exact h.fresh k hk
    · exact h.grows.size_le.trans (h'.fresh k hk)
  nodup := by
    rw [Forest.ofTrees_append, Forest.keys_append, List.nodup_append]
    refine ⟨h.nodup, h'.nodup, fun k hk l hl => ?_⟩
    exact Nat.ne_of_lt ((h.lt_size hk).trans_le (h'.fresh l hl))

/-- Some of the built trees may be left out. -/
theorem sublist (h : Built b b' ts) (hus : us.Sublist ts) : Built b b' us := by
  have hkeys : (Forest.ofTrees us).keys.Sublist (Forest.ofTrees ts).keys := by
    simp only [Forest.keys_eq_map_subtrees, Forest.subtrees_ofTrees]
    exact (hus.flatMap _).map _
  exact {
    grows := h.grows
    sound := h.sound
    stores t ht := h.stores t (hus.subset ht)
    free t ht := h.free t (hus.subset ht)
    fresh k hk := h.fresh k (hkeys.subset hk)
    nodup := h.nodup.sublist hkeys }

/-- A new node above the built trees, once they are attached, is a built tree. -/
theorem push (h : Built b b' ts) {flags : Store Bool} (hsize : flags.size = b'.attached.size)
    (hflags : ∀ k, k ∉ ts.map Tree.key → flags.get? k = b'.attached.get? k) (form : Form) :
    Built b (Builder.push ⟨b'.nodes, flags⟩ form (Forest.ofTrees ts)).2
      [⟨⟨b'.nodes.size, form⟩, Forest.ofTrees ts⟩] := by
  have hsound : Sound ⟨b'.nodes, flags⟩ := h.sound.setFlags hsize
  have hpush := hsound.grows_push form (Forest.ofTrees ts)
  -- The flags that changed belong to new nodes.
  have hold : ∀ {k}, k < b.nodes.size → flags.get? k = b'.attached.get? k := fun hk =>
    hflags _ fun hmem => Nat.not_le.mpr hk
      (h.fresh _ ((Forest.map_key_sublist_keys ts).subset hmem))
  refine { grows := ?_, sound := ?_, stores := ?_, free := ?_, fresh := ?_, nodup := ?_ }
  · exact {
      size_le := h.grows.size_le.trans hpush.size_le
      get?_nodes := fun hk =>
        (hpush.get?_nodes (hk.trans_le h.grows.size_le)).trans (h.grows.get?_nodes hk)
      get?_attached := fun hk => by
        rw [hpush.get?_attached (hk.trans_le h.grows.size_le), hold hk, h.grows.get?_attached hk] }
  · exact hsound.push (by simpa using h.stores)
  · intro t ht
    obtain rfl := List.mem_singleton.mp ht
    simp [Nodes.Stores, Builder.push, Tree.key, Store.get?_alloc]
  · intro t ht
    obtain rfl := List.mem_singleton.mp ht
    have hkey : flags.size = b'.nodes.size := hsound.flags
    simp [Builder.push, Tree.key, Store.get?_alloc, hkey]
  · intro k hk
    simp only [Forest.ofTrees, Forest.keys_cons, Forest.keys_nil, List.append_nil,
      List.mem_cons] at hk
    rcases hk with rfl | hk
    · exact h.grows.size_le
    · exact h.fresh k hk
  · simp only [Forest.ofTrees, Forest.keys_cons, Forest.keys_nil, List.append_nil]
    exact List.nodup_cons.mpr ⟨fun hk => Nat.lt_irrefl _ (h.lt_size hk), h.nodup⟩

theorem atom (hb : b.Sound) (a : Atom) :
    Built b (b.atom a).2 [⟨⟨b.nodes.size, .atom a.trim⟩, .nil⟩] :=
  (Built.nil hb).push rfl (fun _ _ => rfl) (.atom a.trim)

/-- Built trees can be enclosed in a list. -/
theorem enclose (h : Built b b' ts) (opening closing : Delimiter) :
    (b'.enclose opening closing ts).1 = .ok b'.nodes.size ∧
      Built b (b'.enclose opening closing ts).2
        [⟨⟨b'.nodes.size, .list opening closing (weigh ts)⟩, Forest.ofTrees ts⟩] := by
  have hfree : ∀ k ∈ ts.map Tree.key, b'.attached.get? k = some false := fun k hk => by
    obtain ⟨t, ht, rfl⟩ := List.mem_map.mp hk
    exact h.free t ht
  have hok := attach_ok (h.nodup.sublist (Forest.map_key_sublist_keys ts)) hfree
  rcases enclose_cases b' opening closing ts with ⟨fault, hfault, -⟩ | ⟨-, he⟩
  · rw [hok] at hfault
    cases hfault
  · rw [he]
    exact ⟨rfl, h.push (size_attach _ _) (fun k hk => get?_attach_of_notMem hk) _⟩

/-- A list of built trees is one of them, or encloses those that it keeps. -/
theorem list (h : Built b b' ts) (opening closing : Delimiter) :
    ∃ t b'', b'.list opening closing (ts.map Tree.key) = (.ok t.key, b'') ∧ Built b b'' [t] ∧
      ((kept ts = [t] ∧ opening.content.isEmpty ∧ closing.content.isEmpty) ∨
        ((∀ u, kept ts = [u] → ¬(opening.content.isEmpty ∧ closing.content.isEmpty)) ∧
          t.label.form = .list opening closing (weigh (kept ts)) ∧
          t.children = Forest.ofTrees (kept ts))) := by
  have hfound := Nodes.mapM_item_map_key h.stores
  have hkept : Built b b' (kept ts) := h.sublist kept_sublist
  rcases list_cases hfound opening closing with ⟨t, ht, ho, hc, he⟩ | ⟨hne, he⟩
  · exact ⟨t, b', he, ht ▸ hkept, .inl ⟨ht, ho, hc⟩⟩
  · obtain ⟨hkey, hbuilt⟩ := hkept.enclose opening closing
    refine ⟨_, _, ?_, hbuilt, .inr ⟨hne, rfl, rfl⟩⟩
    rw [he]
    exact Prod.ext hkey rfl

end Built

end TwinForest.Builder
