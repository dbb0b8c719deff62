import TwinForest.Proofs.Descendants

/-!
# Calls for a list

A call for a list looks at its children three times. First every key has to be in the store. Then the
atoms without text are left out, and the list may be its only child. Last, the children that are kept are
flagged one by one, up to the first that has a flag already. Only this last step changes a builder before
it fails, and all that it has changed then are the flags of the children before the offending one.
-/

namespace TwinForest

/-- The look-up of keys fails at the first one that is not in the store. -/
theorem Store.mapM_item_cases {α : Type} (s : Store α) (keys : List Key) :
    (∃ before k after, keys = before ++ k :: after ∧ (∀ l ∈ before, l < s.size) ∧ s.size ≤ k ∧
      keys.mapM s.item = .error (.outOfRange s.size k)) ∨
    ((∀ k ∈ keys, k < s.size) ∧ ∃ items, keys.mapM s.item = .ok items) := by
  induction keys with
  | nil => exact .inr ⟨by simp, [], rfl⟩
  | cons k keys ih =>
    cases hget : s.get? k with
    | none =>
      have hitem : s.item k = .error (.outOfRange s.size k) := by simp [item, hget]
      have hsize : s.size ≤ k := Array.getElem?_eq_none_iff.mp hget
      refine .inl ⟨[], k, keys, rfl, by simp, hsize, ?_⟩
      rw [List.mapM_cons, hitem]
      rfl
    | some a =>
      have hitem : s.item k = .ok a := item_eq_ok_iff.mpr hget
      have hk := lt_size_of_get? hget
      rcases ih with ⟨before, l, after, rfl, hbefore, hsize, herror⟩ | ⟨hlt, items, hok⟩
      · refine .inl ⟨k :: before, l, after, rfl, List.forall_mem_cons.mpr ⟨hk, hbefore⟩, hsize, ?_⟩
        rw [List.mapM_cons, hitem, herror]
        rfl
      · refine .inr ⟨List.forall_mem_cons.mpr ⟨hk, hlt⟩, a :: items, ?_⟩
        rw [List.mapM_cons, hitem, hok]
        rfl

namespace Builder

variable {b : Builder} {flags : Store Bool} {keys before after : List Key} {k : Key}
  {opening closing : Delimiter}

def keptKeys (b : Builder) (keys : List Key) : List Key :=
  keys.filter fun k => (b.nodes.get? k).all fun t => !t.label.form.isEmptyAtom

/-- The list has no delimiters and keeps one child, so it is this child. -/
def Collapses (b : Builder) (opening closing : Delimiter) (keys : List Key) : Prop :=
  opening.content = "" ∧ closing.content = "" ∧ ∃ k, b.keptKeys keys = [k]

/-- The node has a parent, or is one of those that are to be attached before it. -/
def Taken (b : Builder) (before : List Key) (k : Key) : Prop :=
  b.attached.get? k = some true ∨ k ∈ before

/-! ## Attaching -/

/-- When nodes could be attached, exactly their flags are set. -/
theorem get?_attach_of_ok (h : (attach flags keys).1 = .ok ()) (l : Key) :
    (attach flags keys).2.get? l = if l ∈ keys then some true else flags.get? l := by
  split
  · rename_i hl
    exact (of_attach_ok h).2.2 l hl
  · rename_i hl
    exact get?_attach_of_notMem hl

theorem attach_cons_of_free (h : flags.get? k = some false) (keys : List Key) :
    attach flags (k :: keys) = attach (flags.put k true) keys := by
  simp only [attach, Store.item_eq_ok_iff.mpr h]

/-- Nodes can all be attached, or there is a first one whose flag is set by then. -/
theorem attach_cases (hlt : ∀ k ∈ keys, k < flags.size) :
    (attach flags keys).1 = .ok () ∨
    ∃ before k after, keys = before ++ k :: after ∧ (attach flags before).1 = .ok () ∧
      (attach flags before).2.get? k = some true ∧
      attach flags keys = (.error (.alreadyAttached k), (attach flags before).2) := by
  induction keys generalizing flags with
  | nil => exact .inl rfl
  | cons k keys ih =>
    obtain ⟨hk, hlt⟩ := List.forall_mem_cons.mp hlt
    obtain ⟨flag, hflag⟩ : ∃ flag, flags.get? k = some flag :=
      ⟨_, Array.getElem?_eq_getElem hk⟩
    cases flag with
    | true =>
      refine .inr ⟨[], k, keys, rfl, rfl, hflag, ?_⟩
      simp only [attach, Store.item_eq_ok_iff.mpr hflag]
    | false =>
      have hput : ∀ l ∈ keys, l < (flags.put k true).size := by simpa using hlt
      simp only [attach_cons_of_free hflag]
      rcases ih hput with hok | hfail
      · exact .inl hok
      · obtain ⟨before, l, after, rfl, hbefore, hl, hattach⟩ := hfail
        refine .inr ⟨k :: before, l, after, rfl, ?_⟩
        rw [attach_cons_of_free hflag]
        exact ⟨hbefore, hl, hattach⟩

/-- A node whose flag is set when those before it have been attached is taken. -/
theorem taken_of_flagged (h : (attach b.attached before).1 = .ok ())
    (hk : (attach b.attached before).2.get? k = some true) : b.Taken before k := by
  rw [get?_attach_of_ok h] at hk
  split at hk
  · rename_i hmem
    exact .inr hmem
  · exact .inl hk

/-- Where a node is taken, not all can be attached. -/
theorem not_attach_ok_of_taken (h : b.Taken before k) :
    (attach b.attached (before ++ k :: after)).1 ≠ .ok () := by
  intro hok
  obtain ⟨hnodup, hfree, -⟩ := of_attach_ok hok
  rcases h with hparent | hbefore
  · have hflag := hfree k (by simp)
    rw [hparent] at hflag
    cases hflag
  · exact (List.nodup_append.mp hnodup).2.2 k hbefore k List.mem_cons_self rfl

/-! ## Children -/

/-- The nodes that a list keeps have the keys that it keeps. -/
theorem Sound.map_key_kept (hb : b.Sound) {ts : List (Tree Node)}
    (h : keys.mapM b.nodes.item = .ok ts) : (kept ts).map Tree.key = b.keptKeys keys := by
  obtain ⟨rfl, hstored⟩ := hb.coherent.mapM_item h
  rw [keptKeys, List.filter_map, kept]
  refine congrArg (List.map Tree.key) (List.filter_congr fun t ht => ?_)
  have hget : b.nodes.get? t.key = some t := hstored t ht
  simp [hget]

theorem Sound.lt_of_mem_keptKeys (hb : b.Sound) {ts : List (Tree Node)}
    (h : keys.mapM b.nodes.item = .ok ts) : ∀ k ∈ b.keptKeys keys, k < b.attached.size := by
  intro k hk
  rw [← hb.map_key_kept h, List.mem_map] at hk
  obtain ⟨t, ht, rfl⟩ := hk
  rw [hb.flags]
  exact Store.lt_size_of_get? ((hb.coherent.mapM_item h).2 t (kept_sublist.subset ht))

theorem Sound.collapses_iff (hb : b.Sound) {ts : List (Tree Node)}
    (h : keys.mapM b.nodes.item = .ok ts) :
    b.Collapses opening closing keys ↔
      ∃ t, kept ts = [t] ∧ opening.content.isEmpty ∧ closing.content.isEmpty := by
  rw [Collapses, ← hb.map_key_kept h]
  constructor
  · rintro ⟨ho, hc, k, hk⟩
    obtain ⟨t, ht, -⟩ := List.map_eq_singleton_iff.mp hk
    exact ⟨t, ht, by simp [ho], by simp [hc]⟩
  · rintro ⟨t, ht, ho, hc⟩
    exact ⟨by simpa using ho, by simpa using hc, t.key, by rw [ht]; rfl⟩

/-! ## Calls -/

/-- A call fails at the first key that is not in the store, and leaves the builder as it is, or all keys
are in the store. -/
theorem list_range_cases (b : Builder) (opening closing : Delimiter) (keys : List Key) :
    (∃ before k after, keys = before ++ k :: after ∧ (∀ l ∈ before, l < b.nodes.size) ∧
      b.nodes.size ≤ k ∧ b.list opening closing keys = (.error (.outOfRange b.nodes.size k), b)) ∨
    ((∀ k ∈ keys, k < b.nodes.size) ∧ ∃ ts, keys.mapM b.nodes.item = .ok ts) := by
  rcases b.nodes.mapM_item_cases keys with ⟨before, k, after, hsplit, hbefore, hsize, herror⟩ | hfound
  · exact .inl ⟨before, k, after, hsplit, hbefore, hsize, by simp [list, herror]⟩
  · exact .inr hfound

/-- A call with keys of the store gives the only child of a list without delimiters, or it fails at the
first child that is taken, or it stores a list of what it keeps. -/
theorem Sound.list_cases_of_found (hb : b.Sound) {ts : List (Tree Node)}
    (h : keys.mapM b.nodes.item = .ok ts) (opening closing : Delimiter) :
    (b.Collapses opening closing keys ∧
      ∃ k, b.keptKeys keys = [k] ∧ b.list opening closing keys = (.ok k, b)) ∨
    (¬b.Collapses opening closing keys ∧
      ((∃ before k after, b.keptKeys keys = before ++ k :: after ∧
        (attach b.attached before).1 = .ok () ∧ b.Taken before k ∧
        b.list opening closing keys =
          (.error (.alreadyAttached k), ⟨b.nodes, (attach b.attached before).2⟩)) ∨
      ((attach b.attached (b.keptKeys keys)).1 = .ok () ∧
        b.list opening closing keys = (.ok b.nodes.size,
          (Builder.push ⟨b.nodes, (attach b.attached (b.keptKeys keys)).2⟩
            (.list opening closing (weigh (kept ts))) (Forest.ofTrees (kept ts))).2)))) := by
  have hkeys := hb.map_key_kept h
  rcases list_cases h opening closing with ⟨t, ht, ho, hc, hlist⟩ | ⟨hshape, hlist⟩
  · refine .inl ⟨(hb.collapses_iff h).mpr ⟨t, ht, ho, hc⟩, t.key, ?_, hlist⟩
    rw [← hkeys, ht]
    rfl
  · refine .inr ⟨?_, ?_⟩
    · rw [hb.collapses_iff h]
      rintro ⟨t, ht, hempty⟩
      exact hshape t ht hempty
    · have henclose := enclose_cases b opening closing (kept ts)
      rw [hkeys, ← hlist] at henclose
      rcases attach_cases (hb.lt_of_mem_keptKeys h) with
        hok | ⟨before, k, after, hsplit, hbefore, hflag, hfail⟩
      · rcases henclose with ⟨fault, hfault, -⟩ | hstored
        · rw [hok] at hfault
          cases hfault
        · exact .inr hstored
      · rcases henclose with ⟨fault, hfault, hcall⟩ | ⟨hok, -⟩
        · rw [hfail] at hfault hcall
          cases hfault
          exact .inl ⟨before, k, after, hsplit, hbefore, taken_of_flagged hbefore hflag, hcall⟩
        · rw [hfail] at hok
          cases hok

/-- A call fails exactly when a key is not in the store or, unless the list collapses, a child that it
keeps is taken. -/
theorem Sound.list_fails_iff (hb : b.Sound) (opening closing : Delimiter) (keys : List Key) :
    (∃ fault, (b.list opening closing keys).1 = .error fault) ↔
      (∃ k ∈ keys, b.nodes.size ≤ k) ∨
        ¬b.Collapses opening closing keys ∧
          ∃ before k after, b.keptKeys keys = before ++ k :: after ∧ b.Taken before k := by
  rcases b.list_range_cases opening closing keys with
    ⟨before, k, after, rfl, -, hsize, hlist⟩ | ⟨hlt, ts, hfound⟩
  · rw [hlist]
    exact ⟨fun _ => .inl ⟨k, by simp, hsize⟩, fun _ => ⟨_, rfl⟩⟩
  · have hrange : ¬∃ k ∈ keys, b.nodes.size ≤ k := by
      rintro ⟨k, hk, hsize⟩
      exact Nat.not_lt_of_le hsize (hlt k hk)
    rw [or_iff_right hrange]
    rcases hb.list_cases_of_found hfound opening closing with ⟨hcollapse, k, -, hlist⟩ |
      ⟨hshape, ⟨before, k, after, hsplit, -, htaken, hlist⟩ | ⟨hok, hlist⟩⟩
    · rw [hlist]
      simp [hcollapse]
    · rw [hlist]
      exact ⟨fun _ => ⟨hshape, before, k, after, hsplit, htaken⟩, fun _ => ⟨_, rfl⟩⟩
    · rw [hlist]
      constructor
      · rintro ⟨fault, hfault⟩
        cases hfault
      · rintro ⟨-, before, k, after, hsplit, htaken⟩
        rw [hsplit] at hok
        exact absurd hok (not_attach_ok_of_taken htaken)

/-- A call that fails with keys of the store has flagged the children before the first that is taken, and
changed nothing else. -/
theorem Sound.of_list_error (hb : b.Sound) (hlt : ∀ k ∈ keys, k < b.nodes.size) {fault : Fault}
    {b' : Builder} (h : b.list opening closing keys = (.error fault, b')) :
    ∃ before k after, b.keptKeys keys = before ++ k :: after ∧ b.Taken before k ∧
      before.Nodup ∧ (∀ l ∈ before, b.attached.get? l = some false) ∧
      fault = .alreadyAttached k ∧ b'.nodes = b.nodes ∧
      ∀ l, b'.attached.get? l = if l ∈ before then some true else b.attached.get? l := by
  rcases b.list_range_cases opening closing keys with ⟨before, k, after, rfl, -, hsize, -⟩ |
    ⟨-, ts, hfound⟩
  · exact absurd (hlt k (by simp)) (Nat.not_lt_of_le hsize)
  · rcases hb.list_cases_of_found hfound opening closing with ⟨-, k, -, hlist⟩ |
      ⟨-, ⟨before, k, after, hsplit, hbefore, htaken, hlist⟩ | ⟨-, hlist⟩⟩
    · rw [hlist] at h
      cases h
    · rw [hlist] at h
      cases h
      obtain ⟨hnodup, hfree, -⟩ := of_attach_ok hbefore
      exact ⟨before, k, after, hsplit, htaken, hnodup, hfree, rfl, rfl, get?_attach_of_ok hbefore⟩
    · rw [hlist] at h
      cases h

/-- A call that succeeds gives the only child of a list without delimiters and changes nothing, or it
appends a list of what it keeps and flags that. -/
theorem Reachable.of_list_ok (hb : b.Reachable) {key : Key} {b' : Builder}
    (h : b.list opening closing keys = (.ok key, b')) :
    (b.Collapses opening closing keys ∧ b.keptKeys keys = [key] ∧ b' = b) ∨
    (¬b.Collapses opening closing keys ∧ key = b.nodes.size ∧
      (∃ t : Tree Node, t.label = ⟨key, .list opening closing t.children.size⟩ ∧
        t.childKeys = b.keptKeys keys ∧ b'.nodes = (b.nodes.alloc t).2) ∧
      ∀ l, b'.attached.get? l =
        if l ∈ b.keptKeys keys then some true
        else if l = b.nodes.size then some false else b.attached.get? l) := by
  have hsound := hb.sound
  rcases b.list_range_cases opening closing keys with ⟨before, k, after, -, -, -, hlist⟩ |
    ⟨-, ts, hfound⟩
  · rw [hlist] at h
    cases h
  · rcases hsound.list_cases_of_found hfound opening closing with ⟨hcollapse, k, hk, hlist⟩ |
      ⟨hshape, ⟨before, k, after, -, -, -, hlist⟩ | ⟨hok, hlist⟩⟩
    · rw [hlist] at h
      cases h
      exact .inl ⟨hcollapse, hk, rfl⟩
    · rw [hlist] at h
      cases h
    · rw [hlist] at h
      cases h
      refine .inr ⟨hshape, rfl, ⟨⟨⟨b.nodes.size, _⟩, Forest.ofTrees (kept ts)⟩, ?_, ?_, rfl⟩, ?_⟩
      · have hstored := (hsound.coherent.mapM_item hfound).2
        have hweigh : weigh (kept ts) = (Forest.ofTrees (kept ts)).size :=
          weigh_eq_size fun t ht => hb.weighed _ t (hstored t (kept_sublist.subset ht))
        rw [hweigh]
      · rw [Tree.childKeys_eq, Forest.trees_ofTrees, hsound.map_key_kept hfound]
      · intro l
        change ((attach b.attached (b.keptKeys keys)).2.alloc false).2.get? l = _
        rw [Store.get?_alloc, size_attach, get?_attach_of_ok hok, hsound.flags]
        have hnew : b.nodes.size ∉ b.keptKeys keys := fun hmem =>
          Nat.lt_irrefl _ (hsound.flags ▸ Store.lt_size_of_get? ((of_attach_ok hok).2.1 _ hmem))
        by_cases hl : l = b.nodes.size
        · rw [hl, if_pos rfl, if_neg hnew, if_pos rfl]
        · rw [if_neg hl, if_neg hl]

/-- What a call for a list does to a reachable builder, whatever keys it is given:

* it fails exactly when a key is not in the store or, unless the list collapses, a child that it keeps is
  taken;
* when a key is not in the store, the builder is as before;
* when it fails otherwise, the nodes are as before, and the children before the first that is taken are
  flagged;
* when it succeeds, the list collapses and the builder is as before, or one node is appended and the
  children that it keeps are flagged. -/
theorem list_outcomes (hb : b.Reachable) (opening closing : Delimiter) (keys : List Key) :
    ((∃ fault, (b.list opening closing keys).1 = .error fault) ↔
      (∃ k ∈ keys, b.nodes.size ≤ k) ∨
        ¬b.Collapses opening closing keys ∧
          ∃ before k after, b.keptKeys keys = before ++ k :: after ∧ b.Taken before k) ∧
    ((∃ k ∈ keys, b.nodes.size ≤ k) → ∃ before k after, keys = before ++ k :: after ∧
      (∀ l ∈ before, l < b.nodes.size) ∧ b.nodes.size ≤ k ∧
      b.list opening closing keys = (.error (.outOfRange b.nodes.size k), b)) ∧
    ((∀ k ∈ keys, k < b.nodes.size) →
      ∀ fault b', b.list opening closing keys = (.error fault, b') →
        ∃ before k after, b.keptKeys keys = before ++ k :: after ∧ b.Taken before k ∧
          before.Nodup ∧ (∀ l ∈ before, b.attached.get? l = some false) ∧
          fault = .alreadyAttached k ∧ b'.nodes = b.nodes ∧
          ∀ l, b'.attached.get? l = if l ∈ before then some true else b.attached.get? l) ∧
    ∀ key b', b.list opening closing keys = (.ok key, b') →
      (b.Collapses opening closing keys ∧ b.keptKeys keys = [key] ∧ b' = b) ∨
      (¬b.Collapses opening closing keys ∧ key = b.nodes.size ∧
        (∃ t : Tree Node, t.label = ⟨key, .list opening closing t.children.size⟩ ∧
          t.childKeys = b.keptKeys keys ∧ b'.nodes = (b.nodes.alloc t).2) ∧
        ∀ l, b'.attached.get? l =
          if l ∈ b.keptKeys keys then some true
          else if l = b.nodes.size then some false else b.attached.get? l) := by
  refine ⟨hb.sound.list_fails_iff opening closing keys, ?_,
    fun hlt fault b' h => hb.sound.of_list_error hlt h, fun key b' h => hb.of_list_ok h⟩
  rintro ⟨k, hk, hsize⟩
  rcases b.list_range_cases opening closing keys with hfail | ⟨hlt, -⟩
  · exact hfail
  · exact absurd (hlt k hk) (Nat.not_lt_of_le hsize)

/-- A list of a free atom, an atom without text, an atom that has a parent and another free one. The call
fails at the third, and the first stays flagged. -/
theorem list_outcomes_half_flagged :
    ∃ b b' : Builder,
      b = (((((empty.atom ⟨[], "x", .normal⟩).2.atom ⟨[], "\r", .normal⟩).2.atom
        ⟨[], "y", .normal⟩).2.atom ⟨[], "z", .normal⟩).2.list ⟨[], "("⟩ ⟨[], ")"⟩ [0]).2 ∧
      b.list ⟨[], "["⟩ ⟨[], "]"⟩ [2, 1, 0, 3] = (.error (.alreadyAttached 0), b') ∧
      b'.nodes = b.nodes ∧
      ∀ l, b'.attached.get? l = if l ∈ [2] then some true else b.attached.get? l := by
  refine ⟨_, _, rfl, rfl, ?_⟩
  obtain ⟨-, -, hfail, -⟩ := list_outcomes
    (.list ⟨[], "("⟩ ⟨[], ")"⟩ [0] (.atom ⟨[], "z", .normal⟩ (.atom ⟨[], "y", .normal⟩
      (.atom ⟨[], "\r", .normal⟩ (.atom ⟨[], "x", .normal⟩ .empty)))))
    ⟨[], "["⟩ ⟨[], "]"⟩ [2, 1, 0, 3]
  obtain ⟨before, k, after, hsplit, -, -, hfree, hfault, hnodes, hflags⟩ :=
    hfail (by decide) _ _ rfl
  obtain rfl : 0 = k := Fault.alreadyAttached.inj hfault
  change [2, 0, 3] = before ++ 0 :: after at hsplit
  match before with
  | [] => simp at hsplit
  | [l] =>
    obtain rfl : 2 = l := (List.cons.inj hsplit).1
    exact ⟨hnodes, hflags⟩
  | l :: m :: before =>
    obtain rfl : 0 = m := (List.cons.inj (List.cons.inj hsplit).2).1
    exact absurd (hfree 0 (by simp)) (by decide)

end Builder

end TwinForest
