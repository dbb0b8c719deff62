import TwinForest.Proofs.Reading
import TwinForest.Proofs.Spelling

/-!
# Decoding what was encoded

The text that parse trees are encoded as spells them, and is read back as the value that was written.
So the trees are decoded again, as long as the value does not nest too deep. If it does, the document
is refused like one that is malformed: the variant of a node comes first, then the members of the
node are read as a whole one after the other, and the first that nests too deep ends the decoding.
-/

namespace TwinForest

open Json

/-! ## Written values -/

theorem Json.Plain.sound {j : Json} (h : j.Plain) : j.sound = true := by
  induction h with
  | array _ ih => exact itemsSound_iff.mpr ih
  | object _ ih => exact membersSound_iff.mpr ih
  | _ => rfl

theorem Json.Plain.readable_iff {j : Json} (h : j.Plain) {room : Nat} :
    j.readable room = true ↔ j.depth ≤ room := by
  simp [readable, h.sound]

namespace Span

theorem plain_toJson (s : Span) : s.toJson.Plain := by
  have hword (n : UInt32) : (Json.nat n.toNat).Plain :=
    .nat (Nat.lt_trans n.toNat_lt_size (by decide))
  refine .object ?_
  simp [hword]

theorem plain_listToJson (spans : List Span) : (listToJson spans).Plain :=
  .array (List.forall_mem_map.mpr fun s _ => s.plain_toJson)

theorem spelled_listToJson (spans : List Span) : ArrayOf Spelled (listToJson spans) spans := by
  refine .items (List.forall₂_map_left_iff.mpr (List.forall₂_same.mpr fun s _ => ?_))
  exact .fields rfl (.given rfl) (.given rfl) (.given rfl)

end Span

namespace ParseTree

mutual

theorem plain_toJson (t : ParseTree) : t.toJson.Plain := by
  cases t with
  | list opening children closing =>
    refine .object ?_
    have hchildren := plain_childrenToJson children
    simp [Plain.string, Plain.array hchildren, Span.plain_listToJson]
  | atom a =>
    refine .object ?_
    simp [Plain.string, Span.plain_listToJson]

theorem plain_childrenToJson (ts : List ParseTree) : ∀ j ∈ childrenToJson ts, j.Plain := by
  cases ts with
  | nil => simp [childrenToJson]
  | cons t ts => exact List.forall_mem_cons.mpr ⟨plain_toJson t, plain_childrenToJson ts⟩

end

mutual

/-- The value of a tree spells it, in either dialect. -/
theorem spelled_toJson (d : Dialect) (nested : Bool) (t : ParseTree) :
    Spelled d nested t.toJson t := by
  cases t with
  | list opening children closing =>
    have hchildren := spelled_childrenToJson d true children
    exact .node rfl (.given (.name .list)) (.list (.given (Span.spelled_listToJson _)) (.given rfl)
      (.given (.items hchildren)) (.given (Span.spelled_listToJson _)) (.given rfl))
  | atom a =>
    exact .node rfl (.given (.name .atom)) (.atom (.given (Span.spelled_listToJson _)) (.given rfl)
      (.given (.name a.kind)))

theorem spelled_childrenToJson (d : Dialect) (nested : Bool) (ts : List ParseTree) :
    List.Forall₂ (Spelled d nested) (childrenToJson ts) ts := by
  cases ts with
  | nil => exact .nil
  | cons t ts => exact .cons (spelled_toJson d nested t) (spelled_childrenToJson d nested ts)

end

/-! ## Values that nest too deep -/

theorem Variant.ofMembers_eq_malformed {access : Access} {v : Variant}
    {members : List (String × Json)} (hnames : ∀ m ∈ members, m.1 ≠ "type")
    (h : ∃ m ∈ members, access.read m.2 ≠ .ok ()) :
    ofMembers access true (some v) members = .error .malformed := by
  have hread (j : Json) : access.read j = .ok () ∨ access.read j = .error .malformed := by
    cases access with
    | direct room => by_cases hj : j.readable room <;> simp [Access.read, hj]
    | held => exact .inl rfl
  induction members with
  | nil => simp at h
  | cons m members ih =>
    obtain ⟨name, j⟩ := m
    obtain ⟨hname, hnames⟩ := List.forall_mem_cons.mp hnames
    rw [ofMembers, if_neg hname]
    rcases hread j with hj | hj
    · rw [hj]
      refine ih hnames ?_
      obtain ⟨m, hm, hne⟩ := h
      rcases List.mem_cons.mp hm with rfl | hm
      · exact absurd hj hne
      · exact ⟨m, hm, hne⟩
    · rw [hj]
      rfl

theorem toJson_eq_object (t : ParseTree) : ∃ members,
    t.toJson = .object (("type", .string t.variant.name) :: members) ∧
      ∀ m ∈ members, m.1 ≠ "type" := by
  cases t with
  | list opening children closing => exact ⟨_, rfl, by simp⟩
  | atom a => exact ⟨_, rfl, by simp⟩

/-- A tree is decoded from its value, unless that nests too deep. -/
theorem ofJson_toJson (room : Nat) (t : ParseTree) :
    ofJson (.direct (room + 1)) t.toJson =
      if t.toJson.depth ≤ room + 1 then .ok t else .error .malformed := by
  split
  · rename_i hdepth
    rw [ofJson_direct_eq_ok_iff]
    exact ⟨t.plain_toJson.readable_iff.mpr hdepth, spelled_toJson .lenient false t⟩
  · rename_i hdepth
    obtain ⟨members, ht, hnames⟩ := t.toJson_eq_object
    have hplain := t.plain_toJson
    rw [ht] at hdepth hplain ⊢
    have hdeep : ∃ m ∈ members, (Access.direct room).read m.2 ≠ .ok () := by
      by_contra hall
      have hread : ∀ m ∈ members, m.2.readable room = true := fun m hm =>
        Access.read_direct_eq_ok_iff.mp (not_not.mp fun hne => hall ⟨m, hm, hne⟩)
      have htag : (Json.string t.variant.name).readable room = true := by
        simp [readable, Json.sound, depth]
      exact hdepth (hplain.readable_iff.mp
        (readable_object_iff.mpr (List.forall_mem_cons.mpr ⟨htag, hread⟩)))
    have htag : Variant.ofJson (.direct room) (.string t.variant.name) = .ok t.variant :=
      Variant.ofJson_eq_ok_iff.mpr (.name _)
    have hvariant : Variant.ofMembers (.direct room) true none
        (("type", .string t.variant.name) :: members) = .error .malformed := by
      rw [Variant.ofMembers, if_pos rfl, htag]
      exact Variant.ofMembers_eq_malformed hnames hdeep
    rw [ofJson, Access.inside, Nat.add_sub_cancel, hvariant]
    rfl

theorem treesOfItems_childrenToJson (room : Nat) (ts : List ParseTree) :
    treesOfItems (.direct (room + 1)) (childrenToJson ts) =
      if itemsDepth (childrenToJson ts) ≤ room + 1 then .ok ts else .error .malformed := by
  induction ts with
  | nil => simp [childrenToJson, treesOfItems, itemsDepth]
  | cons t ts ih =>
    rw [childrenToJson, treesOfItems, ofJson_toJson, ih, itemsDepth]
    by_cases ht : t.toJson.depth ≤ room + 1
    · by_cases hts : itemsDepth (childrenToJson ts) ≤ room + 1
      · rw [if_pos ht, if_pos hts, if_pos (Nat.max_le.mpr ⟨ht, hts⟩)]
        rfl
      · rw [if_pos ht, if_neg hts, if_neg fun h => hts (Nat.max_le.mp h).2]
        rfl
    · rw [if_neg ht, if_neg fun h => ht (Nat.max_le.mp h).1]
      rfl

/-! ## Documents -/

theorem listOfJson_listToJson (room : Nat) (ts : List ParseTree) :
    listOfJson (.direct (room + 2)) (listToJson ts) =
      if (listToJson ts).depth ≤ room + 2 then .ok ts else .error .malformed := by
  have hitems := treesOfItems_childrenToJson room ts
  have hdepth : (listToJson ts).depth = itemsDepth (childrenToJson ts) + 1 := rfl
  refine hitems.trans (if_congr ?_ rfl rfl)
  omega

/-- Trees are decoded from the text that they are encoded as, unless it nests more than 127 levels
deep. Then it is refused as malformed. -/
theorem decode_encode_unless_deep (ts : List ParseTree) :
    ∃ j, parse? (encode ts) = some j ∧
      decode (encode ts) = if j.depth ≤ 127 then .ok ts else .error .malformed := by
  have hread : read (encode ts) = ⟨listToJson ts, true⟩ :=
    read_render (.array (plain_childrenToJson ts))
  have hvalue : listOfJson (.direct maxDepth) (listToJson ts) =
      if (listToJson ts).depth ≤ 127 then .ok ts else .error .malformed :=
    listOfJson_listToJson 125 ts
  refine ⟨listToJson ts, by simp [parse?, hread], ?_⟩
  rw [decode, decodeText, hread, hvalue]
  split
  · rfl
  · rfl

end ParseTree

end TwinForest
