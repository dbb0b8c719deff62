import TwinForest.Json.Decode
import TwinForest.Proofs.Except

/-!
# Fields of a value

A decoder of a record goes through the members of an object and keeps what it met of each field. It
succeeds when every field has at most one value, and that value can be decoded. The values of the
other members do not matter. A record may also be given as an array, where a field is told by its
place; that is the object with the names put in front of the items.

## Main definitions

* `Json.valuesOf`: the values of the members with a name.
* `Json.named`: the members of an object, or the items of an array with their names.
* `Json.Once`, `Json.AtMostOnce`, `Json.ArrayOf`: how the values of a field spell its content.
* `Json.gather`: what a decoder makes of the values of one field.

## Main results

* `Json.gather_eq_some_iff`, `Json.gather_getD_iff`: a field that has to be there, and one that has a
  default.
* `Json.valuesOf_zip`: a field that is told by its place.
* `Json.readable_array_iff`, `Json.readable_object_iff`: a value can be read when all that it holds
  can be read with one level less.
-/

namespace TwinForest.Json

variable {α : Type} {value : Json → Except DecodeError α} {spells : Json → α → Prop}
  {name : String} {values items : List Json} {default a : α}

/-! ## Values by name -/

def valuesOf (name : String) (members : List (String × Json)) : List Json :=
  (members.filter (·.1 = name)).map Prod.snd

@[simp] theorem valuesOf_nil (name : String) : valuesOf name [] = [] := rfl

@[simp] theorem valuesOf_cons_self (name : String) (j : Json) (members : List (String × Json)) :
    valuesOf name ((name, j) :: members) = j :: valuesOf name members := by
  simp [valuesOf]

@[simp] theorem valuesOf_cons_ne {other : String} (h : other ≠ name) (j : Json)
    (members : List (String × Json)) :
    valuesOf name ((other, j) :: members) = valuesOf name members := by
  simp [valuesOf, h]

theorem mem_of_mem_valuesOf {members : List (String × Json)} {j : Json}
    (h : j ∈ valuesOf name members) : (name, j) ∈ members := by
  simpa [valuesOf] using h

theorem mem_valuesOf {members : List (String × Json)} {m : String × Json} (h : m ∈ members) :
    m.2 ∈ valuesOf m.1 members :=
  List.mem_map_of_mem (List.mem_filter.mpr ⟨h, decide_eq_true rfl⟩)

/-- The members of an object, or the items of an array, which may end early, with the names of the
fields in order. -/
def named (names : List String) : Json → Option (List (String × Json))
  | .object members => some members
  | .array items => if items.length ≤ names.length then some (names.zip items) else none
  | _ => none

theorem valuesOf_zip_of_notMem {names : List String} (h : name ∉ names) (items : List Json) :
    valuesOf name (names.zip items) = [] := by
  refine List.eq_nil_iff_forall_not_mem.mpr fun j hj => h ?_
  exact (List.of_mem_zip (mem_of_mem_valuesOf hj)).1

/-- The values of the field with the name at an index are the item at that index, if there is one. -/
theorem valuesOf_zip {names : List String} (hnames : names.Nodup) {i : Nat}
    (hi : names[i]? = some name) (items : List Json) :
    valuesOf name (names.zip items) = items[i]?.toList := by
  induction names generalizing items i with
  | nil => simp at hi
  | cons n names ih =>
    obtain ⟨hn, hnames⟩ := List.nodup_cons.mp hnames
    cases items with
    | nil => simp
    | cons j items =>
      cases i with
      | zero =>
        obtain rfl : n = name := by simpa using hi
        simp [valuesOf_zip_of_notMem hn]
      | succ i =>
        have hi' : names[i]? = some name := by simpa using hi
        have hne : n ≠ name := fun h => hn (h ▸ List.mem_of_getElem? hi')
        simp [hne, ih hnames hi']

/-! ## Values of one field -/

inductive Once (spells : Json → α → Prop) : List Json → α → Prop where
  | given {j : Json} {a : α} : spells j a → Once spells [j] a

/-- The field has one value, which spells the content, or none, and the content is the default. -/
inductive AtMostOnce (spells : Json → α → Prop) (default : α) : List Json → α → Prop where
  | absent : AtMostOnce spells default [] default
  | given {j : Json} {a : α} : spells j a → AtMostOnce spells default [j] a

inductive ArrayOf (spells : Json → α → Prop) : Json → List α → Prop where
  | items {items : List Json} {as : List α} :
      List.Forall₂ spells items as → ArrayOf spells (.array items) as

theorem once_iff : Once spells values a ↔ ∃ j, values = [j] ∧ spells j a := by
  constructor
  · rintro ⟨h⟩
    exact ⟨_, rfl, h⟩
  · rintro ⟨j, rfl, h⟩
    exact .given h

theorem atMostOnce_iff :
    AtMostOnce spells default values a ↔ values = [] ∧ a = default ∨ Once spells values a := by
  constructor
  · rintro (_ | h)
    · exact .inl ⟨rfl, rfl⟩
    · exact .inr (.given h)
  · rintro (⟨rfl, rfl⟩ | h)
    · exact .absent
    · cases h with
      | given h => exact .given h

theorem once_toList_iff {item : Option Json} :
    Once spells item.toList a ↔ ∃ j, item = some j ∧ spells j a := by
  cases item <;> simp [once_iff]

/-! ## Decoded fields -/

@[simp] theorem refuse_ne_ok (j : Json) (expected : String) (a : α) : j.refuse expected ≠ .ok a := by
  cases j <;> simp [refuse]

theorem toItems_eq_ok_iff (h : ∀ j a, value j = .ok a ↔ spells j a) {j : Json} {as : List α} :
    j.toItems value = .ok as ↔ ArrayOf spells j as := by
  have hitems (items : List Json) : items.mapM value = .ok as ↔ List.Forall₂ spells items as := by
    simp only [mapM_eq_ok_iff, h]
  constructor
  · intro hj
    cases j <;> simp [toItems] at hj
    exact .items ((hitems _).mp hj)
  · rintro ⟨hj⟩
    exact (hitems _).mpr hj

/-- What is known of a field after some more values of it. -/
def gather (name : String) (value : Json → Except DecodeError α) (before : Option α)
    (values : List Json) : Except DecodeError (Option α) :=
  values.foldlM (fun found j => field name found (value j)) before

@[simp] theorem gather_nil (name : String) (value : Json → Except DecodeError α)
    (before : Option α) : gather name value before [] = .ok before := rfl

theorem gather_cons (name : String) (value : Json → Except DecodeError α) (before : Option α)
    (j : Json) (values : List Json) :
    gather name value before (j :: values) =
      field name before (value j) >>= fun found => gather name value found values :=
  List.foldlM_cons

/-- A field that is known already has no more values. -/
theorem gather_some_eq_ok_iff {after : Option α} :
    gather name value (some a) values = .ok after ↔ values = [] ∧ after = some a := by
  cases values with
  | nil => simp [eq_comm]
  | cons j values => simp [gather_cons, field, bind, Except.bind]

theorem gather_eq_ok_iff (h : ∀ j ∈ values, ∀ a, value j = .ok a ↔ spells j a) {after : Option α} :
    gather name value none values = .ok after ↔
      values = [] ∧ after = none ∨ ∃ a, Once spells values a ∧ after = some a := by
  cases values with
  | nil => simp [once_iff, eq_comm]
  | cons j values =>
    simp only [gather_cons, field, Option.isSome_none, Bool.false_eq_true, if_false,
      bind_eq_ok_iff, map_eq_ok_iff, once_iff, h j List.mem_cons_self]
    constructor
    · rintro ⟨_, ⟨a, ha, rfl⟩, hrest⟩
      obtain ⟨rfl, rfl⟩ := gather_some_eq_ok_iff.mp hrest
      exact .inr ⟨a, ⟨j, rfl, ha⟩, rfl⟩
    · rintro (⟨hv, -⟩ | ⟨a, ⟨_, hv, ha⟩, rfl⟩)
      · cases hv
      · cases hv
        exact ⟨some a, ⟨a, ha, rfl⟩, rfl⟩

/-- A field is known in the end when it has one value. -/
theorem gather_eq_some_iff (name : String) (h : ∀ j ∈ values, ∀ a, value j = .ok a ↔ spells j a) :
    gather name value none values = .ok (some a) ↔ Once spells values a := by
  simp [gather_eq_ok_iff h]

/-- A field with a default. -/
theorem gather_getD_iff (name : String) (h : ∀ j ∈ values, ∀ a, value j = .ok a ↔ spells j a) :
    (∃ after, gather name value none values = .ok after ∧ after.getD default = a) ↔
      AtMostOnce spells default values a := by
  simp only [gather_eq_ok_iff h, atMostOnce_iff]
  constructor
  · rintro ⟨_, ⟨hv, rfl⟩ | ⟨a', ha, rfl⟩, rfl⟩
    · exact .inl ⟨hv, rfl⟩
    · exact .inr ha
  · rintro (⟨hv, rfl⟩ | ha)
    · exact ⟨none, .inl ⟨hv, rfl⟩, rfl⟩
    · exact ⟨some a, .inr ⟨a, ha, rfl⟩, rfl⟩

theorem required_eq_ok_iff {found : Option α} : required name found = .ok a ↔ found = some a := by
  cases found <;> simp [required]

theorem itemAt_eq_ok_iff {i : Nat} {expected : String} {j : Json} :
    itemAt items i expected = .ok j ↔ items[i]? = some j := by
  unfold itemAt
  cases items[i]? <;> simp

theorem itemOr_eq_ok_iff (h : ∀ j ∈ items, ∀ a, value j = .ok a ↔ spells j a) {i : Nat} :
    itemOr items i default value = .ok a ↔ AtMostOnce spells default items[i]?.toList a := by
  unfold itemOr
  cases hj : items[i]? with
  | none => simp [atMostOnce_iff, once_iff, eq_comm]
  | some j => simp [atMostOnce_iff, once_iff, h j (List.mem_of_getElem? hj)]

theorem atMost_eq_ok_iff {n : Nat} {u : Unit} : atMost items n = .ok u ↔ items.length ≤ n := by
  unfold atMost
  split <;> simp_all

theorem decodeText_eq_ok_iff {value : Access → Json → Except DecodeError α} {text : String} :
    decodeText value text = .ok a ↔
      ∃ j, parse? text = some j ∧ value (.direct maxDepth) j = .ok a := by
  simp only [decodeText, parse?, ending, bind_eq_ok_iff, pure_eq_ok_iff]
  cases (read text).whole <;> simp

/-! ## Readable values -/

def contents : Json → List Json
  | .array items => items
  | .object members => members.map Prod.snd
  | _ => []

theorem itemsDepth_le_iff {n : Nat} : itemsDepth items ≤ n ↔ ∀ j ∈ items, j.depth ≤ n := by
  induction items with
  | nil => simp [itemsDepth]
  | cons j items ih => simp only [itemsDepth, Nat.max_le, ih, List.forall_mem_cons]

theorem membersDepth_le_iff {members : List (String × Json)} {n : Nat} :
    membersDepth members ≤ n ↔ ∀ m ∈ members, m.2.depth ≤ n := by
  induction members with
  | nil => simp [membersDepth]
  | cons m members ih => simp only [membersDepth, Nat.max_le, ih, List.forall_mem_cons]

theorem itemsSound_iff : itemsSound items = true ↔ ∀ j ∈ items, j.sound = true := by
  induction items with
  | nil => simp [itemsSound]
  | cons j items ih => simp [itemsSound, ih]

theorem membersSound_iff {members : List (String × Json)} :
    membersSound members = true ↔ ∀ m ∈ members, m.2.sound = true := by
  induction members with
  | nil => simp [membersSound]
  | cons m members ih => simp [membersSound, ih]

theorem depth_lt_of_mem_contents {j k : Json} (h : k ∈ j.contents) : k.depth < j.depth := by
  cases j with
  | array items =>
    have hk : k.depth ≤ itemsDepth items := itemsDepth_le_iff.mp (Nat.le_refl _) k h
    rw [depth]
    omega
  | object members =>
    obtain ⟨m, hm, rfl⟩ := List.mem_map.mp h
    have hk : m.2.depth ≤ membersDepth members := membersDepth_le_iff.mp (Nat.le_refl _) m hm
    rw [depth]
    omega
  | _ => simp [contents] at h

theorem readable_array_iff {room : Nat} :
    (Json.array items).readable (room + 1) = true ↔ ∀ j ∈ items, j.readable room = true := by
  simp only [readable, sound, depth, Bool.and_eq_true, decide_eq_true_eq, itemsSound_iff,
    Nat.add_le_add_iff_right, itemsDepth_le_iff, forall_and]

theorem readable_object_iff {members : List (String × Json)} {room : Nat} :
    (Json.object members).readable (room + 1) = true ↔
      ∀ m ∈ members, m.2.readable room = true := by
  simp only [readable, sound, depth, Bool.and_eq_true, decide_eq_true_eq, membersSound_iff,
    Nat.add_le_add_iff_right, membersDepth_le_iff, forall_and]

theorem readable_iff_of_named {names : List String} {j : Json} {members : List (String × Json)}
    {room : Nat} (h : j.named names = some members) :
    j.readable (room + 1) = true ↔ ∀ k ∈ j.contents, k.readable room = true := by
  cases j with
  | array items => exact readable_array_iff
  | object members => rw [readable_object_iff, contents, List.forall_mem_map]
  | _ => cases h

theorem Access.read_direct_eq_ok_iff {room : Nat} {j : Json} {u : Unit} :
    (direct room).read j = .ok u ↔ j.readable room = true := by
  simp [read]

end TwinForest.Json
