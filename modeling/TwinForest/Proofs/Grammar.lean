import TwinForest.ParseTree.Document
import TwinForest.Proofs.Fields

/-!
# How documents spell parse trees

The grammar of parse trees in documents, told without the decoder. A field counts wherever it stands
in an object, and the fields of the other variant are as free as members that nobody knows. The
decoders of everything but the trees themselves accept what the grammar has.

In its strict form the grammar gives a variant by its name, and a kind by its name or by an object
that holds null under it. The decoder is a little more lenient. Nodes below another node are held
before they are decoded, and there a variant may be given by its number; and the object of a kind may
hold an empty object in the place of null.

## Main definitions

* `Span.Spelled`, `AtomKind.Spelled`, `ParseTree.Spelled`: the grammar.
* `Dialect`: its strict and its lenient form.

## Main results

* `Span.ofJson_eq_ok_iff`, `AtomKind.ofJson_eq_ok_iff`: spans and kinds are decoded exactly when they
  are spelled.
* `ParseTree.Variant.ofMembers_eq_ok_iff_once`: the variant of an object is told once.
-/

namespace TwinForest

open Json

/-! ## The grammar -/

def Json.IsText (j : Json) (s : String) : Prop :=
  j = .string s

def Json.IsWord (j : Json) (n : UInt32) : Prop :=
  j = .nat n.toNat

inductive Span.Spelled : Json → Span → Prop where
  | fields {j : Json} {members : List (String × Json)} {s : Span} :
      j.named ["line", "startCol", "endCol"] = some members →
      Once IsWord (valuesOf "line" members) s.line →
      Once IsWord (valuesOf "startCol" members) s.startCol →
      Once IsWord (valuesOf "endCol" members) s.endCol → Spelled j s

inductive Dialect where
  /-- Variants have their names, and what holds nothing is null. -/
  | strict
  /-- Variants below another node may have their numbers, and what holds nothing may be an empty
  object. -/
  | lenient
deriving DecidableEq

/-- The value spells a kind: by its name, or by an object with the name as its only member. -/
inductive AtomKind.Spelled (d : Dialect) : Json → AtomKind → Prop where
  | name (kind : AtomKind) : Spelled d (.string kind.name) kind
  | null (kind : AtomKind) : Spelled d (.object [(kind.name, .null)]) kind
  | empty (kind : AtomKind) : d = .lenient → Spelled d (.object [(kind.name, .object [])]) kind

namespace ParseTree

def variant : ParseTree → Variant
  | list _ _ _ => .list
  | atom _ => .atom

def Variant.name : Variant → String
  | list => "list"
  | atom => "atom"

def Variant.index : Variant → Nat
  | list => 0
  | atom => 1

/-- The names of the fields of a variant in order, after the one that tells the variant. -/
def Variant.fields : Variant → List String
  | list => ["type", "openPosition", "openContent", "children", "closePosition", "closeContent"]
  | atom => ["type", "position", "content", "kind"]

inductive Variant.Spelled (d : Dialect) (nested : Bool) : Json → Variant → Prop where
  | name (v : Variant) : Spelled d nested (.string v.name) v
  | number (v : Variant) : d = .lenient → nested = true → Spelled d nested (.nat v.index) v

/-- The members give the fields of the tree, where `below` tells how a child is spelled. -/
inductive HasFields (d : Dialect) (below : Json → ParseTree → Prop) :
    ParseTree → List (String × Json) → Prop where
  | list {opening closing : Delimiter} {children : List ParseTree}
      {members : List (String × Json)} :
      AtMostOnce (ArrayOf Span.Spelled) [] (valuesOf "openPosition" members) opening.position →
      AtMostOnce IsText "" (valuesOf "openContent" members) opening.content →
      AtMostOnce (ArrayOf below) [] (valuesOf "children" members) children →
      AtMostOnce (ArrayOf Span.Spelled) [] (valuesOf "closePosition" members) closing.position →
      AtMostOnce IsText "" (valuesOf "closeContent" members) closing.content →
      HasFields d below (.list opening children closing) members
  | atom {a : Atom} {members : List (String × Json)} :
      AtMostOnce (ArrayOf Span.Spelled) [] (valuesOf "position" members) a.position →
      Once IsText (valuesOf "content" members) a.content →
      AtMostOnce (AtomKind.Spelled d) .normal (valuesOf "kind" members) a.kind →
      HasFields d below (.atom a) members

/-- The value spells the tree, which is below another one if `nested` holds: it tells the variant
once, and gives the fields. -/
inductive Spelled (d : Dialect) : Bool → Json → ParseTree → Prop where
  | node {nested : Bool} {j : Json} {t : ParseTree} {members : List (String × Json)} :
      j.named t.variant.fields = some members →
      Once (Variant.Spelled d nested) (valuesOf "type" members) t.variant →
      HasFields d (Spelled d true) t members → Spelled d nested j t

end ParseTree

/-! ## Texts, spans and kinds -/

theorem Json.toText_eq_ok_iff {j : Json} {s : String} : j.toText = .ok s ↔ j.IsText s := by
  cases j <;> simp [toText, IsText]

namespace Span

theorem coordinate_eq_ok_iff {j : Json} {n : UInt32} : coordinate j = .ok n ↔ j.IsWord n := by
  rw [coordinate, map_eq_ok_iff]
  constructor
  · rintro ⟨k, hk, rfl⟩
    cases j with
    | number x =>
      cases x with
      | integer i =>
        simp only [toNatBelow, UInt32.size] at hk
        split at hk
        · cases hk
          have hi : (i.toNat.toUInt32.toNat : Int) = i := by
            simp only [Nat.toUInt32, UInt32.toNat_ofNat']
            omega
          rw [IsWord, Json.nat, hi]
        · cases hk
      | real bits => simp [toNatBelow] at hk
    | _ => simp [toNatBelow] at hk
  · rintro rfl
    refine ⟨n.toNat, ?_, by simp⟩
    have hn := n.toNat_lt_size
    simp only [Json.nat, toNatBelow]
    rw [if_pos ⟨by omega, by omega⟩]
    simp

theorem Fields.ofMembers_eq_ok_iff {fields fields' : Fields} {members : List (String × Json)} :
    fields.ofMembers members = .ok fields' ↔
      gather "line" coordinate fields.line (valuesOf "line" members) = .ok fields'.line ∧
      gather "startCol" coordinate fields.startCol (valuesOf "startCol" members) =
        .ok fields'.startCol ∧
      gather "endCol" coordinate fields.endCol (valuesOf "endCol" members) = .ok fields'.endCol := by
  induction members generalizing fields with
  | nil =>
    obtain ⟨line, startCol, endCol⟩ := fields
    obtain ⟨line', startCol', endCol'⟩ := fields'
    simp [ofMembers]
  | cons m members ih =>
    obtain ⟨name, j⟩ := m
    unfold ofMembers
    split
    case h_4 h₁ h₂ h₃ =>
      rw [ih, valuesOf_cons_ne h₁, valuesOf_cons_ne h₂, valuesOf_cons_ne h₃]
    -- One of the fields: its first value is here, and the others have none here.
    all_goals
      simp (disch := decide) only [valuesOf_cons_self, valuesOf_cons_ne, gather_cons,
        bind_eq_ok_iff, ih]
      grind

theorem ofJson_object_eq_ok_iff {members : List (String × Json)} {s : Span} :
    ofJson (.object members) = .ok s ↔ Spelled (.object members) s := by
  have hone (name : String) (values : List Json) (n : UInt32) :
      gather name coordinate none values = .ok (some n) ↔ Once IsWord values n :=
    gather_eq_some_iff name fun _ _ _ => coordinate_eq_ok_iff
  simp only [ofJson, bind_eq_ok_iff, Fields.ofMembers_eq_ok_iff, required_eq_ok_iff,
    pure_eq_ok_iff]
  constructor
  · rintro ⟨⟨_, _, _⟩, ⟨h₁, h₂, h₃⟩, line, rfl, startCol, rfl, endCol, rfl, rfl⟩
    exact .fields rfl ((hone _ _ _).mp h₁) ((hone _ _ _).mp h₂) ((hone _ _ _).mp h₃)
  · rintro ⟨hm, h₁, h₂, h₃⟩
    cases hm
    exact ⟨⟨some s.line, some s.startCol, some s.endCol⟩,
      ⟨(hone _ _ _).mpr h₁, (hone _ _ _).mpr h₂, (hone _ _ _).mpr h₃⟩, _, rfl, _, rfl, _, rfl, rfl⟩

theorem ofJson_array_eq_ok_iff {items : List Json} {s : Span} :
    ofJson (.array items) = .ok s ↔ Spelled (.array items) s := by
  have hnames : ["line", "startCol", "endCol"].Nodup := by decide
  have hline := valuesOf_zip hnames (i := 0) rfl items
  have hstart := valuesOf_zip hnames (i := 1) rfl items
  have hend := valuesOf_zip hnames (i := 2) rfl items
  simp only [ofJson, bind_eq_ok_iff, itemAt_eq_ok_iff, coordinate_eq_ok_iff, atMost_eq_ok_iff,
    pure_eq_ok_iff]
  constructor
  · rintro ⟨_, h₁, line, hl, _, h₂, startCol, hs, _, h₃, endCol, he, _, hlen, rfl⟩
    refine .fields (if_pos hlen) ?_ ?_ ?_
    · exact hline ▸ once_toList_iff.mpr ⟨_, h₁, hl⟩
    · exact hstart ▸ once_toList_iff.mpr ⟨_, h₂, hs⟩
    · exact hend ▸ once_toList_iff.mpr ⟨_, h₃, he⟩
  · rintro ⟨hm, h₁, h₂, h₃⟩
    obtain ⟨hlen, hm⟩ := Option.ite_none_right_eq_some.mp hm
    cases hm
    obtain ⟨_, h₁, hl⟩ := once_toList_iff.mp (hline ▸ h₁)
    obtain ⟨_, h₂, hs⟩ := once_toList_iff.mp (hstart ▸ h₂)
    obtain ⟨_, h₃, he⟩ := once_toList_iff.mp (hend ▸ h₃)
    exact ⟨_, h₁, _, hl, _, h₂, _, hs, _, h₃, _, he, (), hlen, rfl⟩

theorem ofJson_eq_ok_iff {j : Json} {s : Span} : ofJson j = .ok s ↔ Spelled j s := by
  cases j with
  | object members => exact ofJson_object_eq_ok_iff
  | array items => exact ofJson_array_eq_ok_iff
  | _ =>
    simp only [ofJson, refuse_ne_ok, false_iff]
    rintro ⟨hm, -⟩
    cases hm

theorem listOfJson_eq_ok_iff {j : Json} {spans : List Span} :
    listOfJson j = .ok spans ↔ ArrayOf Spelled j spans :=
  toItems_eq_ok_iff fun _ _ => ofJson_eq_ok_iff

end Span

namespace AtomKind

theorem ofName_eq_ok_iff {s : String} {kind : AtomKind} : ofName s = .ok kind ↔ s = kind.name := by
  constructor
  · intro h
    unfold ofName at h
    split at h
    · rename_i kind' hfind
      cases h
      rw [ofName?] at hfind
      have hname := List.find?_some hfind
      exact (beq_iff_eq.mp hname).symm
    · cases h
  · rintro rfl
    cases kind <;> rfl

theorem ofJson_eq_ok_iff {j : Json} {kind : AtomKind} :
    ofJson j = .ok kind ↔ Spelled .lenient j kind := by
  constructor
  · intro h
    unfold ofJson at h
    split at h
    · obtain rfl := ofName_eq_ok_iff.mp h
      exact .name kind
    · obtain ⟨kind', hname, hunit⟩ := bind_eq_ok_iff.mp h
      obtain rfl := ofName_eq_ok_iff.mp hname
      split at hunit
      · cases hunit
        exact .null kind
      · cases hunit
        exact .empty kind rfl
      · exact absurd hunit (refuse_ne_ok _ _ _)
    · cases h
    · exact absurd h (refuse_ne_ok _ _ _)
  · rintro (_ | _ | _)
    · exact ofName_eq_ok_iff.mpr rfl
    · rw [ofJson, ofName_eq_ok_iff.mpr rfl]
      rfl
    · rw [ofJson, ofName_eq_ok_iff.mpr rfl]
      rfl

end AtomKind

/-! ## Variants -/

def Json.Access.isHeld : Access → Bool
  | direct _ => false
  | held => true

@[simp] theorem Json.Access.isHeld_inside (access : Access) :
    access.inside.isHeld = access.isHeld := by
  cases access <;> rfl

namespace ParseTree

namespace Variant

theorem ofJson_eq_ok_iff {access : Access} {j : Json} {v : Variant} :
    Variant.ofJson access j = .ok v ↔ Spelled .lenient access.isHeld j v := by
  constructor
  · intro h
    unfold Variant.ofJson at h
    split at h
    · cases h
      exact .name .list
    · cases h
      exact .name .atom
    · cases h
    · split at h
      · rename_i n hn
        obtain ⟨rfl, -⟩ := hn
        split at h
        · cases h
          rename_i hn
          subst hn
          exact .number .list rfl rfl
        · split at h
          · cases h
            rename_i hn
            subst hn
            exact .number .atom rfl rfl
          · cases h
      · cases h
    · exact absurd h (refuse_ne_ok _ _ _)
  · rintro (_ | ⟨-, -, hheld⟩)
    · cases v <;> rfl
    · cases access with
      | direct room => cases hheld
      | held => cases v <;> rfl

/-- A variant has its name in the strict form. -/
theorem Spelled.eq_name {nested : Bool} {j : Json} {v : Variant}
    (h : Spelled .strict nested j v) : j = .string v.name := by
  cases h with
  | name => rfl
  | number _ hd => cases hd

/-- A value that spells a variant can be read everywhere. -/
theorem Spelled.read {d : Dialect} {nested : Bool} {j : Json} {v : Variant}
    (h : Spelled d nested j v) (access : Access) : access.read j = .ok () := by
  cases access with
  | direct room => cases h <;> simp [Access.read, readable, sound, depth, Json.nat]
  | held => rfl

theorem ofMembers_eq_ok_iff {access : Access} {found : Option Variant}
    {members : List (String × Json)} {v : Variant} :
    ofMembers access true found members = .ok v ↔
      gather "type" (Variant.ofJson access) found (valuesOf "type" members) = .ok (some v) ∧
      ∀ m ∈ members, m.1 ≠ "type" → access.read m.2 = .ok () := by
  induction members generalizing found with
  | nil => simp [ofMembers, ending, bind_eq_ok_iff, required_eq_ok_iff]
  | cons m members ih =>
    obtain ⟨name, j⟩ := m
    by_cases hname : name = "type"
    · subst hname
      simp only [ofMembers, if_true, valuesOf_cons_self, gather_cons, bind_eq_ok_iff, ih]
      grind
    · simp only [ofMembers, if_neg hname, valuesOf_cons_ne hname, bind_eq_ok_iff, ih,
        List.forall_mem_cons]
      constructor
      · rintro ⟨_, hj, hv, hread⟩
        exact ⟨hv, fun _ => hj, hread⟩
      · rintro ⟨hv, hj, hread⟩
        exact ⟨(), hj hname, hv, hread⟩

/-- The variant of an object is told once, and all that the object holds can be read. -/
theorem ofMembers_eq_ok_iff_once {access : Access} {members : List (String × Json)} {v : Variant} :
    ofMembers access true none members = .ok v ↔
      Once (Spelled .lenient access.isHeld) (valuesOf "type" members) v ∧
      ∀ m ∈ members, access.read m.2 = .ok () := by
  rw [ofMembers_eq_ok_iff, gather_eq_some_iff "type" fun _ _ _ => ofJson_eq_ok_iff]
  refine and_congr_right fun hv => ⟨fun h m hm => ?_, fun h m hm _ => h m hm⟩
  by_cases hname : m.1 = "type"
  · obtain ⟨tag, htag, hspelled⟩ := once_iff.mp hv
    have hmem : m.2 ∈ valuesOf "type" members := hname ▸ mem_valuesOf hm
    rw [htag, List.mem_singleton] at hmem
    exact hmem ▸ hspelled.read access
  · exact h m hm hname

end Variant

end ParseTree

end TwinForest
