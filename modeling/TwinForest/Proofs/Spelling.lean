import TwinForest.Proofs.Grammar

/-!
# Documents that are accepted

The decoder of parse trees accepts exactly what the grammar has. Going through the members of an
object, it keeps each field apart, so what it returns can be told field by field; an array is the
same with the fields told by their places.
-/

namespace TwinForest

open Json

namespace ParseTree

/-! ## Trees -/

variable {below : Json → ParseTree → Prop} {members : List (String × Json)} {t : ParseTree}

theorem listOfMembers_eq_ok_iff {fields fields' : ListFields} :
    listOfMembers fields members = .ok fields' ↔
      gather "openPosition" Span.listOfJson fields.openPosition (valuesOf "openPosition" members) =
        .ok fields'.openPosition ∧
      gather "openContent" toText fields.openContent (valuesOf "openContent" members) =
        .ok fields'.openContent ∧
      gather "children" childrenOfJson fields.children (valuesOf "children" members) =
        .ok fields'.children ∧
      gather "closePosition" Span.listOfJson fields.closePosition
        (valuesOf "closePosition" members) = .ok fields'.closePosition ∧
      gather "closeContent" toText fields.closeContent (valuesOf "closeContent" members) =
        .ok fields'.closeContent := by
  induction members generalizing fields with
  | nil =>
    obtain ⟨_, _, _, _, _⟩ := fields
    obtain ⟨_, _, _, _, _⟩ := fields'
    simp [listOfMembers]
  | cons m members ih =>
    obtain ⟨name, j⟩ := m
    unfold listOfMembers
    split
    case h_6 h₁ h₂ h₃ h₄ h₅ =>
      rw [ih, valuesOf_cons_ne h₁, valuesOf_cons_ne h₂, valuesOf_cons_ne h₃, valuesOf_cons_ne h₄,
        valuesOf_cons_ne h₅]
    all_goals
      simp (disch := decide) only [valuesOf_cons_self, valuesOf_cons_ne, gather_cons,
        bind_eq_ok_iff, ih]
      grind

theorem AtomFields.ofMembers_eq_ok_iff {fields fields' : AtomFields} :
    fields.ofMembers members = .ok fields' ↔
      gather "position" Span.listOfJson fields.position (valuesOf "position" members) =
        .ok fields'.position ∧
      gather "content" toText fields.content (valuesOf "content" members) = .ok fields'.content ∧
      gather "kind" AtomKind.ofJson fields.kind (valuesOf "kind" members) = .ok fields'.kind := by
  induction members generalizing fields with
  | nil =>
    obtain ⟨_, _, _⟩ := fields
    obtain ⟨_, _, _⟩ := fields'
    simp [ofMembers]
  | cons m members ih =>
    obtain ⟨name, j⟩ := m
    unfold ofMembers
    split
    case h_4 h₁ h₂ h₃ =>
      rw [ih, valuesOf_cons_ne h₁, valuesOf_cons_ne h₂, valuesOf_cons_ne h₃]
    all_goals
      simp (disch := decide) only [valuesOf_cons_self, valuesOf_cons_ne, gather_cons,
        bind_eq_ok_iff, ih]
      grind

theorem gather_spans_iff (name : String) {values : List Json} {spans : List Span} :
    (∃ after, gather name Span.listOfJson none values = .ok after ∧ after.getD [] = spans) ↔
      AtMostOnce (ArrayOf Span.Spelled) [] values spans :=
  gather_getD_iff name fun _ _ _ => Span.listOfJson_eq_ok_iff

theorem gather_text_iff (name : String) {values : List Json} {s : String} :
    (∃ after, gather name toText none values = .ok after ∧ after.getD "" = s) ↔
      AtMostOnce IsText "" values s :=
  gather_getD_iff name fun _ _ _ => toText_eq_ok_iff

/-- The members of an object give the fields of a list. -/
theorem listOfMembers_tree_iff
    (hbelow : ∀ j ∈ valuesOf "children" members, ∀ ts,
      childrenOfJson j = .ok ts ↔ ArrayOf below j ts) :
    (∃ fields, listOfMembers {} members = .ok fields ∧ fields.tree = t) ↔
      t.variant = .list ∧ HasFields .lenient below t members := by
  constructor
  · rintro ⟨fields, h, rfl⟩
    obtain ⟨h₁, h₂, h₃, h₄, h₅⟩ := listOfMembers_eq_ok_iff.mp h
    exact ⟨rfl, .list ((gather_spans_iff _).mp ⟨_, h₁, rfl⟩) ((gather_text_iff _).mp ⟨_, h₂, rfl⟩)
      ((gather_getD_iff _ hbelow).mp ⟨_, h₃, rfl⟩) ((gather_spans_iff _).mp ⟨_, h₄, rfl⟩)
      ((gather_text_iff _).mp ⟨_, h₅, rfl⟩)⟩
  · rintro ⟨ht, h⟩
    cases h with
    | atom => cases ht
    | @list opening closing children _ h₁ h₂ h₃ h₄ h₅ =>
      obtain ⟨_, h₁, hop⟩ := (gather_spans_iff "openPosition").mpr h₁
      obtain ⟨_, h₂, hoc⟩ := (gather_text_iff "openContent").mpr h₂
      obtain ⟨_, h₃, hch⟩ := (gather_getD_iff "children" hbelow).mpr h₃
      obtain ⟨_, h₄, hcp⟩ := (gather_spans_iff "closePosition").mpr h₄
      obtain ⟨_, h₅, hcc⟩ := (gather_text_iff "closeContent").mpr h₅
      refine ⟨⟨_, _, _, _, _⟩, listOfMembers_eq_ok_iff.mpr ⟨h₁, h₂, h₃, h₄, h₅⟩, ?_⟩
      rw [ListFields.tree, hop, hoc, hch, hcp, hcc]

/-- The members of an object give the fields of an atom. -/
theorem atomOfMembers_tree_iff :
    (∃ fields, AtomFields.ofMembers {} members = .ok fields ∧ fields.tree = .ok t) ↔
      t.variant = .atom ∧ HasFields .lenient below t members := by
  simp only [AtomFields.tree, bind_eq_ok_iff, required_eq_ok_iff, pure_eq_ok_iff]
  constructor
  · rintro ⟨fields, h, content, hcontent, rfl⟩
    obtain ⟨h₁, h₂, h₃⟩ := AtomFields.ofMembers_eq_ok_iff.mp h
    rw [hcontent] at h₂
    exact ⟨rfl, .atom ((gather_spans_iff _).mp ⟨_, h₁, rfl⟩)
      ((gather_eq_some_iff _ fun _ _ _ => toText_eq_ok_iff).mp h₂)
      ((gather_getD_iff _ fun _ _ _ => AtomKind.ofJson_eq_ok_iff).mp ⟨_, h₃, rfl⟩)⟩
  · rintro ⟨ht, h⟩
    cases h with
    | list => cases ht
    | @atom a _ h₁ h₂ h₃ =>
      obtain ⟨_, h₁, hp⟩ := (gather_spans_iff "position").mpr h₁
      have h₂ := (gather_eq_some_iff "content" fun _ _ _ => toText_eq_ok_iff).mpr h₂
      obtain ⟨_, h₃, hk⟩ := (gather_getD_iff "kind" fun _ _ _ => AtomKind.ofJson_eq_ok_iff).mpr h₃
      refine ⟨⟨_, _, _⟩, AtomFields.ofMembers_eq_ok_iff.mpr ⟨h₁, h₂, h₃⟩, _, rfl, ?_⟩
      rw [hp, hk]

/-! ## Trees in arrays -/

theorem childrenOfItems_eq (items : List Json) :
    childrenOfItems items = itemOr items 2 [] childrenOfJson := by
  unfold childrenOfItems
  split
  · rfl
  · rename_i h
    rw [itemOr, List.getElem?_eq_none]
    match items, h with
    | [], _ => simp
    | [_], _ => simp
    | [_, _], _ => simp
    | _ :: _ :: j :: _, h => exact absurd rfl (h _ _ j _)

theorem valuesOf_fields (v : Variant) {i : Nat} {name : String} (hi : v.fields[i]? = some name)
    (items : List Json) : valuesOf name (v.fields.zip items) = items[i]?.toList :=
  valuesOf_zip (by cases v <;> decide) hi items

variable {tag : Json} {items : List Json}

/-- The items of an array give the fields of a list. -/
theorem hasFields_list_items_iff {d : Dialect} {opening closing : Delimiter}
    {children : List ParseTree} :
    HasFields d below (.list opening children closing) (Variant.list.fields.zip (tag :: items)) ↔
      AtMostOnce (ArrayOf Span.Spelled) [] items[0]?.toList opening.position ∧
      AtMostOnce IsText "" items[1]?.toList opening.content ∧
      AtMostOnce (ArrayOf below) [] items[2]?.toList children ∧
      AtMostOnce (ArrayOf Span.Spelled) [] items[3]?.toList closing.position ∧
      AtMostOnce IsText "" items[4]?.toList closing.content := by
  have h₁ := valuesOf_fields .list (i := 1) rfl (tag :: items)
  have h₂ := valuesOf_fields .list (i := 2) rfl (tag :: items)
  have h₃ := valuesOf_fields .list (i := 3) rfl (tag :: items)
  have h₄ := valuesOf_fields .list (i := 4) rfl (tag :: items)
  have h₅ := valuesOf_fields .list (i := 5) rfl (tag :: items)
  simp only [List.getElem?_cons_succ] at h₁ h₂ h₃ h₄ h₅
  constructor
  · rintro ⟨⟩
    grind
  · rintro ⟨g₁, g₂, g₃, g₄, g₅⟩
    exact .list (h₁ ▸ g₁) (h₂ ▸ g₂) (h₃ ▸ g₃) (h₄ ▸ g₄) (h₅ ▸ g₅)

/-- The items of an array give the fields of an atom. -/
theorem hasFields_atom_items_iff {d : Dialect} {a : Atom} :
    HasFields d below (.atom a) (Variant.atom.fields.zip (tag :: items)) ↔
      AtMostOnce (ArrayOf Span.Spelled) [] items[0]?.toList a.position ∧
      Once IsText items[1]?.toList a.content ∧
      AtMostOnce (AtomKind.Spelled d) .normal items[2]?.toList a.kind := by
  have h₁ := valuesOf_fields .atom (i := 1) rfl (tag :: items)
  have h₂ := valuesOf_fields .atom (i := 2) rfl (tag :: items)
  have h₃ := valuesOf_fields .atom (i := 3) rfl (tag :: items)
  simp only [List.getElem?_cons_succ] at h₁ h₂ h₃
  constructor
  · rintro ⟨⟩
    grind
  · rintro ⟨g₁, g₂, g₃⟩
    exact .atom (h₁ ▸ g₁) (h₂ ▸ g₂) (h₃ ▸ g₃)

theorem itemOr_spans_iff {i : Nat} {spans : List Span} :
    itemOr items i [] Span.listOfJson = .ok spans ↔
      AtMostOnce (ArrayOf Span.Spelled) [] items[i]?.toList spans :=
  itemOr_eq_ok_iff fun _ _ _ => Span.listOfJson_eq_ok_iff

theorem itemOr_text_iff {i : Nat} {s : String} :
    itemOr items i "" toText = .ok s ↔ AtMostOnce IsText "" items[i]?.toList s :=
  itemOr_eq_ok_iff fun _ _ _ => toText_eq_ok_iff

theorem atomOfItems_eq_ok_iff :
    atomOfItems items = .ok t ↔ t.variant = .atom ∧ items.length ≤ 3 ∧
      HasFields .lenient below t (t.variant.fields.zip (tag :: items)) := by
  have hkind (kind : AtomKind) : itemOr items 2 .normal AtomKind.ofJson = .ok kind ↔ _ :=
    itemOr_eq_ok_iff fun _ _ _ => AtomKind.ofJson_eq_ok_iff
  simp only [atomOfItems, bind_eq_ok_iff, itemOr_spans_iff, itemAt_eq_ok_iff, toText_eq_ok_iff,
    hkind, atMost_eq_ok_iff, pure_eq_ok_iff]
  constructor
  · rintro ⟨position, hp, j, hj, content, hc, kind, hk, _, hlen, rfl⟩
    exact ⟨rfl, hlen, hasFields_atom_items_iff.mpr ⟨hp, once_toList_iff.mpr ⟨j, hj, hc⟩, hk⟩⟩
  · rintro ⟨ht, hlen, h⟩
    cases t with
    | list => cases ht
    | atom a =>
      obtain ⟨hp, hc, hk⟩ := hasFields_atom_items_iff.mp h
      obtain ⟨j, hj, hc⟩ := once_toList_iff.mp hc
      exact ⟨_, hp, j, hj, _, hc, _, hk, (), hlen, rfl⟩

/-- A tree is decoded from an array that spells it, when all that the array holds can be read. -/
theorem ofJson_array_eq_ok_iff {access : Access}
    (hbelow : ∀ j ∈ items, ∀ ts, childrenOfJson j = .ok ts ↔ ArrayOf below j ts) :
    ofJson access (.array (tag :: items)) = .ok t ↔
      Variant.Spelled .lenient access.isHeld tag t.variant ∧
      (∀ j ∈ items, access.inside.read j = .ok ()) ∧
      (tag :: items).length ≤ t.variant.fields.length ∧
      HasFields .lenient below t (t.variant.fields.zip (tag :: items)) := by
  simp only [ofJson, bind_eq_ok_iff, Variant.ofJson_eq_ok_iff, forM_eq_ok_iff]
  constructor
  · rintro ⟨v, hv, _, hread, h⟩
    cases v with
    | list =>
      simp only [bind_eq_ok_iff, itemOr_spans_iff, itemOr_text_iff, childrenOfItems_eq,
        itemOr_eq_ok_iff hbelow, atMost_eq_ok_iff, pure_eq_ok_iff] at h
      obtain ⟨_, h₁, _, h₂, _, h₃, _, h₄, _, h₅, _, hlen, rfl⟩ := h
      exact ⟨hv, hread, Nat.succ_le_succ hlen, hasFields_list_items_iff.mpr ⟨h₁, h₂, h₃, h₄, h₅⟩⟩
    | atom =>
      obtain ⟨ht, hlen, h⟩ := atomOfItems_eq_ok_iff.mp h
      exact ⟨ht ▸ hv, hread, ht ▸ Nat.succ_le_succ hlen, h⟩
  · rintro ⟨hv, hread, hlen, h⟩
    refine ⟨t.variant, hv, (), hread, ?_⟩
    cases t with
    | list opening children closing =>
      obtain ⟨h₁, h₂, h₃, h₄, h₅⟩ := hasFields_list_items_iff.mp h
      simp only [variant, bind_eq_ok_iff, itemOr_spans_iff, itemOr_text_iff, childrenOfItems_eq,
        itemOr_eq_ok_iff hbelow, atMost_eq_ok_iff, pure_eq_ok_iff]
      exact ⟨_, h₁, _, h₂, _, h₃, _, h₄, _, h₅, (), Nat.le_of_succ_le_succ hlen, rfl⟩
    | atom a => exact atomOfItems_eq_ok_iff.mpr ⟨rfl, Nat.le_of_succ_le_succ hlen, h⟩

/-- A tree is decoded from an object that spells it, when all that the object holds can be read. -/
theorem ofJson_object_eq_ok_iff {access : Access}
    (hbelow : ∀ j ∈ valuesOf "children" members, ∀ ts,
      childrenOfJson j = .ok ts ↔ ArrayOf below j ts) :
    ofJson access (.object members) = .ok t ↔
      Once (Variant.Spelled .lenient access.isHeld) (valuesOf "type" members) t.variant ∧
      (∀ m ∈ members, access.inside.read m.2 = .ok ()) ∧ HasFields .lenient below t members := by
  simp only [ofJson, bind_eq_ok_iff, Variant.ofMembers_eq_ok_iff_once, Access.isHeld_inside]
  constructor
  · rintro ⟨v, ⟨hv, hread⟩, h⟩
    cases v with
    | list =>
      simp only [bind_eq_ok_iff, pure_eq_ok_iff] at h
      obtain ⟨ht, h⟩ := (listOfMembers_tree_iff hbelow).mp h
      exact ⟨ht ▸ hv, hread, h⟩
    | atom =>
      obtain ⟨ht, h⟩ := atomOfMembers_tree_iff.mp (bind_eq_ok_iff.mp h)
      exact ⟨ht ▸ hv, hread, h⟩
  · rintro ⟨hv, hread, h⟩
    refine ⟨t.variant, ⟨hv, hread⟩, ?_⟩
    cases ht : t.variant with
    | list =>
      simp only [bind_eq_ok_iff, pure_eq_ok_iff]
      exact (listOfMembers_tree_iff hbelow).mpr ⟨ht, h⟩
    | atom => exact bind_eq_ok_iff.mpr (atomOfMembers_tree_iff.mpr ⟨ht, h⟩)

/-! ## Decoding -/

theorem treesOfItems_eq_ok_iff {access : Access} {ts : List ParseTree}
    (h : ∀ j ∈ items, ∀ t, ofJson access j = .ok t ↔ below j t) :
    treesOfItems access items = .ok ts ↔ List.Forall₂ below items ts := by
  induction items generalizing ts with
  | nil => simp [treesOfItems, eq_comm]
  | cons j items ih =>
    obtain ⟨hj, hitems⟩ := List.forall_mem_cons.mp h
    simp only [treesOfItems, bind_eq_ok_iff, pure_eq_ok_iff, hj, ih hitems,
      List.forall₂_cons_left_iff]
    grind

theorem childrenOfJson_eq_ok_iff {j : Json} {ts : List ParseTree}
    (h : ∀ k ∈ j.contents, ∀ t, ofJson .held k = .ok t ↔ below k t) :
    childrenOfJson j = .ok ts ↔ ArrayOf below j ts := by
  cases j with
  | array items =>
    rw [contents] at h
    rw [childrenOfJson, treesOfItems_eq_ok_iff h]
    constructor
    · exact .items
    · rintro ⟨hts⟩
      exact hts
  | _ =>
    simp only [childrenOfJson, refuse_ne_ok, false_iff]
    rintro ⟨⟩

theorem spelled_object_iff {d : Dialect} {nested : Bool} :
    Spelled d nested (.object members) t ↔
      Once (Variant.Spelled d nested) (valuesOf "type" members) t.variant ∧
      HasFields d (Spelled d true) t members := by
  constructor
  · rintro ⟨hm, hv, h⟩
    cases hm
    exact ⟨hv, h⟩
  · rintro ⟨hv, h⟩
    exact .node rfl hv h

theorem spelled_array_iff {d : Dialect} {nested : Bool} :
    Spelled d nested (.array (tag :: items)) t ↔
      Variant.Spelled d nested tag t.variant ∧
      (tag :: items).length ≤ t.variant.fields.length ∧
      HasFields d (Spelled d true) t (t.variant.fields.zip (tag :: items)) := by
  have htag : valuesOf "type" (t.variant.fields.zip (tag :: items)) = [tag] :=
    valuesOf_fields t.variant (i := 0) (by cases t <;> rfl) _
  constructor
  · rintro ⟨hm, hv, h⟩
    obtain ⟨hlen, hm⟩ := Option.ite_none_right_eq_some.mp hm
    cases hm
    rw [htag] at hv
    cases hv with
    | given hv => exact ⟨hv, hlen, h⟩
  · rintro ⟨hv, hlen, h⟩
    exact .node (if_pos hlen) (htag ▸ .given hv) h

/-- An empty array does not tell a variant. -/
theorem not_spelled_nil {d : Dialect} {nested : Bool} : ¬ Spelled d nested (.array []) t := by
  rintro ⟨hm, hv, -⟩
  cases t <;> cases hm <;> cases hv

/-- One node, given that its children are decoded exactly when they are spelled. -/
theorem ofJson_eq_ok_iff_of_children {access : Access} {j : Json}
    (hbelow : ∀ k ∈ j.contents, ∀ ts,
      childrenOfJson k = .ok ts ↔ ArrayOf (Spelled .lenient true) k ts) :
    ofJson access j = .ok t ↔
      (∀ k ∈ j.contents, access.inside.read k = .ok ()) ∧ Spelled .lenient access.isHeld j t := by
  cases j with
  | object members =>
    have hchildren : ∀ k ∈ valuesOf "children" members, ∀ ts,
        childrenOfJson k = .ok ts ↔ ArrayOf (Spelled .lenient true) k ts :=
      fun k hk => hbelow k (List.mem_map_of_mem (mem_of_mem_valuesOf hk))
    rw [ofJson_object_eq_ok_iff hchildren, spelled_object_iff, contents, List.forall_mem_map]
    exact and_left_comm
  | array items =>
    cases items with
    | nil => simp [ofJson, not_spelled_nil]
    | cons tag items =>
      rw [ofJson_array_eq_ok_iff fun k hk => hbelow k (List.mem_cons_of_mem _ hk),
        spelled_array_iff, contents, List.forall_mem_cons]
      constructor
      · rintro ⟨hv, hread, h⟩
        exact ⟨⟨hv.read _, hread⟩, hv, h⟩
      · rintro ⟨⟨-, hread⟩, hv, h⟩
        exact ⟨hv, hread, h⟩
  | broken members =>
    constructor
    · intro h
      obtain ⟨_, -, hthrow⟩ := bind_eq_ok_iff.mp h
      cases hthrow
    · rintro ⟨-, hm, -⟩
      cases hm
  | _ =>
    simp only [ofJson, refuse_ne_ok, false_iff, not_and]
    rintro - ⟨hm, -⟩
    cases hm

/-- A tree is decoded exactly when the value spells it and all that the value holds can be read. -/
theorem ofJson_eq_ok_iff (access : Access) (j : Json) (t : ParseTree) :
    ofJson access j = .ok t ↔
      (∀ k ∈ j.contents, access.inside.read k = .ok ()) ∧ Spelled .lenient access.isHeld j t := by
  induction hd : j.depth using Nat.strongRecOn generalizing access j t with
  | ind n ih =>
    refine ofJson_eq_ok_iff_of_children fun k hk ts => childrenOfJson_eq_ok_iff fun i hi t => ?_
    -- A child stands two levels below the node, and is held.
    have hk := depth_lt_of_mem_contents hk
    have hi := depth_lt_of_mem_contents hi
    rw [ih _ (by omega) .held i t rfl]
    exact and_iff_right fun _ _ => rfl

/-- A tree is decoded where it stands exactly when the value spells it and can be read there. -/
theorem ofJson_direct_eq_ok_iff (room : Nat) (j : Json) (t : ParseTree) :
    ofJson (.direct (room + 1)) j = .ok t ↔
      j.readable (room + 1) = true ∧ Spelled .lenient false j t := by
  rw [ofJson_eq_ok_iff]
  refine and_congr_left fun h => ?_
  cases h with
  | node hm => simp only [Access.inside, Access.read_direct_eq_ok_iff, readable_iff_of_named hm,
      Nat.add_sub_cancel]

/-- The trees of a file are decoded exactly when the value is an array of what spells them, and can
be read. -/
theorem listOfJson_eq_ok_iff (room : Nat) (j : Json) (ts : List ParseTree) :
    listOfJson (.direct (room + 2)) j = .ok ts ↔
      j.readable (room + 2) = true ∧ ArrayOf (Spelled .lenient false) j ts := by
  cases j with
  | array items =>
    have hitems : treesOfItems (.direct (room + 1)) items = .ok ts ↔ _ :=
      treesOfItems_eq_ok_iff fun j _ => ofJson_direct_eq_ok_iff room j
    change treesOfItems (.direct (room + 1)) items = .ok ts ↔ _
    rw [hitems, List.forall₂_and_left, readable_array_iff]
    refine and_congr_right fun _ => ⟨.items, ?_⟩
    rintro ⟨h⟩
    exact h
  | _ =>
    simp only [listOfJson, refuse_ne_ok, false_iff, not_and]
    rintro - ⟨⟩

/-- A document is accepted with some trees exactly when it follows the grammar of JSON, nests no
deeper than it may, and spells the trees. For values alone, whatever depth is allowed, the same. -/
theorem decode_eq_ok_iff_spelled :
    (∀ room j ts, listOfJson (.direct (room + 2)) j = .ok ts ↔
      j.readable (room + 2) = true ∧ ArrayOf (Spelled .lenient false) j ts) ∧
    ∀ text ts, decode text = .ok ts ↔
      ∃ j, parse? text = some j ∧ j.readable maxDepth = true ∧
        ArrayOf (Spelled .lenient false) j ts := by
  refine ⟨listOfJson_eq_ok_iff, fun text ts => ?_⟩
  have hvalue (j : Json) : listOfJson (.direct maxDepth) j = .ok ts ↔ _ :=
    listOfJson_eq_ok_iff 125 j ts
  simp only [decode, decodeText_eq_ok_iff, hvalue]
  rfl

/-- A list inside a list, which is told by its number, is decoded and has no strict spelling. -/
theorem numbered_variant_decoded :
    listOfJson (.direct maxDepth)
        (.array [.object [("type", .string "list"),
          ("children", .array [.object [("type", .nat 0)]])]]) =
      .ok [.list ⟨[], ""⟩ [.list ⟨[], ""⟩ [] ⟨[], ""⟩] ⟨[], ""⟩] ∧
    ¬ ArrayOf (Spelled .strict false)
        (.array [.object [("type", .string "list"),
          ("children", .array [.object [("type", .nat 0)]])]])
        [.list ⟨[], ""⟩ [.list ⟨[], ""⟩ [] ⟨[], ""⟩] ⟨[], ""⟩] := by
  refine ⟨rfl, ?_⟩
  rintro ⟨_ | ⟨⟨hm, -, hfields⟩, -⟩⟩
  cases hm
  cases hfields with
  | list _ _ hchildren _ _ =>
    rcases hchildren with _ | ⟨⟨_ | ⟨⟨hm, hv, -⟩, -⟩⟩⟩
    cases hm
    cases hv with
    | given hv => cases hv.eq_name

end ParseTree

end TwinForest
