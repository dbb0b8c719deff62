import Mathlib.Algebra.Group.Nat.Defs
import Mathlib.Data.List.Induction
import TwinForest.Handle

/-!
# Spellings of a handle

A handle has 32 hexadecimal digits. A text spells it if, apart from the case of its letters, it is these
digits, or the digits in groups with hyphens between them, or the groups in braces or after `urn:uuid:`.
Writing takes the second of these forms, in lower case.
-/

namespace TwinForest.Handle

open Json.Token

/-! ## Letters of either case -/

/-- All that the case of letters and the values of digits concern is ASCII. -/
theorem ascii_cases (c : Char) :
    (∃ n < 128, c = Char.ofNat n) ∨ c.toLower = c ∧ hexDigit? c = none := by
  by_cases h : c.toNat < 128
  · exact .inl ⟨c.toNat, h, (Char.ofNat_toNat c).symm⟩
  · have hval : 128 ≤ c.val.toNat := Nat.le_of_not_lt h
    have hgt (x : Char) (hx : x.val.toNat < 128) : ¬ c ≤ x := by
      rw [Char.le_def, UInt32.le_iff_toNat_le]
      omega
    refine .inr ⟨?_, ?_⟩
    · exact dif_neg fun hupper => hgt 'Z' (by decide) hupper.2
    · have hdigit : ¬ c.isDigit = true := by
        rw [Char.isDigit, Bool.and_eq_true, decide_eq_true_eq, decide_eq_true_eq]
        exact fun h => hgt '9' (by decide) h.2
      rw [hexDigit?, if_neg hdigit, if_neg fun h => hgt 'f' (by decide) h.2,
        if_neg fun h => hgt 'F' (by decide) h.2]

theorem toLower_toLower (c : Char) : c.toLower.toLower = c.toLower := by
  rcases ascii_cases c with ⟨n, hn, rfl⟩ | ⟨hc, -⟩
  · exact (by decide +kernel : ∀ n < 128, (Char.ofNat n).toLower.toLower = (Char.ofNat n).toLower) n hn
  · rw [hc, hc]

theorem hexDigit?_toLower (c : Char) : hexDigit? c.toLower = hexDigit? c := by
  rcases ascii_cases c with ⟨n, hn, rfl⟩ | ⟨hc, -⟩
  · exact (by decide +kernel : ∀ n < 128,
      hexDigit? (Char.ofNat n).toLower = hexDigit? (Char.ofNat n)) n hn
  · rw [hc]

/-- The marks of a spelling have no case. -/
theorem toLower_eq_mark_iff {c m : Char} (hm : m ∈ ['-', '\x7b', '\x7d']) : c.toLower = m ↔ c = m := by
  rcases ascii_cases c with ⟨n, hn, rfl⟩ | ⟨hc, -⟩
  · have hmarks := (by decide +kernel : ∀ n < 128, ['-', '\x7b', '\x7d'].all fun m =>
      (Char.ofNat n).toLower = m ↔ Char.ofNat n = m) n hn
    exact of_decide_eq_true (List.all_eq_true.mp hmarks m hm)
  · rw [hc]

theorem hexDigit?_digitChar : ∀ d < 16, hexDigit? (Nat.digitChar d) = some d := by
  decide

/-- A digit has a value below 16, and the digit in lower case is written for that value. -/
theorem hexDigit?_eq_some {c : Char} {d : Nat} (h : hexDigit? c = some d) :
    d < 16 ∧ Nat.digitChar d = c.toLower := by
  rcases ascii_cases c with ⟨n, hn, rfl⟩ | ⟨-, hc⟩
  · exact (by decide +kernel : ∀ n < 128, ∀ d ∈ hexDigit? (Char.ofNat n),
      d < 16 ∧ Nat.digitChar d = (Char.ofNat n).toLower) n hn d h
  · rw [hc] at h
    cases h

/-! ## Digits and numbers -/

theorem length_digits (n count : Nat) : (digits n count).length = count := by
  induction count generalizing n with
  | zero => rfl
  | succ count ih => rw [digits, List.length_append, ih, List.length_singleton]

theorem mem_digits {n count : Nat} {c : Char} (hc : c ∈ digits n count) :
    ∃ d < 16, c = Nat.digitChar d := by
  induction count generalizing n with
  | zero => simp [digits] at hc
  | succ count ih =>
    rw [digits, List.mem_append, List.mem_singleton] at hc
    rcases hc with hc | hc
    · exact ih hc
    · exact ⟨n % 16, Nat.mod_lt n (by decide), hc⟩

theorem map_toLower_digits (n count : Nat) : (digits n count).map Char.toLower = digits n count := by
  have hdigit : ∀ c ∈ digits n count, c.toLower = id c := by
    intro c hc
    obtain ⟨d, hd, rfl⟩ := mem_digits hc
    exact (by decide : ∀ d < 16, (Nat.digitChar d).toLower = Nat.digitChar d) d hd
  rw [List.map_congr_left hdigit, List.map_id]

theorem value?_append (n : Nat) (ds es : List Char) :
    value? n (ds ++ es) = (value? n ds).bind (value? · es) := by
  induction ds generalizing n with
  | nil => rfl
  | cons c ds ih =>
    rw [List.cons_append, value?, value?]
    cases hexDigit? c with
    | none => rfl
    | some d => exact ih _

theorem value?_map_toLower (n : Nat) (cs : List Char) :
    value? n (cs.map Char.toLower) = value? n cs := by
  induction cs generalizing n with
  | nil => rfl
  | cons c cs ih => simp only [List.map_cons, value?, hexDigit?_toLower, ih]

/-- The last digits of a number spell what the number is above a multiple of a power of 16. -/
theorem value?_digits (n count : Nat) : value? 0 (digits n count) = some (n % 16 ^ count) := by
  induction count generalizing n with
  | zero => simp [digits, value?, Nat.mod_one]
  | succ count ih =>
    have hlast := hexDigit?_digitChar (n % 16) (Nat.mod_lt n (by decide))
    rw [digits, value?_append, ih, Option.bind_some, value?, hlast]
    simp only [value?]
    rw [Nat.pow_succ', Nat.mod_mul]
    congr 1
    omega

/-- A number has the digits that spell it, in lower case. -/
theorem digits_of_value? {cs : List Char} {n : Nat} (h : value? 0 cs = some n) :
    n < 16 ^ cs.length ∧ digits n cs.length = cs.map Char.toLower := by
  -- The number is spelled from the left, and its digits are written from the right.
  induction cs using List.reverseRecOn generalizing n with
  | nil =>
    cases h
    exact ⟨by simp, rfl⟩
  | append_singleton cs c ih =>
    rw [value?_append, Option.bind_eq_some_iff] at h
    obtain ⟨m, hm, hc⟩ := h
    obtain ⟨hlt, hdigits⟩ := ih hm
    rw [value?] at hc
    cases hd : hexDigit? c with
    | none => simp [hd] at hc
    | some d =>
      obtain rfl : m * 16 + d = n := by simpa [hd, value?] using hc
      obtain ⟨hd16, hchar⟩ := hexDigit?_eq_some hd
      have hdiv : (m * 16 + d) / 16 = m := by omega
      have hmod : (m * 16 + d) % 16 = d := by omega
      rw [List.length_append, List.length_singleton, digits, hdiv, hmod, hdigits, hchar, List.map_append,
        Nat.pow_succ]
      exact ⟨by omega, rfl⟩

/-- Which digits are those of a handle. -/
theorem ofDigits?_eq_some_iff {cs : List Char} {h : Handle} :
    ofDigits? cs = some h ↔ cs.map Char.toLower = digits h.bits.toNat 32 := by
  have hsize : 16 ^ 32 = 2 ^ 128 := by decide
  constructor
  · intro hcs
    rw [ofDigits?, Option.ite_none_right_eq_some, Option.map_eq_some_iff] at hcs
    obtain ⟨hlength, n, hn, rfl⟩ := hcs
    obtain ⟨hlt, hdigits⟩ := digits_of_value? hn
    rw [hlength, hsize] at hlt
    rw [hlength] at hdigits
    rw [BitVec.toNat_ofNat, Nat.mod_eq_of_lt hlt, hdigits]
  · intro hcs
    have hlength : cs.length = 32 := by
      rw [← List.length_map, hcs, length_digits]
    have hvalue : value? 0 cs = some h.bits.toNat := by
      rw [← value?_map_toLower, hcs, value?_digits, hsize, Nat.mod_eq_of_lt h.bits.isLt]
    rw [ofDigits?, if_pos hlength, hvalue, Option.map_some, BitVec.ofNat_toNat, BitVec.setWidth_eq]

/-! ## Groups -/

def grouped (ds : List Char) : List Char :=
  ds.take 8 ++ '-' :: (ds.drop 8).take 4 ++ '-' :: (ds.drop 12).take 4
    ++ '-' :: (ds.drop 16).take 4 ++ '-' :: ds.drop 20

theorem displayChars_eq_grouped (h : Handle) : h.displayChars = grouped (digits h.bits.toNat 32) := rfl

theorem length_grouped {ds : List Char} (h : ds.length = 32) : (grouped ds).length = 36 := by
  simp [grouped, h]

theorem map_toLower_grouped (ds : List Char) :
    (grouped ds).map Char.toLower = grouped (ds.map Char.toLower) := by
  have hmark : '-'.toLower = '-' := by decide
  simp only [grouped, List.map_append, List.map_cons, List.map_take, List.map_drop, hmark]

theorem take_append_groups (ds : List Char) :
    ds.take 8 ++ (ds.drop 8).take 4 ++ (ds.drop 12).take 4 ++ (ds.drop 16).take 4 ++ ds.drop 20 = ds := by
  have hgroup (m : Nat) : (ds.drop m).take 4 ++ ds.drop (m + 4) = ds.drop m := by
    rw [← List.drop_drop, List.take_append_drop]
  rw [List.append_assoc, hgroup 16, List.append_assoc, hgroup 12, List.append_assoc, hgroup 8,
    List.take_append_drop]

theorem ungroup?_grouped {ds : List Char} (h : ds.length = 32) : ungroup? (grouped ds) = some ds := by
  have hgroups := take_append_groups ds
  rw [ungroup?, if_pos (by simp [grouped, h]), Option.some_inj]
  simpa [grouped, h, List.drop_append, List.drop_eq_nil_of_le] using hgroups

theorem drop_eq_group_append {cs : List Char} {m n : Nat} (h : cs[m + n]? = some '-') :
    cs.drop m = (cs.drop m).take n ++ '-' :: cs.drop (m + n + 1) := by
  obtain ⟨hlt, hc⟩ := List.getElem?_eq_some_iff.mp h
  have hdrop : '-' :: cs.drop (m + n + 1) = (cs.drop m).drop n := by
    rw [List.drop_drop, List.drop_eq_getElem_cons hlt, hc]
  rw [hdrop, List.take_append_drop]

theorem grouped_of_ungroup? {cs ds : List Char} (h : ungroup? cs = some ds) : cs = grouped ds := by
  rw [ungroup?, Option.ite_none_right_eq_some] at h
  obtain ⟨⟨hlength, h8, h13, h18, h23⟩, hds⟩ := h
  cases hds
  have hgroups : cs = cs.take 8 ++ '-' :: ((cs.drop 9).take 4 ++ '-' :: ((cs.drop 14).take 4 ++
      '-' :: ((cs.drop 19).take 4 ++ '-' :: cs.drop 24))) := by
    rw [← drop_eq_group_append (m := 19) (n := 4) h23, ← drop_eq_group_append (m := 14) (n := 4) h18,
      ← drop_eq_group_append (m := 9) (n := 4) h13]
    exact drop_eq_group_append (m := 0) (n := 8) h8
  simpa [grouped, hlength, List.drop_append, List.drop_eq_nil_of_le] using hgroups

theorem ungroup?_map_toLower (cs : List Char) :
    ungroup? (cs.map Char.toLower) = (ungroup? cs).map (List.map Char.toLower) := by
  have hmark (i : Nat) : (cs.map Char.toLower)[i]? = some '-' ↔ cs[i]? = some '-' := by
    cases hc : cs[i]? <;> simp [hc, toLower_eq_mark_iff]
  simp only [ungroup?, List.length_map, hmark]
  split <;> simp [List.map_take, List.map_drop]

theorem unwrap_map_toLower (cs : List Char) :
    unwrap (cs.map Char.toLower) = (unwrap cs).map Char.toLower := by
  have hhead : (cs.map Char.toLower).head? = some '\x7b' ↔ cs.head? = some '\x7b' := by
    cases hc : cs.head? <;> simp [hc, toLower_eq_mark_iff]
  have hlast : (cs.map Char.toLower).getLast? = some '\x7d' ↔ cs.getLast? = some '\x7d' := by
    cases hc : cs.getLast? <;> simp [hc, toLower_eq_mark_iff]
  have htwice : Char.toLower ∘ Char.toLower = Char.toLower := funext toLower_toLower
  simp only [unwrap, hhead, hlast, ← List.map_take, List.map_map, htwice]
  split
  · simp [List.map_tail, List.map_dropLast]
  · split
    · simp [List.map_drop]
    · rfl

/-! ## Spellings -/

/-- The texts in lower case that spell the handle with the given digits. -/
def spellings (ds : List Char) : List (List Char) :=
  [ds, grouped ds, '\x7b' :: grouped ds ++ ['\x7d'], "urn:uuid:".toList ++ grouped ds]

theorem ofString?_map_toLower (s : String) :
    ofString? (String.ofList (s.toList.map Char.toLower)) = ofString? s := by
  have hdigits (cs : List Char) : ofDigits? (cs.map Char.toLower) = ofDigits? cs := by
    simp only [ofDigits?, List.length_map, value?_map_toLower]
  simp only [ofString?, String.toList_ofList, List.length_map, hdigits, unwrap_map_toLower,
    ungroup?_map_toLower]
  cases ungroup? (unwrap s.toList) <;> simp [hdigits]

/-- What stands around the grouped form, apart from the case of letters. -/
theorem mem_spellings_of_unwrap {cs ds : List Char} (h : unwrap cs = grouped ds) :
    cs.map Char.toLower ∈ spellings (ds.map Char.toLower) := by
  rw [unwrap] at h
  split at h
  · rename_i hbraces
    obtain ⟨ds', rfl⟩ := List.getLast?_eq_some_iff.mp hbraces.2
    cases ds' with
    | nil => simp at hbraces
    | cons c cs =>
      obtain rfl : c = '\x7b' := by simpa using hbraces.1
      obtain rfl : cs = grouped ds := by simpa using h
      rw [List.map_append, List.map_cons, map_toLower_grouped]
      exact .tail _ (.tail _ (.head _))
  · split at h
    · rename_i hurn
      rw [← List.take_append_drop 9 cs, List.map_append, hurn, h, map_toLower_grouped]
      exact .tail _ (.tail _ (.tail _ (.head _)))
    · rw [h, map_toLower_grouped]
      exact .tail _ (.head _)

theorem unwrap_grouped_digits (n : Nat) : unwrap (grouped (digits n 32)) = grouped (digits n 32) := by
  obtain ⟨c, rest, hcons⟩ := List.exists_cons_of_length_eq_add_one (length_digits n 32)
  have hbrace : c ≠ '\x7b' := by
    obtain ⟨d, hd, rfl⟩ := mem_digits (hcons ▸ List.mem_cons_self : c ∈ digits n 32)
    exact (by decide : ∀ d < 16, Nat.digitChar d ≠ '\x7b') d hd
  have hmark : ((grouped (digits n 32)).take 9).map Char.toLower ≠ "urn:uuid:".toList := by
    intro hurn
    have hninth := congrArg (·[8]?) hurn
    simp [grouped, length_digits] at hninth
  rw [unwrap, if_neg ?_, if_neg hmark]
  intro hbraces
  rw [hcons] at hbraces
  exact hbrace (Option.some.inj hbraces.1)

theorem unwrap_braces (cs : List Char) : unwrap ('\x7b' :: cs ++ ['\x7d']) = cs := by
  rw [unwrap, if_pos ⟨rfl, List.getLast?_concat⟩, List.cons_append, List.tail_cons, List.dropLast_concat]

theorem unwrap_urn (cs : List Char) : unwrap ("urn:uuid:".toList ++ cs) = cs := by
  have hbrace : 'u' ≠ '\x7b' := by decide
  have hurn : (("urn:uuid:".toList ++ cs).take 9).map Char.toLower = "urn:uuid:".toList := rfl
  rw [unwrap, if_neg fun hbraces => hbrace (Option.some.inj hbraces.1), if_pos hurn]
  rfl

theorem ofString?_of_unwrap {cs ds : List Char} (hlength : ds.length = 32) (hcs : 36 ≤ cs.length)
    (hunwrap : unwrap cs = grouped ds) : ofString? (String.ofList cs) = ofDigits? ds := by
  rw [ofString?, String.toList_ofList, if_neg (by omega), hunwrap, ungroup?_grouped hlength,
    Option.bind_some]

/-- A text is read as the handle that it spells. -/
theorem ofString?_eq_some_iff {s : String} {h : Handle} :
    ofString? s = some h ↔ s.toList.map Char.toLower ∈ spellings (digits h.bits.toNat 32) := by
  constructor
  · intro hs
    rw [ofString?] at hs
    split at hs
    · rw [ofDigits?_eq_some_iff.mp hs]
      exact .head _
    · rw [Option.bind_eq_some_iff] at hs
      obtain ⟨ds, hgrouped, hds⟩ := hs
      rw [← ofDigits?_eq_some_iff.mp hds]
      exact mem_spellings_of_unwrap (grouped_of_ungroup? hgrouped)
  · intro hs
    have hlength : (digits h.bits.toNat 32).length = 32 := length_digits _ 32
    have hdigits : ofDigits? (digits h.bits.toNat 32) = some h :=
      ofDigits?_eq_some_iff.mpr (map_toLower_digits _ 32)
    rw [← ofString?_map_toLower]
    simp only [spellings, List.mem_cons, List.not_mem_nil, or_false] at hs
    rcases hs with hs | hs | hs | hs <;> rw [hs]
    · rw [ofString?, String.toList_ofList, if_pos hlength, hdigits]
    · rw [ofString?_of_unwrap hlength (by simp [length_grouped hlength]) (unwrap_grouped_digits _),
        hdigits]
    · rw [ofString?_of_unwrap hlength (by simp [length_grouped hlength]) (unwrap_braces _), hdigits]
    · rw [ofString?_of_unwrap hlength (by simp [length_grouped hlength]) (unwrap_urn _), hdigits]

theorem ofString?_display (h : Handle) : ofString? h.display = some h := by
  rw [ofString?_eq_some_iff, display, String.toList_ofList, displayChars_eq_grouped, map_toLower_grouped,
    map_toLower_digits]
  exact .tail _ (.head _)

theorem ofString_eq_ok_iff {s : String} {h : Handle} : ofString s = .ok h ↔ ofString? s = some h := by
  unfold ofString
  cases ofString? s <;> simp

theorem ofString_display (h : Handle) : ofString h.display = .ok h :=
  ofString_eq_ok_iff.mpr h.ofString?_display

def IsDigits (ds : List Char) : Prop :=
  ds.length = 32 ∧ ds.all fun c => c ∈ "0123456789abcdef".toList

theorem isDigits_digits (n : Nat) : IsDigits (digits n 32) := by
  refine ⟨length_digits n 32, List.all_eq_true.mpr fun c hc => decide_eq_true ?_⟩
  obtain ⟨d, hd, rfl⟩ := mem_digits hc
  exact (by decide : ∀ d < 16, Nat.digitChar d ∈ "0123456789abcdef".toList) d hd

/-- A digit in lower case has a value, and is as it is written. -/
theorem digit_of_mem {c : Char} (h : c ∈ "0123456789abcdef".toList) :
    (hexDigit? c).isSome ∧ c.toLower = c := by
  have hdigits : "0123456789abcdef".toList.all fun c => (hexDigit? c).isSome ∧ c.toLower = c := by
    decide
  exact of_decide_eq_true (List.all_eq_true.mp hdigits c h)

theorem exists_value? {ds : List Char} (h : ∀ c ∈ ds, (hexDigit? c).isSome) (n : Nat) :
    ∃ m, value? n ds = some m := by
  induction ds generalizing n with
  | nil => exact ⟨n, rfl⟩
  | cons c ds ih =>
    obtain ⟨hc, hds⟩ := List.forall_mem_cons.mp h
    obtain ⟨d, hd⟩ := Option.isSome_iff_exists.mp hc
    rw [value?, hd]
    exact ih hds _

/-- Any digits are those of a handle. -/
theorem exists_digits {ds : List Char} (h : IsDigits ds) :
    ∃ id : Handle, digits id.bits.toNat 32 = ds := by
  obtain ⟨hlength, hdigits⟩ := h
  have hdigit (c : Char) (hc : c ∈ ds) : (hexDigit? c).isSome ∧ c.toLower = c :=
    digit_of_mem (of_decide_eq_true (List.all_eq_true.mp hdigits c hc))
  obtain ⟨n, hn⟩ := exists_value? (fun c hc => (hdigit c hc).1) 0
  have hlower : ds.map Char.toLower = ds.map id := List.map_congr_left fun c hc => (hdigit c hc).2
  have hid : ofDigits? ds = some ⟨BitVec.ofNat 128 n⟩ := by
    rw [ofDigits?, if_pos hlength, hn, Option.map_some]
  rw [ofDigits?_eq_some_iff, hlower, List.map_id] at hid
  exact ⟨_, hid.symm⟩

end TwinForest.Handle
