import TwinForest.Json.Printer
import TwinForest.Json.Reader
import TwinForest.Proofs.Quoting

/-!
# Reading what was written

A value is read back from its text, as long as it has nothing unreadable in it and its numbers are
integers that fit 64 bits. A token is found again whatever text comes after it, except that a number
must not go on. The reader then takes the tokens of a value as one step.

## Main definitions

* `Json.Plain`: the values that are read back.
* `Json.Token.Reads`: a token is the first one of the text that starts with it.

## Main results

* `Json.Token.reads_string`, `Json.Token.reads_number`: strings and numbers are found again.
* `Json.Plain.found`: the tokens of a value are found in its text.
* `Json.Plain.delivers`: the tokens of a value deliver the value.
* `Json.read_render`: a value is read back from its text.
-/

namespace TwinForest.Json

/-- The value has nothing unreadable in it, and its numbers are integers that fit 64 bits. -/
inductive Plain : Json → Prop where
  | null : Plain .null
  | bool (b : Bool) : Plain (.bool b)
  | nat {n : Nat} : n < UInt64.size → Plain (.nat n)
  | string (s : String) : Plain (.string s)
  | array {items : List Json} : (∀ j ∈ items, Plain j) → Plain (.array items)
  | object {members : List (String × Json)} : (∀ m ∈ members, Plain m.2) → Plain (.object members)

namespace Token

/-- The token is the first one of the text that starts with it and goes on with the given text. -/
def Reads (t : Token) (rest : List Char) : Prop :=
  ∃ c cs, t.chars = c :: cs ∧ isSpace c = false ∧ next? c (cs ++ rest) = some (t, rest)

theorem Reads.lexFrom {t : Token} {rest : List Char} (h : t.Reads rest) (done : List Token) :
    lexFrom done (t.chars ++ rest) = lexFrom (t :: done) rest := by
  obtain ⟨c, cs, hchars, hspace, hnext⟩ := h
  rw [hchars, List.cons_append, Token.lexFrom]
  simp only [hspace, Bool.false_eq_true, if_false]
  split
  · rename_i hnone
    rw [hnone] at hnext
    cases hnext
  · rename_i hsome
    rw [hnext] at hsome
    cases hsome
    rfl

/-! ## Strings -/

def letters : List (Char × Char) :=
  [('"', '"'), ('\\', '\\'), ('\x08', 'b'), ('\x0c', 'f'), ('\n', 'n'), ('\r', 'r'), ('\t', 't')]

theorem escape_of_mem_letters : ∀ p ∈ letters,
    escape p.1 = ['\\', p.2] ∧ p.2 ≠ 'u' ∧ unescape? p.2 = some p.1 := by
  decide

theorem escape_of_notMem_letters {c : Char} (h : c ∉ letters.map Prod.fst) :
    escape c = if c.toNat < 0x20 then
      ['\\', 'u', '0', '0', Nat.digitChar (c.toNat / 16), Nat.digitChar (c.toNat % 16)]
      else [c] := by
  simp only [letters, List.map_cons, List.map_nil, List.mem_cons, List.not_mem_nil, or_false,
    not_or] at h
  simp [escape, h]

theorem hexUnit?_digitChar {n : Nat} (h : n < 0x20) :
    hexUnit? '0' '0' (Nat.digitChar (n / 16)) (Nat.digitChar (n % 16)) = some n :=
  (by decide : ∀ n < 0x20, hexUnit? '0' '0' (Nat.digitChar (n / 16)) (Nat.digitChar (n % 16)) =
    some n) n h

theorem Content.addUnit_control {s : Content} {c : Char} (hs : s.high = none)
    (hc : c.toNat < 0x20) : s.addUnit c.toNat = s.add c := by
  simp only [addUnit, hs]
  rw [if_neg (by simp; omega), if_neg (by simp; omega), Char.ofNat_toNat]

/-- A character is read back from its spelling. -/
theorem readString?_escape {s : Content} (hs : s.high = none) (c : Char) (cs : List Char) :
    readString? s (escape c ++ cs) = readString? (s.add c) cs := by
  by_cases hletter : c ∈ letters.map Prod.fst
  · obtain ⟨⟨_, l⟩, hmem, rfl⟩ := List.mem_map.mp hletter
    obtain ⟨hescape, hu, hl⟩ := escape_of_mem_letters _ hmem
    rw [hescape]
    simp [readString?, hu, hl]
  · rw [escape_of_notMem_letters hletter]
    split
    · rename_i hctrl
      simp only [List.cons_append, List.nil_append, readString?, hexUnit?_digitChar hctrl]
      rw [Content.addUnit_control hs hctrl]
    · rename_i hctrl
      have hquote : c ≠ '"' := fun h => hletter (h ▸ by decide)
      have hback : c ≠ '\\' := fun h => hletter (h ▸ by decide)
      simp [readString?, hback, hctrl]

theorem readString?_flatMap (done : List Char) (cs rest : List Char) :
    readString? ⟨some done, none⟩ (cs.flatMap escape ++ '"' :: rest) =
      some (some (done.reverse ++ cs), rest) := by
  induction cs generalizing done with
  | nil => simp [readString?, Content.chars?]
  | cons c cs ih =>
    rw [List.flatMap_cons, List.append_assoc, readString?_escape rfl]
    refine (ih (c :: done)).trans ?_
    simp

theorem reads_string (s : String) (rest : List Char) : (string s).Reads rest := by
  refine ⟨'"', s.toList.flatMap escape ++ ['"'], rfl, rfl, ?_⟩
  have hs := readString?_flatMap [] s.toList rest
  rw [List.reverse_nil, List.nil_append] at hs
  rw [List.append_assoc, List.singleton_append]
  simp [next?, punctuation?, Content.empty, hs, ofContent]

/-! ## Numbers -/

def Breaks (rest : List Char) : Prop :=
  ∀ c ∈ rest.head?, c.isDigit = false ∧ c ≠ '.' ∧ c ≠ 'e' ∧ c ≠ 'E'

theorem head?_toDigits {n : Nat} (h : (Nat.toDigits 10 n).head? = some '0') : n = 0 := by
  induction n using Nat.strongRecOn with
  | ind n ih =>
    by_cases hn : n < 10
    · rw [Nat.toDigits_of_lt_base hn] at h
      exact digitChar_inj (by omega) (by decide) (Option.some.inj h)
    · rw [Nat.toDigits_of_base_le (by decide) (by omega), List.head?_append] at h
      obtain ⟨d, hd⟩ : ∃ d, (Nat.toDigits 10 (n / 10)).head? = some d :=
        Option.isSome_iff_exists.mp (List.isSome_head?.mpr Nat.toDigits_ne_nil)
      rw [hd, Option.some_or] at h
      have hzero := ih (n / 10) (by omega) (hd.trans h)
      omega

theorem digits?_append {ds rest : List Char} (hne : ds ≠ []) (hds : ∀ c ∈ ds, c.isDigit = true)
    (hrest : Breaks rest) : Literal.digits? (ds ++ rest) = some (ds, rest) := by
  have htake : rest.takeWhile Char.isDigit = [] := by
    cases rest with
    | nil => rfl
    | cons c rest => simp [(hrest c rfl).1]
  have hdrop : rest.dropWhile Char.isDigit = rest := by
    cases rest with
    | nil => rfl
    | cons c rest => simp [(hrest c rfl).1]
  rw [Literal.digits?, List.takeWhile_append_of_pos hds, List.dropWhile_append_of_pos hds, htake,
    hdrop, List.append_nil]
  split
  · contradiction
  · rfl

theorem fraction?_of_breaks {rest : List Char} (h : Breaks rest) :
    Literal.fraction? rest = some (none, rest) := by
  unfold Literal.fraction?
  split
  · exact absurd rfl (h '.' rfl).2.1
  · rfl

theorem exponent?_of_breaks {rest : List Char} (h : Breaks rest) :
    Literal.exponent? rest = some (none, rest) := by
  cases rest with
  | nil => rfl
  | cons c rest =>
    obtain ⟨-, -, he, hE⟩ := h c rfl
    simp [Literal.exponent?, he, hE]

theorem sign_of_isDigit {c : Char} {cs : List Char} (h : c.isDigit = true) :
    Literal.sign (c :: cs) = (false, c :: cs) := by
  unfold Literal.sign
  split
  · rename_i heq
    cases heq
    exact absurd h (by decide)
  · rfl

theorem whole?_toDigits (n : Nat) {rest : List Char} (h : Breaks rest) :
    Literal.whole? (Nat.toDigits 10 n ++ rest) = some (Nat.toDigits 10 n, rest) := by
  have hdigits : ∀ c ∈ Nat.toDigits 10 n, c.isDigit = true := fun c =>
    Nat.isDigit_of_mem_toDigits (by decide) (by decide)
  rw [Literal.whole?, digits?_append Nat.toDigits_ne_nil hdigits h]
  split
  · rename_i hzero
    simp only [Option.some.injEq, Prod.mk.injEq] at hzero
    -- Zero is written with one digit, and no other number starts with it.
    have hn := head?_toDigits (n := n) (by rw [hzero.1]; rfl)
    subst hn
    cases hzero.1
  · rfl

theorem read?_toDigits (n : Nat) {rest : List Char} (h : Breaks rest) :
    Literal.read? (Nat.toDigits 10 n ++ rest) =
      some (⟨false, Nat.toDigits 10 n, none, none⟩, rest) := by
  have hsign : Literal.sign (Nat.toDigits 10 n ++ rest) = (false, Nat.toDigits 10 n ++ rest) := by
    obtain ⟨c, cs, hcs⟩ := List.exists_cons_of_ne_nil (Nat.toDigits_ne_nil (b := 10) (n := n))
    have hc : c ∈ Nat.toDigits 10 n := hcs ▸ List.mem_cons_self
    rw [hcs]
    exact sign_of_isDigit (Nat.isDigit_of_mem_toDigits (by decide) (by decide) hc)
  simp only [Literal.read?, hsign, whole?_toDigits n h, fraction?_of_breaks h,
    exponent?_of_breaks h]

/-- What starts with a digit is a number. -/
theorem next?_digitChar : ∀ d < 10, isSpace (Nat.digitChar d) = false ∧
    punctuation? (Nat.digitChar d) = none ∧ Nat.digitChar d ≠ '"' ∧
    (Nat.digitChar d).isDigit = true := by
  decide

theorem reads_number {n : Nat} (hn : n < UInt64.size) {rest : List Char} (h : Breaks rest) :
    (number (.integer n)).Reads rest := by
  have hchars : (number (.integer n)).chars = Nat.toDigits 10 n := by
    simp [chars, Number.chars]
  obtain ⟨c, cs, hcs⟩ := List.exists_cons_of_ne_nil (Nat.toDigits_ne_nil (b := 10) (n := n))
  obtain ⟨d, hd, rfl⟩ := mem_toDigits (by decide) (hcs ▸ List.mem_cons_self : c ∈ Nat.toDigits 10 n)
  obtain ⟨hspace, hpunct, hquote, hdigit⟩ := next?_digitChar d hd
  refine ⟨_, cs, hchars.trans hcs, hspace, ?_⟩
  have hread := read?_toDigits n h
  rw [hcs, List.cons_append] at hread
  have htoken : ofLiteral ⟨false, Nat.digitChar d :: cs, none, none⟩ = number (.integer n) := by
    rw [← hcs]
    simp [ofLiteral, Number.ofLiteral?, Nat.ofDigitChars_ten_toDigits, hn]
  simp [next?, hpunct, hquote, hdigit, hread, htoken]

end Token

/-! ## Tokens of a value -/

namespace Token

/-- The tokens are found at the start of the text that they make, before the given text. -/
def Found (ts : List Token) (rest : List Char) : Prop :=
  ∀ done, lexFrom done (ts.flatMap chars ++ rest) = lexFrom (ts.reverse ++ done) rest

variable {t : Token} {ts us : List Token} {rest : List Char}

theorem Found.nil (rest : List Char) : Found [] rest := fun _ => rfl

theorem Found.cons (h : t.Reads (ts.flatMap chars ++ rest)) (hs : Found ts rest) :
    Found (t :: ts) rest := by
  intro done
  rw [List.flatMap_cons, List.append_assoc, h.lexFrom, hs, List.reverse_cons, List.append_assoc]
  rfl

theorem Found.append (hts : Found ts (us.flatMap chars ++ rest)) (hus : Found us rest) :
    Found (ts ++ us) rest := by
  intro done
  rw [List.flatMap_append, List.append_assoc, hts, hus, List.reverse_append, List.append_assoc]

def marks : List Token :=
  [openArray, closeArray, openObject, closeObject, comma, colon]

theorem chars_mark (ht : t ∈ marks) : ∃ c, t.chars = [c] ∧ isSpace c = false ∧
    punctuation? c = some t ∧ c.isDigit = false ∧ c ≠ '.' ∧ c ≠ 'e' ∧ c ≠ 'E' := by
  simp only [marks, List.mem_cons, List.not_mem_nil, or_false] at ht
  rcases ht with rfl | rfl | rfl | rfl | rfl | rfl <;> exact ⟨_, rfl, rfl, rfl, by decide⟩

theorem reads_mark (ht : t ∈ marks) (rest : List Char) : t.Reads rest := by
  obtain ⟨c, hc, hspace, hpunct, -⟩ := chars_mark ht
  exact ⟨c, [], hc, hspace, by simp [next?, hpunct]⟩

theorem Found.mark (ht : t ∈ marks) (hs : Found ts rest) : Found (t :: ts) rest :=
  .cons (reads_mark ht _) hs

/-- No number goes on with a single character. -/
theorem breaks_mark (ht : t ∈ marks) (ts : List Token) (rest : List Char) :
    Breaks ((t :: ts).flatMap chars ++ rest) := by
  obtain ⟨c, hc, -, -, hbreak⟩ := chars_mark ht
  rw [List.flatMap_cons, hc]
  intro c' hc'
  cases hc'
  exact hbreak

end Token

open Token

section

variable {items : List Json} {members : List (String × Json)} {rest : List Char}

theorem breaks_moreItemTokens (items : List Json) (h : Breaks rest) :
    Breaks ((moreItemTokens items).flatMap chars ++ rest) := by
  cases items with
  | nil => exact h
  | cons j items => exact breaks_mark (by decide) _ rest

theorem breaks_moreMemberTokens (members : List (String × Json)) (h : Breaks rest) :
    Breaks ((moreMemberTokens members).flatMap chars ++ rest) := by
  cases members with
  | nil => exact h
  | cons m members => exact breaks_mark (by decide) _ rest

theorem found_moreItemTokens (hitems : ∀ j ∈ items, ∀ rest, Breaks rest → Found j.tokens rest)
    (h : Breaks rest) : Found (moreItemTokens items) rest := by
  induction items with
  | nil => exact .nil rest
  | cons j items ih =>
    obtain ⟨hj, hitems⟩ := List.forall_mem_cons.mp hitems
    exact .mark (by decide) (.append (hj _ (breaks_moreItemTokens items h)) (ih hitems))

theorem found_itemTokens (hitems : ∀ j ∈ items, ∀ rest, Breaks rest → Found j.tokens rest)
    (h : Breaks rest) : Found (itemTokens items) rest := by
  cases items with
  | nil => exact .nil rest
  | cons j items =>
    obtain ⟨hj, hitems⟩ := List.forall_mem_cons.mp hitems
    exact .append (hj _ (breaks_moreItemTokens items h)) (found_moreItemTokens hitems h)

theorem found_moreMemberTokens
    (hmembers : ∀ m ∈ members, ∀ rest, Breaks rest → Found m.2.tokens rest) (h : Breaks rest) :
    Found (moreMemberTokens members) rest := by
  induction members with
  | nil => exact .nil rest
  | cons m members ih =>
    obtain ⟨hm, hmembers⟩ := List.forall_mem_cons.mp hmembers
    exact .mark (by decide) (.cons (reads_string _ _) (.mark (by decide)
      (.append (hm _ (breaks_moreMemberTokens members h)) (ih hmembers))))

theorem found_memberTokens
    (hmembers : ∀ m ∈ members, ∀ rest, Breaks rest → Found m.2.tokens rest) (h : Breaks rest) :
    Found (memberTokens members) rest := by
  cases members with
  | nil => exact .nil rest
  | cons m members =>
    obtain ⟨hm, hmembers⟩ := List.forall_mem_cons.mp hmembers
    exact .cons (reads_string _ _) (.mark (by decide)
      (.append (hm _ (breaks_moreMemberTokens members h)) (found_moreMemberTokens hmembers h)))

end

/-- The tokens of a value are found in its text, before a text that does not go on with a number. -/
theorem Plain.found {j : Json} (hj : j.Plain) :
    ∀ rest, Breaks rest → Found j.tokens rest := by
  induction hj with
  | null => exact fun rest _ => .cons ⟨_, _, rfl, rfl, rfl⟩ (.nil rest)
  | bool b =>
    intro rest _
    cases b <;> exact .cons ⟨_, _, rfl, rfl, rfl⟩ (.nil rest)
  | nat hn => exact fun rest h => .cons (reads_number hn h) (.nil rest)
  | string s => exact fun rest _ => .cons (reads_string s _) (.nil rest)
  | array _ ih =>
    intro rest _
    exact .mark (by decide) (.append (found_itemTokens ih (breaks_mark (by decide) [] rest))
      (.mark (by decide) (.nil rest)))
  | object _ ih =>
    intro rest _
    exact .mark (by decide) (.append (found_memberTokens ih (breaks_mark (by decide) [] rest))
      (.mark (by decide) (.nil rest)))

theorem lex_render {j : Json} (hj : j.Plain) : lex j.render.toList = j.tokens := by
  have h := hj.found [] (by simp [Breaks]) []
  rw [List.append_nil, List.append_nil] at h
  rw [render, String.toList_ofList, lex, h, Token.lexFrom, List.reverse_reverse]

/-! ## The value of the tokens -/

section

variable {items : List Json} {members : List (String × Json)} {frames : List Frame}
  {ts : List Token}

theorem run_cons {r r' : Reader} {t : Token} (h : step? r t = some r') :
    run r (t :: ts) = run r' ts := by
  rw [run, h]

/-- The tokens of the value hand it to the innermost open array or object. -/
def Delivers (j : Json) : Prop :=
  ∀ frames ts, run ⟨.value, frames⟩ (j.tokens ++ ts) = run (deliver j frames) ts

/-- The first item of an array is read like any other value. -/
theorem run_firstItem (j : Json) (frames : List Frame) (ts : List Token) :
    run ⟨.firstItem, frames⟩ (j.tokens ++ ts) = run ⟨.value, .item [] :: frames⟩ (j.tokens ++ ts) := by
  obtain ⟨t, us, r, hj, hfirst, hvalue⟩ : ∃ t us r, j.tokens = t :: us ∧
      step? ⟨.firstItem, frames⟩ t = some r ∧ step? ⟨.value, .item [] :: frames⟩ t = some r := by
    cases j <;> exact ⟨_, _, _, rfl, rfl, rfl⟩
  rw [hj, List.cons_append, run_cons hfirst, run_cons hvalue]

theorem run_moreItemTokens (hitems : ∀ j ∈ items, Delivers j) (done : List Json) :
    run ⟨.afterItem done, frames⟩ (moreItemTokens items ++ .closeArray :: ts) =
      run (deliver (.array (done.reverse ++ items)) frames) ts := by
  induction items generalizing done with
  | nil =>
    rw [List.append_nil]
    exact run_cons rfl
  | cons j items ih =>
    obtain ⟨hj, hitems⟩ := List.forall_mem_cons.mp hitems
    simp only [moreItemTokens, List.cons_append, List.append_assoc]
    rw [run_cons rfl]
    refine (hj _ _).trans ((ih hitems (j :: done)).trans ?_)
    simp

theorem run_itemTokens (hitems : ∀ j ∈ items, Delivers j) :
    run ⟨.firstItem, frames⟩ (itemTokens items ++ .closeArray :: ts) =
      run (deliver (.array items) frames) ts := by
  cases items with
  | nil => exact run_cons rfl
  | cons j items =>
    obtain ⟨hj, hitems⟩ := List.forall_mem_cons.mp hitems
    rw [itemTokens, List.append_assoc, run_firstItem]
    exact (hj _ _).trans (run_moreItemTokens hitems [j])

theorem run_moreMemberTokens (hmembers : ∀ m ∈ members, Delivers m.2)
    (done : List (String × Json)) :
    run ⟨.afterMember ⟨done, true⟩, frames⟩ (moreMemberTokens members ++ .closeObject :: ts) =
      run (deliver (.object (done.reverse ++ members)) frames) ts := by
  induction members generalizing done with
  | nil =>
    rw [List.append_nil]
    exact run_cons rfl
  | cons m members ih =>
    obtain ⟨name, j⟩ := m
    obtain ⟨hj, hmembers⟩ := List.forall_mem_cons.mp hmembers
    simp only [moreMemberTokens, List.cons_append, List.append_assoc]
    rw [run_cons rfl, run_cons rfl, run_cons rfl]
    refine (hj _ _).trans ((ih hmembers ((name, j) :: done)).trans ?_)
    simp

theorem run_memberTokens (hmembers : ∀ m ∈ members, Delivers m.2) :
    run ⟨.firstMember, frames⟩ (memberTokens members ++ .closeObject :: ts) =
      run (deliver (.object members) frames) ts := by
  cases members with
  | nil => exact run_cons rfl
  | cons m members =>
    obtain ⟨name, j⟩ := m
    obtain ⟨hj, hmembers⟩ := List.forall_mem_cons.mp hmembers
    simp only [memberTokens, List.cons_append, List.append_assoc]
    rw [run_cons rfl, run_cons rfl]
    exact (hj _ _).trans (run_moreMemberTokens hmembers [(name, j)])

end

theorem Plain.delivers {j : Json} (hj : j.Plain) : Delivers j := by
  induction hj with
  | null => exact fun _ _ => run_cons rfl
  | bool b => exact fun _ _ => run_cons rfl
  | nat _ => exact fun _ _ => run_cons rfl
  | string s => exact fun _ _ => run_cons rfl
  | array _ ih =>
    intro frames ts
    simp only [tokens, List.cons_append, List.append_assoc]
    exact (run_cons rfl).trans (run_itemTokens ih)
  | object _ ih =>
    intro frames ts
    simp only [tokens, List.cons_append, List.append_assoc]
    exact (run_cons rfl).trans (run_memberTokens ih)

/-- A value is read back from its text. -/
theorem read_render {j : Json} (hj : j.Plain) : read j.render = ⟨j, true⟩ := by
  have h := hj.delivers [] []
  rw [List.append_nil] at h
  rw [read, lex_render hj, ofTokens, h]
  rfl

end TwinForest.Json
