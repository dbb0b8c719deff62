import Mathlib.Tactic.SplitIfs
import TwinForest.Text.Quoted

/-!
# Quoted text can be read back

No spelling of a character is the start of the spelling of another one, and none of them starts with
a quote. Text between quotes therefore ends at a definite place, whatever comes after it, and only one
text is quoted in that way. Quoted text has no line feed, so it never runs over the end of a line.
-/

namespace TwinForest

/-- Two texts that are equal up to the first place of a character are equal before and after it. -/
theorem append_cons_inj {α : Type u} {a : α} {xs ys zs ws : List α} (hx : a ∉ xs) (hy : a ∉ ys)
    (h : xs ++ a :: zs = ys ++ a :: ws) : xs = ys ∧ zs = ws := by
  induction xs generalizing ys with
  | nil =>
    cases ys with
    | nil => simpa using h
    | cons y ys =>
      obtain ⟨rfl, -⟩ := List.cons.inj h
      exact absurd List.mem_cons_self hy
  | cons x xs ih =>
    cases ys with
    | nil =>
      obtain ⟨rfl, -⟩ := List.cons.inj h
      exact absurd List.mem_cons_self hx
    | cons y ys =>
      obtain ⟨rfl, htail⟩ := List.cons.inj h
      obtain ⟨rfl, rfl⟩ := ih (List.not_mem_of_not_mem_cons hx) (List.not_mem_of_not_mem_cons hy) htail
      exact ⟨rfl, rfl⟩

/-! ## Digits -/

theorem digitChar_inj {m n : Nat} (hm : m < 16) (hn : n < 16)
    (h : Nat.digitChar m = Nat.digitChar n) : m = n :=
  (by decide : ∀ m < 16, ∀ n < 16, Nat.digitChar m = Nat.digitChar n → m = n) m hm n hn h

theorem mem_toDigits {base n : Nat} (hbase : 1 < base) {c : Char} (hc : c ∈ Nat.toDigits base n) :
    ∃ d < base, c = Nat.digitChar d := by
  induction n using Nat.strongRecOn with
  | ind n ih =>
    rw [Nat.toDigits_eq_if hbase] at hc
    split at hc
    · rename_i hn
      exact ⟨n, hn, by simpa using hc⟩
    · rename_i hn
      rcases List.mem_append.mp hc with hc | hc
      · exact ih (n / base) (Nat.div_lt_self (by omega) hbase) hc
      · exact ⟨n % base, Nat.mod_lt n (by omega), by simpa using hc⟩

/-- Numbers with the same digits are equal. -/
theorem toDigits_inj {base m n : Nat} (hbase : 1 < base) (hle : base ≤ 16)
    (h : Nat.toDigits base m = Nat.toDigits base n) : m = n := by
  induction m using Nat.strongRecOn generalizing n with
  | ind m ih =>
    -- Only a number below the base has a single digit.
    have hshort : ∀ k, ¬ k < base → 1 < (Nat.toDigits base k).length := by
      intro k hk
      have hpos := Nat.length_toDigits_pos (b := base) (n := k / base)
      rw [Nat.toDigits_eq_if hbase, if_neg hk, List.length_append]
      exact Nat.lt_add_of_pos_left hpos
    by_cases hm : m < base <;> by_cases hn : n < base
    · rw [Nat.toDigits_of_lt_base hm, Nat.toDigits_of_lt_base hn] at h
      exact digitChar_inj (by omega) (by omega) (List.singleton_inj.mp h)
    · have hlong := hshort n hn
      rw [← h, Nat.toDigits_of_lt_base hm] at hlong
      exact absurd hlong (Nat.lt_irrefl 1)
    · have hlong := hshort m hm
      rw [h, Nat.toDigits_of_lt_base hn] at hlong
      exact absurd hlong (Nat.lt_irrefl 1)
    · rw [Nat.toDigits_of_base_le hbase (by omega : base ≤ m),
        Nat.toDigits_of_base_le hbase (by omega : base ≤ n)] at h
      obtain ⟨hfront, hlast⟩ := List.append_inj' h rfl
      have hdiv := ih (m / base) (Nat.div_lt_self (by omega) hbase) hfront
      have hmod : m % base = n % base :=
        digitChar_inj (Nat.lt_of_lt_of_le (Nat.mod_lt m (by omega)) hle)
          (Nat.lt_of_lt_of_le (Nat.mod_lt n (by omega)) hle) (List.singleton_inj.mp hlast)
      rw [← Nat.div_add_mod m base, ← Nat.div_add_mod n base, hdiv, hmod]

theorem notMem_toDigits {base n : Nat} (hbase : 1 < base) {c : Char}
    (hc : ∀ d < base, c ≠ Nat.digitChar d) : c ∉ Nat.toDigits base n := by
  intro hmem
  obtain ⟨d, hd, rfl⟩ := mem_toDigits hbase hmem
  exact hc d hd rfl

/-- A number in decimal digits ends where a character comes that is no digit. -/
theorem decimal_append_inj {m n : Nat} {c : Char} {rs ss : List Char}
    (hc : ∀ d < 10, c ≠ Nat.digitChar d)
    (h : Nat.toDigits 10 m ++ c :: rs = Nat.toDigits 10 n ++ c :: ss) : m = n ∧ rs = ss := by
  have hmem : ∀ k, c ∉ Nat.toDigits 10 k := fun k => notMem_toDigits (by decide) hc
  obtain ⟨hdigits, hrest⟩ := append_cons_inj (hmem m) (hmem n) h
  exact ⟨toDigits_inj (by decide) (by decide) hdigits, hrest⟩

namespace Text

/-! ## Spellings of characters -/

/-- The characters that are spelled by a letter after a backslash, with their letters. -/
def letters : List (Char × Char) :=
  [('"', '"'), ('\\', '\\'), ('\n', 'n'), ('\r', 'r'), ('\t', 't'), ('\x00', '0')]

theorem letters_inj : ∀ p ∈ letters, ∀ q ∈ letters, p.2 = q.2 → p.1 = q.1 := by decide

theorem letters_ne : ∀ p ∈ letters, p.2 ≠ 'u' ∧ p.2 ≠ '\n' := by decide

/-- A character is spelled by a letter, by its code point or by itself. -/
theorem escape_cases (c : Char) :
    (∃ letter, (c, letter) ∈ letters ∧ escape c = ['\\', letter]) ∨
      escape c = codePointEscape c ∨
      (escape c = [c] ∧ c ≠ '"' ∧ c ≠ '\\' ∧ c ≠ '\n') := by
  unfold escape
  split_ifs with hquote hslash hfeed hreturn htab hnull
  · exact .inl ⟨'"', by simp [letters, hquote], rfl⟩
  · exact .inl ⟨'\\', by simp [letters, hslash], rfl⟩
  · exact .inl ⟨'n', by simp [letters, hfeed], rfl⟩
  · exact .inl ⟨'r', by simp [letters, hreturn], rfl⟩
  · exact .inl ⟨'t', by simp [letters, htab], rfl⟩
  · exact .inl ⟨'0', by simp [letters, hnull], rfl⟩
  · exact .inr (.inl rfl)
  · exact .inr (.inr ⟨rfl, hquote, hslash, hfeed⟩)

theorem newline_notMem_escape (c : Char) : '\n' ∉ escape c := by
  rcases escape_cases c with ⟨letter, hmem, h⟩ | h | ⟨h, -, -, hc⟩
  · have hletter := (letters_ne _ hmem).2
    simp [h, Ne.symm hletter]
  · have hdigits : '\n' ∉ Nat.toDigits 16 c.toNat := notMem_toDigits (by decide) (by decide)
    simp [h, codePointEscape, hdigits]
  · simp [h, Ne.symm hc]

theorem quote_cons_ne_escape_append (c : Char) (rs ss : List Char) :
    '"' :: rs ≠ escape c ++ ss := by
  rcases escape_cases c with ⟨letter, -, h⟩ | h | ⟨h, hc, -⟩
  · simp [h]
  · simp [h, codePointEscape]
  · simp [h, Ne.symm hc]

/-- A spelling can be cut off the text that it starts, and tells its character. -/
theorem escape_append_inj {c d : Char} {rs ss : List Char} (h : escape c ++ rs = escape d ++ ss) :
    c = d ∧ rs = ss := by
  rcases escape_cases c with ⟨l, hl, hc⟩ | hc | ⟨hc, -, hslash, -⟩ <;>
    rcases escape_cases d with ⟨m, hm, hd⟩ | hd | ⟨hd, -, hslash', -⟩ <;>
    simp only [hc, hd, codePointEscape, List.cons_append, List.nil_append, List.append_assoc,
      List.cons.injEq, true_and] at h
  · obtain ⟨rfl, rfl⟩ := h
    exact ⟨letters_inj _ hl _ hm rfl, rfl⟩
  · exact absurd h.1 (letters_ne _ hl).1
  · exact absurd h.1.symm hslash'
  · exact absurd h.1.symm (letters_ne _ hm).1
  · have hbrace : ∀ n, '\x7d' ∉ Nat.toDigits 16 n := fun n =>
      notMem_toDigits (by decide) (by decide)
    obtain ⟨hdigits, hrest⟩ := append_cons_inj (hbrace _) (hbrace _) h
    exact ⟨Char.toNat_inj.mp (toDigits_inj (by decide) (by decide) hdigits), hrest⟩
  · exact absurd h.1.symm hslash'
  · exact absurd h.1 hslash
  · exact absurd h.1 hslash
  · exact h

/-! ## Quoted text -/

theorem flatMap_escape_append_inj {cs ds rs ss : List Char}
    (h : cs.flatMap escape ++ '"' :: rs = ds.flatMap escape ++ '"' :: ss) : cs = ds ∧ rs = ss := by
  induction cs generalizing ds with
  | nil =>
    cases ds with
    | nil => simpa using h
    | cons d ds =>
      rw [List.flatMap_cons, List.append_assoc] at h
      exact absurd h (quote_cons_ne_escape_append d _ _)
  | cons c cs ih =>
    cases ds with
    | nil =>
      rw [List.flatMap_cons, List.append_assoc] at h
      exact absurd h.symm (quote_cons_ne_escape_append c _ _)
    | cons d ds =>
      simp only [List.flatMap_cons, List.append_assoc] at h
      obtain ⟨rfl, htail⟩ := escape_append_inj h
      obtain ⟨rfl, rfl⟩ := ih htail
      exact ⟨rfl, rfl⟩

/-- Quoted text can be cut off the text that it starts, and read back. -/
theorem quoteChars_append_inj {cs ds rs ss : List Char}
    (h : quoteChars cs ++ rs = quoteChars ds ++ ss) : cs = ds ∧ rs = ss := by
  simp only [quoteChars, List.cons_append, List.append_assoc, List.cons.injEq, true_and] at h
  exact flatMap_escape_append_inj h

theorem newline_notMem_quoteChars (cs : List Char) : '\n' ∉ quoteChars cs := by
  simp [quoteChars, newline_notMem_escape]

end Text

end TwinForest
