import TwinForest.Decimal.Shortest
import TwinForest.Json.Basic

/-!
# Number literals

Reading and writing the numbers of a document. An integer that fits 64 bits is kept as it is. Every
other literal is a double, read from as many leading digits as fit 64 bits, which are then scaled by
one power of ten. A literal beyond the range of the doubles is refused.
-/

namespace TwinForest.Json

/-- The parts of a number literal: sign, digits before and after the point, and the exponent with
its sign. -/
structure Literal where
  negative : Bool
  whole : List Char
  fraction : Option (List Char)
  exponent : Option (Bool × List Char)

namespace Literal

/-- Splits off the digits at the start of a text, of which there has to be one. -/
def digits? (cs : List Char) : Option (List Char × List Char) :=
  match cs.takeWhile Char.isDigit with
  | [] => none
  | digits => some (digits, cs.dropWhile Char.isDigit)

def exponent? : List Char → Option (Option (Bool × List Char) × List Char)
  | [] => some (none, [])
  | c :: cs =>
    if c = 'e' ∨ c = 'E' then
      let (negative, cs) : Bool × List Char :=
        match cs with
        | '-' :: ds => (true, ds)
        | '+' :: ds => (false, ds)
        | ds => (false, ds)
      (digits? cs).map fun (digits, rest) => (some (negative, digits), rest)
    else some (none, c :: cs)

def fraction? : List Char → Option (Option (List Char) × List Char)
  | '.' :: cs => (digits? cs).map fun (digits, rest) => (some digits, rest)
  | cs => some (none, cs)

/-- Splits off the digits before the point: no zero in front of another digit. -/
def whole? (cs : List Char) : Option (List Char × List Char) :=
  match digits? cs with
  | some ('0' :: _ :: _, _) => none
  | found => found

def sign : List Char → Bool × List Char
  | '-' :: cs => (true, cs)
  | cs => (false, cs)

def read? (cs : List Char) : Option (Literal × List Char) :=
  let (negative, cs) := sign cs
  match whole? cs with
  | none => none
  | some (whole, cs) =>
    match fraction? cs with
    | none => none
    | some (fraction, cs) =>
      match exponent? cs with
      | none => none
      | some (exponent, cs) => some (⟨negative, whole, fraction, exponent⟩, cs)

theorem length_digits?_lt {cs digits rest : List Char} (h : digits? cs = some (digits, rest)) :
    rest.length < cs.length := by
  unfold digits? at h
  split at h
  · simp at h
  · rename_i hne
    cases h
    have hcs := congrArg List.length (List.takeWhile_append_dropWhile (p := Char.isDigit) (l := cs))
    have := List.length_pos_iff.2 (fun h => hne h)
    simp only [List.length_append] at hcs
    omega

theorem length_exponent?_le {cs rest : List Char} {e : Option (Bool × List Char)}
    (h : exponent? cs = some (e, rest)) : rest.length ≤ cs.length := by
  unfold exponent? at h
  split at h
  · simp_all
  · split at h
    · obtain ⟨⟨digits, r⟩, hr, he⟩ := Option.map_eq_some_iff.1 h
      cases he
      have := length_digits?_lt hr
      split at this <;> simp_all <;> omega
    · simp_all

theorem length_fraction?_le {cs rest : List Char} {f : Option (List Char)}
    (h : fraction? cs = some (f, rest)) : rest.length ≤ cs.length := by
  unfold fraction? at h
  split at h
  · obtain ⟨⟨digits, r⟩, hr, he⟩ := Option.map_eq_some_iff.1 h
    cases he
    have := length_digits?_lt hr
    simp only [List.length_cons]
    omega
  · simp_all

theorem length_whole?_lt {cs whole rest : List Char} (h : whole? cs = some (whole, rest)) :
    rest.length < cs.length := by
  unfold whole? at h
  split at h
  · simp at h
  · exact length_digits?_lt h

theorem length_sign_le (cs : List Char) : (sign cs).2.length ≤ cs.length := by
  unfold sign
  split <;> simp

/-- Reading a literal makes the text shorter. -/
theorem length_read?_lt {cs rest : List Char} {l : Literal} (h : read? cs = some (l, rest)) :
    rest.length < cs.length := by
  unfold read? at h
  simp only at h
  split at h
  · simp at h
  · rename_i hw
    split at h
    · simp at h
    · rename_i hf
      split at h
      · simp at h
      · rename_i he
        cases h
        have := length_sign_le cs
        have := length_whole?_lt hw
        have := length_fraction?_le hf
        have := length_exponent?_le he
        omega

end Literal

namespace Number

/-- Appends digits to a number as long as it fits 64 bits, and counts those left over. -/
def absorb (n : Nat) : List Char → Nat × Nat
  | [] => (n, 0)
  | c :: cs =>
    let next := n * 10 + (c.toNat - '0'.toNat)
    if next < UInt64.size then absorb next cs else (n, cs.length + 1)

/-- The double nearest to `n`, scaled by `10 ^ exponent`; a result too large for a double is
refused. The scale is applied in one step, or in two where the power alone would be too small. -/
def scale? (negative : Bool) (n : Nat) (exponent : Int) : Option Number :=
  let power (k : Int) : Float := Float.ofScientific 1 false k.toNat
  let x := n.toUInt64.toFloat
  let y :=
    if n = 0 then x
    else if 308 < exponent then 1.0 / 0.0
    else if 0 ≤ exponent then x * power exponent
    else if -308 ≤ exponent then x / power (-exponent)
    else if -616 ≤ exponent then x / power 308 / power (-exponent - 308)
    else 0.0
  if y.isFinite then some (.real (if negative then -y else y).toBits) else none

def realOf? (l : Literal) : Option Number :=
  let (n, dropped) := absorb 0 l.whole
  let fraction := l.fraction.getD []
  let (n, ignored) := absorb n fraction
  let start : Int := dropped - (fraction.length - ignored : Nat)
  match l.exponent with
  | none => scale? l.negative n start
  | some (negative, digits) =>
    let e := Nat.ofDigitChars 10 digits 0
    scale? l.negative n (if negative then start - e else start + e)

/-- The number that a literal stands for. A minus before zero makes it a double, since there is no
negative zero among the integers. -/
def ofLiteral? (l : Literal) : Option Number :=
  let n := Nat.ofDigitChars 10 l.whole 0
  match l.fraction, l.exponent, l.negative with
  | none, none, false => if n < UInt64.size then some (.integer n) else realOf? l
  | none, none, true => if 0 < n ∧ n ≤ Nat.pow 2 63 then some (.integer (-n)) else realOf? l
  | _, _, _ => realOf? l

def chars : Number → List Char
  | .integer n => if n < 0 then '-' :: Nat.toDigits 10 n.natAbs else Nat.toDigits 10 n.natAbs
  | .real bits => (Decimal.layout (Decimal.ofBits bits).1 (Decimal.ofBits bits).2).toList

def text (n : Number) : String :=
  String.ofList n.chars

end Number

end TwinForest.Json
