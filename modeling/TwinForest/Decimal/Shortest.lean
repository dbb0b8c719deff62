/-!
# Shortest decimals

The decimal with the fewest digits that reads back as a given double. A double is `m * 2 ^ q`; the
reals that round to it form an interval around it, closed when `m` is even. For one digit, two digits
and so on, the two neighbours of the double on the grid of decimals with that many digits are tried,
all in exact arithmetic; of two that fit, the nearer wins, and a tie goes to the even digit.
-/

namespace TwinForest

/-- The number `digits * 10 ^ exponent`. -/
structure Decimal where
  digits : Nat
  exponent : Int
deriving DecidableEq, Repr

namespace Decimal

/-- The rounding interval of a double in units of `2 ^ scale`: its ends, the double itself, and
whether the ends belong to it. -/
structure Interval where
  low : Nat
  value : Nat
  high : Nat
  closed : Bool
  scale : Int

/-- The reals that round to `m * 2 ^ q`. Below a power of two the doubles are twice as dense, so
the interval is shorter on that side, except at the bottom of the range. -/
def Interval.of (m : Nat) (q : Int) : Interval :=
  { low := if m = Nat.pow 2 52 ∧ -1074 < q then 4 * m - 1 else 4 * m - 2
    value := 4 * m
    high := 4 * m + 2
    closed := m % 2 == 0
    scale := q - 2 }

namespace Interval

/-- `2 ^ scale` in units of `10 ^ exponent`, as a fraction. -/
def ratio (i : Interval) (exponent : Int) : Nat × Nat :=
  (Nat.pow 2 i.scale.toNat * Nat.pow 10 (-exponent).toNat,
    Nat.pow 2 (-i.scale).toNat * Nat.pow 10 exponent.toNat)

def holds (i : Interval) (exponent : Int) (digits : Nat) : Bool :=
  let (num, den) := i.ratio exponent
  if i.closed then i.low * num ≤ digits * den && digits * den ≤ i.high * num
  else i.low * num < digits * den && digits * den < i.high * num

/-- How many digits the double has before the point; zero or less when it is below one tenth. -/
def magnitude (i : Interval) : Int :=
  let (num, den) := i.ratio (-400)
  ((Nat.toDigits 10 (i.value * num / den)).length : Int) - 400

/-- The neighbour of the double on the grid of multiples of `10 ^ exponent` that reads back. -/
def neighbour? (i : Interval) (exponent : Int) : Option Nat :=
  let (num, den) := i.ratio exponent
  let below := i.value * num / den
  let rest := i.value * num % den
  let above := if rest = 0 then below else below + 1
  match i.holds exponent below, i.holds exponent above with
  | true, true =>
    if 2 * rest < den || 2 * rest == den && below % 2 == 0 then some below else some above
  | true, false => some below
  | false, true => some above
  | false, false => none

end Interval

def trim (d : Decimal) : Decimal :=
  let digits := Nat.toDigits 10 d.digits
  let zeros := (digits.reverse.takeWhile (· == '0')).length
  if d.digits = 0 then d
  else ⟨d.digits / Nat.pow 10 zeros, d.exponent + zeros⟩

/-- The shortest decimal that reads back as `m * 2 ^ q`. Seventeen digits always do. -/
def shortest (m : Nat) (q : Int) : Decimal :=
  if m = 0 then ⟨0, 0⟩
  else
    let i := Interval.of m q
    let found := (List.range 17).findSome? fun n : Nat =>
      let exponent : Int := i.magnitude - (n + 1)
      (i.neighbour? exponent).map fun digits => Decimal.trim ⟨digits, exponent⟩
    found.getD ⟨m, q⟩

def ofBits (bits : UInt64) : Bool × Decimal :=
  let b := bits.toNat
  let fraction : Nat := b % Nat.pow 2 52
  let power : Nat := b / Nat.pow 2 52 % Nat.pow 2 11
  let decimal :=
    if power = 0 then shortest fraction (-1074)
    else shortest (Nat.pow 2 52 + fraction) ((power : Int) - 1075)
  (Nat.pow 2 63 ≤ b, decimal)

/-- The layout of a number in a message: positional with at least one decimal place as long as the
point falls among the first sixteen digits or at most four zeros follow it, else with an exponent
that has a sign. -/
def layout (negative : Bool) (d : Decimal) : String :=
  let digits := Nat.toDigits 10 d.digits
  let point := (digits.length : Int) + d.exponent
  let body :=
    if d.digits = 0 then ['0', '.', '0']
    else if 0 ≤ d.exponent ∧ point ≤ 16 then
      digits ++ List.replicate d.exponent.toNat '0' ++ ['.', '0']
    else if 0 < point ∧ point ≤ 16 then
      digits.take point.toNat ++ '.' :: digits.drop point.toNat
    else if -5 < point ∧ point ≤ 0 then
      ['0', '.'] ++ List.replicate (-point).toNat '0' ++ digits
    else
      let places := if digits.length = 1 then digits else digits.take 1 ++ '.' :: digits.drop 1
      let sign := if point < 1 then '-' else '+'
      places ++ 'e' :: sign :: Nat.toDigits 10 (point - 1).natAbs
  String.ofList (if negative then '-' :: body else body)

end Decimal

end TwinForest
