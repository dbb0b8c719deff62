import TwinForest.Fault

/-!
# Durations

A length of time in whole nanoseconds, shown exactly in the largest unit of which it has a whole one:
`1.5s`, `12.345µs`, `0ns`. Its whole seconds fit 64 bits.
-/

namespace TwinForest

structure Duration where
  nanos : Nat
deriving DecidableEq, Repr

namespace Duration

/-- A number of seconds and further nanoseconds, which have to fit together. -/
def ofSeconds (seconds nanos : Nat) : Except Fault Duration :=
  if seconds + nanos / Nat.pow 10 9 < UInt64.size then .ok ⟨seconds * Nat.pow 10 9 + nanos⟩
  else .error .longDuration

def ofMillis (millis : Nat) : Duration :=
  ⟨millis * Nat.pow 10 6⟩

/-- A fraction of `10 ^ places`, given by its numerator, with a point before it and no zeros at its
end. -/
def fraction (numerator places : Nat) : List Char :=
  let digits := Nat.toDigits 10 numerator
  let padded := List.replicate (places - digits.length) '0' ++ digits
  if numerator = 0 then [] else '.' :: (padded.reverse.dropWhile (· == '0')).reverse

/-- The exact number of units of `10 ^ places` nanoseconds. -/
def inUnit (d : Duration) (places : Nat) (unit : String) : String :=
  let size := Nat.pow 10 places
  String.ofList (Nat.toDigits 10 (d.nanos / size) ++ fraction (d.nanos % size) places) ++ unit

def display (d : Duration) : String :=
  if Nat.pow 10 9 ≤ d.nanos then d.inUnit 9 "s"
  else if Nat.pow 10 6 ≤ d.nanos then d.inUnit 6 "ms"
  else if Nat.pow 10 3 ≤ d.nanos then d.inUnit 3 "µs"
  else d.inUnit 0 "ns"

end Duration

end TwinForest
