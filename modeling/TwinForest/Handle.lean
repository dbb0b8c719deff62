import TwinForest.Json.Decode

/-!
# Handles

A handle is a number of 128 bits that stands for a tree. It is written as 32 hexadecimal digits in
groups of 8, 4, 4, 4 and 12 with hyphens between them. Reading takes digits of either case, the
digits without hyphens, and the grouped form in braces or after `urn:uuid:`.
-/

namespace TwinForest

structure Handle where
  bits : BitVec 128
deriving DecidableEq, Hashable, Repr

namespace Handle

/-- The last `count` hexadecimal digits of a number. -/
def digits (n : Nat) : Nat → List Char
  | 0 => []
  | count + 1 => digits (n / 16) count ++ [Nat.digitChar (n % 16)]

/-- The number that hexadecimal digits spell after those that spell `n`. -/
def value? (n : Nat) : List Char → Option Nat
  | [] => some n
  | c :: cs =>
    match Json.Token.hexDigit? c with
    | none => none
    | some d => value? (n * 16 + d) cs

def displayChars (h : Handle) : List Char :=
  let ds := digits h.bits.toNat 32
  ds.take 8 ++ '-' :: (ds.drop 8).take 4 ++ '-' :: (ds.drop 12).take 4
    ++ '-' :: (ds.drop 16).take 4 ++ '-' :: ds.drop 20

def display (h : Handle) : String :=
  String.ofList h.displayChars

def ofDigits? (cs : List Char) : Option Handle :=
  if cs.length = 32 then (value? 0 cs).map fun n => ⟨BitVec.ofNat 128 n⟩ else none

/-- The digits of the grouped form, with the hyphens in their places. -/
def ungroup? (cs : List Char) : Option (List Char) :=
  if cs.length = 36 ∧ cs[8]? = some '-' ∧ cs[13]? = some '-' ∧ cs[18]? = some '-'
      ∧ cs[23]? = some '-' then
    some (cs.take 8 ++ (cs.drop 9).take 4 ++ (cs.drop 14).take 4 ++ (cs.drop 19).take 4
      ++ cs.drop 24)
  else none

/-- The grouped form inside what may stand around it. -/
def unwrap (cs : List Char) : List Char :=
  if cs.head? = some '\x7b' ∧ cs.getLast? = some '\x7d' then cs.tail.dropLast
  else if (cs.take 9).map Char.toLower = "urn:uuid:".toList then cs.drop 9
  else cs

def ofString? (s : String) : Option Handle :=
  let cs := s.toList
  if cs.length = 32 then ofDigits? cs else (ungroup? (unwrap cs)).bind ofDigits?

def ofString (s : String) : Except DecodeError Handle :=
  match ofString? s with
  | some h => .ok h
  | none => .error .invalidHandle

def ofJson : Json → Except DecodeError Handle
  | .string s => ofString s
  | j => j.refuse "a formatted UUID string"

def toJson (h : Handle) : Json :=
  .string h.display

end Handle

end TwinForest
