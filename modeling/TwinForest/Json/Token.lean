import TwinForest.Json.Number

/-!
# Tokens of a document

The text of a document is a sequence of tokens with blanks between them. Reading is exact: no
control characters inside strings, and no escapes but the standard ones. Numbers too large for a
double, and strings in which a surrogate stands alone, are tokens of their own: they follow the
grammar but have no value. Where no token can be read, reading ends with a token that says so.
-/

namespace TwinForest.Json

inductive Token where
  | openArray
  | closeArray
  | openObject
  | closeObject
  | comma
  | colon
  | null
  | bool (value : Bool)
  | number (value : Number)
  | string (value : String)
  /-- A number too large for a double. -/
  | overflow
  /-- A string in which a surrogate stands alone. -/
  | loneSurrogate
  /-- Text that is no token. -/
  | junk
deriving DecidableEq, Repr

namespace Token

def escape (c : Char) : List Char :=
  if c = '"' then ['\\', '"']
  else if c = '\\' then ['\\', '\\']
  else if c = '\x08' then ['\\', 'b']
  else if c = '\x0c' then ['\\', 'f']
  else if c = '\n' then ['\\', 'n']
  else if c = '\r' then ['\\', 'r']
  else if c = '\t' then ['\\', 't']
  else if c.toNat < 0x20 then
    ['\\', 'u', '0', '0', Nat.digitChar (c.toNat / 16), Nat.digitChar (c.toNat % 16)]
  else [c]

def chars : Token → List Char
  | openArray => ['[']
  | closeArray => [']']
  | openObject => ['\x7b']
  | closeObject => ['\x7d']
  | comma => [',']
  | colon => [':']
  | null => ['n', 'u', 'l', 'l']
  | bool true => ['t', 'r', 'u', 'e']
  | bool false => ['f', 'a', 'l', 's', 'e']
  | number n => n.chars
  | string s => '"' :: s.toList.flatMap escape ++ ['"']
  | overflow => ['1', 'e', '9', '9', '9']
  | loneSurrogate => ['"', '\\', 'u', 'd', '8', '0', '0', '"']
  | junk => ['?']

def hexDigit? (c : Char) : Option Nat :=
  if c.isDigit then some (c.toNat - '0'.toNat)
  else if 'a' ≤ c ∧ c ≤ 'f' then some (c.toNat - 'a'.toNat + 10)
  else if 'A' ≤ c ∧ c ≤ 'F' then some (c.toNat - 'A'.toNat + 10)
  else none

def hexUnit? (a b c d : Char) : Option Nat := do
  return (((← hexDigit? a) * 16 + (← hexDigit? b)) * 16 + (← hexDigit? c)) * 16 + (← hexDigit? d)

def unescape? : Char → Option Char
  | '"' => some '"'
  | '\\' => some '\\'
  | '/' => some '/'
  | 'b' => some '\x08'
  | 'f' => some '\x0c'
  | 'n' => some '\n'
  | 'r' => some '\r'
  | 't' => some '\t'
  | _ => none

/-- The string that a string token stands for, unless a surrogate in it stands alone. -/
def ofContent : Option (List Char) → Token
  | some cs => string (String.ofList cs)
  | none => loneSurrogate

structure Content where
  /-- The characters in reverse, unless a surrogate among them stood alone. -/
  done : Option (List Char)
  /-- The first half of a surrogate pair, if nothing was read after it. -/
  high : Option Nat

namespace Content

def empty : Content :=
  ⟨some [], none⟩

/-- The string with one more character. A first half before it stands alone. -/
def add (s : Content) (c : Char) : Content :=
  match s.high with
  | none => ⟨s.done.map (c :: ·), none⟩
  | some _ => ⟨none, none⟩

def addUnit (s : Content) (unit : Nat) : Content :=
  let isHigh : Bool := 0xd800 ≤ unit ∧ unit ≤ 0xdbff
  let isLow : Bool := 0xdc00 ≤ unit ∧ unit ≤ 0xdfff
  match s.high with
  | none =>
    if isHigh then ⟨s.done, some unit⟩
    else if isLow then ⟨none, none⟩
    else s.add (Char.ofNat unit)
  | some high =>
    if isLow then
      ⟨s.done.map (Char.ofNat (0x10000 + (high - 0xd800) * 0x400 + (unit - 0xdc00)) :: ·), none⟩
    -- The first half before this one stands alone, but this one may still find its other half.
    else if isHigh then ⟨none, some unit⟩
    else ⟨none, none⟩

def chars? (s : Content) : Option (List Char) :=
  match s.high with
  | none => s.done.map List.reverse
  | some _ => none

end Content

/-- Reads a string after its opening quote: its characters, given what was read of it so far, and the
text after the closing quote. -/
def readString? (s : Content) : List Char → Option (Option (List Char) × List Char)
  | [] => none
  | '"' :: cs => some (s.chars?, cs)
  | '\\' :: 'u' :: a :: b :: c :: d :: cs =>
    match hexUnit? a b c d with
    | none => none
    | some unit => readString? (s.addUnit unit) cs
  | '\\' :: c :: cs =>
    match unescape? c with
    | none => none
    | some char => readString? (s.add char) cs
  | c :: cs => if c = '\\' ∨ c.toNat < 0x20 then none else readString? (s.add c) cs

/-- The characters that may separate tokens. -/
def isSpace (c : Char) : Bool :=
  c = ' ' || c = '\n' || c = '\r' || c = '\t'

def punctuation? : Char → Option Token
  | '[' => some openArray
  | ']' => some closeArray
  | '\x7b' => some openObject
  | '\x7d' => some closeObject
  | ',' => some comma
  | ':' => some colon
  | _ => none

def word? : List Char → Option (Token × List Char)
  | 'n' :: 'u' :: 'l' :: 'l' :: cs => some (null, cs)
  | 't' :: 'r' :: 'u' :: 'e' :: cs => some (bool true, cs)
  | 'f' :: 'a' :: 'l' :: 's' :: 'e' :: cs => some (bool false, cs)
  | _ => none

def ofLiteral (l : Literal) : Token :=
  match Number.ofLiteral? l with
  | some n => number n
  | none => overflow

def next? (c : Char) (cs : List Char) : Option (Token × List Char) :=
  match punctuation? c with
  | some t => some (t, cs)
  | none =>
    if c = '"' then
      (readString? .empty cs).map fun (s, rest) => (ofContent s, rest)
    else if c = '-' ∨ c.isDigit then
      (Literal.read? (c :: cs)).map fun (l, rest) => (ofLiteral l, rest)
    else word? (c :: cs)

theorem length_readString?_lt {s : Content} {chars : Option (List Char)} {cs rest : List Char}
    (h : readString? s cs = some (chars, rest)) : rest.length < cs.length := by
  fun_induction readString? s cs <;> simp_all <;> omega

theorem length_word?_lt {t : Token} {cs rest : List Char} (h : word? cs = some (t, rest)) :
    rest.length < cs.length := by
  unfold word? at h
  split at h <;> simp_all <;> omega

/-- Reading a token never makes the text longer. -/
theorem length_next?_le {c : Char} {cs rest : List Char} {t : Token}
    (h : next? c cs = some (t, rest)) : rest.length ≤ cs.length := by
  unfold next? at h
  split at h
  · simp_all
  · split at h
    · obtain ⟨⟨s, r⟩, hr, he⟩ := Option.map_eq_some_iff.1 h
      cases he
      exact Nat.le_of_lt (length_readString?_lt hr)
    · split at h
      · obtain ⟨⟨l, r⟩, hr, he⟩ := Option.map_eq_some_iff.1 h
        cases he
        exact Nat.le_of_lt_succ (Literal.length_read?_lt hr)
      · exact Nat.le_of_lt_succ (length_word?_lt h)

/-- All tokens of a text, after those already read, which are given in reverse. -/
def lexFrom (done : List Token) : List Char → List Token
  | [] => done.reverse
  | c :: cs =>
    if isSpace c then lexFrom done cs
    else
      match h : next? c cs with
      | none => (junk :: done).reverse
      | some (t, rest) =>
        have := length_next?_le h
        lexFrom (t :: done) rest
termination_by cs => cs.length

def lex (cs : List Char) : List Token :=
  lexFrom [] cs

end Token

end TwinForest.Json
