import TwinForest.Json.Token

/-!
# Writing documents

A value is written on one line without blanks. What has no value is written as a number that is too
large.
-/

namespace TwinForest.Json

mutual

def tokens : Json → List Token
  | .null => [.null]
  | .bool b => [.bool b]
  | .number n => [.number n]
  | .string s => [.string s]
  | .array items => .openArray :: itemTokens items ++ [.closeArray]
  | .object members => .openObject :: memberTokens members ++ [.closeObject]
  | .unreadable | .broken _ => [.overflow]

def itemTokens : List Json → List Token
  | [] => []
  | j :: items => j.tokens ++ moreItemTokens items

/-- The items after the first, each behind its comma. -/
def moreItemTokens : List Json → List Token
  | [] => []
  | j :: items => .comma :: j.tokens ++ moreItemTokens items

def memberTokens : List (String × Json) → List Token
  | [] => []
  | (name, j) :: members => .string name :: .colon :: j.tokens ++ moreMemberTokens members

def moreMemberTokens : List (String × Json) → List Token
  | [] => []
  | (name, j) :: members => .comma :: .string name :: .colon :: j.tokens ++ moreMemberTokens members

end

def render (j : Json) : String :=
  String.ofList (j.tokens.flatMap Token.chars)

end TwinForest.Json
