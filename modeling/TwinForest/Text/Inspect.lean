/-!
# Inspection

A value in full, for a person who looks into the program: records with the names of their fields,
sequences in brackets, all on one line.
-/

namespace TwinForest.Inspect

def record (name : String) (fields : List (String × String)) : String :=
  let shown := ", ".intercalate (fields.map fun (field, value) => s!"{field}: {value}")
  s!"{name} \x7b {shown} \x7d"

def tuple (name : String) (parts : List String) : String :=
  name ++ "(" ++ ", ".intercalate parts ++ ")"

def sequence (items : List String) : String :=
  "[" ++ ", ".intercalate items ++ "]"

end TwinForest.Inspect
