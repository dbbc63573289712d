import RadixStore.Key

/-!
# One-line texts of values

How diagnostics show a value on one line: a record is its name and its fields between braces, a
list stands between brackets, an absent value is `None` and a present one is `Some(..)`. A record
that keeps fields to itself ends in two dots.
-/

namespace RadixStore.Text

/-- The texts `parts`, separated by commas. -/
def commaSeparated (parts : List String) : String :=
  ", ".intercalate parts

/-- `name: text`. -/
def field (entry : String × String) : String :=
  entry.1 ++ ": " ++ entry.2

/-- A record all of whose fields are shown: `Name { a: 1, b: 2 }`. -/
def record (name : String) (fields : List (String × String)) : String :=
  name ++ " \x7b " ++ commaSeparated (fields.map field) ++ " \x7d"

/-- A record with fields that are not shown: `Name { a: 1, .. }`. -/
def openRecord (name : String) (fields : List (String × String)) : String :=
  name ++ " \x7b " ++ commaSeparated (fields.map field ++ [".."]) ++ " \x7d"

/-- A map, its bindings in the order given: `{3: 1, 5: 2}`. -/
def bindings (entries : List (Nat × Nat)) : String :=
  "\x7b" ++ commaSeparated (entries.map fun e => toString e.1 ++ ": " ++ toString e.2) ++ "\x7d"

/-- A byte string as the list of its bytes in decimal: `[98, 0]`. -/
def bytes (key : Key) : String :=
  "[" ++ commaSeparated (key.map fun b => toString b.toNat) ++ "]"

/-- A byte string that may be absent. -/
def optionalBytes : Option Key → String
  | none => "None"
  | some key => "Some(" ++ bytes key ++ ")"

/-- A truth value. -/
def flag (b : Bool) : String :=
  if b then "true" else "false"

end RadixStore.Text
