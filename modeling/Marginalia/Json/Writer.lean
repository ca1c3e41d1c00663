import Marginalia.Json.Value

/-!
# Writing JSON

Values are written without blanks, members in their order. A string without content cannot be
written and stands as null.
-/

namespace Marginalia.Json

/-- The string of that content, or null. -/
def writeText : Option String → List Char
  | some s => Quoted.write s.toList
  | none => ['n', 'u', 'l', 'l']

mutual

/-- A value in compact form. -/
def write : Json → List Char
  | .null => ['n', 'u', 'l', 'l']
  | .bool true => ['t', 'r', 'u', 'e']
  | .bool false => ['f', 'a', 'l', 's', 'e']
  | .number n => n.write
  | .string content => writeText content
  | .array items => '[' :: writeItems items ++ [']']
  | .object members => '\x7b' :: writeMembers members ++ ['\x7d']

/-- Items with commas between them. -/
def writeItems : List Json → List Char
  | [] => []
  | item :: rest => write item ++ writeMoreItems rest

/-- The items after the first, each with a comma in front. -/
def writeMoreItems : List Json → List Char
  | [] => []
  | item :: rest => ',' :: write item ++ writeMoreItems rest

/-- Members with commas between them. -/
def writeMembers : List (Option String × Json) → List Char
  | [] => []
  | (name, value) :: rest => writeText name ++ ':' :: write value ++ writeMoreMembers rest

/-- The members after the first, each with a comma in front. -/
def writeMoreMembers : List (Option String × Json) → List Char
  | [] => []
  | (name, value) :: rest =>
    ',' :: writeText name ++ ':' :: write value ++ writeMoreMembers rest

end

end Marginalia.Json
