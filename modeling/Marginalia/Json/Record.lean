import Marginalia.Json.Value

/-!
# Records in JSON

A record with fields in a given order is written in one of two ways: as an object with a member
per field, in any order and among other members, or as an array of the fields in order, where
fields may be missing at the end. A field that is given twice is an error, and so is an item too
many.
-/

namespace Marginalia.Json

/-- The fields of those names, as far as they are there. -/
def fields? (names : List String) : Json → Option (List (Option Json))
  | .object members => names.mapM fun name => member? name members
  | .array items =>
    if items.length ≤ names.length then
      some (items.map some ++ List.replicate (names.length - items.length) none)
    else none
  | _ => none

/-- A list, given as an array of what `read` accepts. -/
def list? {α : Type} (read : Json → Option α) (v : Json) : Option (List α) :=
  match v with
  | .array items => items.mapM read
  | _ => none

/-- A field that counts as empty when it is missing. -/
def listOrEmpty? {α : Type} (read : Json → Option α) : Option Json → Option (List α)
  | none => some []
  | some v => list? read v

end Marginalia.Json
