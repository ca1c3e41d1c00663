import Marginalia.Json.Number
import Marginalia.Json.Quoted

/-!
# JSON values

A value as it stands in a text. Numbers are kept as written, members of objects in their order
and with repetitions, and a string whose escapes do not pair up is kept without content, because
some readers may skip it. Such a value is not *proper*, and neither is one that nests too deep or
holds a number that overflows a double.
-/

namespace Marginalia

/-- A value of JSON. -/
inductive Json where
  | null
  | bool (b : Bool)
  | number (n : Json.Number)
  | string (content : Option String)
  | array (items : List Json)
  | object (members : List (Option String × Json))

namespace Json

/-- A string with content. -/
def text (s : String) : Json := .string (some s)

/-- A natural number. -/
def nat (n : Nat) : Json := .number (.ofNat n)

/-- The value `true` or `false` of a proposition that was decided. -/
def flag (b : Bool) : Json := .bool b

/-- An object with the given members. -/
def record (members : List (String × Json)) : Json :=
  .object (members.map fun (name, value) => (some name, value))

/-- A value, or null. -/
def optional {α : Type} (f : α → Json) : Option α → Json
  | none => .null
  | some x => f x

mutual

/-- How many arrays and objects stand inside each other at most. -/
def depth : Json → Nat
  | .array items => depthOfItems items + 1
  | .object members => depthOfMembers members + 1
  | _ => 0

/-- The greatest depth of the items of an array. -/
def depthOfItems : List Json → Nat
  | [] => 0
  | item :: rest => max item.depth (depthOfItems rest)

/-- The greatest depth of the members of an object. -/
def depthOfMembers : List (Option String × Json) → Nat
  | [] => 0
  | (_, value) :: rest => max value.depth (depthOfMembers rest)

end

mutual

/-- Whether every number has a value and every string has content. -/
def hasMeaning : Json → Bool
  | .number n => n.hasValue
  | .string content => content.isSome
  | .array items => itemsHaveMeaning items
  | .object members => membersHaveMeaning members
  | _ => true

/-- Whether all items of an array have meaning. -/
def itemsHaveMeaning : List Json → Bool
  | [] => true
  | item :: rest => item.hasMeaning && itemsHaveMeaning rest

/-- Whether all members of an object have meaning, their names included. -/
def membersHaveMeaning : List (Option String × Json) → Bool
  | [] => true
  | (name, value) :: rest => name.isSome && value.hasMeaning && membersHaveMeaning rest

end

/-- How deep a value may nest that is to be held as a whole. -/
def depthLimit : Nat := 127

/-- Whether a value can be held as a whole. -/
def isProper (v : Json) : Bool := v.depth ≤ depthLimit && v.hasMeaning

/-- The values of all members of that name. -/
def valuesOf (name : String) (members : List (Option String × Json)) : List Json :=
  (members.filter fun member => member.1 == some name).map (·.2)

/-- The member of that name, if there is one. A second one is an error. -/
def member? (name : String) (members : List (Option String × Json)) : Option (Option Json) :=
  match valuesOf name members with
  | [] => some none
  | [value] => some (some value)
  | _ => none

/-- The value of an offset. -/
def toOffset? : Json → Option Nat
  | .number n => n.toOffset?
  | _ => none

/-- The content of a string. -/
def toText? : Json → Option String
  | .string content => content
  | _ => none

/-- The items of an array. -/
def toItems? : Json → Option (List Json)
  | .array items => some items
  | _ => none

end Json

end Marginalia
