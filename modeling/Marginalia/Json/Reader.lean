import Marginalia.Json.Value

/-!
# Reading JSON

A strict reader: blanks are space, tab, line feed and carriage return, and nothing may follow the
value. Reading is by recursive descent with a bound on the number of calls that is larger than
any text of that length needs.
-/

namespace Marginalia.Json

/-- The characters that may stand between the parts of a value. -/
def isBlank (c : Char) : Bool := c == ' ' || c == '\n' || c == '\t' || c == '\r'

/-- What is left after blanks. -/
def skipBlanks (cs : List Char) : List Char := cs.dropWhile isBlank

/-- The content of a string that was read in pieces. -/
def contentOf (pieces : List Piece) : Option String := (Quoted.content? pieces).map String.ofList

mutual

/-- Read a value from the front of a text. -/
def readValue : Nat → List Char → Option (Json × List Char)
  | 0, _ => none
  | bound + 1, cs =>
    match skipBlanks cs with
    | 'n' :: 'u' :: 'l' :: 'l' :: rest => some (.null, rest)
    | 't' :: 'r' :: 'u' :: 'e' :: rest => some (.bool true, rest)
    | 'f' :: 'a' :: 'l' :: 's' :: 'e' :: rest => some (.bool false, rest)
    | '"' :: rest => (Quoted.readPieces rest).map fun (pieces, rest) =>
      (.string (contentOf pieces), rest)
    | '[' :: rest =>
      match skipBlanks rest with
      | ']' :: rest => some (.array [], rest)
      | rest => (readItems bound rest).map fun (items, rest) => (.array items, rest)
    | '\x7b' :: rest =>
      match skipBlanks rest with
      | '\x7d' :: rest => some (.object [], rest)
      | rest => (readMembers bound rest).map fun (members, rest) => (.object members, rest)
    | rest => (Number.read rest).map fun (n, rest) => (.number n, rest)

/-- Read the items of an array up to its closing bracket. -/
def readItems : Nat → List Char → Option (List Json × List Char)
  | 0, _ => none
  | bound + 1, cs =>
    match readValue bound cs with
    | none => none
    | some (item, rest) =>
      match skipBlanks rest with
      | ',' :: rest => (readItems bound rest).map fun (items, rest) => (item :: items, rest)
      | ']' :: rest => some ([item], rest)
      | _ => none

/-- Read the members of an object up to its closing brace. -/
def readMembers : Nat → List Char → Option (List (Option String × Json) × List Char)
  | 0, _ => none
  | bound + 1, cs =>
    match skipBlanks cs with
    | '"' :: rest =>
      match Quoted.readPieces rest with
      | none => none
      | some (pieces, rest) =>
        match skipBlanks rest with
        | ':' :: rest =>
          match readValue bound rest with
          | none => none
          | some (value, rest) =>
            match skipBlanks rest with
            | ',' :: rest => (readMembers bound rest).map fun (members, rest) =>
              ((contentOf pieces, value) :: members, rest)
            | '\x7d' :: rest => some ([(contentOf pieces, value)], rest)
            | _ => none
        | _ => none
    | _ => none

end

/-- Read a text that holds one value and nothing else. -/
def parse? (cs : List Char) : Option Json :=
  match readValue (2 * cs.length + 2) cs with
  | none => none
  | some (value, rest) => if (skipBlanks rest).isEmpty then some value else none

end Marginalia.Json
