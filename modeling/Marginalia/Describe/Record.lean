/-!
# Descriptions of records

For logs, values are described in one line: a record by its name and its fields, a text between
quotes, a list between brackets, an optional value by what it holds.
-/

namespace Marginalia.Describe

/-- A record by its name and the descriptions of its fields. -/
def record (name : String) (fields : List (String × String)) : String :=
  name ++ " \x7b " ++ ", ".intercalate (fields.map fun (field, value) => field ++ ": " ++ value)
    ++ " \x7d"

/-- A character between quotes: a quote and a backslash are written with a backslash in front. -/
def character (c : Char) : List Char := if c = '"' ∨ c = '\\' then ['\\', c] else [c]

/-- A text between quotes. -/
def text (s : String) : String :=
  String.ofList ('"' :: s.toList.flatMap character ++ ['"'])

/-- The word for a truth value. -/
def flag (b : Bool) : String := if b then "true" else "false"

/-- A list of descriptions. -/
def list (items : List String) : String := "[" ++ ", ".intercalate items ++ "]"

/-- An optional value. -/
def optional (value : Option String) : String :=
  match value with
  | some v => "Some(" ++ v ++ ")"
  | none => "None"

/-- The digits of a fraction of a thousand without zeros at the end. -/
def thousandths (n : Nat) : List Char :=
  let digits := Nat.toDigits 10 n
  let padded := List.replicate (3 - digits.length) '0' ++ digits
  (padded.reverse.dropWhile (· == '0')).reverse

/-- A time in milliseconds: in seconds from one second on, without unit prefix if zero. -/
def duration (ms : Nat) : String :=
  if ms = 0 then "0ns"
  else if ms < 1000 then toString ms ++ "ms"
  else if ms % 1000 = 0 then toString (ms / 1000) ++ "s"
  else toString (ms / 1000) ++ "." ++ String.ofList (thousandths (ms % 1000)) ++ "s"

end Marginalia.Describe
