/-!
# Quoted strings in JSON

Between its quotes a string holds characters and escapes. The escapes of four hexadecimal digits
are units of UTF-16: two of them in a row may stand for one character, and one half alone stands
for none. So a string can be well formed and still have no content. Writing escapes what has to
be escaped and nothing else.
-/

namespace Marginalia.Json

/-- A part of a string: a character, or a unit of UTF-16 from an escape. -/
inductive Piece where
  | char (c : Char)
  | unit (value : Nat)
  deriving DecidableEq, Repr

namespace Quoted

/-- The value of a hexadecimal digit, in either case. -/
def hexValue? (c : Char) : Option Nat :=
  if c.isDigit then some (c.toNat - '0'.toNat)
  else if 'a' ≤ c ∧ c ≤ 'f' then some (c.toNat - 'a'.toNat + 10)
  else if 'A' ≤ c ∧ c ≤ 'F' then some (c.toNat - 'A'.toNat + 10)
  else none

/-- The value of four hexadecimal digits. -/
def unitValue? (a b c d : Char) : Option Nat := do
  let a ← hexValue? a
  let b ← hexValue? b
  let c ← hexValue? c
  let d ← hexValue? d
  return ((a * 16 + b) * 16 + c) * 16 + d

/-- What an escape of one character stands for. -/
def escaped? : Char → Option Char
  | '"' => some '"'
  | '\\' => some '\\'
  | '/' => some '/'
  | 'b' => some '\x08'
  | 'f' => some '\x0c'
  | 'n' => some '\n'
  | 'r' => some '\r'
  | 't' => some '\t'
  | _ => none

/-- Whether a character may not stand in a string as it is. -/
def isControl (c : Char) : Bool := c.toNat < 32

/-- The pieces of a string up to its closing quote, and what follows the quote. -/
def readPieces : List Char → Option (List Piece × List Char)
  | [] => none
  | '"' :: rest => some ([], rest)
  | '\\' :: 'u' :: a :: b :: c :: d :: rest => do
    let value ← unitValue? a b c d
    let (pieces, rest) ← readPieces rest
    return (.unit value :: pieces, rest)
  | '\\' :: e :: rest => do
    let c ← escaped? e
    let (pieces, rest) ← readPieces rest
    return (.char c :: pieces, rest)
  | c :: rest =>
    if isControl c then none
    else do
      let (pieces, rest) ← readPieces rest
      return (.char c :: pieces, rest)

/-- A first half of a pair of units. -/
def isHighHalf (value : Nat) : Bool := 0xD800 ≤ value && value ≤ 0xDBFF

/-- A second half of a pair of units. -/
def isLowHalf (value : Nat) : Bool := 0xDC00 ≤ value && value ≤ 0xDFFF

/-- The character of a pair of units. -/
def ofHalves (high low : Nat) : Char :=
  Char.ofNat (0x10000 + (high - 0xD800) * 0x400 + (low - 0xDC00))

/-- The characters of a string, unless half of a pair is without its other half. -/
def content? : List Piece → Option (List Char)
  | [] => some []
  | .char c :: rest => (content? rest).map (c :: ·)
  | .unit high :: rest =>
    if isHighHalf high then
      match rest with
      | .unit low :: rest =>
        if isLowHalf low then (content? rest).map (ofHalves high low :: ·) else none
      | _ => none
    else if isLowHalf high then none
    else (content? rest).map (Char.ofNat high :: ·)

/-- A hexadecimal digit. -/
def hexDigit (n : Nat) : Char := Nat.digitChar n

/-- A character as it is written in a string. -/
def writeChar (c : Char) : List Char :=
  if c = '"' then ['\\', '"']
  else if c = '\\' then ['\\', '\\']
  else if c = '\x08' then ['\\', 'b']
  else if c = '\x0c' then ['\\', 'f']
  else if c = '\n' then ['\\', 'n']
  else if c = '\r' then ['\\', 'r']
  else if c = '\t' then ['\\', 't']
  else if isControl c then ['\\', 'u', '0', '0', hexDigit (c.toNat / 16), hexDigit (c.toNat % 16)]
  else [c]

/-- A string with its quotes. -/
def write (cs : List Char) : List Char := '"' :: cs.flatMap writeChar ++ ['"']

end Quoted

end Marginalia.Json
