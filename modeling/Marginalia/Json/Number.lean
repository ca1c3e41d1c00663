import Marginalia.Extent

/-!
# Numbers in JSON

A number is kept as it is written, since `1`, `1.0` and `1e0` are not the same to a reader who
wants an integer. As a double it means its leading digits, as many as fit a word of 64 bits,
scaled by one power of ten; a number that overflows a double that way has no meaning. An integer
within 64 bits is taken for what it is.
-/

namespace Marginalia.Json

/-- A number as written: digits before the point, digits after it if there is one, and the
exponent with its sign if there is one. -/
structure Number where
  negative : Bool
  whole : List Char
  fraction : Option (List Char)
  /-- Whether the exponent is negative, and its digits. -/
  exponent : Option (Bool × List Char)
  deriving DecidableEq, Repr

namespace Number

/-- One or more digits. -/
def readDigits (cs : List Char) : Option (List Char × List Char) :=
  match cs.span (·.isDigit) with
  | ([], _) => none
  | (digits, rest) => some (digits, rest)

/-- The digits before the point: a zero stands alone. -/
def readWhole (cs : List Char) : Option (List Char × List Char) :=
  match readDigits cs with
  | some ('0' :: _ :: _, _) => none
  | result => result

/-- A point with digits after it, or nothing. -/
def readFraction : List Char → Option (Option (List Char) × List Char)
  | '.' :: rest => (readDigits rest).map fun (digits, rest) => (some digits, rest)
  | rest => some (none, rest)

/-- The sign and the digits of an exponent. -/
def readPower : List Char → Option ((Bool × List Char) × List Char)
  | '-' :: rest => (readDigits rest).map fun (digits, rest) => ((true, digits), rest)
  | '+' :: rest => (readDigits rest).map fun (digits, rest) => ((false, digits), rest)
  | rest => (readDigits rest).map fun (digits, rest) => ((false, digits), rest)

/-- An exponent, or nothing. -/
def readExponent : List Char → Option (Option (Bool × List Char) × List Char)
  | 'e' :: rest | 'E' :: rest => (readPower rest).map fun (power, rest) => (some power, rest)
  | rest => some (none, rest)

/-- A number without its sign. -/
def readUnsigned (negative : Bool) (cs : List Char) : Option (Number × List Char) := do
  let (whole, rest) ← readWhole cs
  let (fraction, rest) ← readFraction rest
  let (exponent, rest) ← readExponent rest
  return (⟨negative, whole, fraction, exponent⟩, rest)

/-- Read a number from the front of a text. -/
def read : List Char → Option (Number × List Char)
  | '-' :: rest => readUnsigned true rest
  | rest => readUnsigned false rest

/-- The number as it is written. -/
def write (n : Number) : List Char :=
  (if n.negative then ['-'] else []) ++ n.whole
    ++ (match n.fraction with | some digits => '.' :: digits | none => [])
    ++ (match n.exponent with
      | some (true, digits) => 'e' :: '-' :: digits
      | some (false, digits) => 'e' :: digits
      | none => [])

/-- A natural number, written in the usual way. -/
def ofNat (n : Nat) : Number := ⟨false, Nat.toDigits 10 n, none, none⟩

/-- What a digit adds to the number before it. -/
def appendDigit (n : Nat) (c : Char) : Nat := 10 * n + (c.toNat - '0'.toNat)

/-- The value of digits. -/
def digitsValue (digits : List Char) : Nat := digits.foldl appendDigit 0

/-- Whether the number is written as an integer. -/
def isInteger (n : Number) : Bool := n.fraction.isNone && n.exponent.isNone

/-- The value of an integer that fits a word of 64 bits, with its sign if it has one. Zero with a
sign is no integer, since an integer could not keep the sign. -/
def toWord? (n : Number) : Option Int :=
  let value := digitsValue n.whole
  if !n.isInteger then none
  else if n.negative then if 0 < value ∧ value ≤ Nat.pow 2 63 then some (-value) else none
  else if value ≤ greatestOffset then some value
  else none

/-- The value of an offset: an integer without sign that fits a word of 64 bits. -/
def toOffset? (n : Number) : Option Nat := n.toWord?.bind Int.toNat?

/-- Append digits to a significand while it fits a word of 64 bits; the digits from the first
that does not fit are left over. -/
def absorb (significand : Nat) : List Char → Nat × List Char
  | [] => (significand, [])
  | c :: rest =>
    if appendDigit significand c ≤ greatestOffset then absorb (appendDigit significand c) rest
    else (significand, c :: rest)

/-- The value of an exponent. -/
def powerValue : Option (Bool × List Char) → Int
  | none => 0
  | some (true, digits) => -(digitsValue digits : Int)
  | some (false, digits) => digitsValue digits

/-- The significand and the power of ten to scale it by. A digit before the point that is left
over counts as a zero, a digit after the point that is left over counts for nothing. -/
def scaled (n : Number) : Nat × Int :=
  let (high, leftOver) := absorb 0 n.whole
  let fraction := n.fraction.getD []
  let (significand, ignored) := absorb high fraction
  (significand,
    (leftOver.length : Int) - ((fraction.length - ignored.length : Nat) : Int)
      + powerValue n.exponent)

/-- A power of ten. -/
def powerOfTen (n : Nat) : Float := Float.ofScientific 1 false n

/-- The greatest power of ten that a double holds. -/
def greatestPower : Nat := 308

/-- Divide by a power of ten, in steps that a double holds. -/
def scaleDown (f : Float) (power : Nat) : Float :=
  if power ≤ greatestPower then f / powerOfTen power
  else if f == 0 then f
  else scaleDown (f / powerOfTen greatestPower) (power - greatestPower)
termination_by power
decreasing_by simp_all [greatestPower]; omega

/-- Multiply by a power of ten, unless the result overflows. -/
def scaleUp? (f : Float) (power : Nat) : Option Float :=
  if power ≤ greatestPower then
    if (f * powerOfTen power).isInf then none else some (f * powerOfTen power)
  else if f == 0 then some f
  else none

/-- The number as a double, unless it overflows. -/
def toFloat? (n : Number) : Option Float :=
  let (significand, power) := n.scaled
  let f := (UInt64.ofNat significand).toFloat
  let magnitude := if 0 ≤ power then scaleUp? f power.toNat else some (scaleDown f (-power).toNat)
  magnitude.map fun f => if n.negative then -f else f

/-- Whether the number has a value: an integer of 64 bits does, any other number unless it overflows
a double. -/
def hasValue (n : Number) : Bool := n.toWord?.isSome || n.toFloat?.isSome

/-- The number in single precision, unless it overflows a double. Integers of 64 bits are rounded
once, all others first to a double. -/
def toFloat32? (n : Number) : Option Float32 :=
  match n.toWord? with
  | some (.ofNat value) => some (UInt64.ofNat value).toFloat32
  | some (.negSucc value) => some (-(UInt64.ofNat (value + 1)).toFloat32)
  | none => n.toFloat?.map (·.toFloat32)

end Number

end Marginalia.Json
