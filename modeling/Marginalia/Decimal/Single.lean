import Marginalia.Decimal.Shortest

/-!
# Single-precision numbers as text

A number is written with the fewest digits that read back, with a point and at least one digit
after it, as in `10.0`. From `1e16` on and below `1e-4` it is written with an exponent instead,
and then without a point unless there are further digits, as in `1e16` and `2.5e-7`. Zero keeps
its sign.
-/

namespace Marginalia.Decimal

/-- The numbers that round to `significand · 2 ^ exponent`, measured in quarters of its last
place. Below a power of two they are only half as far apart, which `atEdge` says. -/
def neighbourhood (significand : Nat) (exponent : Int) (atEdge : Bool) : Neighbourhood where
  low := 4 * significand - (if atEdge then 1 else 2)
  value := 4 * significand
  high := 4 * significand + 2
  power := exponent - 2
  closed := significand % 2 == 0

/-- The greatest power of ten in the range of single precision. -/
def coarsestGrid : Int := 38

/-- The number of powers of ten in the range of single precision. -/
def gridCount : Nat := 84

/-- The shortest decimal for the finite number above zero with the given exponent field and
fraction field. -/
def shortestSingle (field fraction : Nat) : Nat × Int :=
  let n :=
    if field = 0 then neighbourhood fraction (-149) false
    else neighbourhood (fraction + Nat.pow 2 23) ((field : Int) - 150) (fraction == 0)
  (n.search gridCount coarsestGrid).getD (0, 0)

/-- `digits · 10 ^ exponent` with a point. -/
def positional (digits : List Char) (exponent : Int) : List Char :=
  let wholeLength := digits.length + exponent
  if 0 ≤ exponent then digits ++ List.replicate exponent.toNat '0' ++ ['.', '0']
  else if 0 < wholeLength then
    digits.take wholeLength.toNat ++ '.' :: digits.drop wholeLength.toNat
  else '0' :: '.' :: List.replicate (-wholeLength).toNat '0' ++ digits

/-- The decimal with its first digit before the point and an exponent. -/
def withExponent (digits : List Char) (exponent : Int) : List Char :=
  let power := (digits.length : Int) + exponent - 1
  digits.take 1
    ++ (if digits.length ≤ 1 then [] else '.' :: digits.drop 1)
    ++ 'e' :: (if power < 0 then ['-'] else []) ++ Nat.toDigits 10 power.natAbs

/-- A decimal in the notation for its size. -/
def write (digits : Nat) (exponent : Int) : List Char :=
  let text := Nat.toDigits 10 digits
  let power := (text.length : Int) + exponent - 1
  if -4 ≤ power && power < 16 then positional text exponent else withExponent text exponent

/-- The text of the number with the given bits. -/
def ofSingleBits (bits : Nat) : List Char :=
  let field := bits / Nat.pow 2 23 % Nat.pow 2 8
  let fraction := bits % Nat.pow 2 23
  let sign := if bits / Nat.pow 2 31 = 1 then ['-'] else []
  if field = 255 then
    if fraction = 0 then sign ++ ['i', 'n', 'f'] else ['N', 'a', 'N']
  else if field = 0 ∧ fraction = 0 then sign ++ ['0', '.', '0']
  else
    let (digits, exponent) := shortestSingle field fraction
    sign ++ write digits exponent

/-- The text of a number. -/
def ofSingle (x : Float32) : String := String.ofList (ofSingleBits x.toBits.toNat)

/-- Ten is written with its point. -/
example : ofSingleBits 1092616192 = ['1', '0', '.', '0'] := by decide +kernel

end Marginalia.Decimal
