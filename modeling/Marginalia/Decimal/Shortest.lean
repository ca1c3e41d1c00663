/-!
# The shortest decimal that reads back

A binary floating-point number stands for all reals that round to it. Of the decimals among them
the one with the fewest digits is wanted, and of those with equally many the nearest. On a grid
of powers of ten only the two neighbours of the number need to be looked at: if any point of the
grid lies among those reals, one of the neighbours does. The coarsest grid with a hit gives the
fewest digits. The search is exact, in natural numbers.
-/

namespace Marginalia.Decimal

/-- The reals that round to one number. The number is `value` units of `2 ^ power`, and the reals
reach from `low` to `high` such units, with the ends if `closed`. -/
structure Neighbourhood where
  low : Nat
  value : Nat
  high : Nat
  power : Int
  closed : Bool

/-- `digits · 10 ^ exponent`, in the unit in which `binary` measures. -/
def decimal (exponent power : Int) (digits : Nat) : Nat :=
  digits * Nat.pow 10 exponent.toNat * Nat.pow 2 (-power).toNat

/-- `units · 2 ^ power`, in the unit in which `decimal` measures. -/
def binary (exponent power : Int) (units : Nat) : Nat :=
  units * Nat.pow 2 power.toNat * Nat.pow 10 (-exponent).toNat

namespace Neighbourhood

/-- Whether `digits · 10 ^ exponent` lies in the neighbourhood. -/
def contains (n : Neighbourhood) (exponent : Int) (digits : Nat) : Bool :=
  let low := binary exponent n.power n.low
  let high := binary exponent n.power n.high
  let point := decimal exponent n.power digits
  if n.closed then low ≤ point && point ≤ high else low < point && point < high

/-- The nearest point of the grid of `10 ^ exponent` in the neighbourhood, if it holds one. Of two
equally near points the upper one counts. -/
def gridPoint? (n : Neighbourhood) (exponent : Int) : Option Nat :=
  let value := binary exponent n.power n.value
  let unit := decimal exponent n.power 1
  let below := value / unit
  if n.contains exponent below then
    if n.contains exponent (below + 1) && (below + 1) * unit - value ≤ value - below * unit then
      some (below + 1)
    else some below
  else if n.contains exponent (below + 1) then some (below + 1)
  else none

/-- The first grid with a hit among `count` grids from `10 ^ exponent` down, and the hit. -/
def search (n : Neighbourhood) : Nat → Int → Option (Nat × Int)
  | 0, _ => none
  | count + 1, exponent =>
    match n.gridPoint? exponent with
    | some digits => some (digits, exponent)
    | none => search n count (exponent - 1)

end Neighbourhood

end Marginalia.Decimal
