/-!
# Decimal numerals

A `Decimal` is a run of digits with the place of its last digit. It is
written positionally whatever its size: zeros fill the places between
the digits and the point, and there is no exponent to be read.
-/

namespace FourFunction

/-- The number `digits * 10 ^ place`. -/
structure Decimal where
  digits : Nat
  place : Int
deriving Repr, DecidableEq

namespace Decimal

def zeros (n : Nat) : List Char := List.replicate n '0'

/-- Sets the point before the last `n` of the digits `ds`, after as many
zeros as it takes for one digit to stand before it. -/
def withPoint (n : Nat) (ds : List Char) : List Char :=
  let filled := zeros (n + 1 - ds.length) ++ ds
  let whole := filled.length - n
  filled.take whole ++ '.' :: filled.drop whole

/-- The positional numeral. -/
def text (d : Decimal) : String :=
  let ds := Nat.toDigits 10 d.digits
  String.ofList <|
    match d.place with
    | .ofNat n => ds ++ zeros n
    | .negSucc n => withPoint (n + 1) ds

/-! ## The shortest decimal of a binary number

A binary number `m * 2 ^ q` of limited precision is the one that all
reals near it are rounded to: those up to half a step away, where the
step is `2 ^ q` above the number and, for the least mantissa of a
binade, only half of that below it. The ends of this span belong to it
when `m` is even.

The shortest decimal of the number is the one with the fewest digits in
that span, and of those the nearest. It is looked for on one decimal
grid after the other, from coarse to fine: the first grid that has a
point in the span is the one, and since the span lies around the number,
one of the two grid points next to the number is such a point. Halfway
between two grid points of the span the upper one is taken.

All comparisons are between natural numbers, scaled so that the quarter
of a binary step and the step of the decimal grid are both whole. -/

/-- The reals that are rounded to `value`, on some common scale. -/
structure Span where
  low : Nat
  value : Nat
  high : Nat
  /-- Whether `low` and `high` themselves belong to the span. -/
  closed : Bool

namespace Span

def contains (s : Span) (x : Nat) : Bool :=
  if s.closed then s.low ≤ x && x ≤ s.high else s.low < x && x < s.high

/-- The multiple of `step` in the span that is nearest to the value, as
the number of steps. -/
def nearestMultiple? (s : Span) (step : Nat) : Option Nat :=
  let below := s.value / step
  let above := below + 1
  match s.contains (below * step), s.contains (above * step) with
  | true, true =>
      if s.value - below * step < above * step - s.value then some below else some above
  | true, false => some below
  | false, true => some above
  | false, false => none

end Span

/-- A positive binary number `mantissa * 2 ^ exponent`. -/
structure Binary where
  mantissa : Nat
  exponent : Int
  /-- Whether the numbers below lie half as close together. -/
  leastOfBinade : Bool

namespace Binary

/-- One quarter of the binary step, on the scale on which the grid of
`10 ^ place` is whole too. -/
def quarterStep (b : Binary) (place : Int) : Nat :=
  Nat.pow 2 (b.exponent - 2).toNat * Nat.pow 10 (-place).toNat

/-- The step of the decimal grid on the scale of `quarterStep`. -/
def gridStep (b : Binary) (place : Int) : Nat :=
  Nat.pow 2 (2 - b.exponent).toNat * Nat.pow 10 place.toNat

/-- The span of the number on the scale of `quarterStep`. -/
def span (b : Binary) (place : Int) : Span :=
  let unit := b.quarterStep place
  let value := 4 * b.mantissa
  { low := (value - if b.leastOfBinade then 1 else 2) * unit
    value := value * unit
    high := (value + 2) * unit
    closed := b.mantissa % 2 = 0 }

/-- Looks for a point of the span on the grid of `10 ^ place` and then on
`finer` more grids. The last of them is taken as it is: it is to be
fine enough to hold the number itself. -/
def search (b : Binary) (place : Int) : Nat → Decimal
  | 0 => ⟨(b.span place).value / b.gridStep place, place⟩
  | finer + 1 =>
      match (b.span place).nearestMultiple? (b.gridStep place) with
      | some digits => ⟨digits, place⟩
      | none => search b (place - 1) finer

/-- A place that no digit of the number lies above: `0.30103` is a little
more than the logarithm of two. -/
def topPlace (b : Binary) : Int :=
  (b.exponent + b.mantissa.log2 + 1) * 30103 / 100000 + 1

/-- The shortest decimal. The number itself lies on the grid of ones or,
for a negative exponent, on that of `10 ^ exponent`; the search ends
there at the latest. -/
def shortest (b : Binary) : Decimal :=
  b.search b.topPlace (b.topPlace - min b.exponent 0).toNat

end Binary

end Decimal

end FourFunction
