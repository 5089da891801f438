import FourFunction.Decimal

/-!
# Number domains

The calculator is the same for every kind of number it is given. A
`NumberDomain` lists what it asks of them: four operations, the two
constants and the absolute value that the large-number rule works with,
a reading of double-precision thresholds, and a text. No law is asked
for here - the doubles satisfy few - so a statement about the
calculator holds in each domain unless it says otherwise.
-/

namespace FourFunction

class NumberDomain (α : Type) where
  zero : α
  one : α
  add : α → α → α
  sub : α → α → α
  mul : α → α → α
  div : α → α → α
  abs : α → α
  /-- The order test; false where two numbers cannot be compared. -/
  le : α → α → Bool
  /-- What division refuses as a divisor. -/
  isZero : α → Bool
  /-- Numbers that are not finite never pass for a token. -/
  isFinite : α → Bool
  /-- The number a double stands for, if the domain has it. -/
  ofDouble? : Float → Option α
  text : α → String

namespace NumberDomain

variable {α : Type} [NumberDomain α]

def square (x : α) : α := mul x x

/-- `x` lies beyond `limit` in absolute value. The test is a failed
`≤`, so everything lies beyond a negative limit. -/
def exceeds (x limit : α) : Bool := !le (abs x) limit

end NumberDomain

/-! ## Double-precision numbers

The doubles as a number domain. The operations are those of the machine,
rounding, overflow and all; both zeros count as zero. A double is
written as the shortest decimal that is read back as the same double,
with its sign, so that the negative zero shows. -/

namespace Double

/-- A positive double as a binary number. The numbers below it lie closer
together when its mantissa is the least of 53 bits, except at the bottom
of the range, where the spacing stays the same. -/
def binary (mantissa : Nat) (exponent : Int) : Decimal.Binary :=
  { mantissa, exponent, leastOfBinade := mantissa = Nat.pow 2 52 && -1074 < exponent }

def magnitudeText : Float.Model.UnpackedFloat → String
  | .notANumber => "NaN"
  | .infinity _ => "inf"
  | .zero _ => "0"
  | .finite _ mantissa exponent _ => (binary mantissa exponent).shortest.text

def isNegative : Float.Model.UnpackedFloat → Bool
  | .notANumber => false
  | .infinity s | .zero s | .finite s .. => s == .negative

/-- The text of a double. -/
def text (x : Float) : String :=
  let unpacked := x.toModel.unpack
  if isNegative unpacked then "-" ++ magnitudeText unpacked else magnitudeText unpacked

end Double

instance : NumberDomain Float where
  zero := 0
  one := 1
  add := (· + ·)
  sub := (· - ·)
  mul := (· * ·)
  div := (· / ·)
  abs := Float.abs
  le x y := x ≤ y
  isZero x := x == 0
  isFinite := Float.isFinite
  ofDouble? x := if x.isFinite then some x else none
  text := Double.text

/-! ## Exact rationals

The rationals as a number domain, without rounding. A finite double
stands for exactly one rational, and both zeros for the same one; a
double that is not finite stands for none. A rational is written as its
numerator, followed by a slash and the denominator unless that is one.
Numerator and denominator are coprime and the denominator is positive,
so each rational has one text. -/

namespace Rational

/-- The rational `mantissa * 2 ^ exponent`. -/
def scaled (mantissa : Int) (exponent : Int) : Rat :=
  match exponent with
  | .ofNat n => ((mantissa * (Nat.pow 2 n : Nat) : Int) : Rat)
  | .negSucc n => mkRat mantissa (Nat.pow 2 (n + 1))

/-- The rational a double stands for. -/
def ofDouble? (x : Float) : Option Rat :=
  match x.toModel.unpack with
  | .notANumber | .infinity _ => none
  | .zero _ => some 0
  | .finite s mantissa exponent _ => some (scaled (s.apply mantissa) exponent)

def text (q : Rat) : String :=
  if q.den = 1 then q.num.repr else q.num.repr ++ "/" ++ q.den.repr

end Rational

instance : NumberDomain Rat where
  zero := 0
  one := 1
  add := (· + ·)
  sub := (· - ·)
  mul := (· * ·)
  div := (· / ·)
  abs := Rat.abs
  le x y := x ≤ y
  isZero x := x == 0
  isFinite _ := true
  ofDouble? := Rational.ofDouble?
  text := Rational.text

end FourFunction
