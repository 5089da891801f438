import FourFunction.NumberDomain

/-!
# Operators and what they come to

The four operators, what each does to two numbers, and the faults that
keep a calculation from having a value.
-/

namespace FourFunction

/-! ## The four operators

Addition and subtraction share the lower precedence, multiplication and
division the higher one. All four associate to the left, so between
neighbours of equal precedence the earlier operator acts first. Which
operators have which precedence is said by `precedence_eq_one_iff` and
`precedence_eq_two_iff`. -/

inductive Operator where
  | plus
  | minus
  | times
  | divide
deriving Repr, DecidableEq

namespace Operator

/-- How tightly an operator binds; the greater number binds tighter. -/
def precedence : Operator → Nat
  | plus | minus => 1
  | times | divide => 2

/-- The one way an operator is written. -/
def symbol : Operator → String
  | plus => "+"
  | minus => "-"
  | times => "*"
  | divide => "/"

theorem precedence_eq_one_iff {o : Operator} : o.precedence = 1 ↔ o = plus ∨ o = minus := by
  cases o <;> decide

theorem precedence_eq_two_iff {o : Operator} : o.precedence = 2 ↔ o = times ∨ o = divide := by
  cases o <;> decide

theorem precedence_eq_one_or_two (o : Operator) : o.precedence = 1 ∨ o.precedence = 2 := by
  cases o <;> decide

end Operator

/-! ## Faults

Why a calculation has no value: one constructor per rule that can be
broken. Positions count from zero, in the caller's sequence for the
rules of placement and in the postfix sequence for the stack. -/

inductive Fault where
  | tooFewTokens
  | tooManyTokens (limit : Nat)
  | misplacedNumber (index : Nat)
  | misplacedOperator (index : Nat)
  | noOperandAfterOpening (index : Nat)
  | noOperandBeforeClosing (index : Nat)
  | unmatchedParenthesis (index? : Option Nat)
  | unknownToken (index : Nat)
  | divisionByZero
  | malformedPostfix (index? : Option Nat)
deriving Repr, DecidableEq

namespace Fault

/-- The position a fault points at, for the faults that point at one. -/
def index? : Fault → Option Nat
  | misplacedNumber i | misplacedOperator i | noOperandAfterOpening i
  | noOperandBeforeClosing i | unknownToken i => some i
  | unmatchedParenthesis i? | malformedPostfix i? => i?
  | tooFewTokens | tooManyTokens _ | divisionByZero => none

/-- Whether it is the length of a sequence that is wrong, whatever the
sequence holds. -/
def isOfLength : Fault → Bool
  | tooFewTokens | tooManyTokens _ => true
  | _ => false

/-- What is said of the fault, its position aside. -/
def complaint : Fault → String
  | tooFewTokens => "expression trop courte : au moins 3 jetons attendus"
  | tooManyTokens limit => s!"expression trop longue : plus de {limit} jetons"
  | misplacedNumber _ => "nombre mal placé"
  | misplacedOperator _ => "opérateur mal placé"
  | noOperandAfterOpening _ => "opérande attendue après '('"
  | noOperandBeforeClosing _ => "opérande attendue avant ')'"
  | unmatchedParenthesis _ => "parenthèses non appariées"
  | unknownToken _ => "jeton invalide"
  | divisionByZero => "division par zéro"
  | malformedPostfix _ => "postfixe mal formée"

/-- The complaint, followed by the position if there is one. -/
def message (fault : Fault) : String :=
  match fault.index? with
  | some i => s!"{fault.complaint} (jeton {i})"
  | none => fault.complaint

end Fault

/-! ## What an operator does to two numbers

Each operator is the operation of the domain, left operand first.
Division is refused for a divisor that the domain calls zero, before it
is attempted; every other result counts, one that is not finite too. -/

def Operator.apply {α : Type} [NumberDomain α] (o : Operator) (a b : α) : Except Fault α :=
  match o with
  | .plus => .ok (NumberDomain.add a b)
  | .minus => .ok (NumberDomain.sub a b)
  | .times => .ok (NumberDomain.mul a b)
  | .divide =>
      if NumberDomain.isZero b then .error .divisionByZero else .ok (NumberDomain.div a b)

end FourFunction
