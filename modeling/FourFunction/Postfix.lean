import FourFunction.LargeNumber

/-!
# Postfix order

In postfix order every operator follows its two operands, and no
parentheses are needed. The tokens are read from left to right. A
number goes out at once; an operator has to wait for its right operand,
on a pile of `Pending` entries. It is released by the next operator that
does not bind tighter, by the parenthesis that closes the group it
stands in, or by the end. An opening parenthesis lies on the pile only
to mark where its group begins.

The value of a postfix sequence is found on a stack.
-/

namespace FourFunction

/-- What waits on the pile. -/
inductive Pending where
  | operator (o : Operator)
  | openParen
deriving Repr, DecidableEq

/-- A conversion on its way: the tokens sent out so far, latest first, and
the pile, top first. -/
structure Conversion (α : Type) where
  output : List (Token α)
  pending : List Pending

namespace Conversion

variable {α : Type}

def start : Conversion α := ⟨[], []⟩

/-- Sends out operators from the top of the pile for as long as they
satisfy `p`, and no further than the parenthesis of the group. -/
def releaseWhile (p : Operator → Bool) (output : List (Token α)) :
    List Pending → Conversion α
  | .operator o :: rest =>
      if p o then releaseWhile p (.operator o :: output) rest else ⟨output, .operator o :: rest⟩
  | pending => ⟨output, pending⟩

def release (p : Operator → Bool) (c : Conversion α) : Conversion α :=
  releaseWhile p c.output c.pending

/-- Reads one token. -/
def read (c : Conversion α) : Token α → Conversion α
  | .number x => { c with output := .number x :: c.output }
  | .operator o =>
      let released := c.release fun waiting => o.precedence ≤ waiting.precedence
      { released with pending := .operator o :: released.pending }
  | .openParen => { c with pending := .openParen :: c.pending }
  | .closeParen =>
      let released := c.release fun _ => true
      { released with pending := released.pending.drop 1 }

/-- Reads tokens from left to right. -/
def readAll (c : Conversion α) (ts : List (Token α)) : Conversion α :=
  ts.foldl read c

theorem readAll_append (c : Conversion α) (ts us : List (Token α)) :
    c.readAll (ts ++ us) = (c.readAll ts).readAll us :=
  List.foldl_append ..

/-- The operators left on a pile, top first. A parenthesis that was never
closed is left out. -/
def drain (pending : List Pending) : List (Token α) :=
  pending.filterMap fun
    | .operator o => some (.operator o)
    | .openParen => none

/-- Everything sent out, in order, the pile last. -/
def finish (c : Conversion α) : List (Token α) :=
  c.output.reverse ++ drain c.pending

end Conversion

variable {α : Type}

/-- The postfix order of a token sequence. -/
def toPostfix (ts : List (Token α)) : List (Token α) :=
  (Conversion.start.readAll ts).finish

/-- The postfix order of an expression, calculated with the numbers that
the large-number rule leaves. -/
def Expression.toPostfix [NumberDomain α] (settings : Settings) (e : Expression α) :
    List (Token α) :=
  FourFunction.toPostfix (e.settledTokens settings)

/-! ## The stack

Postfix tokens are evaluated on a stack of numbers. A number is put on
top; an operator takes the top as its right operand and what lies below
as its left, and puts the result back. Any token sequence may be tried:
an operator without two numbers under it and a parenthesis are faults
at their position, and a stack that does not end with exactly one
number is a fault without one. -/

variable [NumberDomain α]

/-- The stack, top first, after the token at position `i`. -/
def stackStep (i : Nat) (stack : List α) : Token α → Except Fault (List α)
  | .number x => .ok (x :: stack)
  | .operator o =>
      match stack with
      | b :: a :: rest =>
          match o.apply a b with
          | .ok v => .ok (v :: rest)
          | .error fault => .error fault
      | _ => .error (.malformedPostfix (some i))
  | .openParen | .closeParen => .error (.malformedPostfix (some i))

/-- The stack after all tokens, the first of which is at position `i`. -/
def runStack (i : Nat) (stack : List α) : List (Token α) → Except Fault (List α)
  | [] => .ok stack
  | t :: rest =>
      match stackStep i stack t with
      | .ok stack => runStack (i + 1) stack rest
      | .error fault => .error fault

/-- A run over two sequences is a run over the first and then, from the
stack it leaves, over the second. -/
theorem runStack_append (i : Nat) (stack : List α) (ts us : List (Token α)) :
    runStack i stack (ts ++ us) =
      (runStack i stack ts).bind fun stack => runStack (i + ts.length) stack us := by
  induction ts generalizing i stack with
  | nil => rfl
  | cons t rest ih =>
      rw [List.cons_append, runStack, runStack]
      cases stackStep i stack t with
      | error fault => rfl
      | ok next =>
          have hi : i + (t :: rest).length = i + 1 + rest.length := by
            rw [List.length_cons]; omega
          simp only [ih, hi]

/-- The value of a postfix sequence. -/
def evaluatePostfix (ts : List (Token α)) : Except Fault α :=
  match runStack 0 [] ts with
  | .ok [v] => .ok v
  | .ok _ => .error (.malformedPostfix none)
  | .error fault => .error fault

end FourFunction
