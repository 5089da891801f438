import FourFunction.Expression

/-!
# Grammars of arithmetic

What a sequence of tokens means, said without running anything. A `Tree`
is an expression with its operators and numbers only, a `Derivation` a
way to derive a sequence in the grammar of school arithmetic, and the
sentences of `Derives` are all the sequences that the rules of placement
let through.
-/

namespace FourFunction

/-! ## Expression trees

What an expression means: a number, or an operator over two trees. The
value of a tree is computed from its leaves up, left tree first, with
the four operations of the domain; that the operators of the calculator
stand for these is `value_node`. `postorder` lists the tree the way a
stack wants to read it, operands before their operator. -/

inductive Tree (α : Type) where
  | leaf (x : α)
  | node (o : Operator) (left right : Tree α)
deriving Repr, DecidableEq

namespace Tree

variable {α : Type}

def postorder : Tree α → List (Token α)
  | leaf x => [.number x]
  | node o left right => left.postorder ++ right.postorder ++ [.operator o]

variable [NumberDomain α]

/-- The value of a tree; a fault as soon as a divisor is zero. -/
def value : Tree α → Except Fault α
  | leaf x => .ok x
  | node .plus left right => return NumberDomain.add (← left.value) (← right.value)
  | node .minus left right => return NumberDomain.sub (← left.value) (← right.value)
  | node .times left right => return NumberDomain.mul (← left.value) (← right.value)
  | node .divide left right => do
      let a ← left.value
      let b ← right.value
      if NumberDomain.isZero b then throw .divisionByZero else return NumberDomain.div a b

/-- What a node comes to is what its operator does to two values. -/
theorem value_node (o : Operator) (left right : Tree α) :
    (node o left right).value = left.value.bind fun a => right.value.bind (o.apply a) := by
  cases o <;> rfl

end Tree

/-! ## Derivations of the arithmetic grammar

The grammar of school arithmetic has three categories, one inside the
other:

 - a *sum* is a product, or a sum, `+` or `-`, and a product;
 - a *product* is a factor, or a product, `*` or `/`, and a factor;
 - a *factor* is a number, or a sum in parentheses.

A `Derivation` of a category is a way to derive a token sequence from
it. `tokens` is the sequence derived, parentheses and all, and `tree`
what is left of the derivation once categories and parentheses are
forgotten. -/

inductive Category where
  | sum
  | product
  | factor
deriving Repr, DecidableEq

inductive Derivation (α : Type) : Category → Type where
  | number (x : α) : Derivation α .factor
  | group (inner : Derivation α .sum) : Derivation α .factor
  | ofFactor (f : Derivation α .factor) : Derivation α .product
  | multiplied (left : Derivation α .product) (o : Operator) (ho : o = .times ∨ o = .divide)
      (right : Derivation α .factor) : Derivation α .product
  | ofProduct (p : Derivation α .product) : Derivation α .sum
  | added (left : Derivation α .sum) (o : Operator) (ho : o = .plus ∨ o = .minus)
      (right : Derivation α .product) : Derivation α .sum

namespace Derivation

variable {α : Type}

/-- The sequence that is derived. -/
def tokens {c : Category} : Derivation α c → List (Token α)
  | number x => [.number x]
  | group inner => .openParen :: inner.tokens ++ [.closeParen]
  | ofFactor f => f.tokens
  | multiplied left o _ right => left.tokens ++ .operator o :: right.tokens
  | ofProduct p => p.tokens
  | added left o _ right => left.tokens ++ .operator o :: right.tokens

/-- The tree of operators and numbers. -/
def tree {c : Category} : Derivation α c → Tree α
  | number x => .leaf x
  | group inner => inner.tree
  | ofFactor f => f.tree
  | multiplied left o _ right => .node o left.tree right.tree
  | ofProduct p => p.tree
  | added left o _ right => .node o left.tree right.tree

/-- The same derivation over other numbers: the number at position `i` of
the sequence becomes `f i` of it. The derivation itself begins at
position `start`. -/
def relabel {c : Category} (f : Nat → α → α) (start : Nat) : Derivation α c → Derivation α c
  | number x => number (f start x)
  | group inner => group (inner.relabel f (start + 1))
  | ofFactor d => ofFactor (d.relabel f start)
  | multiplied left o ho right =>
      multiplied (left.relabel f start) o ho
        (right.relabel f (start + left.tokens.length + 1))
  | ofProduct p => ofProduct (p.relabel f start)
  | added left o ho right =>
      added (left.relabel f start) o ho (right.relabel f (start + left.tokens.length + 1))

end Derivation

/-- Token sequences of ordinary arithmetic. -/
def IsArithmetic {α : Type} (ts : List (Token α)) : Prop :=
  ∃ d : Derivation α .sum, d.tokens = ts

/-! ## Sentences

The rules of placement say nothing against a group right behind an
operand, so they let through more than ordinary arithmetic. What they
let through are the *sentences*:

 - a sentence is an operand; a sentence, an operator and an operand; or
   a sentence and a group right behind it;
 - an operand is a number or a group;
 - a group is a sentence in parentheses.

Nothing acts between an operand and the group behind it. The places
where one follows the other are the `juxtapositions` of a sequence. -/

inductive Part where
  | sentence
  | operand
  | group
deriving Repr, DecidableEq

/-- `Derives part ts`: the tokens `ts` can be derived from `part`. -/
inductive Derives {α : Type} : Part → List (Token α) → Prop where
  | operand {ts} : Derives .operand ts → Derives .sentence ts
  | operation {ts us} (o : Operator) :
      Derives .sentence ts → Derives .operand us → Derives .sentence (ts ++ .operator o :: us)
  | juxtaposition {ts us} :
      Derives .sentence ts → Derives .group us → Derives .sentence (ts ++ us)
  | number (x : α) : Derives .operand [.number x]
  | group {ts} : Derives .group ts → Derives .operand ts
  | parentheses {ts} : Derives .sentence ts → Derives .group (.openParen :: ts ++ [.closeParen])

def IsSentence {α : Type} (ts : List (Token α)) : Prop := Derives .sentence ts

/-- How often an operand is directly followed by an opening parenthesis. -/
def juxtapositions {α : Type} : List (Token α) → Nat
  | [] => 0
  | [_] => 0
  | t :: u :: rest =>
      (if t.kind.endsOperand ∧ u.kind = .opening then 1 else 0) + juxtapositions (u :: rest)

end FourFunction
