import FourFunction.Proofs.Release
import FourFunction.Proofs.Settling

/-!
# Postfix order is postorder

Read token by token, a derivation leaves on the pile those of its
operators that a longer text could still make wait. Which these are
depends on the category: a sum may leave any operators, a product only
`*` and `/`, a factor none. So the statement to be proved by induction
is about the conversion after a *release* - of the operators that bind
at least as tightly as the category demands:

> After the tokens of a derivation have been read and the operators of
> its category released, the output has grown by the postorder of the
> tree, and the pile is what it was before.

It holds over any pile from whose top nothing would be released, which
is how nesting and precedence enter: an opening parenthesis holds
everything back, and `+` holds back a release of `*` and `/`.
-/

namespace FourFunction

namespace Operator

/-- Whether the operator binds at least as tightly as `bound` says. -/
def bindsAtLeast (bound : Nat) (o : Operator) : Bool := bound ≤ o.precedence

theorem bindsAtLeast_one (o : Operator) : o.bindsAtLeast 1 = true := by
  cases o <;> rfl

theorem bindsAtLeast_three (o : Operator) : o.bindsAtLeast 3 = false := by
  cases o <;> rfl

theorem bindsAtLeast_precedence (o : Operator) : o.bindsAtLeast o.precedence = true :=
  decide_eq_true (Nat.le_refl _)

theorem bindsAtLeast_succ_precedence (o : Operator) :
    o.bindsAtLeast (o.precedence + 1) = false :=
  decide_eq_false (Nat.not_succ_le_self _)

theorem bindsAtLeast_of_succ {bound : Nat} {o : Operator}
    (h : o.bindsAtLeast (bound + 1) = true) : o.bindsAtLeast bound = true :=
  decide_eq_true (Nat.le_of_succ_le (of_decide_eq_true h))

end Operator

namespace Conversion

variable {α : Type}

/-! ## Reading an operation -/

theorem read_operator {c : Conversion α} {o : Operator} {output : List (Token α)}
    {pending : List Pending}
    (h : c.release (Operator.bindsAtLeast o.precedence) = ⟨output, pending⟩) :
    c.read (.operator o) = ⟨output, .operator o :: pending⟩ := by
  show { c.release (Operator.bindsAtLeast o.precedence) with
    pending := .operator o :: (c.release (Operator.bindsAtLeast o.precedence)).pending } = _
  rw [h]

theorem read_closeParen {c : Conversion α} {output : List (Token α)} {pending : List Pending}
    (h : c.release (Operator.bindsAtLeast 1) = ⟨output, .openParen :: pending⟩) :
    c.read .closeParen = ⟨output, pending⟩ := by
  have hall : (fun _ => true) = Operator.bindsAtLeast 1 :=
    funext fun o => o.bindsAtLeast_one.symm
  show { c.release (fun _ => true) with
    pending := (c.release fun _ => true).pending.drop 1 } = _
  rw [hall, h]
  rfl

/-- What nothing binding tighter is left to be released from, nothing is
released from if it is held altogether. -/
theorem release_of_release_succ {c : Conversion α} {bound : Nat} {output : List (Token α)}
    {pending : List Pending}
    (h : c.release (Operator.bindsAtLeast (bound + 1)) = ⟨output, pending⟩)
    (hheld : Held (Operator.bindsAtLeast bound) pending) :
    c.release (Operator.bindsAtLeast bound) = ⟨output, pending⟩ := by
  have hstricter : ∀ o, Operator.bindsAtLeast (bound + 1) o = true →
      Operator.bindsAtLeast bound o = true := fun _ => Operator.bindsAtLeast_of_succ
  rw [← release_release hstricter, h]
  exact release_of_held hheld

/-- An operator waits for its right operand, which releases only what
binds tighter, and is then released itself. -/
theorem release_readAll_operation {c : Conversion α} {o : Operator} {bound : Nat}
    (hbound : o.precedence = bound) {ls rs left right : List (Token α)} {pending : List Pending}
    (hheld : Held (Operator.bindsAtLeast bound) pending)
    (hl : (c.readAll ls).release (Operator.bindsAtLeast bound) = ⟨left, pending⟩)
    (hr : (readAll ⟨left, .operator o :: pending⟩ rs).release
      (Operator.bindsAtLeast (bound + 1)) = ⟨right, .operator o :: pending⟩) :
    (c.readAll (ls ++ .operator o :: rs)).release (Operator.bindsAtLeast bound) =
      ⟨.operator o :: right, pending⟩ := by
  subst hbound
  have hstricter : ∀ o', Operator.bindsAtLeast (o.precedence + 1) o' = true →
      Operator.bindsAtLeast o.precedence o' = true := fun _ => Operator.bindsAtLeast_of_succ
  have hread : c.readAll (ls ++ .operator o :: rs) =
      readAll ⟨left, .operator o :: pending⟩ rs := by
    rw [readAll_append, readAll, List.foldl_cons, read_operator hl]
    rfl
  rw [hread, ← release_release hstricter, hr, release_operator o.bindsAtLeast_precedence]
  exact release_of_held hheld

end Conversion

/-! ## Reading a derivation -/

/-- How tightly an operator has to bind to be released at the end of a
phrase of the category. -/
def Category.bound : Category → Nat
  | .sum => 1
  | .product => 2
  | .factor => 3

namespace Derivation

variable {α : Type}

open Conversion

theorem release_readAll {c : Category} (d : Derivation α c) (conv : Conversion α)
    (hheld : Held (Operator.bindsAtLeast c.bound) conv.pending) :
    (conv.readAll d.tokens).release (Operator.bindsAtLeast c.bound) =
      ⟨d.tree.postorder.reverse ++ conv.output, conv.pending⟩ := by
  induction d generalizing conv with
  | number x => exact release_of_held hheld
  | group inner ih =>
      have hinner := ih (conv.read .openParen) (held_openParen _ _)
      have hread : conv.readAll (group inner).tokens =
          ⟨inner.tree.postorder.reverse ++ conv.output, conv.pending⟩ := by
        rw [tokens, readAll_append]
        exact read_closeParen hinner
      rw [hread]
      exact release_of_held hheld
  | ofFactor f ih =>
      exact release_of_release_succ (ih conv fun o _ => o.bindsAtLeast_three) hheld
  | multiplied left o ho right ihl ihr =>
      have hright := ihr ⟨left.tree.postorder.reverse ++ conv.output,
        .operator o :: conv.pending⟩ fun o _ => o.bindsAtLeast_three
      rw [tokens, Category.bound, release_readAll_operation
        (Operator.precedence_eq_two_iff.mpr ho) hheld (ihl conv hheld) hright]
      simp [tree, Tree.postorder]
  | ofProduct p ih =>
      have htighter : Held (Operator.bindsAtLeast 2) conv.pending :=
        hheld.of_imp fun _ => Operator.bindsAtLeast_of_succ
      exact release_of_release_succ (ih conv htighter) hheld
  | added left o ho right ihl ihr =>
      have hprecedence := Operator.precedence_eq_one_iff.mpr ho
      have hwaits : Operator.bindsAtLeast 2 o = false := by
        simpa [hprecedence] using o.bindsAtLeast_succ_precedence
      have hright := ihr ⟨left.tree.postorder.reverse ++ conv.output,
        .operator o :: conv.pending⟩ (held_operator hwaits _)
      rw [tokens, Category.bound,
        release_readAll_operation hprecedence hheld (ihl conv hheld) hright]
      simp [tree, Tree.postorder]

/-- The postfix order of a derivation is the postorder of its tree. -/
theorem toPostfix_tokens (d : Derivation α .sum) :
    toPostfix d.tokens = d.tree.postorder := by
  have hread := d.release_readAll .start (held_nil _)
  rw [toPostfix, ← finish_release (Operator.bindsAtLeast Category.sum.bound), hread]
  simp [finish, start, drain]

end Derivation

/-- The postfix order of an expression that has a derivation, with the
numbers that are calculated with at the leaves. -/
theorem Expression.toPostfix_of_derivation {α : Type} [NumberDomain α] (e : Expression α)
    (settings : Settings) (d : Derivation α .sum) (he : e.tokens = d.tokens) :
    e.toPostfix settings = (d.settled settings).tree.postorder := by
  rw [Expression.toPostfix, settledTokens, he, ← d.tokens_settled, Derivation.toPostfix_tokens]

end FourFunction
