import FourFunction.Postfix

/-!
# Releasing operators

Operators leave the pile from the top, one at a time, for as long as
they satisfy a test. So whatever survives the release of one operator
survives a release (`release_induction`); and what is `Held` back by the
test stays where it is. A release changes nothing about what comes out
in the end (`finish_release`), and one that goes further makes an
earlier one superfluous (`release_release`).
-/

namespace FourFunction

namespace Conversion

variable {α : Type}

/-! ## Releasing -/

/-- Nothing that satisfies `p` would be released from the top of the pile. -/
def Held (p : Operator → Bool) (pending : List Pending) : Prop :=
  ∀ o, pending.head? = some (.operator o) → p o = false

theorem held_nil (p : Operator → Bool) : Held p [] := by
  intro o ho
  cases ho

theorem held_openParen (p : Operator → Bool) (rest : List Pending) :
    Held p (.openParen :: rest) := by
  intro o ho
  cases ho

theorem held_operator {p : Operator → Bool} {o : Operator} (h : p o = false)
    (rest : List Pending) : Held p (.operator o :: rest) := by
  intro o' ho'
  cases ho'
  exact h

theorem Held.of_imp {p q : Operator → Bool} {pending : List Pending}
    (h : ∀ o, p o = true → q o = true) (hheld : Held q pending) : Held p pending := by
  intro o ho
  cases hp : p o with
  | false => rfl
  | true => exact absurd (h o hp) (by simp [hheld o ho])

theorem release_of_held {p : Operator → Bool} {c : Conversion α} (h : Held p c.pending) :
    c.release p = c := by
  obtain ⟨output, pending⟩ := c
  cases pending with
  | nil => rfl
  | cons top rest =>
      cases top with
      | openParen => rfl
      | operator o => simp [release, releaseWhile, h o rfl]

theorem release_operator {p : Operator → Bool} {o : Operator} (h : p o = true)
    (output : List (Token α)) (rest : List Pending) :
    release p ⟨output, .operator o :: rest⟩ = release p ⟨.operator o :: output, rest⟩ := by
  simp [release, releaseWhile, h]

theorem release_operator_of_not {p : Operator → Bool} {o : Operator} (h : p o = false)
    (output : List (Token α)) (rest : List Pending) :
    release p ⟨output, .operator o :: rest⟩ = ⟨output, .operator o :: rest⟩ :=
  release_of_held (held_operator h rest)

/-- What is kept by the release of one operator is kept by a release. -/
theorem release_induction {P : Conversion α → Prop} {p : Operator → Bool}
    (hstep : ∀ o output rest, p o = true →
      P ⟨output, .operator o :: rest⟩ → P ⟨.operator o :: output, rest⟩)
    {c : Conversion α} (h : P c) : P (c.release p) := by
  obtain ⟨output, pending⟩ := c
  induction pending generalizing output with
  | nil => exact h
  | cons top rest ih =>
      cases top with
      | openParen => exact h
      | operator o =>
          cases hp : p o with
          | true =>
              rw [release_operator hp]
              exact ih _ (hstep o output rest hp h)
          | false =>
              rw [release_operator_of_not hp]
              exact h

theorem held_release (p : Operator → Bool) (c : Conversion α) :
    Held p (c.release p).pending := by
  obtain ⟨output, pending⟩ := c
  induction pending generalizing output with
  | nil => exact held_nil p
  | cons top rest ih =>
      cases top with
      | openParen => exact held_openParen p rest
      | operator o =>
          cases hp : p o with
          | true =>
              rw [release_operator hp]
              exact ih _
          | false =>
              rw [release_operator_of_not hp]
              exact held_operator hp rest

/-- With all its operators released, a pile begins with a parenthesis if
there is one on it. -/
theorem pending_release_all (c : Conversion α) :
    (c.release fun _ => true).pending = []
      ∨ ∃ rest, (c.release fun _ => true).pending = .openParen :: rest := by
  have hheld := held_release (fun _ => true) c
  cases hpending : (c.release fun _ => true).pending with
  | nil => exact Or.inl rfl
  | cons top rest =>
      cases top with
      | openParen => exact Or.inr ⟨rest, rfl⟩
      | operator o =>
          rw [hpending] at hheld
          cases hheld o rfl

/-- Only a parenthesis can lie on top when all operators have been
released. -/
theorem drain_drop_release (c : Conversion α) :
    (drain ((c.release fun _ => true).pending.drop 1) : List (Token α)) =
      drain (c.release fun _ => true).pending := by
  rcases c.pending_release_all with hnil | ⟨rest, hrest⟩
  · rw [hnil]
    rfl
  · rw [hrest]
    rfl

/-- A release is no different for a stricter one before it. -/
theorem release_release {p q : Operator → Bool} (h : ∀ o, p o = true → q o = true)
    (c : Conversion α) : (c.release p).release q = c.release q :=
  release_induction (P := fun c' => c'.release q = c.release q)
    (fun o output rest hp heq => (release_operator (h o hp) output rest).symm.trans heq) rfl

/-- What is released now need not be drained later. -/
theorem finish_release (p : Operator → Bool) (c : Conversion α) :
    (c.release p).finish = c.finish :=
  release_induction (P := fun c' => c'.finish = c.finish)
    (fun _ _ _ _ heq => by simpa [finish, drain] using heq) rfl

end Conversion

end FourFunction
