import FourFunction.Calculation
import FourFunction.Proofs.Grammar
import FourFunction.Proofs.Release

/-!
# The height of the stack

How high the stack stands depends on the kinds of the tokens alone, as
long as no division by zero stops the run. So it can be followed through
the conversion without any numbers, and the relation that is kept is a
sum (`Conversion.Surplus`): were the output run now, there would be

- one value for each operator that waits on the pile,
- one more if an operand has just ended,
- and one for each juxtaposition so far.

An operator is released only where an operand has just ended, so it
finds its own value and one below it. At the end nothing waits, an
operand has ended, and the juxtapositions are what is too much.
-/

namespace FourFunction

variable {α : Type}

/-! ## Heights -/

/-- The height of the stack after a token; none where the token fails
whatever the values are. -/
def heightStep (n : Nat) : Token α → Option Nat
  | .number _ => some (n + 1)
  | .operator _ => if 2 ≤ n then some (n - 1) else none
  | .openParen | .closeParen => none

def runHeight (n : Nat) : List (Token α) → Option Nat
  | [] => some n
  | t :: rest => (heightStep n t).bind fun m => runHeight m rest

theorem runHeight_append (n : Nat) (ts us : List (Token α)) :
    runHeight n (ts ++ us) = (runHeight n ts).bind fun m => runHeight m us := by
  induction ts generalizing n with
  | nil => rfl
  | cons t rest ih =>
      rw [List.cons_append, runHeight, runHeight]
      cases heightStep n t with
      | none => rfl
      | some m => exact ih m

section Running

variable [NumberDomain α]

theorem stackStep_of_heightStep {i m : Nat} {stack : List α} {t : Token α}
    (h : heightStep stack.length t = some m) :
    stackStep i stack t = .error .divisionByZero
      ∨ ∃ next, stackStep i stack t = .ok next ∧ next.length = m := by
  cases t with
  | number x => exact Or.inr ⟨_, rfl, Option.some.inj h⟩
  | openParen => cases h
  | closeParen => cases h
  | operator o =>
      cases stack with
      | nil => cases h
      | cons b rest => cases rest with
        | nil => cases h
        | cons a rest =>
            have hlen : rest.length + 1 = m := by simpa [heightStep] using h
            cases o with
            | divide =>
                cases hb : NumberDomain.isZero b with
                | true => exact Or.inl (by simp [stackStep, Operator.apply, hb])
                | false =>
                    refine Or.inr ⟨NumberDomain.div a b :: rest, ?_, hlen⟩
                    simp [stackStep, Operator.apply, hb]
            | _ => exact Or.inr ⟨_, rfl, hlen⟩

theorem runStack_of_runHeight {i m : Nat} {stack : List α} {ts : List (Token α)}
    (h : runHeight stack.length ts = some m) :
    runStack i stack ts = .error .divisionByZero
      ∨ ∃ final, runStack i stack ts = .ok final ∧ final.length = m := by
  induction ts generalizing i stack with
  | nil => exact Or.inr ⟨stack, rfl, Option.some.inj h⟩
  | cons t rest ih =>
      obtain ⟨k, hstep, hrest⟩ := Option.bind_eq_some_iff.mp h
      rw [runStack]
      rcases stackStep_of_heightStep (i := i) hstep with herr | ⟨next, hok, rfl⟩
      · rw [herr]
        exact Or.inl rfl
      · rw [hok]
        exact ih hrest

/-- In the run of these tokens no parenthesis is met and no operator
finds fewer than two values, however far the run comes. -/
def Supplied (ts : List (Token α)) : Prop :=
  ∀ before t after stack, ts = before ++ t :: after → runStack 0 [] before = .ok stack →
    (∃ x, t = .number x) ∨ (∃ o, t = .operator o) ∧ 2 ≤ stack.length

theorem supplied_of_runHeight {ts : List (Token α)} {m : Nat} (h : runHeight 0 ts = some m) :
    Supplied ts := by
  rintro before t after stack rfl hstack
  rw [runHeight_append] at h
  obtain ⟨n, hbefore, hrest⟩ := Option.bind_eq_some_iff.mp h
  obtain ⟨k, hstep, -⟩ := Option.bind_eq_some_iff.mp hrest
  have hlen : stack.length = n := by
    rcases @runStack_of_runHeight α _ 0 n [] before hbefore with herr | ⟨final, hok, hlen⟩
    · rw [herr] at hstack; cases hstack
    · rw [hok] at hstack; cases hstack; exact hlen
  cases t with
  | number x => exact Or.inl ⟨x, rfl⟩
  | openParen => cases hstep
  | closeParen => cases hstep
  | operator o =>
      refine Or.inr ⟨⟨o, rfl⟩, ?_⟩
      rw [hlen]
      by_cases htwo : 2 ≤ n
      · exact htwo
      · simp [heightStep, htwo] at hstep

end Running

/-! ## Heights through the conversion -/

namespace Conversion

/-- Were the output run, it would leave `n` values more than operators
wait on the pile. -/
def Surplus (c : Conversion α) (n : Nat) : Prop :=
  runHeight 0 c.output.reverse = some (n + (drain c.pending : List (Token α)).length)

theorem runHeight_snoc {n m : Nat} {ts : List (Token α)} (h : runHeight n ts = some m)
    (t : Token α) : runHeight n (ts ++ [t]) = heightStep m t := by
  rw [runHeight_append, h]
  exact Option.bind_fun_some _

theorem Surplus.release {c : Conversion α} {n : Nat} (h : c.Surplus (n + 1))
    (p : Operator → Bool) : (c.release p).Surplus (n + 1) := by
  refine release_induction (P := fun c' => c'.Surplus (n + 1)) ?_ h
  intro o output rest _ hsurplus
  have hheight : runHeight 0 output.reverse =
      some (n + 2 + (drain rest : List (Token α)).length) := by
    rw [hsurplus]
    simp [drain]
    omega
  show runHeight 0 (Token.operator o :: output).reverse = _
  rw [List.reverse_cons, runHeight_snoc hheight]
  simp [heightStep]
  omega

/-! ### Reading -/

theorem Surplus.read_number {c : Conversion α} {n : Nat} (h : c.Surplus n) (x : α) :
    (c.read (.number x)).Surplus (n + 1) := by
  show runHeight 0 (Token.number x :: c.output).reverse = _
  rw [List.reverse_cons, runHeight_snoc h]
  simp [heightStep, read]
  omega

theorem Surplus.read_operator {c : Conversion α} {n : Nat} (h : c.Surplus (n + 1))
    (o : Operator) : (c.read (.operator o)).Surplus n := by
  have hreleased := h.release fun waiting => o.precedence ≤ waiting.precedence
  refine Eq.trans hreleased ?_
  simp [read, drain]
  omega

theorem Surplus.read_openParen {c : Conversion α} {n : Nat} (h : c.Surplus n) :
    (c.read .openParen).Surplus n := h

theorem Surplus.read_closeParen {c : Conversion α} {n : Nat} (h : c.Surplus (n + 1)) :
    (c.read .closeParen).Surplus (n + 1) := by
  have hreleased := h.release fun _ => true
  refine Eq.trans hreleased ?_
  show some (n + 1 + (drain _ : List (Token α)).length) =
    some (n + 1 + (drain _ : List (Token α)).length)
  rw [← drain_drop_release]
  rfl

end Conversion

/-- The operands that have ended and that no operator stands behind yet. -/
def Stand.operands (s : Stand) : Nat := if s.ended then 1 else 0

namespace Conversion

theorem Surplus.read {c : Conversion α} {n : Nat} {s next : Stand} {t : Token α}
    (h : c.Surplus (n + s.operands)) (hstep : s.step t.kind = some next) :
    (c.read t).Surplus
      (n + (if s.ended = true ∧ t.kind = .opening then 1 else 0) + next.operands) := by
  obtain ⟨ended, depth⟩ := s
  cases t with
  | number x =>
      cases ended with
      | true => cases hstep
      | false =>
          cases hstep
          exact h.read_number x
  | operator o =>
      cases ended with
      | false => cases hstep
      | true =>
          cases hstep
          exact Surplus.read_operator h o
  | openParen => cases ended <;> cases hstep <;> exact h.read_openParen
  | closeParen =>
      cases ended with
      | false => cases hstep
      | true =>
          cases depth with
          | zero => cases hstep
          | succ d =>
              cases hstep
              exact Surplus.read_closeParen h

theorem Surplus.readAll {c : Conversion α} {n : Nat} {s final : Stand} {ts : List (Token α)}
    (h : c.Surplus (n + s.operands)) (hrun : s.run (ts.map Token.kind) = some final) :
    (c.readAll ts).Surplus
      (n + juxtapositionsAfter s.ended (ts.map Token.kind) + final.operands) := by
  induction ts generalizing c n s with
  | nil =>
      cases hrun
      exact h
  | cons t rest ih =>
      obtain ⟨next, hstep, hrest⟩ := Option.bind_eq_some_iff.mp hrun
      have hread := ih (h.read hstep) hrest
      rw [Stand.ended_of_step hstep] at hread
      rw [List.map_cons, juxtapositionsAfter, ← Nat.add_assoc]
      exact hread

theorem runHeight_drain (n : Nat) (pending : List Pending) :
    runHeight (n + 1 + (drain pending : List (Token α)).length)
      (drain pending : List (Token α)) = some (n + 1) := by
  induction pending with
  | nil => rfl
  | cons top rest ih =>
      cases top with
      | openParen => exact ih
      | operator o =>
          have hcons : (drain (.operator o :: rest) : List (Token α)) =
            .operator o :: drain rest := rfl
          have hstep :
              heightStep (n + 1 + ((drain rest : List (Token α)).length + 1))
                  (Token.operator o : Token α) =
                some (n + 1 + (drain rest : List (Token α)).length) := by
            simp [heightStep]
            omega
          rw [hcons, List.length_cons, runHeight, hstep]
          exact ih

theorem Surplus.finish {c : Conversion α} {n : Nat} (h : c.Surplus (n + 1)) :
    runHeight 0 c.finish = some (n + 1) := by
  rw [Conversion.finish, runHeight_append, h]
  exact runHeight_drain n c.pending

end Conversion

theorem runHeight_toPostfix {ts : List (Token α)}
    (hrun : Stand.start.run (ts.map Token.kind) = some .finish) :
    runHeight 0 (toPostfix ts) = some (juxtapositions ts + 1) := by
  have hstart : (Conversion.start : Conversion α).Surplus (0 + Stand.start.operands) := rfl
  have hread := hstart.readAll hrun
  rw [Nat.zero_add] at hread
  rw [juxtapositions_eq]
  exact Conversion.Surplus.finish hread

end FourFunction
