import FourFunction.Proofs.FirstFault
import FourFunction.Proofs.Height

/-!
# How calculations come out

An accepted sequence either divides by zero or leaves one value more on
the stack than it has juxtapositions. So there is a value when nothing
is juxtaposed, and too many of them otherwise; too few there never are.
All faults with a position come from the check, and the position is one
of the sequence that was handed in.
-/

namespace FourFunction

/-! ## Faults of the check -/

/-- Whether it is the stack that finds the fault, and not the check. -/
def Fault.isOfStack : Fault → Bool
  | divisionByZero | malformedPostfix _ => true
  | _ => false

/-- A rule of placement is not a matter of the stack. -/
theorem Broken.isOfStack_eq {kinds : List (Option Kind)} {i : Nat} {fault : Fault}
    (h : Broken kinds i fault) : fault.isOfStack = false := by
  cases h <;> rfl

namespace Expression

variable {α : Type} [NumberDomain α]

theorem index?_of_fault? {settings : Settings} {kinds : List (Option Kind)} {fault : Fault}
    (h : fault? settings kinds = some fault) :
    (∀ i, fault.index? = some i → i < kinds.length) ∧ fault.isOfStack = false := by
  cases fault?_eq_iff.mp h with
  | tooFew _ => exact ⟨fun i hi => (by cases hi), rfl⟩
  | tooMany _ _ => exact ⟨fun i hi => (by cases hi), rfl⟩
  | placed _ _ hverdict =>
      cases hverdict with
      | broken hbroken _ =>
          refine ⟨fun i hi => ?_, hbroken.isOfStack_eq⟩
          cases hbroken.index?_eq.symm.trans hi
          exact hbroken.lt_length
      | unclosed _ _ => exact ⟨fun i hi => (by cases hi), rfl⟩

theorem index?_of_ofElements {settings : Settings} {es : List (Element α)} {fault : Fault}
    (h : ofElements settings es = .error fault) :
    (∀ i, fault.index? = some i → i < es.length) ∧ fault.isOfStack = false := by
  simpa using index?_of_fault? (ofElements_eq_error_iff.mp h)

theorem index?_of_ofTokens {settings : Settings} {ts : List (Token α)} {fault : Fault}
    (h : ofTokens settings ts = .error fault) :
    (∀ i, fault.index? = some i → i < ts.length) ∧ fault.isOfStack = false := by
  simpa using index?_of_fault? (ofTokens_eq_error_iff.mp h)

/-! ## Expressions on the stack -/

theorem runHeight_toPostfix (settings : Settings) (e : Expression α) :
    runHeight 0 (e.toPostfix settings) = some (juxtapositions e.tokens + 1) := by
  have hkinds : (e.settledTokens settings).map Token.kind = e.tokens.map Token.kind :=
    map_kind_settle _ _
  have hrun := e.run_kinds
  rw [← hkinds] at hrun
  rw [juxtapositions_eq, ← hkinds, ← juxtapositions_eq]
  exact FourFunction.runHeight_toPostfix hrun

theorem evaluatePostfix_cases (settings : Settings) (e : Expression α) :
    evaluatePostfix (e.toPostfix settings) = .error .divisionByZero
      ∨ (juxtapositions e.tokens = 0 ∧ ∃ v, evaluatePostfix (e.toPostfix settings) = .ok v)
      ∨ (0 < juxtapositions e.tokens
          ∧ evaluatePostfix (e.toPostfix settings) = .error (.malformedPostfix none)) := by
  have hheight := e.runHeight_toPostfix settings
  rcases @runStack_of_runHeight α _ 0 _ [] _ hheight with herr | ⟨stack, hok, hlen⟩
  · exact Or.inl (by rw [evaluatePostfix, herr])
  · refine Or.inr ?_
    rw [evaluatePostfix, hok]
    match stack, hlen with
    | [v], hlen => exact Or.inl ⟨by simpa using hlen.symm, v, rfl⟩
    | _ :: _ :: _, hlen => exact Or.inr ⟨by simp at hlen; omega, rfl⟩

theorem index?_of_evaluatePostfix {settings : Settings} {e : Expression α} {fault : Fault}
    (h : evaluatePostfix (e.toPostfix settings) = .error fault) : fault.index? = none := by
  rcases e.evaluatePostfix_cases settings with herr | ⟨-, v, hok⟩ | ⟨-, herr⟩
  · cases herr.symm.trans h; rfl
  · cases hok.symm.trans h
  · cases herr.symm.trans h; rfl

end Expression

/-- A fault with a position that comes out of a check and what follows it
comes out of the check, if what follows reports no positions. -/
theorem eq_error_of_bind {β γ : Type} {checked : Except Fault β} {next : β → Except Fault γ}
    (hnext : ∀ b fault, next b = .error fault → fault.index? = none) {fault : Fault} {i : Nat}
    (h : checked.bind next = .error fault) (hi : fault.index? = some i) :
    checked = .error fault := by
  cases checked with
  | error _ =>
      cases h
      rfl
  | ok b => cases (hnext b fault h).symm.trans hi

theorem eq_error_of_map {β γ : Type} {x : Except Fault β} {f : β → γ} {fault : Fault}
    (h : x.map f = .error fault) : x = .error fault := by
  cases x with
  | error _ =>
      cases h
      rfl
  | ok b => cases h

variable {α : Type} [NumberDomain α]

/-- How calculations come out. The stack never runs short on the postfix
order of an expression, and unless a division by zero stops it, it ends
with one value and one more for each juxtaposition. So a sequence that
is accepted has a value or divides by zero if nothing in it is
juxtaposed, and otherwise leaves a malformed stack, with no position, or
divides by zero. A fault with a position is always one of the check, at
a position of the sequence handed in. -/
theorem outcome_of_accepted (settings : Settings) (es : List (Element α))
    (ts : List (Token α)) :
    (∀ e : Expression α, Supplied (e.toPostfix settings)
        ∧ (runStack 0 [] (e.toPostfix settings) = .error .divisionByZero
          ∨ ∃ stack, runStack 0 [] (e.toPostfix settings) = .ok stack
              ∧ stack.length = juxtapositions e.tokens + 1))
      ∧ (∀ e, Expression.ofElements settings es = .ok e →
          (juxtapositions e.tokens = 0 →
            (∃ v, (evaluateWith settings es).outcome = .ok v)
              ∨ (evaluateWith settings es).outcome = .error .divisionByZero)
          ∧ (0 < juxtapositions e.tokens →
            (evaluateWith settings es).outcome = .error (.malformedPostfix none)
              ∨ (evaluateWith settings es).outcome = .error .divisionByZero))
      ∧ (∀ i, (evaluateWith settings es).outcome ≠ .error (.malformedPostfix (some i)))
      ∧ ∀ fault i, fault.index? = some i →
          ((evaluateWith settings es).outcome = .error fault →
            Expression.ofElements settings es = .error fault ∧ i < es.length)
          ∧ ((evaluateTokens settings ts).outcome = .error fault →
            Expression.ofTokens settings ts = .error fault ∧ i < ts.length)
          ∧ ((evaluateWithWorking settings es).outcome = .error fault →
            Expression.ofElements settings es = .error fault ∧ i < es.length) := by
  have hraw := outcome_evaluateWith settings es
  refine ⟨fun e => ?_, fun e he => ?_, fun i hi => ?_, fun fault i hi => ⟨?_, ?_, ?_⟩⟩
  · have hheight := e.runHeight_toPostfix settings
    exact ⟨supplied_of_runHeight hheight, @runStack_of_runHeight α _ 0 _ [] _ hheight⟩
  · rw [he] at hraw
    have hvalue : (evaluateWith settings es).outcome = evaluatePostfix (e.toPostfix settings) :=
      hraw
    rw [hvalue]
    rcases e.evaluatePostfix_cases settings with herr | ⟨hnone, hok⟩ | ⟨hsome, herr⟩
    · exact ⟨fun _ => Or.inr herr, fun _ => Or.inr herr⟩
    · exact ⟨fun _ => Or.inl hok, fun hsome => absurd hnone (Nat.ne_of_gt hsome)⟩
    · exact ⟨fun hnone => absurd hnone (Nat.ne_of_gt hsome), fun _ => Or.inl herr⟩
  · rw [hraw] at hi
    have hcheck := eq_error_of_bind (fun _ _ => Expression.index?_of_evaluatePostfix) hi rfl
    cases (Expression.index?_of_ofElements hcheck).2
  · intro h
    rw [hraw] at h
    have hcheck := eq_error_of_bind (fun _ _ => Expression.index?_of_evaluatePostfix) h hi
    exact ⟨hcheck, (Expression.index?_of_ofElements hcheck).1 i hi⟩
  · intro h
    rw [outcome_evaluateTokens] at h
    have hcheck := eq_error_of_bind (fun _ _ => Expression.index?_of_evaluatePostfix) h hi
    exact ⟨hcheck, (Expression.index?_of_ofTokens hcheck).1 i hi⟩
  · intro h
    rw [outcome_evaluateWithWorking] at h
    have hcheck := eq_error_of_bind
      (fun _ _ h => Expression.index?_of_evaluatePostfix (eq_error_of_map h)) h hi
    exact ⟨hcheck, (Expression.index?_of_ofElements hcheck).1 i hi⟩

/-- `2 ( 3 )` leaves both its numbers on the stack. -/
theorem outcome_of_accepted_number_group :
    (evaluateWith {} [.number (2 : Rat), .symbol "(", .number 3, .symbol ")"]).outcome =
      .error (.malformedPostfix none) := by
  let e : Expression Rat := ⟨[.number 2, .openParen, .number 3, .closeParen], by decide, rfl⟩
  have horder : e.toPostfix {} = [.number 2, .number 3] := by decide +kernel
  have he : Expression.ofElements {} [.number 2, .symbol "(", .number 3, .symbol ")"] = .ok e :=
    rfl
  have houtcome := ((outcome_of_accepted {} _ []).2.1 e he).2 (by decide)
  refine houtcome.resolve_right fun hzero => ?_
  rw [outcome_evaluateWith] at hzero
  have hvalue : evaluatePostfix (e.toPostfix {}) = .error .divisionByZero := hzero
  rw [horder] at hvalue
  cases hvalue

end FourFunction
