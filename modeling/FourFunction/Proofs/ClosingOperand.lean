import FourFunction.Proofs.Outcome

/-!
# What stands before a closing parenthesis

The last of the rules of placement asks that a closing parenthesis follow
the end of an operand. By the time the check comes to ask it, the answer
is known. Something else would have to stand before the parenthesis, and
whatever that is, another rule has spoken first:

- an operator or an opening parenthesis is refused where it stands, for
  the closing parenthesis behind it;
- an element that is no token is refused where it stands;
- where nothing stands, at the first position, no parenthesis is open to
  be closed.

So a parenthesis that closes an open one, and that the check comes to at
all, follows the end of an operand (`endsOperand_before_closing`), and the
fault of the last rule is never reported.
-/

namespace FourFunction

/-! ## The position before -/

/-- A first position that is a closing parenthesis closes none that is
open. -/
theorem countThrough_opening_lt_of_zero {kinds : List (Option Kind)}
    (h : kindAt kinds 0 = some .closing) :
    countThrough kinds .opening 0 < countThrough kinds .closing 0 := by
  have hfirst := take_succ_of_getElem? (kindAt_eq_some_iff.mp h)
  rw [countThrough, countThrough, hfirst]
  exact Nat.zero_lt_one

/-- Where no rule is broken before a closing parenthesis that closes an
open one, it follows the end of an operand. -/
theorem endsOperand_before_closing {kinds : List (Option Kind)} {i : Nat}
    (hsound : ∀ j < i, ∀ fault, ¬ Broken kinds j fault) (hk : kindAt kinds i = some .closing)
    (hopen : ¬ countThrough kinds .opening i < countThrough kinds .closing i) :
    kindBefore kinds i = some .number ∨ kindBefore kinds i = some .closing := by
  cases i with
  | zero => exact absurd (countThrough_opening_lt_of_zero hk) hopen
  | succ j =>
      have hbefore := hsound j (Nat.lt_succ_self j)
      have hlt := (List.getElem?_eq_some_iff.mp (kindAt_eq_some_iff.mp hk)).1
      have hj : kinds[j]? = some kinds[j] := List.getElem?_eq_getElem (Nat.lt_of_succ_lt hlt)
      cases hkind : kinds[j] with
      | none => exact absurd (.unknown (hj.trans (congrArg some hkind))) (hbefore _)
      | some k =>
          have hat : kindAt kinds j = some k :=
            kindAt_eq_some_iff.mpr (hj.trans (congrArg some hkind))
          cases k with
          | number => exact Or.inl hat
          | closing => exact Or.inr hat
          | operator => exact absurd (.operator_of_after hat (Or.inr (Or.inr hk))) (hbefore _)
          | opening =>
              have hstarts : ¬ (kindAt kinds (j + 1) = some .number
                  ∨ kindAt kinds (j + 1) = some .opening) := by
                rw [hk]
                simp
              exact absurd (.opening hat hstarts) (hbefore _)

/-- A rule that is broken is reported, at its position or before it. -/
theorem not_broken_of_firstFault {kinds : List (Option Kind)} {i : Nat}
    (h : ∀ fault j, firstFault kinds = some fault → fault.index? = some j → i ≤ j) :
    ∀ j < i, ∀ fault, ¬ Broken kinds j fault := by
  intro j hj fault hbroken
  cases hv : firstFault kinds with
  | none =>
      cases firstFault_eq_iff.mp hv with
      | sound hsound _ => exact hsound j fault hbroken
  | some first =>
      cases firstFault_eq_iff.mp hv with
      | broken hb hmin =>
          have hle := h first _ hv hb.index?_eq
          exact hmin j (by omega) fault hbroken
      | unclosed hsound _ => exact hsound j fault hbroken

/-- The rule is never the first to be broken. -/
theorem firstFault_ne_noOperandBeforeClosing (kinds : List (Option Kind)) (i : Nat) :
    firstFault kinds ≠ some (.noOperandBeforeClosing i) := by
  intro h
  obtain ⟨hbroken, hmin⟩ := (firstFault_eq_some_iff rfl).mp h
  cases hbroken with
  | closing hk hopen hbefore => exact hbefore (endsOperand_before_closing hmin hk hopen)

/-! ## The fault that is never reported -/

variable {α : Type} [NumberDomain α]

namespace Expression

theorem ofElements_ne_noOperandBeforeClosing (settings : Settings) (es : List (Element α))
    (i : Nat) : ofElements settings es ≠ .error (.noOperandBeforeClosing i) := by
  intro h
  exact firstFault_ne_noOperandBeforeClosing _ i
    (firstFault_of_fault? rfl (ofElements_eq_error_iff.mp h))

theorem ofTokens_ne_noOperandBeforeClosing (settings : Settings) (ts : List (Token α))
    (i : Nat) : ofTokens settings ts ≠ .error (.noOperandBeforeClosing i) := by
  intro h
  exact firstFault_ne_noOperandBeforeClosing _ i
    (firstFault_of_fault? rfl (ofTokens_eq_error_iff.mp h))

end Expression

theorem evaluateWith_ne_noOperandBeforeClosing (settings : Settings) (es : List (Element α))
    (i : Nat) : (evaluateWith settings es).outcome ≠ .error (.noOperandBeforeClosing i) := by
  intro h
  rw [outcome_evaluateWith] at h
  exact Expression.ofElements_ne_noOperandBeforeClosing settings es i
    (eq_error_of_bind (fun _ _ => Expression.index?_of_evaluatePostfix) h rfl)

theorem evaluateTokens_ne_noOperandBeforeClosing (settings : Settings) (ts : List (Token α))
    (i : Nat) : (evaluateTokens settings ts).outcome ≠ .error (.noOperandBeforeClosing i) := by
  intro h
  rw [outcome_evaluateTokens] at h
  exact Expression.ofTokens_ne_noOperandBeforeClosing settings ts i
    (eq_error_of_bind (fun _ _ => Expression.index?_of_evaluatePostfix) h rfl)

theorem evaluateWithWorking_ne_noOperandBeforeClosing (settings : Settings)
    (es : List (Element α)) (i : Nat) :
    (evaluateWithWorking settings es).outcome ≠ .error (.noOperandBeforeClosing i) := by
  intro h
  rw [outcome_evaluateWithWorking] at h
  exact Expression.ofElements_ne_noOperandBeforeClosing settings es i
    (eq_error_of_bind (fun _ _ h => Expression.index?_of_evaluatePostfix (eq_error_of_map h)) h rfl)

/-- No check and no calculation reports a closing parenthesis for want of
an operand before it, whatever it is given. Wherever the check comes to
a closing parenthesis without a fault on the way, and no more have been
closed than opened with it, a number or a closing parenthesis stands just
before. -/
theorem closing_follows_operand (settings : Settings) (es : List (Element α))
    (ts : List (Token α)) :
    (∀ i, (check settings es).outcome ≠ .error (.noOperandBeforeClosing i)
        ∧ (checkTokens settings ts).outcome ≠ .error (.noOperandBeforeClosing i)
        ∧ (evaluate es).outcome ≠ .error (.noOperandBeforeClosing i)
        ∧ (evaluateWith settings es).outcome ≠ .error (.noOperandBeforeClosing i)
        ∧ (evaluateTokens settings ts).outcome ≠ .error (.noOperandBeforeClosing i)
        ∧ (evaluateWithWorking settings es).outcome ≠ .error (.noOperandBeforeClosing i))
      ∧ ∀ (kinds : List (Option Kind)) (i : Nat), kindAt kinds i = some .closing →
          (∀ fault j, firstFault kinds = some fault → fault.index? = some j → i ≤ j) →
          countThrough kinds .closing i ≤ countThrough kinds .opening i →
          kindBefore kinds i = some .number ∨ kindBefore kinds i = some .closing := by
  refine ⟨fun i => ⟨?_, ?_, evaluateWith_ne_noOperandBeforeClosing {} es i,
    evaluateWith_ne_noOperandBeforeClosing settings es i,
    evaluateTokens_ne_noOperandBeforeClosing settings ts i,
    evaluateWithWorking_ne_noOperandBeforeClosing settings es i⟩,
    fun kinds i hk hreached hopen => ?_⟩
  · rw [outcome_check]
    exact Expression.ofElements_ne_noOperandBeforeClosing settings es i
  · rw [outcome_checkTokens]
    exact Expression.ofTokens_ne_noOperandBeforeClosing settings ts i
  · exact endsOperand_before_closing (not_broken_of_firstFault hreached) hk (Nat.not_lt.mpr hopen)

/-- In `( 2 ) 3 )` the check comes to the first closing parenthesis, and a
number stands before it; the second it never comes to. -/
theorem closing_follows_operand_number :
    let kinds : List (Option Kind) :=
      [some .opening, some .number, some .closing, some .number, some .closing]
    firstFault kinds = some (.misplacedNumber 3)
      ∧ (kindBefore kinds 2 = some .number ∨ kindBefore kinds 2 = some .closing) := by
  intro kinds
  have hfirst : firstFault kinds = some (.misplacedNumber 3) := by decide
  refine ⟨hfirst, (closing_follows_operand (α := Rat) {} [] []).2 kinds 2 (by decide) ?_
    (by decide)⟩
  intro fault j hfault hj
  cases hfirst.symm.trans hfault
  cases hj
  decide

end FourFunction
