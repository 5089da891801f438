import FourFunction.Calculation
import FourFunction.Proofs.Acceptance
import FourFunction.Proofs.Postorder

/-!
# Calculations of arithmetic

For ordinary arithmetic the three stages of a calculation amount to the
value of a tree. The stack, run over the postorder of a tree, ends with
the value of the tree on top of what it held before
(`runStack_postorder`), and stops where the value of the tree is a
fault. Which trees have no value is said without running anything: those
in which some divisor has the value zero.
-/

namespace FourFunction

variable {α : Type} [NumberDomain α]

omit [NumberDomain α] in
/-- That a calculation comes to a value can be tested, faults aside. -/
theorem eq_ok_of_toOption {x : Except Fault α} {v : α} (h : x.toOption = some v) : x = .ok v := by
  cases x with
  | error fault => cases h
  | ok w =>
      cases h
      rfl

/-! ## Trees on the stack -/

theorem runStack_singleton_operator (i : Nat) (o : Operator) (a b : α) (stack : List α) :
    runStack i (b :: a :: stack) [.operator o] = (o.apply a b).map (· :: stack) := by
  rw [runStack, stackStep]
  cases o.apply a b <;> rfl

namespace Tree

theorem runStack_postorder (t : Tree α) (i : Nat) (stack : List α) :
    runStack i stack t.postorder = t.value.map (· :: stack) := by
  induction t generalizing i stack with
  | leaf x => rfl
  | node o left right ihl ihr =>
      rw [postorder, runStack_append, runStack_append, ihl, value_node]
      cases left.value with
      | error fault => rfl
      | ok a =>
          show ((runStack _ (a :: stack) right.postorder).bind _) = _
          rw [ihr]
          cases right.value with
          | error fault => rfl
          | ok b => exact runStack_singleton_operator _ o a b stack

theorem evaluatePostfix_postorder (t : Tree α) : evaluatePostfix t.postorder = t.value := by
  rw [evaluatePostfix, runStack_postorder]
  cases t.value <;> rfl

/-! ## Trees without a value -/

/-- Somewhere in the tree a divisor has the value zero. -/
inductive HasZeroDivisor : Tree α → Prop where
  | here {left right : Tree α} {b : α} : right.value = .ok b → NumberDomain.isZero b = true →
      HasZeroDivisor (.node .divide left right)
  | left {o : Operator} {left right : Tree α} : HasZeroDivisor left →
      HasZeroDivisor (.node o left right)
  | right {o : Operator} {left right : Tree α} : HasZeroDivisor right →
      HasZeroDivisor (.node o left right)

theorem hasZeroDivisor_node_iff {o : Operator} {left right : Tree α} :
    (node o left right).HasZeroDivisor ↔
      left.HasZeroDivisor ∨ (o = .divide ∧ ∃ b, right.value = .ok b ∧ NumberDomain.isZero b = true)
        ∨ right.HasZeroDivisor := by
  constructor
  · intro h
    cases h with
    | here hb hzero => exact Or.inr (Or.inl ⟨rfl, _, hb, hzero⟩)
    | left h => exact Or.inl h
    | right h => exact Or.inr (Or.inr h)
  · rintro (h | ⟨rfl, b, hb, hzero⟩ | h)
    · exact .left h
    · exact .here hb hzero
    · exact .right h

theorem apply_eq_error_iff {o : Operator} {a b : α} {fault : Fault} :
    o.apply a b = .error fault ↔
      fault = .divisionByZero ∧ o = .divide ∧ NumberDomain.isZero b = true := by
  cases o with
  | divide =>
      cases hb : NumberDomain.isZero b <;> simp [Operator.apply, hb, eq_comm]
  | _ => simp [Operator.apply]

theorem value_node_eq_error_iff {o : Operator} {left right : Tree α} {fault : Fault} :
    (node o left right).value = .error fault ↔
      left.value = .error fault
        ∨ ∃ a, left.value = .ok a
          ∧ (right.value = .error fault
            ∨ ∃ b, right.value = .ok b ∧ o.apply a b = .error fault) := by
  rw [value_node]
  cases left.value with
  | error fault' => simp [Except.bind]
  | ok a => cases right.value <;> simp [Except.bind]

/-- Zero divisors are all that keeps a tree from having a value. -/
theorem value_eq_error_iff {t : Tree α} {fault : Fault} :
    t.value = .error fault ↔ fault = .divisionByZero ∧ t.HasZeroDivisor := by
  induction t generalizing fault with
  | leaf x =>
      constructor
      · intro h; cases h
      · rintro ⟨-, h⟩; cases h
  | node o left right ihl ihr =>
      have hleft : left.value = .error .divisionByZero ∨ ∃ a, left.value = .ok a := by
        cases hl : left.value with
        | error fault' => exact Or.inl (by rw [(ihl.mp hl).1])
        | ok a => exact Or.inr ⟨a, rfl⟩
      rw [value_node_eq_error_iff]
      constructor
      · rintro (hl | ⟨a, -, hr | ⟨b, hr, happly⟩⟩)
        · exact ⟨(ihl.mp hl).1, .left (ihl.mp hl).2⟩
        · exact ⟨(ihr.mp hr).1, .right (ihr.mp hr).2⟩
        · obtain ⟨hfault, rfl, hzero⟩ := apply_eq_error_iff.mp happly
          exact ⟨hfault, .here hr hzero⟩
      · rintro ⟨rfl, hzero⟩
        rcases hleft with hl | ⟨a, hl⟩
        · exact Or.inl hl
        · cases hzero with
          | @here _ _ b hr hdivisor =>
              have happly : Operator.divide.apply a b = .error .divisionByZero :=
                apply_eq_error_iff.mpr ⟨rfl, rfl, hdivisor⟩
              exact Or.inr ⟨a, hl, Or.inr ⟨b, hr, happly⟩⟩
          | left h => exact Or.inl (ihl.mpr ⟨rfl, h⟩)
          | right h => exact Or.inr ⟨a, hl, Or.inl (ihr.mpr ⟨rfl, h⟩)⟩

end Tree

/-! ## The calculator on arithmetic -/

/-- Once a sequence is accepted, its outcome is that of the stack. -/
theorem outcome_evaluateTokens_of_ok {settings : Settings} {ts : List (Token α)}
    {e : Expression α} (h : Expression.ofTokens settings ts = .ok e) :
    (evaluateTokens settings ts).outcome = evaluatePostfix (e.toPostfix settings) := by
  rw [outcome_evaluateTokens, h]
  rfl

theorem evaluatePostfix_of_derivation (settings : Settings) (d : Derivation α .sum)
    {e : Expression α} (he : e.tokens = d.tokens) :
    evaluatePostfix (e.toPostfix settings) = (d.settled settings).tree.value := by
  rw [e.toPostfix_of_derivation settings d he, Tree.evaluatePostfix_postorder]

/-- The calculator gives ordinary arithmetic the value of its tree, with
the numbers of the large-number rule at the leaves, from raw elements
and from ready tokens alike. The one fault there can be is division by
zero, and it is reported just when some divisor in the tree has the
value zero. -/
theorem evaluate_derivation (settings : Settings) (d : Derivation α .sum)
    (hfin : ∀ x, .number x ∈ d.tokens → NumberDomain.isFinite x = true)
    (hmin : minTokens ≤ d.tokens.length) (hmax : d.tokens.length ≤ settings.tokenLimit) :
    (evaluateWith settings (d.tokens.map Element.ofToken)).outcome
        = (d.settled settings).tree.value
      ∧ (evaluateTokens settings d.tokens).outcome = (d.settled settings).tree.value
      ∧ ∀ fault, (d.settled settings).tree.value = .error fault ↔
          fault = .divisionByZero ∧ (d.settled settings).tree.HasZeroDivisor := by
  obtain ⟨e, he⟩ := Expression.exists_tokens_eq hmin hfin d.isSentence
  have hvalue := evaluatePostfix_of_derivation settings d he
  have hlen : Expression.lengthFault settings d.tokens.length = none :=
    Expression.lengthFault_eq_none_iff.mpr ⟨hmin, hmax⟩
  have hraw : Expression.ofElements settings (d.tokens.map Element.ofToken) = .ok e :=
    Expression.ofElements_eq_ok_iff.mpr ⟨by rw [List.length_map, hlen],
      Element.map_classify_eq_iff.mpr ⟨by rw [he], he ▸ hfin⟩⟩
  have htyped : Expression.ofTokens settings d.tokens = .ok e :=
    Expression.ofTokens_eq_ok_iff.mpr ⟨hlen, he⟩
  refine ⟨?_, ?_, fun _ => Tree.value_eq_error_iff⟩
  · rw [outcome_evaluateWith, hraw]
    exact hvalue
  · rw [outcome_evaluateTokens, htyped]
    exact hvalue

/-- `2000 / 4 - ( 1 - 3 )`: the large dividend becomes the square of its
divisor. -/
theorem evaluate_derivation_large_dividend :
    ∃ d : Derivation Rat .sum,
      d.tokens = [.number 2000, .operator .divide, .number 4, .operator .minus, .openParen,
          .number 1, .operator .minus, .number 3, .closeParen]
        ∧ (evaluateTokens {} d.tokens).outcome = .ok 6 := by
  let difference : Derivation Rat .sum :=
    .added (.ofProduct (.ofFactor (.number 1))) .minus (Or.inr rfl) (.ofFactor (.number 3))
  let quotient : Derivation Rat .product :=
    .multiplied (.ofFactor (.number 2000)) .divide (Or.inr rfl) (.number 4)
  let d : Derivation Rat .sum :=
    .added (.ofProduct quotient) .minus (Or.inr rfl) (.ofFactor (.group difference))
  have htree : (d.settled {}).tree =
      .node .minus (.node .divide (.leaf 16) (.leaf 4)) (.node .minus (.leaf 1) (.leaf 3)) := by
    decide +kernel
  have hvalue : (d.settled {}).tree.value = .ok 6 := by
    rw [htree]
    exact congrArg Except.ok (by decide +kernel : (16 / 4 - (1 - 3) : Rat) = 6)
  exact ⟨d, rfl, (evaluate_derivation {} d (fun _ _ => rfl) (by decide) (by decide)).2.1.trans
    hvalue⟩

end FourFunction
