import FourFunction.Proofs.Agreement
import FourFunction.Proofs.Evaluation
import FourFunction.Proofs.Replacements

/-!
# Division by literal numbers

Where each `/` stands directly before a number, that number is what is
divided by, however the operators around it are ordered: the right operand
of a `/` is a factor, and a factor that begins with a number is that
number (`Derivation.hasZeroDivisor_iff`). The large-number rule may turn
numbers into zero, but never one behind `/`: there it puts one in
(`isZero_numberGiven`). So such a calculation divides by zero just when a
zero is written behind some `/`. The one way out is a negative threshold,
which has the rule replace that zero as well.
-/

namespace FourFunction

variable {α : Type}

/-! ## Numbers behind `/` -/

/-- Behind each `/` stands a number, and one of which `p` holds. -/
def DividesBy (p : α → Prop) (ts : List (Token α)) : Prop :=
  ∀ i : Nat, ts[i]? = some (.operator .divide) → ∃ x, ts[i + 1]? = some (.number x) ∧ p x

/-- Behind each `/` stands a number. -/
def LiteralDivisors (ts : List (Token α)) : Prop := DividesBy (fun _ => True) ts

/-- Behind each `/` stands a number, and none of these is zero. -/
def NonzeroDivisors [NumberDomain α] (ts : List (Token α)) : Prop :=
  DividesBy (fun x => NumberDomain.isZero x = false) ts

/-- Behind some `/` stands a zero. -/
def DividesByZero [NumberDomain α] (ts : List (Token α)) : Prop :=
  ∃ (i : Nat) (x : α), ts[i]? = some (.operator .divide) ∧ ts[i + 1]? = some (.number x)
    ∧ NumberDomain.isZero x = true

theorem dividesBy_nil (p : α → Prop) : DividesBy p [] := nofun

theorem dividesBy_cons {p : α → Prop} {t : Token α} {ts : List (Token α)} :
    DividesBy p (t :: ts) ↔
      (t = .operator .divide → ∃ x, ts.head? = some (.number x) ∧ p x) ∧ DividesBy p ts := by
  constructor
  · intro h
    refine ⟨fun ht => ?_, fun i hi => h (i + 1) hi⟩
    rw [List.head?_eq_getElem?]
    exact h 0 (congrArg some ht)
  · rintro ⟨hhead, htail⟩ i hi
    cases i with
    | zero =>
        rw [List.getElem?_cons_succ, ← List.head?_eq_getElem?]
        exact hhead (Option.some.inj hi)
    | succ j => exact htail j hi

/-- A sequence falls apart before a token that is no number: the `/` in
front of it would not have its divisor. -/
theorem dividesBy_append {p : α → Prop} {ts us : List (Token α)} {t : Token α}
    (ht : t.number? = none) :
    DividesBy p (ts ++ t :: us) ↔ DividesBy p ts ∧ DividesBy p (t :: us) := by
  induction ts with
  | nil => exact (and_iff_right (dividesBy_nil p)).symm
  | cons first rest ih =>
      have hhead : ∀ x, (rest ++ t :: us).head? = some (.number x) ↔
          rest.head? = some (.number x) := by
        intro x
        cases rest with
        | nil =>
            refine iff_of_false (fun hx => ?_) nofun
            obtain rfl : t = .number x := Option.some.inj hx
            cases ht
        | cons => rfl
      rw [List.cons_append, dividesBy_cons, dividesBy_cons, ih, and_assoc]
      simp only [hhead]

theorem dividesBy_number (p : α → Prop) (x : α) : DividesBy p [.number x] :=
  dividesBy_cons.mpr ⟨nofun, dividesBy_nil p⟩

theorem dividesBy_group {p : α → Prop} {ts : List (Token α)} :
    DividesBy p (.openParen :: ts ++ [.closeParen]) ↔ DividesBy p ts := by
  have hclose : DividesBy p [.closeParen] := dividesBy_cons.mpr ⟨nofun, dividesBy_nil p⟩
  rw [List.cons_append, dividesBy_cons, dividesBy_append (t := .closeParen) rfl]
  exact ⟨fun h => h.2.1, fun h => ⟨nofun, h, hclose⟩⟩

theorem dividesBy_operation {p : α → Prop} {o : Operator} {ls rs : List (Token α)} :
    DividesBy p (ls ++ .operator o :: rs) ↔
      DividesBy p ls ∧ (o = .divide → ∃ x, rs.head? = some (.number x) ∧ p x)
        ∧ DividesBy p rs := by
  rw [dividesBy_append (t := .operator o) rfl, dividesBy_cons, Token.operator.injEq]

/-! ## Divisors in the tree -/

variable [NumberDomain α]

theorem dividesByZero_iff {ts : List (Token α)} (h : LiteralDivisors ts) :
    DividesByZero ts ↔ ¬ NonzeroDivisors ts := by
  constructor
  · rintro ⟨i, x, hi, hx, hzero⟩ hnone
    obtain ⟨y, hy, hnonzero⟩ := hnone i hi
    obtain rfl := Token.number.inj (Option.some.inj (hx.symm.trans hy))
    exact Bool.false_ne_true (hnonzero.symm.trans hzero)
  · intro hsome
    refine Classical.byContradiction fun hnone => hsome fun i hi => ?_
    obtain ⟨x, hx, -⟩ := h i hi
    exact ⟨x, hx, Bool.eq_false_iff.mpr fun hzero => hnone ⟨i, x, hi, hx, hzero⟩⟩

namespace Derivation

omit [NumberDomain α] in
/-- A factor that begins with a number is that number. -/
theorem eq_number_of_head? {d : Derivation α .factor} {x : α}
    (h : d.tokens.head? = some (.number x)) : d = .number x := by
  cases d with
  | number y =>
      cases h
      rfl
  | group inner => cases h

/-- Of a divisor that begins with a number it can be seen whether it is
zero. -/
theorem value_isZero_iff {d : Derivation α .factor} {x : α}
    (h : d.tokens.head? = some (.number x)) :
    (∃ b, d.tree.value = .ok b ∧ NumberDomain.isZero b = true) ↔
      ¬ ∃ y, d.tokens.head? = some (.number y) ∧ NumberDomain.isZero y = false := by
  obtain rfl := eq_number_of_head? h
  simp [tree, Tree.value, tokens]

/-- An operation divides by zero just where its sequence does, if this
holds of both operands and of the divisor. -/
theorem hasZeroDivisor_operation_iff {c c' : Category} {left : Derivation α c}
    {right : Derivation α c'} {o : Operator}
    (hleft : left.tree.HasZeroDivisor ↔ ¬ NonzeroDivisors left.tokens)
    (hright : right.tree.HasZeroDivisor ↔ ¬ NonzeroDivisors right.tokens)
    (hdivisor : o = .divide →
      ((∃ b, right.tree.value = .ok b ∧ NumberDomain.isZero b = true) ↔
        ¬ ∃ y, right.tokens.head? = some (.number y) ∧ NumberDomain.isZero y = false)) :
    (Tree.node o left.tree right.tree).HasZeroDivisor ↔
      ¬ NonzeroDivisors (left.tokens ++ .operator o :: right.tokens) := by
  rw [Tree.hasZeroDivisor_node_iff, hleft, hright]
  unfold NonzeroDivisors
  rw [dividesBy_operation, not_and_or, not_and_or]
  refine or_congr_right (or_congr_left ?_)
  by_cases ho : o = .divide
  · simp only [ho, true_and, true_imp_iff]
    exact hdivisor ho
  · simp only [ho, false_and, false_imp_iff, not_true]

/-- When all divisors are literal, the tree divides by zero just where the
sequence does. -/
theorem hasZeroDivisor_iff {c : Category} (d : Derivation α c) (h : LiteralDivisors d.tokens) :
    d.tree.HasZeroDivisor ↔ ¬ NonzeroDivisors d.tokens := by
  induction d with
  | number x => exact iff_of_false nofun (not_not_intro (dividesBy_number _ x))
  | group inner ih => exact (ih (dividesBy_group.mp h)).trans (not_congr dividesBy_group.symm)
  | ofFactor d ih => exact ih h
  | ofProduct d ih => exact ih h
  | multiplied left o ho right ihl ihr =>
      obtain ⟨hleft, hliteral, hright⟩ := dividesBy_operation.mp h
      -- the divisor is a factor: were it a product, its value would not be that of its first number
      refine hasZeroDivisor_operation_iff (ihl hleft) (ihr hright) fun hdivide => ?_
      obtain ⟨x, hx, -⟩ := hliteral hdivide
      exact value_isZero_iff hx
  | added left o ho right ihl ihr =>
      obtain ⟨hleft, -, hright⟩ := dividesBy_operation.mp h
      refine hasZeroDivisor_operation_iff (ihl hleft) (ihr hright) fun hdivide => ?_
      rw [hdivide] at ho
      rcases ho with h | h <;> cases h

end Derivation

/-! ## The rule behind `/` -/

/-- What makes the large-number rule safe with zeros: it takes none for
too large, and puts none in for a divisor. -/
structure SparesZeros (limit? : Option α) : Prop where
  isZero_one : NumberDomain.isZero (NumberDomain.one : α) = false
  within : ∀ limit x, limit? = some limit → NumberDomain.isFinite x = true →
    NumberDomain.isZero x = true → NumberDomain.exceeds x limit = false

theorem isZero_numberGiven {limit? : Option α} (h : SparesZeros limit?) {ts : List (Token α)}
    {i : Nat} (hi : ts[i]? = some (.operator .divide)) {x : α}
    (hfin : NumberDomain.isFinite x = true) :
    NumberDomain.isZero (numberGiven limit? ts (i + 1) x) = NumberDomain.isZero x := by
  cases limit? with
  | none => rfl
  | some limit =>
      show NumberDomain.isZero (if NumberDomain.exceeds x limit then _ else x) = _
      split
      · rename_i hexceeds
        have hnonzero : NumberDomain.isZero x = false := by
          refine Bool.eq_false_iff.mpr fun hzero => ?_
          rw [h.within limit x rfl hfin hzero] at hexceeds
          cases hexceeds
        have hone : (contextAt ts (i + 1) (.number x)).standIn = NumberDomain.one :=
          Context.standIn_eq_one (Or.inl hi)
        rw [hone, h.isZero_one, hnonzero]
      · rfl

theorem dividesBy_settle {p q : α → Prop} {limit? : Option α} {ts : List (Token α)}
    (h : ∀ (i : Nat) x, ts[i]? = some (.operator .divide) → ts[i + 1]? = some (.number x) →
      (p (numberGiven limit? ts (i + 1) x) ↔ q x)) :
    DividesBy p (settle limit? ts) ↔ DividesBy q ts := by
  have hdivide : ∀ i : Nat, (settle limit? ts)[i]? = some (.operator .divide) ↔
      ts[i]? = some (.operator .divide) := by
    intro i
    rw [getElem?_settle]
    rcases ts[i]? with _ | (x | o | _ | _) <;> simp [Token.map]
  have hnumber : ∀ i : Nat, ts[i]? = some (.operator .divide) →
      ((∃ x, (settle limit? ts)[i + 1]? = some (.number x) ∧ p x) ↔
        ∃ x, ts[i + 1]? = some (.number x) ∧ q x) := by
    intro i hi
    rw [getElem?_settle]
    rcases hnext : ts[i + 1]? with _ | (x | o | _ | _)
    case some.number => simpa [Token.map] using h i x hi hnext
    all_goals simp [Token.map]
  exact forall_congr' fun i =>
    (imp_congr_left (hdivide i)).trans (imp_congr_right (hnumber i))

/-! ## Calculations with literal divisors -/

theorem outcome_eq_divisionByZero_iff {settings : Settings}
    (hspares : SparesZeros (settings.limit? α)) {ts : List (Token α)} {e : Expression α}
    (he : Expression.ofTokens settings ts = .ok e) (hnone : juxtapositions ts = 0)
    (hliteral : LiteralDivisors ts) :
    (evaluateTokens settings ts).outcome = .error .divisionByZero ↔ DividesByZero ts := by
  obtain ⟨-, rfl⟩ := Expression.ofTokens_eq_ok_iff.mp he
  obtain ⟨d, hd⟩ := isArithmetic_iff.mpr ⟨e.isSentence, hnone⟩
  have hsettled : (d.settled settings).tokens = settle (settings.limit? α) e.tokens := by
    rw [d.tokens_settled, hd]
  have hliteral' : LiteralDivisors (d.settled settings).tokens := by
    rw [hsettled]
    exact (dividesBy_settle fun _ _ _ _ => Iff.rfl).mpr hliteral
  have hspared : ∀ (i : Nat) (x : α), e.tokens[i]? = some (.operator .divide) →
      e.tokens[i + 1]? = some (.number x) →
      (NumberDomain.isZero (numberGiven (settings.limit? α) e.tokens (i + 1) x) = false ↔
        NumberDomain.isZero x = false) := by
    intro i x hi hx
    rw [isZero_numberGiven hspares hi (e.isFinite_of_mem x (List.mem_of_getElem? hx))]
  calc (evaluateTokens settings e.tokens).outcome = .error .divisionByZero
      ↔ (d.settled settings).tree.value = .error .divisionByZero := by
        rw [outcome_evaluateTokens_of_ok he, evaluatePostfix_of_derivation settings d hd.symm]
    _ ↔ (d.settled settings).tree.HasZeroDivisor :=
        Tree.value_eq_error_iff.trans (and_iff_right rfl)
    _ ↔ ¬ NonzeroDivisors (d.settled settings).tokens :=
        Derivation.hasZeroDivisor_iff _ hliteral'
    _ ↔ ¬ NonzeroDivisors e.tokens := by
        rw [hsettled]
        exact not_congr (dividesBy_settle hspared)
    _ ↔ DividesByZero e.tokens := (dividesByZero_iff hliteral).symm

/-! ### Doubles and rationals -/

section

variable {settings : Settings}
  (h : settings.replaceLarge = false ∨ settings.threshold.isFinite = false
    ∨ 0 ≤ settings.threshold)

include h

theorem limit?_rat_nonneg {limit : Rat} (hlimit : settings.limit? Rat = some limit) :
    0 ≤ limit := by
  obtain ⟨hon, hthreshold⟩ := limit?_eq_some_iff.mp hlimit
  have hfin := Rational.isFinite_iff.mpr ⟨limit, hthreshold⟩
  rcases h with hoff | hnone | hnonneg
  · cases hoff.symm.trans hon
  · cases hnone.symm.trans hfin
  · have hle := Rational.le_eq Rational.ofDouble?_zero hthreshold
    exact of_decide_eq_true (hle.symm.trans (decide_eq_true hnonneg))

theorem sparesZeros_rat : SparesZeros (settings.limit? Rat) where
  isZero_one := by decide +kernel
  within limit x hlimit _ hzero := by
    have hx : x = 0 := beq_iff_eq.mp hzero
    have hle : (0 : Rat) ≤ limit := limit?_rat_nonneg h hlimit
    exact congrArg not (decide_eq_true (hx ▸ hle))

/-- A double is zero, and is too large, when the rational it stands for is. -/
theorem sparesZeros_float : SparesZeros (settings.limit? Float) where
  isZero_one := by decide +kernel
  within limit x hlimit hfin hzero := by
    have hagree : (settings.limit? Float).map Rational.ofDouble? =
        (settings.limit? Rat).map some := limit?_agree
    rw [hlimit] at hagree
    obtain ⟨bound, hbound, hlimit'⟩ := Option.map_eq_some_iff.mp hagree.symm
    obtain ⟨q, hq⟩ := Rational.isFinite_iff.mp hfin
    rw [exceeds_agree hq hlimit'.symm]
    exact (sparesZeros_rat h).within bound q hbound rfl ((Rational.isZero_eq hq).symm.trans hzero)

end

/-- In doubles as in rationals, an accepted sequence with nothing
juxtaposed that divides by literal numbers only fails with a division by
zero just when one of these numbers is zero. That holds with the
large-number rule off, with a threshold it ignores, and with any that is
not negative. -/
theorem evaluateTokens_literalDivisors {settings : Settings}
    (h : settings.replaceLarge = false ∨ settings.threshold.isFinite = false
      ∨ 0 ≤ settings.threshold) :
    (∀ (ts : List (Token Float)) (e : Expression Float),
        Expression.ofTokens settings ts = .ok e → juxtapositions ts = 0 → LiteralDivisors ts →
        ((evaluateTokens settings ts).outcome = .error .divisionByZero ↔ DividesByZero ts))
      ∧ ∀ (ts : List (Token Rat)) (e : Expression Rat),
          Expression.ofTokens settings ts = .ok e → juxtapositions ts = 0 → LiteralDivisors ts →
          ((evaluateTokens settings ts).outcome = .error .divisionByZero ↔ DividesByZero ts) :=
  ⟨fun _ _ => outcome_eq_divisionByZero_iff (sparesZeros_float h),
    fun _ _ => outcome_eq_divisionByZero_iff (sparesZeros_rat h)⟩

/-- `2000 / -0` fails, though `2000` counts as the square of its divisor.
`3000 - 8 / 2000` does not, though the first number counts as zero. -/
theorem evaluateTokens_literalDivisors_replaced :
    (evaluateTokens {} [.number (2000 : Float), .operator .divide, .number (-0)]).outcome =
        .error .divisionByZero
      ∧ (evaluateTokens {} [.number (3000 : Rat), .operator .minus, .number 8,
          .operator .divide, .number 2000]).outcome ≠ .error .divisionByZero := by
  have hthreshold : (0 : Float) ≤ ({} : Settings).threshold := by decide +kernel
  obtain ⟨hfloat, hrat⟩ := evaluateTokens_literalDivisors (Or.inr (Or.inr hthreshold))
  constructor
  · let e : Expression Float := ⟨[.number 2000, .operator .divide, .number (-0)], by decide,
      by decide +kernel⟩
    have hliteral : LiteralDivisors e.tokens := by
      intro i hi
      match i with
      | 1 => exact ⟨-0, rfl, trivial⟩
      | 0 | 2 | _ + 3 => cases hi
    have hzero : DividesByZero e.tokens := ⟨1, -0, rfl, rfl, by decide +kernel⟩
    exact (hfloat _ e (e.ofTokens_tokens (by decide)) rfl hliteral).mpr hzero
  · let e : Expression Rat := ⟨[.number 3000, .operator .minus, .number 8, .operator .divide,
      .number 2000], by decide, rfl⟩
    have hliteral : LiteralDivisors e.tokens := by
      intro i hi
      match i with
      | 3 => exact ⟨2000, rfl, trivial⟩
      | 0 | 1 | 2 | 4 | _ + 5 => cases hi
    have hnonzero : ¬ DividesByZero e.tokens := by
      rintro ⟨i, x, hi, hx, hzero⟩
      match i with
      | 3 =>
          cases hx
          exact absurd hzero (by decide +kernel)
      | 0 | 1 | 2 | 4 | _ + 5 => cases hi
    exact mt (hrat _ e (e.ofTokens_tokens (by decide)) rfl hliteral).mp hnonzero

/-- Below a negative threshold nothing is within the limit, zero included:
`8 / 0` is calculated as `0 / 1`. -/
example :
    (evaluateTokens { threshold := -1 } [.number (8 : Rat), .operator .divide,
      .number 0]).outcome.toOption = some 0 := by
  decide +kernel

end FourFunction
