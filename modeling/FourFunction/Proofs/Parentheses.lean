import FourFunction.Proofs.Groups
import FourFunction.Proofs.PostfixTrees
import FourFunction.Proofs.Replacements

/-!
# Parentheses isolate

Parentheses may be put around an accepted sequence, accepted sequences
in parentheses may be joined by an operator, and parentheses may be
doubled: the result is accepted, and nothing else changes about the
parts. Two things make it so. The conversion reads a group in the same
way wherever it stands (`readAll_inParens`), and the large-number rule
does not see across a parenthesis (`settle_append_inParens`). Neither
asks what the parts come to, so all this holds of sequences without a
value, too.
-/

namespace FourFunction

variable {α : Type}

/-! ## Records further on -/

namespace Replacement

theorem shift_shift (m n : Nat) (r : Replacement α) :
    (r.shift m).shift n = r.shift (m + n) := by
  simp [shift, Nat.add_assoc]

/-- The record after each of the parentheses at `first` and `last` has
been doubled: one position further on for each of them that is on its
left. -/
def doubled (first last : Nat) (r : Replacement α) : Replacement α :=
  r.shift ((if first < r.index then 1 else 0) + if last < r.index then 1 else 0)

theorem doubled_of_lt {first last : Nat} {r : Replacement α} (h : r.index < first)
    (hpair : first < last) : r.doubled first last = r := by
  rw [doubled, if_neg (by omega), if_neg (by omega)]
  rfl

theorem doubled_of_between {first last : Nat} {r : Replacement α}
    (hfirst : first < r.index) (hlast : r.index < last) :
    r.doubled first last = r.shift 1 := by
  rw [doubled, if_pos hfirst, if_neg (by omega)]

theorem doubled_of_gt {first last : Nat} {r : Replacement α} (h : last < r.index)
    (hpair : first < last) : r.doubled first last = r.shift 2 := by
  rw [doubled, if_pos (by omega), if_pos h]

end Replacement

theorem operation_inParens_eq (ts us : List (Token α)) (o : Operator) :
    inParens ts ++ .operator o :: inParens us =
      [] ++ inParens ts ++ ([.operator o] ++ inParens us ++ []) := by
  simp

variable [NumberDomain α]

/-! ## The large-number rule -/

theorem settle_append_inParens (limit? : Option α) (before ts after : List (Token α)) :
    settle limit? (before ++ inParens ts ++ after) =
      settle limit? before ++ inParens (settle limit? ts) ++ settle limit? after := by
  have hsplit : before ++ inParens ts ++ after =
      before ++ .openParen :: (ts ++ .closeParen :: after) := by
    simp [inParens]
  rw [hsplit, settle_append_paren rfl, settle_append_paren rfl]
  simp [inParens]

theorem replacements_append_inParens (limit? : Option α) (before ts after : List (Token α)) :
    replacements limit? (before ++ inParens ts ++ after) =
      replacements limit? before
        ++ (replacements limit? ts).map (Replacement.shift (before.length + 1))
        ++ (replacements limit? after).map
            (Replacement.shift (before.length + ts.length + 2)) := by
  have hsplit : before ++ inParens ts ++ after =
      before ++ .openParen :: (ts ++ .closeParen :: after) := by
    simp [inParens]
  have hlater : ts.length + 1 + (before.length + 1) = before.length + ts.length + 2 := by omega
  rw [hsplit, replacements_append_paren rfl, replacements_append_paren rfl]
  simp [Function.comp_def, Replacement.shift_shift, hlater]

theorem settle_nil (limit? : Option α) : settle limit? ([] : List (Token α)) = [] := by
  cases limit? <;> rfl

theorem settle_inParens (limit? : Option α) (ts : List (Token α)) :
    settle limit? (inParens ts) = inParens (settle limit? ts) := by
  simpa [settle_nil] using settle_append_inParens limit? [] ts []

theorem isSentence_settle {limit? : Option α} {ts : List (Token α)} :
    IsSentence (settle limit? ts) ↔ IsSentence ts := by
  rw [isSentence_iff_run, map_kind_settle, isSentence_iff_run]

theorem replacements_nil (limit? : Option α) :
    replacements limit? ([] : List (Token α)) = [] := by
  cases limit? <;> rfl

theorem replacements_inParens (limit? : Option α) (ts : List (Token α)) :
    replacements limit? (inParens ts) =
      (replacements limit? ts).map (Replacement.shift 1) := by
  simpa [replacements_nil] using replacements_append_inParens limit? [] ts []

/-! ### Groups joined by an operator -/

theorem settle_operator (limit? : Option α) (o : Operator) :
    settle limit? [.operator o] = [.operator o] := by
  cases limit? <;> rfl

theorem replacements_operator (limit? : Option α) (o : Operator) :
    replacements limit? [.operator o] = [] := by
  cases limit? <;> rfl

theorem settle_operation_inParens (limit? : Option α) (ts us : List (Token α)) (o : Operator) :
    settle limit? (inParens ts ++ .operator o :: inParens us) =
      inParens (settle limit? ts) ++ .operator o :: inParens (settle limit? us) := by
  rw [operation_inParens_eq, settle_append_inParens, settle_append_inParens, settle_operator,
    settle_nil, ← operation_inParens_eq]

theorem replacements_operation_inParens (limit? : Option α) (ts us : List (Token α))
    (o : Operator) :
    replacements limit? (inParens ts ++ .operator o :: inParens us) =
      (replacements limit? ts).map (Replacement.shift 1)
        ++ (replacements limit? us).map (Replacement.shift (ts.length + 4)) := by
  have hlater : 2 + (ts.length + 2) = ts.length + 4 := by omega
  rw [operation_inParens_eq, replacements_append_inParens, replacements_append_inParens,
    replacements_operator, replacements_nil]
  simp [Function.comp_def, Replacement.shift_shift, hlater]

/-! ### A group put in parentheses once more -/

theorem index_lt_of_mem_replacements {limit? : Option α} {ts : List (Token α)}
    {r : Replacement α} (h : r ∈ replacements limit? ts) : r.index < ts.length := by
  obtain ⟨_, -, -, hr, -⟩ := mem_replacements_iff.mp h
  exact (List.getElem?_eq_some_iff.mp hr).1

theorem replacements_double (limit? : Option α) (before inner after : List (Token α)) :
    replacements limit? (before ++ inParens (inParens inner) ++ after) =
      (replacements limit? (before ++ inParens inner ++ after)).map
        (Replacement.doubled before.length (before.length + inner.length + 1)) := by
  let moved : Replacement α → Replacement α :=
    Replacement.doubled before.length (before.length + inner.length + 1)
  have hbefore : (replacements limit? before).map moved = replacements limit? before := by
    refine (List.map_congr_left fun r hr => ?_).trans (List.map_id _)
    exact Replacement.doubled_of_lt (index_lt_of_mem_replacements hr) (by omega)
  have hinner : (replacements limit? inner).map (moved ∘ Replacement.shift (before.length + 1)) =
      (replacements limit? inner).map (Replacement.shift (before.length + 1) ∘
        Replacement.shift 1) := by
    refine List.map_congr_left fun r hr => ?_
    have hlt := index_lt_of_mem_replacements hr
    have hbetween : moved (r.shift (before.length + 1)) = (r.shift (before.length + 1)).shift 1 :=
      Replacement.doubled_of_between
        (show before.length < r.index + (before.length + 1) by omega)
        (show r.index + (before.length + 1) < before.length + inner.length + 1 by omega)
    rw [Function.comp_apply, hbetween, Function.comp_apply, Replacement.shift_shift,
      Replacement.shift_shift, Nat.add_comm]
  have hafter : moved ∘ Replacement.shift (before.length + inner.length + 2) =
      Replacement.shift (before.length + (inParens inner).length + 2) := by
    funext r
    have hgt : moved (r.shift (before.length + inner.length + 2)) = _ :=
      Replacement.doubled_of_gt
        (show before.length + inner.length + 1 < r.index + (before.length + inner.length + 2) by
          omega) (by omega)
    rw [Function.comp_apply, hgt, Replacement.shift_shift, length_inParens, ← Nat.add_assoc]
  show _ = (replacements limit? (before ++ inParens inner ++ after)).map moved
  simp only [replacements_append_inParens, replacements_inParens, List.map_append, List.map_map,
    hbefore, hinner, hafter]

/-! ## Values -/

theorem exists_tree_of_evaluatePostfix {ts : List (Token α)} {v : α}
    (h : evaluatePostfix ts = .ok v) : ∃ t : Tree α, t.postorder = ts ∧ t.value = .ok v := by
  have hverdict := stackVerdict_evaluatePostfix ts
  rw [h] at hverdict
  cases hverdict with
  | value hts hv => exact ⟨_, hts, hv⟩

/-- An operator behind two sequences with values acts on the values. -/
theorem evaluatePostfix_operation {ts us : List (Token α)} {a b : α}
    (hts : evaluatePostfix ts = .ok a) (hus : evaluatePostfix us = .ok b) (o : Operator) :
    evaluatePostfix (ts ++ us ++ [.operator o]) = o.apply a b := by
  obtain ⟨left, rfl, ha⟩ := exists_tree_of_evaluatePostfix hts
  obtain ⟨right, rfl, hb⟩ := exists_tree_of_evaluatePostfix hus
  have hvalue : (Tree.node o left right).value = o.apply a b := by
    rw [Tree.value_node, ha, hb]
    rfl
  exact ((Tree.node o left right).evaluatePostfix_postorder).trans hvalue

/-! ## Accepted sequences -/

namespace Expression

theorem exists_ofTokens (settings : Settings) {ts : List (Token α)}
    (hfin : ∀ x, .number x ∈ ts → NumberDomain.isFinite x = true) (hs : IsSentence ts)
    (hmin : minTokens ≤ ts.length) (hmax : ts.length ≤ settings.tokenLimit) :
    ∃ e : Expression α, ofTokens settings ts = .ok e ∧ e.tokens = ts := by
  obtain ⟨e, he⟩ := exists_tokens_eq hmin hfin hs
  exact ⟨e, ofTokens_eq_ok_iff.mpr ⟨lengthFault_eq_none_iff.mpr ⟨hmin, hmax⟩, he⟩, he⟩

/-- With a value, an accepted sequence has one of its postfix order. -/
theorem evaluatePostfix_of_outcome {settings : Settings} {e : Expression α} {v : α}
    (h : (evaluateTokens settings e.tokens).outcome = .ok v) :
    evaluatePostfix (e.toPostfix settings) = .ok v := by
  cases haccepted : ofTokens settings e.tokens with
  | error fault =>
      rw [outcome_evaluateTokens, haccepted] at h
      cases h
  | ok e' =>
      obtain rfl : e' = e := ext (ofTokens_eq_ok_iff.mp haccepted).2
      exact (outcome_evaluateTokens_of_ok haccepted).symm.trans h

variable (settings : Settings)

theorem exists_inParens (a : Expression α) (hmax : a.tokens.length + 2 ≤ settings.tokenLimit) :
    ∃ e, ofTokens settings (inParens a.tokens) = .ok e
      ∧ e.toPostfix settings = a.toPostfix settings
      ∧ e.replacements settings = (a.replacements settings).map (Replacement.shift 1) := by
  have hmin := a.minTokens_le
  have hfin : ∀ x, .number x ∈ inParens a.tokens → NumberDomain.isFinite x = true :=
    fun x hx => a.isFinite_of_mem x (number_mem_inParens.mp hx)
  obtain ⟨e, hok, he⟩ := exists_ofTokens settings hfin (isSentence_inParens a.isSentence)
    (by rw [length_inParens]; omega) (by rw [length_inParens]; exact hmax)
  refine ⟨e, hok, ?_, ?_⟩
  · rw [toPostfix, settledTokens, he, settle_inParens,
      toPostfix_inParens (isSentence_settle.mpr a.isSentence)]
    rfl
  · rw [replacements, he, replacements_inParens]
    rfl

theorem exists_operation (a b : Expression α) (o : Operator)
    (hmax : a.tokens.length + b.tokens.length + 5 ≤ settings.tokenLimit) :
    ∃ e, ofTokens settings (inParens a.tokens ++ .operator o :: inParens b.tokens) = .ok e
      ∧ e.toPostfix settings = a.toPostfix settings ++ b.toPostfix settings ++ [.operator o]
      ∧ e.replacements settings = (a.replacements settings).map (Replacement.shift 1)
          ++ (b.replacements settings).map (Replacement.shift (a.tokens.length + 4)) := by
  have hmin := a.minTokens_le
  have hlength : (inParens a.tokens ++ .operator o :: inParens b.tokens).length =
      a.tokens.length + b.tokens.length + 5 := by
    simp
    omega
  have hfin : ∀ x, .number x ∈ inParens a.tokens ++ .operator o :: inParens b.tokens →
      NumberDomain.isFinite x = true := by
    intro x hx
    rcases List.mem_append.mp hx with hx | hx
    · exact a.isFinite_of_mem x (number_mem_inParens.mp hx)
    · exact b.isFinite_of_mem x (number_mem_inParens.mp (by simpa using hx))
  obtain ⟨e, hok, he⟩ := exists_ofTokens settings hfin
    (isSentence_operation_inParens a.isSentence b.isSentence o) (by omega) (by omega)
  refine ⟨e, hok, ?_, ?_⟩
  · rw [toPostfix, settledTokens, he, settle_operation_inParens, toPostfix_operation_inParens
      (isSentence_settle.mpr a.isSentence) (isSentence_settle.mpr b.isSentence)]
    rfl
  · rw [replacements, he, replacements_operation_inParens]
    rfl

theorem exists_double (a : Expression α) {before inner after : List (Token α)}
    (ha : a.tokens = before ++ inParens inner ++ after)
    (hbalanced : Balanced (inner.map Token.kind))
    (hmax : a.tokens.length + 2 ≤ settings.tokenLimit) :
    ∃ e, ofTokens settings (before ++ inParens (inParens inner) ++ after) = .ok e
      ∧ e.toPostfix settings = a.toPostfix settings
      ∧ e.replacements settings = (a.replacements settings).map
          (Replacement.doubled before.length (before.length + inner.length + 1)) := by
  have hs : IsSentence (before ++ inParens inner ++ after) := ha ▸ a.isSentence
  have hinner := isSentence_of_balanced hs hbalanced
  have hmin := a.minTokens_le
  have hlength : (before ++ inParens (inParens inner) ++ after).length = a.tokens.length + 2 := by
    rw [ha]
    simp
    omega
  have hfin : ∀ x, .number x ∈ before ++ inParens (inParens inner) ++ after →
      NumberDomain.isFinite x = true := by
    intro x hx
    refine a.isFinite_of_mem x ?_
    simpa [ha] using hx
  obtain ⟨e, hok, he⟩ := exists_ofTokens settings hfin
    (isSentence_replace_group hinner (isSentence_inParens hinner) hs) (by omega) (by omega)
  refine ⟨e, hok, ?_, ?_⟩
  · rw [toPostfix, toPostfix, settledTokens, settledTokens, he, ha, settle_append_inParens,
      settle_append_inParens, settle_inParens, toPostfix_double (isSentence_settle.mpr hinner)]
  · rw [replacements, he, replacements_double, replacements, ha]

end Expression

/-- Parentheses isolate what stands in them, whatever it comes to and
under any settings that admit the longer sequence.

 - An accepted sequence in parentheses is accepted. It has the postfix
   order of the sequence itself, and its records one position further on.
 - Two accepted sequences in parentheses may be joined by an operator.
   The postfix order is that of the first, that of the second and the
   operator, and the records are those of both, moved to where the parts
   now stand. If both have values, the operator acts on the values, and
   that is what comes of the whole.
 - A pair of parentheses in an accepted sequence may be doubled. The
   postfix order stays, and the records only move along. -/
theorem parentheses_isolate (settings : Settings) (a b : Expression α) (o : Operator) :
    (a.tokens.length + 2 ≤ settings.tokenLimit →
        ∃ e, Expression.ofTokens settings (inParens a.tokens) = .ok e
          ∧ e.toPostfix settings = a.toPostfix settings
          ∧ e.replacements settings = (a.replacements settings).map (Replacement.shift 1))
      ∧ (a.tokens.length + b.tokens.length + 5 ≤ settings.tokenLimit →
        ∃ e, Expression.ofTokens settings
            (inParens a.tokens ++ .operator o :: inParens b.tokens) = .ok e
          ∧ e.toPostfix settings = a.toPostfix settings ++ b.toPostfix settings ++ [.operator o]
          ∧ e.replacements settings = (a.replacements settings).map (Replacement.shift 1)
              ++ (b.replacements settings).map (Replacement.shift (a.tokens.length + 4))
          ∧ ∀ x y, (evaluateTokens settings a.tokens).outcome = .ok x →
              (evaluateTokens settings b.tokens).outcome = .ok y →
              (evaluateTokens settings e.tokens).outcome = o.apply x y)
      ∧ ∀ before inner after, a.tokens = before ++ inParens inner ++ after →
          Balanced (inner.map Token.kind) → a.tokens.length + 2 ≤ settings.tokenLimit →
          ∃ e, Expression.ofTokens settings (before ++ inParens (inParens inner) ++ after) = .ok e
            ∧ e.toPostfix settings = a.toPostfix settings
            ∧ e.replacements settings = (a.replacements settings).map
                (Replacement.doubled before.length (before.length + inner.length + 1)) := by
  refine ⟨a.exists_inParens settings, fun hmax => ?_, fun before inner after =>
    a.exists_double settings⟩
  obtain ⟨e, hok, hpostfix, hrecords⟩ := a.exists_operation settings b o hmax
  refine ⟨e, hok, hpostfix, hrecords, fun x y hx hy => ?_⟩
  have hvalue := evaluatePostfix_operation (Expression.evaluatePostfix_of_outcome hx)
    (Expression.evaluatePostfix_of_outcome hy) o
  have htokens := (Expression.ofTokens_eq_ok_iff.mp hok).2
  rw [htokens, outcome_evaluateTokens_of_ok hok, hpostfix, hvalue]

/-- `( 2 * ( 1001 + 5 ) ) / ( 1 + 1 )`, of which the parts come to 10 and 2,
and `2 * ( ( 1001 + 5 ) )`, where the record of the large number moves on
by one position. -/
theorem parentheses_isolate_quotient :
    let a : List (Token Rat) := [.number 2, .operator .times, .openParen, .number 1001,
      .operator .plus, .number 5, .closeParen]
    let b : List (Token Rat) := [.number 1, .operator .plus, .number 1]
    (∃ e : Expression Rat, Expression.ofTokens {} (inParens a) = .ok e
        ∧ (e.replacements {}).map Replacement.index = [4])
      ∧ (∃ e : Expression Rat,
          Expression.ofTokens {} (inParens a ++ .operator .divide :: inParens b) = .ok e
            ∧ (evaluateTokens {} e.tokens).outcome = .ok 5)
      ∧ ∃ e : Expression Rat, Expression.ofTokens {} [.number 2, .operator .times, .openParen,
            .openParen, .number 1001, .operator .plus, .number 5, .closeParen, .closeParen] = .ok e
          ∧ (e.replacements {}).map Replacement.index = [4] := by
  intro a b
  let left : Expression Rat := ⟨a, by decide, by decide⟩
  let right : Expression Rat := ⟨b, by decide, by decide⟩
  have hindex : (left.replacements {}).map Replacement.index = [3] := by decide +kernel
  obtain ⟨r, hrecords, hr⟩ := List.map_eq_singleton_iff.mp hindex
  have hleft : (evaluateTokens {} left.tokens).outcome = .ok 10 :=
    eq_ok_of_toOption (by decide +kernel)
  have hright : (evaluateTokens {} right.tokens).outcome = .ok 2 :=
    eq_ok_of_toOption (by decide +kernel)
  have hquotient : Operator.divide.apply (10 : Rat) 2 = .ok 5 :=
    eq_ok_of_toOption (by decide +kernel)
  have hbalanced : Balanced (List.map Token.kind [Token.number (1001 : Rat), .operator .plus,
      .number 5]) := by
    refine ⟨fun n => Nat.le_trans ((List.take_sublist n _).count_le Kind.closing) ?_, rfl⟩
    exact Nat.zero_le _
  obtain ⟨hgroup, hoperation, hdouble⟩ := parentheses_isolate {} left right .divide
  obtain ⟨e, hok, -, hmoved⟩ := hgroup (by decide)
  obtain ⟨e', hok', -, -, hvalue⟩ := hoperation (by decide)
  obtain ⟨e'', hok'', -, hmoved''⟩ := hdouble [.number 2, .operator .times]
    [.number 1001, .operator .plus, .number 5] [] rfl hbalanced (by decide)
  refine ⟨⟨e, hok, ?_⟩, ⟨e', hok', (hvalue 10 2 hleft hright).trans hquotient⟩, e'', hok'', ?_⟩
  · rw [hmoved, hrecords]
    show [r.index + 1] = [4]
    rw [hr]
  · rw [hmoved'', hrecords]
    show [r.index + ((if 2 < r.index then 1 else 0) + if 6 < r.index then 1 else 0)] = [4]
    rw [hr]
    rfl

end FourFunction
