import FourFunction.Proofs.Acceptance
import FourFunction.Proofs.Postorder

/-!
# One derivation

The tokens of arithmetic leave no choice: two derivations of the same
tokens are the same. What a choice could be about is the operator that
acts last. It stands outside all groups, so what is in front of it is a
sentence of its own; and what is behind it holds only operators outside
groups that bind tighter (`BindsFrom`). Of two operators for which both
is true neither can stand behind the other, so they are the same one
(`operation_inj`), and the rest is induction (`Derivation.tokens_inj`).

With the one derivation there is one tree, and the postfix order lists
it.
-/

namespace FourFunction

variable {α : Type}

/-! ## Operators outside groups -/

/-- Two ways to split a list at an element. -/
theorem append_cons_eq_append_cons {β : Type} {xs xs' ys ys' : List β} {x x' : β}
    (h : xs ++ x :: ys = xs' ++ x' :: ys') :
    (xs = xs' ∧ x = x' ∧ ys = ys')
      ∨ (∃ mid, xs' = xs ++ x :: mid ∧ ys = mid ++ x' :: ys')
      ∨ ∃ mid, xs = xs' ++ x' :: mid ∧ ys' = mid ++ x :: ys := by
  rcases List.append_eq_append_iff.mp h with ⟨mid, hxs, hys⟩ | ⟨mid, hxs, hys⟩
  · cases mid with
    | nil => simp_all
    | cons y mid =>
        obtain ⟨rfl, rfl⟩ := List.cons.inj hys
        exact Or.inr (Or.inl ⟨mid, hxs, rfl⟩)
  · cases mid with
    | nil => simp_all
    | cons y mid =>
        obtain ⟨rfl, rfl⟩ := List.cons.inj hys
        exact Or.inr (Or.inr ⟨mid, hxs, rfl⟩)

/-- What is left of a sentence behind a sentence and an operator is a
sentence. -/
theorem IsSentence.of_operation {ts us : List (Token α)} {o : Operator}
    (h : IsSentence (ts ++ .operator o :: us)) (hts : IsSentence ts) : IsSentence us := by
  rw [isSentence_iff_run] at h hts ⊢
  rw [List.map_append, Stand.run_append, hts] at h
  exact h

/-- Every operator outside the groups of `ts` binds at least as tightly as
`bound` says. -/
def BindsFrom (bound : Nat) (ts : List (Token α)) : Prop :=
  ∀ before o after, ts = before ++ .operator o :: after → IsSentence before →
    bound ≤ o.precedence

theorem BindsFrom.mono {bound bound' : Nat} {ts : List (Token α)} (h : BindsFrom bound ts)
    (hle : bound' ≤ bound) : BindsFrom bound' ts :=
  fun before o after hts hs => Nat.le_trans hle (h before o after hts hs)

theorem bindsFrom_number (bound : Nat) (x : α) : BindsFrom bound [.number x] := by
  intro before o after hts _
  cases before <;> simp at hts

/-- With a parenthesis open from the start, something is open at every
place before the last. -/
theorem Stand.run_raised {s final : Stand} {ks : List Kind} (h : s.run ks = some final) :
    Stand.run ⟨s.ended, s.depth + 1⟩ ks = some ⟨final.ended, final.depth + 1⟩ := by
  induction ks generalizing s with
  | nil =>
      cases h
      rfl
  | cons k rest ih =>
      obtain ⟨next, hstep, hrest⟩ := Option.bind_eq_some_iff.mp h
      have hraised : Stand.step ⟨s.ended, s.depth + 1⟩ k = some ⟨next.ended, next.depth + 1⟩ := by
        obtain ⟨ended, depth⟩ := s
        cases k <;> cases ended <;> cases depth <;> cases hstep <;> rfl
      rw [run_cons, hraised]
      exact ih hrest

theorem bindsFrom_group (bound : Nat) {ts : List (Token α)} (hts : IsSentence ts) :
    BindsFrom bound (.openParen :: ts ++ [.closeParen]) := by
  intro before o after hsplit hbefore
  cases before with
  | nil => cases hsplit
  | cons t inner =>
      obtain ⟨rfl, hinner⟩ := List.cons.inj hsplit
      rcases append_cons_eq_append_cons hinner with ⟨-, ho, -⟩ | ⟨mid, -, hmid⟩ | ⟨mid, hmid, -⟩
      · cases ho
      · cases mid <;> cases hmid
      · -- the operator is inside the group, where the parenthesis is still open
        rw [hmid, isSentence_iff_run, List.map_append, Stand.run_append] at hts
        obtain ⟨s, hs, -⟩ := Option.bind_eq_some_iff.mp hts
        have hopen : Stand.start.run ((Token.openParen :: inner).map Token.kind) =
            some ⟨s.ended, s.depth + 1⟩ := Stand.run_raised hs
        rw [isSentence_iff_run, hopen] at hbefore
        exact absurd (congrArg Stand.depth (Option.some.inj hbefore)) (Nat.succ_ne_zero _)

theorem BindsFrom.operation {bound : Nat} {o : Operator} {ls rs : List (Token α)}
    (hl : BindsFrom bound ls) (hls : IsSentence ls) (ho : bound ≤ o.precedence)
    (hr : BindsFrom bound rs) : BindsFrom bound (ls ++ .operator o :: rs) := by
  intro before o' after hsplit hbefore
  rcases append_cons_eq_append_cons hsplit with ⟨-, heq, -⟩ | ⟨mid, rfl, hmid⟩ | ⟨mid, hmid, -⟩
  · cases heq
    exact ho
  · exact hr mid o' after hmid (hbefore.of_operation hls)
  · exact hl before o' mid hmid hbefore

/-- The last operator that binds no tighter than `bound` can stand in one
place only. -/
theorem operation_inj {bound : Nat} {o o' : Operator} {ls ls' rs rs' : List (Token α)}
    (hls : IsSentence ls) (hls' : IsSentence ls') (ho : o.precedence = bound)
    (ho' : o'.precedence = bound) (hr : BindsFrom (bound + 1) rs)
    (hr' : BindsFrom (bound + 1) rs')
    (h : ls ++ .operator o :: rs = ls' ++ .operator o' :: rs') :
    ls = ls' ∧ o = o' ∧ rs = rs' := by
  rcases append_cons_eq_append_cons h with ⟨hl, heq, hrs⟩ | ⟨mid, rfl, hmid⟩ | ⟨mid, rfl, hmid⟩
  · exact ⟨hl, Token.operator.inj heq, hrs⟩
  · have hlt := hr mid o' rs' hmid (hls'.of_operation hls)
    omega
  · have hlt := hr' mid o rs hmid (hls.of_operation hls')
    omega

/-! ## Derivations -/

namespace Derivation

theorem bindsFrom {c : Category} (d : Derivation α c) : BindsFrom c.bound d.tokens := by
  induction d with
  | number x => exact bindsFrom_number _ x
  | group inner _ => exact bindsFrom_group _ inner.isSentence
  | ofFactor f ih => exact ih.mono (by decide)
  | multiplied left o ho right ihl ihr =>
      have hprecedence := Operator.precedence_eq_two_iff.mpr ho
      exact ihl.operation left.isSentence (Nat.le_of_eq hprecedence.symm) (ihr.mono (by decide))
  | ofProduct p ih => exact ih.mono (by decide)
  | added left o ho right ihl ihr =>
      have hprecedence := Operator.precedence_eq_one_iff.mpr ho
      exact ihl.operation left.isSentence (Nat.le_of_eq hprecedence.symm) (ihr.mono (by decide))

/-- No derivation of a tighter category derives an operation. -/
theorem tokens_ne_operation {c c' : Category} {o : Operator} (d : Derivation α c)
    (left : Derivation α c') {rs : List (Token α)} (ho : o.precedence < c.bound) :
    d.tokens ≠ left.tokens ++ .operator o :: rs := by
  intro h
  have hle := d.bindsFrom left.tokens o rs h left.isSentence
  omega

/-- A derivation is determined by what it derives. -/
theorem tokens_inj {c : Category} {d d' : Derivation α c} (h : d.tokens = d'.tokens) : d = d' := by
  induction d with
  | number x =>
      cases d' with
      | number y =>
          cases h
          rfl
      | group inner' => cases h
  | group inner ih =>
      cases d' with
      | number y => cases h
      | group inner' =>
          have hinner := List.append_cancel_right (List.cons.inj h).2
          rw [ih hinner]
  | ofFactor f ih =>
      cases d' with
      | ofFactor f' => rw [ih h]
      | multiplied left' o' ho' right' =>
          have hprecedence := Operator.precedence_eq_two_iff.mpr ho'
          exact absurd h (f.tokens_ne_operation left' (by rw [hprecedence]; decide))
  | multiplied left o ho right ihl ihr =>
      have hprecedence := Operator.precedence_eq_two_iff.mpr ho
      cases d' with
      | ofFactor f' =>
          exact absurd h.symm (f'.tokens_ne_operation left (by rw [hprecedence]; decide))
      | multiplied left' o' ho' right' =>
          obtain ⟨hl, rfl, hr⟩ := operation_inj left.isSentence left'.isSentence hprecedence
            (Operator.precedence_eq_two_iff.mpr ho') right.bindsFrom right'.bindsFrom h
          rw [ihl hl, ihr hr]
  | ofProduct p ih =>
      cases d' with
      | ofProduct p' => rw [ih h]
      | added left' o' ho' right' =>
          have hprecedence := Operator.precedence_eq_one_iff.mpr ho'
          exact absurd h (p.tokens_ne_operation left' (by rw [hprecedence]; decide))
  | added left o ho right ihl ihr =>
      have hprecedence := Operator.precedence_eq_one_iff.mpr ho
      cases d' with
      | ofProduct p' =>
          exact absurd h.symm (p'.tokens_ne_operation left (by rw [hprecedence]; decide))
      | added left' o' ho' right' =>
          obtain ⟨hl, rfl, hr⟩ := operation_inj left.isSentence left'.isSentence hprecedence
            (Operator.precedence_eq_one_iff.mpr ho') right.bindsFrom right'.bindsFrom h
          rw [ihl hl, ihr hr]

end Derivation

/-! ## The tree of an expression -/

variable [NumberDomain α]

/-- An expression in which nothing is juxtaposed has one derivation, and
under any settings its postfix order is the postorder of the tree of that
derivation, with the numbers of the large-number rule at the leaves. -/
theorem toPostfix_eq_postorder (e : Expression α) (h : juxtapositions e.tokens = 0) :
    ∃ d : Derivation α .sum, d.tokens = e.tokens
      ∧ (∀ other : Derivation α .sum, other.tokens = e.tokens → other = d)
      ∧ ∀ settings, e.toPostfix settings = (d.settled settings).tree.postorder := by
  obtain ⟨d, hd⟩ := isArithmetic_iff.mpr ⟨e.isSentence, h⟩
  exact ⟨d, hd, fun _ hother => Derivation.tokens_inj (hother.trans hd.symm),
    fun settings => e.toPostfix_of_derivation settings d hd.symm⟩

/-- In `2000 / 4 - ( 1 - 3 )` the subtraction acts last, though it stands
before another one. -/
theorem toPostfix_eq_postorder_group :
    let ts : List (Token Rat) := [.number 2000, .operator .divide, .number 4, .operator .minus,
      .openParen, .number 1, .operator .minus, .number 3, .closeParen]
    ∃ e : Expression Rat, e.tokens = ts ∧ juxtapositions e.tokens = 0
      ∧ ∃ d : Derivation Rat .sum, d.tokens = ts
          ∧ (d.settled {}).tree.postorder = [.number 16, .number 4, .operator .divide, .number 1,
              .number 3, .operator .minus, .operator .minus] := by
  intro ts
  let e : Expression Rat := ⟨ts, by decide, by decide⟩
  have hnone : juxtapositions e.tokens = 0 := by decide
  obtain ⟨d, hd, -, horder⟩ := toPostfix_eq_postorder e hnone
  have hpostfix : e.toPostfix {} = [.number 16, .number 4, .operator .divide, .number 1,
      .number 3, .operator .minus, .operator .minus] := by decide +kernel
  exact ⟨e, rfl, hnone, d, hd, (horder {}).symm.trans hpostfix⟩

end FourFunction
