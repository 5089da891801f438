import Mathlib.Algebra.Field.Rat
import FourFunction.Proofs.Settling
import FourFunction.Proofs.Outcome
import FourFunction.Proofs.PartialResults

/-!
# Large numbers are neutral

Calculated without rounding, a number beyond the limit makes no
difference: the sequence comes to the same with it and without it, and
without the operator it goes with. `WithoutNeutral` lists where that is
so. Two things have to be shown of each of these places.

- The rule must not see the difference from anywhere else: what it looks
  at is next to a number, and there the two sequences agree as far as it
  asks (`exists_settled_replace`).
- What the rule puts in must have no effect on what is calculated there,
  with the precedence of the operators around it taken into account; that
  is the matter of `stackAfter_trailing`, `stackAfter_leading` and
  `stackAfter_dividend`.
-/

namespace FourFunction

/-! ## Neutral places -/

/-- The second sequence is the first without an operand beyond `t`, and
without its operator, where both may be missing. -/
inductive WithoutNeutral (t : Rat) : List (Token Rat) → List (Token Rat) → Prop where
  /-- Behind `+` or `-`, unless `*` or `/` comes next. -/
  | summand {p q : List (Token Rat)} {o : Operator} {x : Rat} :
      o = .plus ∨ o = .minus → t < x.abs →
      (∀ u, q.head? = some u →
        u = .operator .plus ∨ u = .operator .minus ∨ u = .closeParen) →
      WithoutNeutral t (p ++ [Token.operator o, .number x] ++ q) (p ++ q)
  /-- Behind `*` or `/`, unless the number before it is as large, or would
  become the square of a divisor. -/
  | factor {p q : List (Token Rat)} {o : Operator} {x : Rat} :
      o = .times ∨ o = .divide → t < x.abs →
      (∀ y, p.getLast? = some (.number y) → y.abs ≤ t) →
      (o = .times → ∀ b rest, q ≠ .operator .divide :: .number b :: rest) →
      WithoutNeutral t (p ++ [Token.operator o, .number x] ++ q) (p ++ q)
  /-- Divided by a number, unless it is a divisor itself. -/
  | dividend {p q : List (Token Rat)} {x b : Rat} : t < x.abs → b ≠ 0 → b.abs ≤ t →
      p.getLast? ≠ some (.operator .divide) →
      WithoutNeutral t (p ++ [Token.number x, .operator .divide, .number b] ++ q)
        (p ++ [Token.number b] ++ q)
  /-- The first factor of a product, unless the second is as large. -/
  | leadingFactor {p q : List (Token Rat)} {x : Rat} : t < x.abs →
      (∀ u, p.getLast? = some u →
        u = .operator .plus ∨ u = .operator .minus ∨ u = .openParen) →
      (∀ y, q.head? = some (.number y) → y.abs ≤ t) →
      WithoutNeutral t (p ++ [Token.number x, .operator .times] ++ q) (p ++ q)
  /-- The first summand of a sum, or one between two `+`. -/
  | leadingSummand {p q : List (Token Rat)} {x : Rat} : t < x.abs →
      (∀ u, p.getLast? = some u → u = .operator .plus ∨ u = .openParen) →
      WithoutNeutral t (p ++ [Token.number x, .operator .plus] ++ q) (p ++ q)

/-! ## Operands without effect -/

namespace Rational

theorem exceeds_iff {x t : Rat} : NumberDomain.exceeds x t = true ↔ t < x.abs := by
  simp [NumberDomain.exceeds, NumberDomain.le, NumberDomain.abs]

theorem exceeds_eq_false {x t : Rat} (h : x.abs ≤ t) : NumberDomain.exceeds x t = false :=
  Bool.eq_false_iff.mpr fun hexceeds => absurd (exceeds_iff.mp hexceeds) (Rat.not_lt.mpr h)

theorem apply_zero {o : Operator} (h : o = .plus ∨ o = .minus) (a : Rat) :
    o.apply a NumberDomain.zero = .ok a := by
  rcases h with rfl | rfl
  · exact congrArg Except.ok (add_zero a)
  · exact congrArg Except.ok (sub_zero a)

theorem zero_plus (v : Rat) : Operator.plus.apply NumberDomain.zero v = .ok v :=
  congrArg Except.ok (zero_add v)

theorem apply_divide {b : Rat} (h : b ≠ 0) (a : Rat) : Operator.divide.apply a b = .ok (a / b) := by
  have hzero : NumberDomain.isZero b = false := beq_false_of_ne h
  simp only [Operator.apply, hzero]
  rfl

theorem apply_one {o : Operator} (h : o = .times ∨ o = .divide) (a : Rat) :
    o.apply a NumberDomain.one = .ok a := by
  rcases h with rfl | rfl
  · exact congrArg Except.ok (mul_one a)
  · exact (apply_divide one_ne_zero a).trans (congrArg Except.ok (div_one a))

theorem one_times (v : Rat) : Operator.times.apply NumberDomain.one v = .ok v :=
  congrArg Except.ok (one_mul v)

theorem square_divide {b : Rat} (h : b ≠ 0) :
    Operator.divide.apply (NumberDomain.square b) b = .ok b :=
  (apply_divide h _).trans (congrArg Except.ok (mul_div_cancel_right₀ b h))

theorem product_square_divide {b : Rat} (h : b ≠ 0) (a : Rat) :
    Operator.divide.apply (NumberDomain.mul a (NumberDomain.square b)) b =
      .ok (NumberDomain.mul a b) := by
  have hcancel : a * (b * b) / b = a * b := by rw [← mul_assoc, mul_div_cancel_right₀ _ h]
  exact (apply_divide h _).trans (congrArg Except.ok hcancel)

end Rational

/-! ## Where the pieces stand -/

section Stands

variable {α : Type}

/-- The machine of `Stand` before a piece that ends an accepted sequence
with no group right behind an operand. -/
theorem exists_run_of_append {ts q : List (Token α)} (hs : IsSentence (ts ++ q))
    (hnone : juxtapositions (ts ++ q) = 0) :
    ∃ s, Stand.start.run (ts.map Token.kind) = some s
      ∧ s.run (q.map Token.kind) = some .finish
      ∧ juxtapositionsAfter s.ended (q.map Token.kind) = 0 := by
  have hrun := isSentence_iff_run.mp hs
  rw [List.map_append, Stand.run_append] at hrun
  obtain ⟨s, hts, hq⟩ := Option.bind_eq_some_iff.mp hrun
  have happend := juxtapositionsAfter_append hts (q.map Token.kind)
  rw [← List.map_append] at happend
  have hall := happend.symm.trans ((juxtapositions_eq _).symm.trans hnone)
  exact ⟨s, hts, hq, Nat.eq_zero_of_add_eq_zero_left hall⟩

theorem run_of_trailing {p : List (Token α)} {o : Operator} {x : α} {s : Stand}
    (h : Stand.start.run ((p ++ [Token.operator o, .number x]).map Token.kind) = some s) :
    ∃ depth, Stand.start.run (p.map Token.kind) = some ⟨true, depth⟩ ∧ s = ⟨true, depth⟩ := by
  rw [List.map_append, Stand.run_append] at h
  obtain ⟨⟨ended, depth⟩, hp, hrest⟩ := Option.bind_eq_some_iff.mp h
  cases ended with
  | false => cases hrest
  | true => exact ⟨depth, hp, (Option.some.inj hrest).symm⟩

theorem run_of_leading {p : List (Token α)} {o : Operator} {x : α} {s : Stand}
    (h : Stand.start.run ((p ++ [Token.number x, .operator o]).map Token.kind) = some s) :
    ∃ depth, Stand.start.run (p.map Token.kind) = some ⟨false, depth⟩ ∧ s = ⟨false, depth⟩ := by
  rw [List.map_append, Stand.run_append] at h
  obtain ⟨⟨ended, depth⟩, hp, hrest⟩ := Option.bind_eq_some_iff.mp h
  cases ended with
  | false => exact ⟨depth, hp, (Option.some.inj hrest).symm⟩
  | true => cases hrest

/-- What a piece ends with says whether an operand has ended. -/
theorem endsOperand_of_run {p : List (Token α)} {t : Token α} {s : Stand}
    (h : Stand.start.run (p.map Token.kind) = some s) (hlast : p.getLast? = some t) :
    t.kind.endsOperand = s.ended := by
  obtain ⟨front, rfl⟩ := List.getLast?_eq_some_iff.mp hlast
  rw [List.map_append, Stand.run_append] at h
  obtain ⟨mid, -, hrest⟩ := Option.bind_eq_some_iff.mp h
  obtain ⟨next, hstep, hnil⟩ := Option.bind_eq_some_iff.mp hrest
  cases hnil
  exact (Stand.ended_of_step hstep).symm

/-- A product that begins behind `p` does not act on what is before it,
unless `p` ends with `*` or `/`. -/
theorem holdsBack_or_times {p : List (Token α)} {depth : Nat}
    (h : Stand.start.run (p.map Token.kind) = some ⟨false, depth⟩)
    (hlast : p.getLast? ≠ some (.operator .divide)) :
    HoldsBack 2 p ∨ p.getLast? = some (.operator .times) := by
  by_cases htimes : p.getLast? = some (.operator .times)
  · exact Or.inr htimes
  · refine Or.inl fun u hu => ?_
    have hended := endsOperand_of_run h hu
    cases u with
    | number y => cases hended
    | closeParen => cases hended
    | openParen => exact Or.inl rfl
    | operator o =>
        refine Or.inr ⟨o, rfl, ?_⟩
        cases o with
        | times => exact absurd hu htimes
        | divide => exact absurd hu hlast
        | _ => decide

end Stands

/-! ## Pieces of a settled sequence -/

section Pieces

variable {α : Type} [NumberDomain α] {limit? : Option α}

/-- What releases operators is no number. -/
theorem Releases.exceeds_eq_false {bound : Nat} {ts : List (Token α)} (h : Releases bound ts)
    (limit? : Option α) : ∀ t, ts.head? = some t → limit?.any t.exceeds = false := by
  intro t ht
  rcases h t ht with rfl | ⟨o, rfl, -⟩ <;> cases limit? <;> rfl

/-- Nor is what holds them back; and if it holds back products, it is no
`/`. -/
theorem HoldsBack.exceeds_eq_false {bound : Nat} {ts : List (Token α)} (h : HoldsBack bound ts)
    (limit? : Option α) : ∀ t, ts.getLast? = some t → limit?.any t.exceeds = false := by
  intro t ht
  rcases h t ht with rfl | ⟨o, rfl, -⟩ <;> cases limit? <;> rfl

omit [NumberDomain α] in
theorem HoldsBack.ne_divide {bound : Nat} {ts : List (Token α)} (h : HoldsBack bound ts)
    (hbound : bound ≤ 2) : ∀ t, ts.getLast? = some t → t ≠ .operator .divide := by
  rintro _ ht rfl
  rcases h _ ht with hopen | ⟨o, ho, hlt⟩
  · cases hopen
  · cases ho
    exact absurd (Nat.lt_of_lt_of_le hlt hbound) (Nat.lt_irrefl 2)

/-- The piece `ts` is calculated with as `us`, in some surroundings. -/
def SettledAs (limit? : Option α) (ts us : List (Token α)) : Prop :=
  ∃ before follow, us = settleBetween limit? before follow ts

namespace SettledAs

variable {ts us : List (Token α)}

theorem map_kind (h : SettledAs limit? ts us) : us.map Token.kind = ts.map Token.kind := by
  obtain ⟨before, follow, rfl⟩ := h
  exact map_kind_decided limit? before follow ts

theorem releases {bound : Nat} (h : SettledAs limit? ts us) (hts : Releases bound ts) :
    Releases bound us := by
  obtain ⟨before, follow, rfl⟩ := h
  cases ts with
  | nil => exact hts
  | cons t rest =>
      intro u hu
      have hhead := head?_settleBetween (List.head?_cons (l := rest))
        (hts.exceeds_eq_false limit? t rfl) before follow
      obtain rfl : t = u := Option.some.inj (hhead.symm.trans hu)
      exact hts t rfl

theorem getLast? {t : Token α} (h : SettledAs limit? ts us) (hlast : ts.getLast? = some t)
    (ht : limit?.any t.exceeds = false) : us.getLast? = some t := by
  obtain ⟨before, follow, rfl⟩ := h
  exact getLast?_settleBetween hlast ht before follow

theorem holdsBack {bound : Nat} (h : SettledAs limit? ts us) (hts : HoldsBack bound ts) :
    HoldsBack bound us := by
  cases hlast : ts.getLast? with
  | none =>
      obtain rfl : ts = [] := List.getLast?_eq_none_iff.mp hlast
      obtain ⟨before, follow, rfl⟩ := h
      exact hts
  | some t =>
      intro u hu
      have hsame := h.getLast? hlast (hts.exceeds_eq_false limit? t hlast)
      obtain rfl : t = u := Option.some.inj (hsame.symm.trans hu)
      exact hts t hlast

end SettledAs

/-- What stands between two pieces may be exchanged, if neither piece is
decided by it. -/
theorem exists_settled_replace {p mid mid' q : List (Token α)}
    (hp : decisions limit? none (mid ++ q) p = decisions limit? none (mid' ++ q) p)
    (hq : decisions limit? (mid.getLast?.or p.getLast?) [] q =
      decisions limit? (mid'.getLast?.or p.getLast?) [] q) :
    ∃ P Q, SettledAs limit? p P ∧ SettledAs limit? q Q
      ∧ settle limit? (p ++ mid ++ q) = P ++ settleBetween limit? p.getLast? q mid ++ Q
      ∧ settle limit? (p ++ mid' ++ q) = P ++ settleBetween limit? p.getLast? q mid' ++ Q := by
  have hsplit : ∀ m, settle limit? (p ++ m ++ q) = settleBetween limit? none (m ++ q) p
      ++ settleBetween limit? p.getLast? q m
      ++ settleBetween limit? (m.getLast?.or p.getLast?) [] q := by
    intro m
    simp only [settle_eq_settleBetween, settleBetween_append, List.append_assoc, List.append_nil,
      Option.or_none]
  refine ⟨_, _, ⟨none, mid' ++ q, rfl⟩, ⟨mid'.getLast?.or p.getLast?, [], rfl⟩, ?_, hsplit mid'⟩
  rw [hsplit mid]
  simp only [settleBetween, hp, hq]

/-- The same when the piece in between is left out. -/
theorem exists_settled_remove {p mid q : List (Token α)}
    (hp : decisions limit? none (mid ++ q) p = decisions limit? none q p)
    (hq : decisions limit? (mid.getLast?.or p.getLast?) [] q =
      decisions limit? p.getLast? [] q) :
    ∃ P Q, SettledAs limit? p P ∧ SettledAs limit? q Q
      ∧ settle limit? (p ++ mid ++ q) = P ++ settleBetween limit? p.getLast? q mid ++ Q
      ∧ settle limit? (p ++ q) = P ++ Q := by
  have hp' : decisions limit? none (mid ++ q) p = decisions limit? none ([] ++ q) p := hp
  obtain ⟨P, Q, hP, hQ, hwith, hwithout⟩ := exists_settled_replace hp' hq
  refine ⟨P, Q, hP, hQ, hwith, ?_⟩
  simpa [settleBetween, decisions] using hwithout

/-! ### What is put in -/

section Limit

variable {limit x y : α} {o : Operator} {before : Option (Token α)} {q : List (Token α)}

theorem decided_of_exceeds (hx : NumberDomain.exceeds x limit = true)
    (after next : Option (Token α)) :
    decided (Context.decision (some limit) ⟨before, .number x, after, next⟩) =
      .number (Context.standIn ⟨before, .number x, after, next⟩) := by
  rw [decided_decision_some]
  simp [Context.settled, Context.replaced?, hx]

theorem settleBetween_trailing (hx : NumberDomain.exceeds x limit = true)
    (hy : Context.standIn ⟨some (.operator o), .number x, q[0]?, q[1]?⟩ = y) :
    settleBetween (some limit) before q [.operator o, .number x] =
      [.operator o, .number y] := by
  rw [settleBetween, decisions_cons_of_not_exceeds rfl, decisions, decisions, List.map_cons,
    List.map_cons, List.nil_append, decided_of_exceeds hx, hy]
  rfl

theorem settleBetween_leading (hx : NumberDomain.exceeds x limit = true)
    (hy : Context.standIn ⟨before, .number x, some (.operator o), q[0]?⟩ = y) :
    settleBetween (some limit) before q [.number x, .operator o] =
      [.number y, .operator o] := by
  rw [settleBetween, decisions, decisions_cons_of_not_exceeds rfl, decisions, List.map_cons]
  show decided (Context.decision _ ⟨before, .number x, some (.operator o), q[0]?⟩) :: _ = _
  rw [decided_of_exceeds hx, hy]
  rfl

theorem settleBetween_dividend {b : α} (hx : NumberDomain.exceeds x limit = true)
    (hb : NumberDomain.exceeds b limit = false) (hbefore : before ≠ some (.operator .divide)) :
    settleBetween (some limit) before q [.number x, .operator .divide, .number b] =
      [.number (NumberDomain.square b), .operator .divide, .number b] := by
  have hstandIn : Context.standIn ⟨before, .number x, some (.operator .divide),
      some (.number b)⟩ = NumberDomain.square b := by
    rw [Context.standIn_eq, if_neg (mt bind_operator?_eq_some_iff.mp hbefore)]
    rfl
  have hstays : Option.any (fun l => Token.exceeds l (.number b)) (some limit) = false := hb
  rw [settleBetween, decisions, decisions_cons_of_not_exceeds rfl,
    decisions_cons_of_not_exceeds hstays, List.map_cons]
  show decided (Context.decision _ ⟨before, .number x, some (.operator .divide),
    some (.number b)⟩) :: _ = _
  rw [decided_of_exceeds hx, hstandIn]
  rfl

theorem settleBetween_number {b : α} (hb : NumberDomain.exceeds b limit = false) :
    settleBetween (some limit) before q [.number b] = [.number b] := by
  have hstays : Option.any (fun l => Token.exceeds l (.number b)) (some limit) = false := hb
  rw [settleBetween, decisions_cons_of_not_exceeds hstays]
  rfl

end Limit

/-! ### Taking an operand out -/

section Removal

variable {limit x y : α} {o : Operator} {p q : List (Token α)}

/-- Behind its operator. -/
theorem stackAfter_remove_trailing (hneutral : ∀ a, o.apply a y = .ok a)
    (hx : NumberDomain.exceeds x limit = true)
    (hy : Context.standIn ⟨some (.operator o), .number x, q[0]?, q[1]?⟩ = y)
    (hp : decisions (some limit) none ([Token.operator o, .number x] ++ q) p =
      decisions (some limit) none q p)
    (hq : Releases o.precedence q) (hs : IsSentence (p ++ [Token.operator o, .number x] ++ q))
    (hnone : juxtapositions (p ++ [Token.operator o, .number x] ++ q) = 0) :
    stackAfter [] (toPostfix (settle (some limit) (p ++ [Token.operator o, .number x] ++ q))) =
      stackAfter [] (toPostfix (settle (some limit) (p ++ q))) := by
  obtain ⟨s, hrun, -, -⟩ := exists_run_of_append hs hnone
  obtain ⟨depth, hbefore, -⟩ := run_of_trailing hrun
  obtain ⟨P, Q, hP, hQ, hwith, hwithout⟩ := exists_settled_remove hp
    (decisions_congr_before_of_head (hq.exceeds_eq_false (some limit)) _ _ [])
  rw [hwith, hwithout, settleBetween_trailing hx hy]
  exact stackAfter_trailing hneutral (hP.map_kind ▸ hbefore) (hQ.releases hq)

/-- Before its operator, where something begins that the operator does not
split. -/
theorem stackAfter_remove_leading (hneutral : ∀ v, o.apply y v = .ok v)
    (hx : NumberDomain.exceeds x limit = true)
    (hy : Context.standIn ⟨p.getLast?, .number x, some (.operator o), q[0]?⟩ = y)
    (hp : HoldsBack o.precedence p)
    (hq : decisions (some limit) (some (.operator o)) [] q =
      decisions (some limit) p.getLast? [] q)
    (hs : IsSentence (p ++ [Token.number x, .operator o] ++ q))
    (hnone : juxtapositions (p ++ [Token.number x, .operator o] ++ q) = 0) :
    stackAfter [] (toPostfix (settle (some limit) (p ++ [Token.number x, .operator o] ++ q))) =
      stackAfter [] (toPostfix (settle (some limit) (p ++ q))) := by
  obtain ⟨s, hrun, hrest, hrestNone⟩ := exists_run_of_append hs hnone
  obtain ⟨depth, -, rfl⟩ := run_of_leading hrun
  have hbound : o.precedence ≤ 2 := by cases o <;> decide
  have hlast : ∀ t, p.getLast? = some t →
      t ≠ .operator .divide ∧ (some limit).any (Token.exceeds · t) = false :=
    fun t ht => ⟨hp.ne_divide hbound t ht, hp.exceeds_eq_false (some limit) t ht⟩
  have hbehind :
      decisions (some limit) ([Token.number x, .operator o].getLast?.or p.getLast?) [] q =
        decisions (some limit) p.getLast? [] q := hq
  obtain ⟨P, Q, hP, hQ, hwith, hwithout⟩ := exists_settled_remove
    (decisions_congr_of_last hlast none ([Token.number x, .operator o] ++ q) q) hbehind
  rw [← hQ.map_kind] at hrest hrestNone
  obtain ⟨c, d, rest, hc, rfl, hreleases⟩ := exists_leading hrest hrestNone o
  rw [hwith, hwithout, settleBetween_leading hx hy]
  exact stackAfter_leading hneutral (hP.holdsBack hp) d hc hreleases

end Removal

end Pieces

/-! ## The five places -/

section Places

variable {t x : Rat} {p q : List (Token Rat)} {o : Operator}

theorem stackAfter_summand (ho : o = .plus ∨ o = .minus) (hx : t < x.abs)
    (hq : ∀ u, q.head? = some u → u = .operator .plus ∨ u = .operator .minus ∨ u = .closeParen)
    (hs : IsSentence (p ++ [Token.operator o, .number x] ++ q))
    (hnone : juxtapositions (p ++ [Token.operator o, .number x] ++ q) = 0) :
    stackAfter [] (toPostfix (settle (some t) (p ++ [Token.operator o, .number x] ++ q))) =
      stackAfter [] (toPostfix (settle (some t) (p ++ q))) := by
  have hsign : (some (Token.operator (α := Rat) o)).any Token.isMultiplicative = false := by
    rcases ho with rfl | rfl <;> rfl
  have hapart : Apart q := by
    cases q with
    | nil => exact ⟨rfl, rfl⟩
    | cons u rest => rcases hq u rfl with rfl | rfl | rfl <;> exact ⟨rfl, rfl⟩
  have hreleases : Releases o.precedence q := by
    intro u hu
    rw [Operator.precedence_eq_one_iff.mpr ho]
    rcases hq u hu with rfl | rfl | rfl
    · exact Or.inr ⟨.plus, rfl, Nat.le_refl 1⟩
    · exact Or.inr ⟨.minus, rfl, Nat.le_refl 1⟩
    · exact Or.inl rfl
  have hseen : SeenAlike ([Token.operator o, .number x] ++ q) q :=
    seenAlike_of_apart ⟨hsign, rfl⟩ hapart
  have hzero : Context.standIn ⟨some (.operator o), .number x, q[0]?, q[1]?⟩ =
      NumberDomain.zero :=
    Context.standIn_eq_zero hsign (List.head?_eq_getElem? ▸ hapart.1) _
  exact stackAfter_remove_trailing (Rational.apply_zero ho) (Rational.exceeds_iff.mpr hx) hzero
    (decisions_congr_follow hseen (some t) none p) hreleases hs hnone

theorem stackAfter_factor (ho : o = .times ∨ o = .divide) (hx : t < x.abs)
    (hlast : ∀ y, p.getLast? = some (.number y) → y.abs ≤ t)
    (hdivided : o = .times → ∀ b rest, q ≠ .operator .divide :: .number b :: rest)
    (hs : IsSentence (p ++ [Token.operator o, .number x] ++ q))
    (hnone : juxtapositions (p ++ [Token.operator o, .number x] ++ q) = 0) :
    stackAfter [] (toPostfix (settle (some t) (p ++ [Token.operator o, .number x] ++ q))) =
      stackAfter [] (toPostfix (settle (some t) (p ++ q))) := by
  obtain ⟨s, hrun, hrest, hrestNone⟩ := exists_run_of_append hs hnone
  obtain ⟨depth, hp, rfl⟩ := run_of_trailing hrun
  have hends : ∀ u, p.getLast? = some u →
      u ≠ .operator .divide ∧ (some t).any (Token.exceeds · u) = false := by
    intro u hu
    have hended := endsOperand_of_run hp hu
    cases u with
    | number y => exact ⟨by simp, Rational.exceeds_eq_false (hlast y hu)⟩
    | closeParen => exact ⟨by simp, rfl⟩
    | operator o' => cases hended
    | openParen => cases hended
  have hone : Context.standIn ⟨some (.operator o), .number x, q[0]?, q[1]?⟩ =
      NumberDomain.one := by
    refine Context.standIn_eq_one ?_
    rcases ho with rfl | rfl
    · refine Or.inr ⟨Or.inl rfl, Option.eq_none_iff_forall_ne_some.mpr fun b hb => ?_⟩
      obtain ⟨hfirst, hsecond⟩ := Context.divisor?_eq_some_iff.mp hb
      rcases q with _ | ⟨u, _ | ⟨v, rest⟩⟩
      · cases hfirst
      · cases hsecond
      · cases hfirst
        cases hsecond
        exact hdivided rfl b rest rfl
    · exact Or.inl rfl
  exact stackAfter_remove_trailing (Rational.apply_one ho) (Rational.exceeds_iff.mpr hx) hone
    (decisions_congr_of_last hends none ([Token.operator o, .number x] ++ q) q)
    (Operator.precedence_eq_two_iff.mpr ho ▸ releases_two_of_run hrest hrestNone) hs hnone

theorem stackAfter_squared {b : Rat} (hx : t < x.abs) (hzero : b ≠ 0) (hb : b.abs ≤ t)
    (hlast : p.getLast? ≠ some (.operator .divide))
    (hs : IsSentence (p ++ [Token.number x, .operator .divide, .number b] ++ q))
    (hnone : juxtapositions (p ++ [Token.number x, .operator .divide, .number b] ++ q) = 0) :
    stackAfter [] (toPostfix
        (settle (some t) (p ++ [Token.number x, .operator .divide, .number b] ++ q))) =
      stackAfter [] (toPostfix (settle (some t) (p ++ [Token.number b] ++ q))) := by
  have hquotient : p ++ [Token.number x, .operator .divide, .number b] =
      p ++ [Token.number x, .operator .divide] ++ [Token.number b] := by
    simp
  obtain ⟨s, hrun, hrest, hrestNone⟩ := exists_run_of_append hs hnone
  rw [hquotient, List.map_append, Stand.run_append] at hrun
  obtain ⟨mid, hmid, hnumber⟩ := Option.bind_eq_some_iff.mp hrun
  obtain ⟨depth, hp, rfl⟩ := run_of_leading hmid
  obtain rfl : ⟨true, depth⟩ = s := Option.some.inj hnumber
  have hplace := holdsBack_or_times hp hlast
  have hends : ∀ u, p.getLast? = some u →
      u ≠ .operator .divide ∧ (some t).any (Token.exceeds · u) = false := by
    intro u hu
    refine ⟨fun heq => hlast (heq ▸ hu), ?_⟩
    rcases hplace with hholds | htimes
    · exact hholds.exceeds_eq_false (some t) u hu
    · obtain rfl := Option.some.inj (htimes.symm.trans hu)
      rfl
  have hbehind : decisions (some t) ([Token.number x, .operator .divide, .number b].getLast?.or
      p.getLast?) [] q = decisions (some t) ([Token.number b].getLast?.or p.getLast?) [] q := rfl
  obtain ⟨P, Q, hP, hQ, hwith, hwithout⟩ := exists_settled_replace
    (decisions_congr_of_last hends none
      ([Token.number x, .operator .divide, .number b] ++ q) ([Token.number b] ++ q)) hbehind
  rw [hwith, hwithout, settleBetween_dividend (Rational.exceeds_iff.mpr hx)
    (Rational.exceeds_eq_false hb) hlast, settleBetween_number (Rational.exceeds_eq_false hb)]
  exact stackAfter_dividend (Rational.square_divide hzero) (Rational.product_square_divide hzero)
    (hplace.imp hP.holdsBack fun htimes => hP.getLast? htimes rfl)
    (hQ.releases (releases_two_of_run hrest hrestNone))

theorem stackAfter_leadingFactor (hx : t < x.abs)
    (hlast : ∀ u, p.getLast? = some u → u = .operator .plus ∨ u = .operator .minus ∨ u = .openParen)
    (hfirst : ∀ y, q.head? = some (.number y) → y.abs ≤ t)
    (hs : IsSentence (p ++ [Token.number x, .operator .times] ++ q))
    (hnone : juxtapositions (p ++ [Token.number x, .operator .times] ++ q) = 0) :
    stackAfter [] (toPostfix (settle (some t) (p ++ [Token.number x, .operator .times] ++ q))) =
      stackAfter [] (toPostfix (settle (some t) (p ++ q))) := by
  have hholds : HoldsBack 2 p := by
    intro u hu
    rcases hlast u hu with rfl | rfl | rfl
    · exact Or.inr ⟨.plus, rfl, by decide⟩
    · exact Or.inr ⟨.minus, rfl, by decide⟩
    · exact Or.inl rfl
  have hhead : ∀ u, q.head? = some u → (some t).any (Token.exceeds · u) = false := by
    intro u hu
    cases u with
    | number y => exact Rational.exceeds_eq_false (hfirst y hu)
    | _ => rfl
  have hone : Context.standIn ⟨p.getLast?, .number x, some (.operator .times), q[0]?⟩ =
      NumberDomain.one :=
    Context.standIn_eq_one
      (Or.inr ⟨Or.inr rfl, Context.divisor?_eq_none_of_after (by simp)⟩)
  exact stackAfter_remove_leading Rational.one_times (Rational.exceeds_iff.mpr hx) hone hholds
    (decisions_congr_before_of_head hhead _ _ []) hs hnone

theorem stackAfter_leadingSummand (hx : t < x.abs)
    (hlast : ∀ u, p.getLast? = some u → u = .openParen)
    (hs : IsSentence (p ++ [Token.number x, .operator .plus] ++ q))
    (hnone : juxtapositions (p ++ [Token.number x, .operator .plus] ++ q) = 0) :
    stackAfter [] (toPostfix (settle (some t) (p ++ [Token.number x, .operator .plus] ++ q))) =
      stackAfter [] (toPostfix (settle (some t) (p ++ q))) := by
  have hholds : HoldsBack 1 p := fun u hu => Or.inl (hlast u hu)
  have hsign : p.getLast?.any Token.isMultiplicative = false := by
    cases hu : p.getLast? with
    | none => rfl
    | some u =>
        obtain rfl := hlast u hu
        rfl
  have hzero : Context.standIn ⟨p.getLast?, .number x, some (.operator .plus), q[0]?⟩ =
      NumberDomain.zero :=
    Context.standIn_eq_zero hsign rfl _
  exact stackAfter_remove_leading Rational.zero_plus (Rational.exceeds_iff.mpr hx) hzero hholds
    (decisions_congr_before rfl hsign (some t) [] q) hs hnone

end Places

theorem WithoutNeutral.stackAfter_eq {t : Rat} {ts us : List (Token Rat)}
    (h : WithoutNeutral t ts us) (hs : IsSentence ts) (hnone : juxtapositions ts = 0) :
    stackAfter [] (toPostfix (settle (some t) ts)) =
      stackAfter [] (toPostfix (settle (some t) us)) := by
  cases h with
  | summand ho hx hq => exact stackAfter_summand ho hx hq hs hnone
  | factor ho hx hlast hdivided => exact stackAfter_factor ho hx hlast hdivided hs hnone
  | dividend hx hzero hb hlast => exact stackAfter_squared hx hzero hb hlast hs hnone
  | leadingFactor hx hlast hfirst => exact stackAfter_leadingFactor hx hlast hfirst hs hnone
  | @leadingSummand p q x hx hlast =>
      by_cases hplus : p.getLast? = some (.operator .plus)
      · -- between two `+`, it may as well go with the first
        obtain ⟨front, rfl⟩ := List.getLast?_eq_some_iff.mp hplus
        have hsame : front ++ [Token.operator .plus] ++ [Token.number x, .operator .plus] ++ q =
            front ++ [Token.operator .plus, .number x] ++ .operator .plus :: q := by
          simp
        rw [hsame] at hs hnone ⊢
        rw [List.append_assoc front [.operator .plus], List.singleton_append]
        refine stackAfter_summand (Or.inl rfl) hx (fun u hu => ?_) hs hnone
        cases hu
        exact Or.inl rfl
      · refine stackAfter_leadingSummand hx (fun u hu => ?_) hs hnone
        exact (hlast u hu).resolve_left fun heq => hplus (heq ▸ hu)

/-! ## Values -/

/-- Outcomes that are values or divisions by zero are the same if the
values are. -/
theorem eq_of_toOption_eq {x y : Except Fault Rat}
    (hx : x = .error .divisionByZero ∨ ∃ v, x = .ok v)
    (hy : y = .error .divisionByZero ∨ ∃ v, y = .ok v) (h : x.toOption = y.toOption) : x = y := by
  rcases hx with rfl | ⟨v, rfl⟩
  · rcases hy with rfl | ⟨w, rfl⟩
    · rfl
    · cases h
  · exact (eq_ok_of_toOption h.symm).symm

/-- Over the exact rationals, with the large-number rule on, an operand
beyond the limit is neutral: two sequences come to the same if one is the
other without such an operand, in one of the places that `WithoutNeutral`
lists, whatever stands around that place. Both have to be accepted, and
nothing may be juxtaposed in them; then they have the same value, or both
divide by zero. -/
theorem evaluateTokens_withoutNeutral {settings : Settings} {t : Rat}
    (hon : settings.replaceLarge = true)
    (ht : NumberDomain.ofDouble? settings.threshold = some t)
    {ts us : List (Token Rat)} (h : WithoutNeutral t ts us) {e e' : Expression Rat}
    (hts : Expression.ofTokens settings ts = .ok e)
    (hus : Expression.ofTokens settings us = .ok e')
    (hnone : juxtapositions ts = 0) (hnone' : juxtapositions us = 0) :
    (evaluateTokens settings ts).outcome = (evaluateTokens settings us).outcome
      ∧ ((∃ v, (evaluateTokens settings ts).outcome = .ok v)
        ∨ (evaluateTokens settings ts).outcome = .error .divisionByZero) := by
  have hlimit : settings.limit? Rat = some t := by rw [Settings.limit?, hon, ht]; rfl
  obtain rfl := (Expression.ofTokens_eq_ok_iff.mp hts).2
  obtain rfl := (Expression.ofTokens_eq_ok_iff.mp hus).2
  have hsettled := h.stackAfter_eq e.isSentence hnone
  rw [← hlimit] at hsettled
  have hvalues : (evaluatePostfix (e.toPostfix settings)).toOption =
      (evaluatePostfix (e'.toPostfix settings)).toOption :=
    toOption_evaluatePostfix_congr hsettled
  have hcases : ∀ e : Expression Rat, juxtapositions e.tokens = 0 →
      evaluatePostfix (e.toPostfix settings) = .error .divisionByZero
        ∨ ∃ v, evaluatePostfix (e.toPostfix settings) = .ok v := by
    intro e hnone
    rcases e.evaluatePostfix_cases settings with herr | ⟨-, hok⟩ | ⟨hsome, -⟩
    · exact Or.inl herr
    · exact Or.inr hok
    · exact absurd hnone (Nat.ne_of_gt hsome)
  rw [outcome_evaluateTokens_of_ok hts, outcome_evaluateTokens_of_ok hus]
  exact ⟨eq_of_toOption_eq (hcases e hnone) (hcases e' hnone') hvalues, (hcases e hnone).symm⟩

/-- `2 * 1001 / 4 - 3` comes to the same as `2 * 4 - 3`. -/
theorem evaluateTokens_withoutNeutral_dividend :
    (evaluateTokens {} [.number (2 : Rat), .operator .times, .number 1001, .operator .divide,
        .number 4, .operator .minus, .number 3]).outcome = .ok 5 := by
  let p : List (Token Rat) := [.number 2, .operator .times]
  let q : List (Token Rat) := [.operator .minus, .number 3]
  let e : Expression Rat :=
    ⟨p ++ [Token.number 1001, .operator .divide, .number 4] ++ q, by decide, by decide⟩
  let e' : Expression Rat := ⟨p ++ [Token.number 4] ++ q, by decide, by decide⟩
  have hthreshold : NumberDomain.ofDouble? ({} : Settings).threshold = some (1000 : Rat) := by
    decide +kernel
  have hneutral : WithoutNeutral 1000 e.tokens e'.tokens :=
    .dividend (by decide) (by decide) (by decide) (by decide)
  have hvalue : (evaluateTokens {} e'.tokens).outcome = .ok 5 :=
    eq_ok_of_toOption (by decide +kernel)
  exact (evaluateTokens_withoutNeutral rfl hthreshold hneutral (e.ofTokens_tokens (by decide))
    (e'.ofTokens_tokens (by decide)) (by decide) (by decide)).1.trans hvalue

end FourFunction
