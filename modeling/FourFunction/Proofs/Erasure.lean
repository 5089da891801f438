import FourFunction.Proofs.Evaluation
import FourFunction.Proofs.Outcome
import FourFunction.Proofs.Replacements

/-!
# What is beyond the limit leaves no trace

The large-number rule does not ask how large a number is once it is too
large. So two sequences that differ in such numbers only are calculated
alike, as long as the rule looks at none of them for its own sake. There
is one place where it does: the literal divisor behind a number that is
replaced itself gives the square that replaces it (`SquaredDivisor`).
Where the sequences differ nowhere else than `ErasedAlike` allows, they
agree on all that the rule asks of the neighbours of a number beyond the
limit - where operators stand, and what it is divided by. Hence the same
numbers stand in at the same positions (`ErasedAlike.replacementAt_cases`),
and after that the sequences are one (`ErasedAlike.settle_eq`).
-/

namespace FourFunction

variable {α : Type} [NumberDomain α]

/-! ## Sequences that differ beyond the limit -/

/-- Position `p` holds what a number beyond the limit is divided by, and
that number is no divisor itself. -/
inductive SquaredDivisor (limit : α) (ts : List (Token α)) : Nat → Prop where
  | intro {i : Nat} {x : α} : ts[i]? = some (.number x) → NumberDomain.exceeds x limit = true →
      ts[i + 1]? = some (.operator .divide) → tokenBefore ts i ≠ some (.operator .divide) →
      SquaredDivisor limit ts (i + 2)

/-- The sequences are the same but for numbers that are beyond the limit
in both, and none of these is squared. -/
structure ErasedAlike (limit : α) (ts us : List (Token α)) : Prop where
  alike : ∀ i : Nat, ts[i]? = us[i]?
    ∨ ∃ x y : α, ts[i]? = some (.number x) ∧ us[i]? = some (.number y)
        ∧ NumberDomain.exceeds x limit = true ∧ NumberDomain.exceeds y limit = true
  unread : ∀ p : Nat, ts[p]? ≠ us[p]? → ¬ SquaredDivisor limit ts p

/-- What a calculation gets to see of a record: where a number has been put
in, and which. -/
def Replacement.given (r : Replacement α) : Nat × α := (r.index, r.after)

namespace ErasedAlike

variable {limit : α} {ts us : List (Token α)}

/-! ### What the rule asks of the neighbours -/

theorem operator_iff (h : ErasedAlike limit ts us) (i : Nat) (o : Operator) :
    ts[i]? = some (.operator o) ↔ us[i]? = some (.operator o) := by
  rcases h.alike i with heq | ⟨x, y, hx, hy, -⟩
  · rw [heq]
  · simp [hx, hy]

theorem tokenBefore_iff (h : ErasedAlike limit ts us) (i : Nat) (o : Operator) :
    tokenBefore ts i = some (.operator o) ↔ tokenBefore us i = some (.operator o) := by
  cases i with
  | zero => rfl
  | succ j => exact h.operator_iff j o

/-- A number beyond the limit that is no divisor is divided by the same
number in both sequences. -/
theorem dividedBy_iff (h : ErasedAlike limit ts us) {i : Nat} {x : α}
    (hx : ts[i]? = some (.number x)) (hexceeds : NumberDomain.exceeds x limit = true)
    (hbefore : tokenBefore ts i ≠ some (.operator .divide)) (b : α) :
    DividedBy ts i b ↔ DividedBy us i b := by
  unfold DividedBy
  rw [← h.operator_iff (i + 1) .divide]
  refine and_congr_right fun hdivide => ?_
  -- the one neighbour whose number is read and not only its kind
  have hsame : ts[i + 2]? = us[i + 2]? := Classical.byContradiction fun hdiffer =>
    h.unread (i + 2) hdiffer (.intro hx hexceeds hdivide hbefore)
  rw [hsame]

theorem standsIn (h : ErasedAlike limit ts us) {i : Nat} {x : α}
    (hx : ts[i]? = some (.number x)) (hexceeds : NumberDomain.exceeds x limit = true) {z : α}
    (hz : StandsIn ts i z) : StandsIn us i z := by
  have hbefore := h.tokenBefore_iff i
  have htimes : tokenBefore ts i = some (.operator .times) ∨ ts[i + 1]? = some (.operator .times) ↔
      tokenBefore us i = some (.operator .times) ∨ us[i + 1]? = some (.operator .times) :=
    or_congr (hbefore .times) (h.operator_iff (i + 1) .times)
  cases hz with
  | divisor hdivide => exact .divisor ((hbefore _).mp hdivide)
  | dividend hdivide hb =>
      exact .dividend (mt (hbefore _).mpr hdivide) ((h.dividedBy_iff hx hexceeds hdivide _).mp hb)
  | factor hdivide hnone hfactor =>
      have hnone' := fun b => mt (h.dividedBy_iff hx hexceeds hdivide b).mpr (hnone b)
      exact .factor (mt (hbefore _).mpr hdivide) hnone' (htimes.mp hfactor)
  | summand hdivide hnone hsummand =>
      have hnone' := fun b => mt (h.dividedBy_iff hx hexceeds hdivide b).mpr (hnone b)
      exact .summand (mt (hbefore _).mpr hdivide) hnone' (mt htimes.mpr hsummand)

/-! ### What the rule makes of a position -/

/-- At each position the sequences either hold the same token and keep it,
or have a number replaced by the same number. -/
theorem replacementAt_cases (h : ErasedAlike limit ts us) {i : Nat} {t u : Token α}
    (ht : ts[i]? = some t) (hu : us[i]? = some u) :
    (t = u ∧ replacementAt (some limit) ts i t = none ∧ replacementAt (some limit) us i u = none)
      ∨ ∃ r r', replacementAt (some limit) ts i t = some r
          ∧ replacementAt (some limit) us i u = some r' ∧ r.given = r'.given := by
  have hboth : t = u ∨ t.exceeds limit = true ∧ u.exceeds limit = true := by
    rcases h.alike i with heq | ⟨x, y, hx, hy, hexceeds, hexceeds'⟩
    · exact Or.inl (Option.some.inj (ht.symm.trans (heq.trans hu)))
    · cases ht.symm.trans hx
      cases hu.symm.trans hy
      exact Or.inr ⟨hexceeds, hexceeds'⟩
  cases hlarge : t.exceeds limit with
  | false =>
      obtain rfl : t = u := hboth.resolve_right fun hexceeds => by simp [hlarge] at hexceeds
      exact Or.inl ⟨rfl, replacementAt_of_not_exceeds hlarge ts i,
        replacementAt_of_not_exceeds hlarge us i⟩
  | true =>
      have hlarge' : u.exceeds limit = true := by
        rcases hboth with rfl | ⟨-, hexceeds⟩
        · exact hlarge
        · exact hexceeds
      obtain ⟨x, rfl, hx⟩ := Token.exceeds_iff.mp hlarge
      obtain ⟨y, rfl, hy⟩ := Token.exceeds_iff.mp hlarge'
      have hstands := h.standsIn ht hx ((standsIn_iff (.number x)).mpr rfl)
      have hafter := (standsIn_iff (.number y)).mp hstands
      rw [replacementAt_number, replacementAt_number, if_pos hx, if_pos hy]
      exact Or.inr ⟨_, _, rfl, rfl, congrArg (Prod.mk i) hafter⟩

/-- Two maps over the positions of both sequences agree if they do at each
position. -/
theorem map_zipIdx_eq (h : ErasedAlike limit ts us) {β : Type} {f g : Token α × Nat → β}
    (hfg : ∀ i t u, ts[i]? = some t → us[i]? = some u → f (t, i) = g (u, i)) :
    ts.zipIdx.map f = us.zipIdx.map g := by
  refine List.ext_getElem? fun i => ?_
  rw [List.getElem?_map, List.getElem?_map, List.getElem?_zipIdx, List.getElem?_zipIdx,
    Nat.zero_add]
  rcases h.alike i with heq | ⟨x, y, hx, hy, -⟩
  · cases hu : us[i]? with
    | none => rw [heq, hu]; rfl
    | some u =>
        rw [heq, hu]
        exact congrArg some (hfg i u u (heq.trans hu) hu)
  · rw [hx, hy]
    exact congrArg some (hfg i _ _ hx hy)

/-- Settled, the sequences are one. -/
theorem settle_eq (h : ErasedAlike limit ts us) :
    settle (some limit) ts = settle (some limit) us := by
  rw [settle_eq_map_zipIdx, settle_eq_map_zipIdx]
  refine h.map_zipIdx_eq fun i t u ht hu => ?_
  show t.map _ = u.map _
  rw [map_numberGiven_eq, map_numberGiven_eq]
  rcases h.replacementAt_cases ht hu with ⟨rfl, hnone, hnone'⟩ | ⟨r, r', hr, hr', hgiven⟩
  · rw [hnone, hnone']
  · rw [hr, hr']
    exact congrArg (fun p => Token.number p.2) hgiven

/-- The same positions are replaced, by the same numbers. -/
theorem map_given_eq (h : ErasedAlike limit ts us) :
    (replacements (some limit) ts).map Replacement.given =
      (replacements (some limit) us).map Replacement.given := by
  have hrecords :
      (ts.zipIdx.map fun p => (replacementAt (some limit) ts p.2 p.1).map Replacement.given) =
        us.zipIdx.map fun p => (replacementAt (some limit) us p.2 p.1).map Replacement.given := by
    refine h.map_zipIdx_eq fun i t u ht hu => ?_
    rcases h.replacementAt_cases ht hu with ⟨-, hnone, hnone'⟩ | ⟨r, r', hr, hr', hgiven⟩
    · simp only [hnone, hnone', Option.map_none]
    · simp only [hr, hr', Option.map_some, hgiven]
  have hselect := congrArg (List.filterMap id) hrecords
  rw [List.filterMap_map, List.filterMap_map] at hselect
  rw [replacements_eq, replacements_eq, List.map_filterMap, List.map_filterMap]
  exact hselect

theorem length_eq (h : ErasedAlike limit ts us) : ts.length = us.length := by
  rw [← length_settle (some limit) ts, h.settle_eq, length_settle]

end ErasedAlike

/-! ## Calculations -/

/-- The tokens of an expression are refused for their number only. -/
theorem outcome_evaluateTokens_tokens (settings : Settings) (e : Expression α) :
    (evaluateTokens settings e.tokens).outcome =
      match Expression.lengthFault settings e.tokens.length with
      | some fault => .error fault
      | none => evaluatePostfix (e.toPostfix settings) := by
  cases hlen : Expression.lengthFault settings e.tokens.length with
  | none => exact outcome_evaluateTokens_of_ok (Expression.ofTokens_eq_ok_iff.mpr ⟨hlen, rfl⟩)
  | some fault =>
      have hfault : Expression.ofTokens settings e.tokens = .error fault := by
        rw [Expression.ofTokens_eq_error_iff, Expression.fault?, List.length_map, hlen]
        rfl
      rw [outcome_evaluateTokens, hfault]
      rfl

/-- With the large-number rule on, numbers beyond the limit are erased. Two
accepted sequences that differ in such numbers only, in none of which the
rule reads the square of a divisor, have the same postfix order, the same
numbers put in at the same positions, and the same outcome. -/
theorem evaluateTokens_erasedAlike {settings : Settings} {limit : α}
    (hon : settings.replaceLarge = true)
    (hthreshold : NumberDomain.ofDouble? settings.threshold = some limit)
    {e e' : Expression α} (h : ErasedAlike limit e.tokens e'.tokens) :
    e.toPostfix settings = e'.toPostfix settings
      ∧ (e.replacements settings).map Replacement.given =
          (e'.replacements settings).map Replacement.given
      ∧ (evaluateTokens settings e.tokens).outcome =
          (evaluateTokens settings e'.tokens).outcome := by
  have hlimit : settings.limit? α = some limit := limit?_eq_some_iff.mpr ⟨hon, hthreshold⟩
  have horder : e.toPostfix settings = e'.toPostfix settings := by
    rw [Expression.toPostfix, Expression.settledTokens, hlimit, h.settle_eq, ← hlimit]
    rfl
  refine ⟨horder, ?_, ?_⟩
  · rw [Expression.replacements, Expression.replacements, hlimit]
    exact h.map_given_eq
  · rw [outcome_evaluateTokens_tokens, outcome_evaluateTokens_tokens, h.length_eq, horder]

/-- Of `2000 / 5000 / 7000 - 3000` only the first divisor is read, so
`4000 / 5000 / 9000 - 1500` comes out the same. -/
theorem evaluateTokens_erasedAlike_quotient :
    (evaluateTokens {} [.number (2000 : Rat), .operator .divide, .number 5000,
        .operator .divide, .number 7000, .operator .minus, .number 3000]).outcome =
      (evaluateTokens {} [.number (4000 : Rat), .operator .divide, .number 5000,
        .operator .divide, .number 9000, .operator .minus, .number 1500]).outcome := by
  let e : Expression Rat := ⟨[.number 2000, .operator .divide, .number 5000,
    .operator .divide, .number 7000, .operator .minus, .number 3000], by decide, rfl⟩
  let e' : Expression Rat := ⟨[.number 4000, .operator .divide, .number 5000,
    .operator .divide, .number 9000, .operator .minus, .number 1500], by decide, rfl⟩
  have hthreshold : NumberDomain.ofDouble? ({} : Settings).threshold = some (1000 : Rat) := by
    decide +kernel
  have halike : ErasedAlike 1000 e.tokens e'.tokens := by
    refine ⟨fun i => ?_, fun p hdiffer hsquared => ?_⟩
    · match i with
      | 0 => exact Or.inr ⟨2000, 4000, rfl, rfl, by decide +kernel, by decide +kernel⟩
      | 4 => exact Or.inr ⟨7000, 9000, rfl, rfl, by decide +kernel, by decide +kernel⟩
      | 6 => exact Or.inr ⟨3000, 1500, rfl, rfl, by decide +kernel, by decide +kernel⟩
      | 1 | 2 | 3 | 5 | _ + 7 => exact Or.inl rfl
    · cases hsquared with
      | @intro i x hx _ hdivide hbefore =>
          match i with
          | 0 => exact hdiffer rfl
          | 2 => exact hbefore rfl
          | 1 | 3 | 5 => cases hx
          | 4 | 6 | _ + 7 => cases hdivide
  exact (evaluateTokens_erasedAlike rfl hthreshold halike).2.2

end FourFunction
