import FourFunction.Proofs.Rounding

/-!
# Operations on doubles that come out even

An unpacked double `Denotes` a rational when it is its canonical form,
or one of the two zeros for zero. If the exact result of an operation is
denoted by any double at all, the operation yields a double that denotes
it: there is nothing to round (`Rounding`), and no sign, zero or
subnormal makes an exception. Comparisons go by what is denoted, so the
zeros are equal and the sign of a zero never shows.
-/

namespace FourFunction

namespace Double

open Float.Model (Format UnpackedFloat)
open Float.Model.UnpackedFloat (Sign)

inductive Denotes : UnpackedFloat → Rat → Prop where
  | zero (s : Sign) : Denotes (.zero s) 0
  | finite {s : Sign} {m : Nat} {e : Int} (hm : 0 < m) : Canonical m e →
      Denotes (.finite s m e hm) ((s.apply m : Int) * 2 ^ e)

/-! ## Signs -/

theorem negative_value (m : Nat) (e : Int) :
    ((Sign.negative.apply m : Int) : Rat) * 2 ^ e = -(m * 2 ^ e) := by
  simp [Sign.apply]

theorem positive_value (m : Nat) (e : Int) :
    ((Sign.positive.apply m : Int) : Rat) * 2 ^ e = m * 2 ^ e := rfl

theorem value_ne_zero (s : Sign) {m : Nat} (hm : 0 < m) (e : Int) :
    ((s.apply m : Int) : Rat) * 2 ^ e ≠ 0 := by
  have hpos := magnitude_pos hm e
  cases s with
  | negative =>
      rw [negative_value]
      exact (neg_neg_of_pos hpos).ne
  | positive => exact hpos.ne'

/-- Equal numbers have equal signs and equal magnitudes. -/
theorem sign_eq {s s' : Sign} {m m' : Nat} {e e' : Int} (hm : 0 < m) (hm' : 0 < m')
    (h : ((s.apply m : Int) : Rat) * 2 ^ e = (s'.apply m' : Int) * 2 ^ e') :
    s = s' ∧ (m : Rat) * 2 ^ e = m' * 2 ^ e' := by
  have hpos := magnitude_pos hm e
  have hpos' := magnitude_pos hm' e'
  cases s with
  | negative =>
      rw [negative_value] at h
      cases s' with
      | negative =>
          rw [negative_value] at h
          exact ⟨rfl, neg_injective h⟩
      | positive => exact absurd (h.trans (positive_value m' e')) (by linarith)
  | positive =>
      cases s' with
      | negative =>
          rw [negative_value] at h
          exact absurd ((positive_value m e).symm.trans h) (by linarith)
      | positive => exact ⟨rfl, h⟩

theorem neg_apply (s : Sign) (m : Nat) : (-s).apply m = -s.apply m := by
  cases s with
  | negative => exact (Int.neg_neg _).symm
  | positive => rfl

theorem mul_apply (s s' : Sign) (m m' : Nat) :
    (s * s').apply (m * m' : Nat) = s.apply m * s'.apply m' := by
  have hcast : ((m * m' : Nat) : Int) = m * m' := Nat.cast_mul m m'
  cases s with
  | negative =>
      cases s' with
      | negative => exact hcast.trans (neg_mul_neg _ _).symm
      | positive => exact (congrArg Neg.neg hcast).trans (neg_mul _ _).symm
  | positive =>
      cases s' with
      | negative => exact (congrArg Neg.neg hcast).trans (mul_neg _ _).symm
      | positive => exact hcast

theorem eq_div_of_mul_eq {s s' t : Sign} (h : t * s' = s) : t = s / s' := by
  cases s <;> cases s' <;> cases t <;> first | rfl | cases h

/-! ## Doubles and unpacked doubles -/

theorem ofDouble?_eq_some_iff {x : Float} {q : Rat} :
    Rational.ofDouble? x = some q ↔ Denotes x.toModel.unpack q := by
  unfold Rational.ofDouble?
  constructor
  · intro h
    split at h
    · cases h
    · cases h
    · rename_i s hx
      rw [hx]
      cases h
      exact .zero s
    · rename_i s m e hm hx
      rw [hx]
      cases h
      rw [Rational.scaled_eq]
      exact .finite hm (canonical_of_unpack hx)
  · intro h
    generalize x.toModel.unpack = u at h
    cases h with
    | zero s => rfl
    | finite hm hc => exact congrArg some (Rational.scaled_eq _ _)

namespace Denotes

variable {u v w : UnpackedFloat} {p q : Rat}

theorem unpack_pack (h : Denotes u q) : (Float.Model.pack u).unpack = u := by
  cases h with
  | zero s => cases s <;> rfl
  | finite hm hc => exact Double.unpack_pack hc

theorem ofDouble? (h : Denotes u q) :
    Rational.ofDouble? (.ofModel (Float.Model.pack u)) = some q := by
  refine ofDouble?_eq_some_iff.mpr ?_
  show Denotes (Float.Model.pack u).unpack q
  rwa [h.unpack_pack]

/-- What denotes a number other than zero is its canonical form. -/
theorem exists_finite {s : Sign} {m : Nat} {e : Int} (hm : 0 < m)
    (h : Denotes w ((s.apply m : Int) * 2 ^ e)) :
    ∃ (m' : Nat) (e' : Int) (hm' : 0 < m'), w = .finite s m' e' hm' ∧ Canonical m' e'
      ∧ (m : Rat) * 2 ^ e = m' * 2 ^ e' := by
  generalize hq : ((s.apply m : Int) : Rat) * 2 ^ e = q at h
  cases h with
  | zero s' => exact absurd hq (value_ne_zero s hm e)
  | finite hm' hc =>
      obtain ⟨rfl, heq⟩ := sign_eq hm hm' hq
      exact ⟨_, _, hm', rfl, hc, heq⟩

/-! ## Sums -/

theorem round_eq {s : Sign} {m : Nat} {e : Int} (hm : 0 < m)
    (h : Denotes w ((s.apply m : Int) * 2 ^ e)) :
    UnpackedFloat.round Format.binary64 s m e = w := by
  obtain ⟨m', e', hm', rfl, hc, heq⟩ := h.exists_finite hm
  exact round_exact hm hm' hc heq s

theorem normalize {m e : Int} (h : Denotes w (m * 2 ^ e)) (s : Sign) :
    Denotes (UnpackedFloat.normalize Format.binary64 m e s) (m * 2 ^ e) := by
  unfold UnpackedFloat.normalize
  rcases lt_trichotomy m 0 with hm | rfl | hm
  · have hsign : Sign.negative.apply (-m).toNat = m := by
      rw [Sign.apply]
      omega
    have hround : UnpackedFloat.round Format.binary64 .negative (-m).toNat e = w :=
      round_eq (by omega) (by rwa [hsign])
    simpa only [Int.compare_eq_lt.mpr hm, hround] using h
  · simpa using Denotes.zero s
  · have hsign : Sign.positive.apply m.toNat = m := by
      rw [Sign.apply]
      omega
    have hround : UnpackedFloat.round Format.binary64 .positive m.toNat e = w :=
      round_eq (by omega) (by rwa [hsign])
    simpa only [Int.compare_eq_gt.mpr hm, hround] using h

theorem decreaseExponent_value (s : Sign) (m : Nat) {e least : Int} (h : least ≤ e) :
    ((s.apply (UnpackedFloat.decreaseExponent m e least).1 : Int) : Rat) * 2 ^ least =
      (s.apply m : Int) * 2 ^ e := by
  have hmagnitude : (((UnpackedFloat.decreaseExponent m e least).1 : Nat) : Rat) * 2 ^ least =
      m * 2 ^ e := by
    rw [two_zpow_eq h, ← mul_assoc, ← Nat.cast_mul, ← Nat.shiftLeft_eq]
    rfl
  cases s with
  | negative => rw [negative_value, negative_value, hmagnitude]
  | positive => exact hmagnitude

theorem add (hu : Denotes u p) (hv : Denotes v q) (hw : Denotes w (p + q)) :
    Denotes (UnpackedFloat.add Format.binary64 u v) (p + q) := by
  cases hu with
  | zero s =>
      rw [zero_add]
      cases hv with
      | zero s' => cases s <;> cases s' <;> exact .zero _
      | finite hm hc => exact .finite hm hc
  | @finite s m e hm hc =>
      cases hv with
      | zero s' =>
          rw [add_zero]
          exact .finite hm hc
      | @finite s' m' e' hm' hc' =>
          rw [← decreaseExponent_value s m (min_le_left e e'),
            ← decreaseExponent_value s' m' (min_le_right e e'), ← add_mul, ← Int.cast_add] at hw ⊢
          exact hw.normalize .positive

theorem neg (hu : Denotes u q) : Denotes u.neg (-q) := by
  cases hu with
  | zero s =>
      rw [neg_zero]
      exact .zero _
  | finite hm hc =>
      rw [← neg_mul, ← Int.cast_neg, ← neg_apply]
      exact .finite hm hc

theorem sub_eq_add (hu : Denotes u p) (hv : Denotes v q) :
    UnpackedFloat.sub Format.binary64 u v = UnpackedFloat.add Format.binary64 u v.neg := by
  cases hu with
  | zero s => cases hv <;> rfl
  | finite hm hc =>
      cases hv with
      | zero s' => rfl
      | finite hm' hc' =>
          simp only [UnpackedFloat.sub, UnpackedFloat.add, UnpackedFloat.neg, neg_apply,
            Int.sub_eq_add_neg]

theorem sub (hu : Denotes u p) (hv : Denotes v q) (hw : Denotes w (p - q)) :
    Denotes (UnpackedFloat.sub Format.binary64 u v) (p - q) := by
  rw [hu.sub_eq_add hv]
  rw [sub_eq_add_neg] at hw ⊢
  exact hu.add hv.neg hw

/-! ## Products and quotients -/

theorem mul (hu : Denotes u p) (hv : Denotes v q) (hw : Denotes w (p * q)) :
    Denotes (UnpackedFloat.mul Format.binary64 u v) (p * q) := by
  cases hu with
  | zero s =>
      rw [zero_mul]
      cases hv <;> exact .zero _
  | @finite s m e hm hc =>
      cases hv with
      | zero s' =>
          rw [mul_zero]
          exact .zero _
      | @finite s' m' e' hm' hc' =>
          have hpos : 0 < m * m' := Nat.mul_pos hm hm'
          have hvalue : ((s.apply m : Int) : Rat) * 2 ^ e * ((s'.apply m' : Int) * 2 ^ e') =
              ((s * s').apply (m * m' : Nat) : Int) * 2 ^ (e + e') := by
            rw [mul_apply, Int.cast_mul, zpow_add₀ (by norm_num), mul_mul_mul_comm]
          rw [hvalue] at hw ⊢
          obtain ⟨n, k, hn, rfl, hcn, heq⟩ := hw.exists_finite hpos
          -- the product is rounded without being shifted left first, and need not be
          have hle := hc.le_targetExponent_mul hc' hm hm'
          rw [totalExponent_eq hpos hn heq, hcn.targetExponent_eq hn] at hle
          have hround := roundWithAccuracy_exact hpos hn hcn heq hle (s * s')
          show Denotes (UnpackedFloat.roundWithAccuracy _ _ _ _ _) _
          rw [hround]
          exact hw

theorem div (hu : Denotes u p) (hv : Denotes v q) (hq : q ≠ 0) (hw : Denotes w (p / q)) :
    Denotes (UnpackedFloat.div Format.binary64 u v) (p / q) := by
  cases hv with
  | zero s' => exact absurd rfl hq
  | @finite s' m' e' hm' hc' =>
      cases hu with
      | zero s =>
          rw [zero_div]
          exact .zero _
      | @finite s m e hm hc =>
          generalize hr : ((s.apply m : Int) : Rat) * 2 ^ e / ((s'.apply m' : Int) * 2 ^ e') = r
            at hw ⊢
          rw [div_eq_iff hq] at hr
          cases hw with
          | zero t =>
              rw [zero_mul] at hr
              exact absurd hr (value_ne_zero s hm e)
          | @finite t n k hn hcn =>
              have hvalue : ((s.apply m : Int) : Rat) * 2 ^ e =
                  ((t * s').apply (n * m' : Nat) : Int) * 2 ^ (k + e') := by
                rw [hr, mul_apply, Int.cast_mul, zpow_add₀ (by norm_num), mul_mul_mul_comm]
              -- the sign of the quotient is the one that is computed, so only magnitudes remain
              obtain ⟨hsign, heq⟩ := sign_eq hm (Nat.mul_pos hn hm') hvalue
              obtain rfl := eq_div_of_mul_eq hsign.symm
              obtain ⟨i, least, hle, hshift, hcore⟩ := divCore_exact hm hm' hn hcn heq
              have hround := roundWithAccuracy_exact (Nat.mul_pos hn (Nat.two_pow_pos i)) hn hcn
                hshift hle (s / s')
              have hdiv : UnpackedFloat.div Format.binary64 (.finite s m e hm)
                  (.finite s' m' e' hm') = .finite (s / s') n k hn := by
                simp only [UnpackedFloat.div, hcore, hround]
              rw [hdiv]
              exact .finite hn hcn

/-! ## Comparisons -/

theorem abs (hu : Denotes u q) : Denotes u.abs |q| := by
  cases hu with
  | zero s =>
      rw [abs_zero]
      exact .zero _
  | @finite s m e hm hc =>
      have hvalue : |((s.apply m : Int) : Rat) * 2 ^ e| =
          ((Sign.positive.apply m : Int) : Rat) * 2 ^ e := by
        have hpos := abs_of_pos (magnitude_pos hm e)
        cases s with
        | negative => rw [negative_value, abs_neg, hpos, positive_value]
        | positive => exact hpos
      rw [hvalue]
      exact .finite hm hc

end Denotes

/-- Where the exponents of canonical forms differ, the greater belongs to
the greater number. -/
theorem magnitude_lt {m m' : Nat} {e e' : Int} (hc : Canonical m e) (hc' : Canonical m' e')
    (h : e < e') : (m : Rat) * 2 ^ e < m' * 2 ^ e' := by
  have hleast := hc.least_le
  have hfull : 2 ^ 52 ≤ m' := hc'.full.resolve_right (by omega)
  have hlt : m < m' * 2 ^ (e' - e).toNat := by
    calc m < 2 ^ 52 * 2 ^ 1 := hc.mantissa_lt
      _ ≤ m' * 2 ^ (e' - e).toNat :=
        Nat.mul_le_mul hfull (Nat.pow_le_pow_right (by decide) (by omega))
  rw [two_zpow_eq h.le, ← mul_assoc]
  exact mul_lt_mul_of_pos_right (by exact_mod_cast hlt) (two_zpow_pos e)

theorem compare_magnitude {m m' : Nat} {e e' : Int} (hc : Canonical m e) (hc' : Canonical m' e') :
    (compare e e').then (compare m m') = compare ((m : Rat) * 2 ^ e) (m' * 2 ^ e') := by
  rcases lt_trichotomy e e' with h | rfl | h
  · rw [compare_lt_iff_lt.mpr h, compare_lt_iff_lt.mpr (magnitude_lt hc hc' h)]
    rfl
  · have hpos := two_zpow_pos e
    rw [compare_eq_iff_eq.mpr rfl]
    show compare m m' = _
    rcases lt_trichotomy m m' with hm | rfl | hm
    · have hcast : (m : Rat) < m' := by exact_mod_cast hm
      rw [compare_lt_iff_lt.mpr hm, compare_lt_iff_lt.mpr (mul_lt_mul_of_pos_right hcast hpos)]
    · rw [compare_eq_iff_eq.mpr rfl, compare_eq_iff_eq.mpr rfl]
    · have hcast : (m' : Rat) < m := by exact_mod_cast hm
      rw [compare_gt_iff_gt.mpr hm, compare_gt_iff_gt.mpr (mul_lt_mul_of_pos_right hcast hpos)]
  · rw [compare_gt_iff_gt.mpr h, compare_gt_iff_gt.mpr (magnitude_lt hc' hc h)]
    rfl

theorem compare_neg_neg (a b : Rat) : compare (-a) (-b) = (compare a b).swap := by
  rcases lt_trichotomy a b with h | rfl | h
  · rw [compare_lt_iff_lt.mpr h, compare_gt_iff_gt.mpr (neg_lt_neg h)]
    rfl
  · rw [compare_eq_iff_eq.mpr rfl, compare_eq_iff_eq.mpr rfl]
    rfl
  · rw [compare_gt_iff_gt.mpr h, compare_lt_iff_lt.mpr (neg_lt_neg h)]
    rfl

namespace Denotes

variable {u v : UnpackedFloat} {p q : Rat}

/-- Unpacked doubles compare as the numbers they denote. -/
theorem compare_eq (hu : Denotes u p) (hv : Denotes v q) : u.compare v = some (compare p q) := by
  cases hu with
  | zero s =>
      cases hv with
      | zero s' => rw [compare_eq_iff_eq.mpr rfl, UnpackedFloat.compare]
      | @finite s' m' e' hm' hc' =>
          have hpos' := magnitude_pos hm' e'
          cases s' with
          | negative =>
              rw [negative_value, compare_gt_iff_gt.mpr (neg_neg_of_pos hpos'),
                UnpackedFloat.compare]
          | positive =>
              rw [positive_value, compare_lt_iff_lt.mpr hpos', UnpackedFloat.compare]
  | @finite s m e hm hc =>
      have hpos := magnitude_pos hm e
      cases hv with
      | zero s' =>
          cases s with
          | negative =>
              rw [negative_value, compare_lt_iff_lt.mpr (neg_neg_of_pos hpos),
                UnpackedFloat.compare]
          | positive =>
              rw [positive_value, compare_gt_iff_gt.mpr hpos, UnpackedFloat.compare]
      | @finite s' m' e' hm' hc' =>
          have hpos' := magnitude_pos hm' e'
          have hcompare := compare_magnitude hc hc'
          cases s with
          | negative =>
              rw [negative_value]
              cases s' with
              | negative =>
                  rw [negative_value, compare_neg_neg, ← hcompare, UnpackedFloat.compare]
              | positive =>
                  rw [positive_value, compare_lt_iff_lt.mpr (by linarith), UnpackedFloat.compare]
          | positive =>
              rw [positive_value]
              cases s' with
              | negative =>
                  rw [negative_value, compare_gt_iff_gt.mpr (by linarith), UnpackedFloat.compare]
              | positive => rw [positive_value, ← hcompare, UnpackedFloat.compare]

theorem le_iff (hu : Denotes u p) (hv : Denotes v q) : u.le v = true ↔ p ≤ q := by
  rw [UnpackedFloat.le, hu.compare_eq hv]
  exact Ordering.ne_gt_iff_isLE.symm.trans compare_le_iff_le

theorem beq_iff (hu : Denotes u p) (hv : Denotes v q) : u.beq v = true ↔ p = q := by
  rw [UnpackedFloat.beq, hu.compare_eq hv, beq_iff_eq, Option.some.injEq, compare_eq_iff_eq]

end Denotes

/-! ## The doubles as a number domain -/

end Double

namespace Rational

/-- A rational that some double stands for. -/
def IsDouble (q : Rat) : Prop := ∃ x : Float, ofDouble? x = some q

open Float.Model (UnpackedFloat)

variable {x y : Float} {p q : Rat}

theorem isFinite_iff : x.isFinite = true ↔ ∃ q, ofDouble? x = some q := by
  show x.toModel.unpack.isFinite = true ↔ _
  unfold ofDouble?
  cases x.toModel.unpack <;> simp [UnpackedFloat.isFinite]

theorem ofDouble?_zero : ofDouble? NumberDomain.zero = some NumberDomain.zero := by
  decide +kernel

theorem ofDouble?_one : ofDouble? NumberDomain.one = some NumberDomain.one := by
  decide +kernel

/-- An operation that comes out even on unpacked doubles does so on
doubles. -/
theorem ofDouble?_pack {u : UnpackedFloat} {r : Rat} (h : IsDouble r)
    (heven : ∀ w, Double.Denotes w r → Double.Denotes u r) :
    ofDouble? (.ofModel (Float.Model.pack u)) = some r := by
  obtain ⟨z, hz⟩ := h
  exact (heven _ (Double.ofDouble?_eq_some_iff.mp hz)).ofDouble?

theorem ofDouble?_add (hx : ofDouble? x = some p) (hy : ofDouble? y = some q)
    (h : IsDouble (p + q)) : ofDouble? (x + y) = some (p + q) := by
  rw [Double.ofDouble?_eq_some_iff] at hx hy
  exact ofDouble?_pack h fun _ => hx.add hy

theorem ofDouble?_sub (hx : ofDouble? x = some p) (hy : ofDouble? y = some q)
    (h : IsDouble (p - q)) : ofDouble? (x - y) = some (p - q) := by
  rw [Double.ofDouble?_eq_some_iff] at hx hy
  exact ofDouble?_pack h fun _ => hx.sub hy

theorem ofDouble?_mul (hx : ofDouble? x = some p) (hy : ofDouble? y = some q)
    (h : IsDouble (p * q)) : ofDouble? (x * y) = some (p * q) := by
  rw [Double.ofDouble?_eq_some_iff] at hx hy
  exact ofDouble?_pack h fun _ => hx.mul hy

theorem ofDouble?_div (hx : ofDouble? x = some p) (hy : ofDouble? y = some q) (hq : q ≠ 0)
    (h : IsDouble (p / q)) : ofDouble? (x / y) = some (p / q) := by
  rw [Double.ofDouble?_eq_some_iff] at hx hy
  exact ofDouble?_pack h fun _ => hx.div hy hq

theorem ofDouble?_abs (hx : ofDouble? x = some p) : ofDouble? x.abs = some p.abs := by
  rw [Double.ofDouble?_eq_some_iff] at hx
  have habs : p.abs = |p| := by
    rcases le_total 0 p with hp | hp
    · rw [abs_of_nonneg hp, Rat.abs_of_nonneg hp]
    · rw [abs_of_nonpos hp, Rat.abs_of_nonpos hp]
  rw [habs]
  exact hx.abs.ofDouble?

theorem le_eq (hx : ofDouble? x = some p) (hy : ofDouble? y = some q) :
    NumberDomain.le x y = NumberDomain.le p q := by
  rw [Double.ofDouble?_eq_some_iff] at hx hy
  refine decide_eq_decide.mpr ?_
  show decide (x.toModel ≤ y.toModel) = true ↔ _
  rw [decide_eq_true_iff]
  exact hx.le_iff hy

theorem isZero_eq (hx : ofDouble? x = some p) :
    NumberDomain.isZero x = NumberDomain.isZero p := by
  have hzero := ofDouble?_zero
  rw [Double.ofDouble?_eq_some_iff] at hx hzero
  refine Bool.eq_iff_iff.mpr ((hx.beq_iff hzero).trans ?_)
  exact beq_iff_eq.symm

end Rational

end FourFunction
