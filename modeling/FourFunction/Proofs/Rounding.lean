import Mathlib
import FourFunction.NumberDomain

/-!
# Rounding what needs none

Rounding looks for the canonical form of a number and drops the bits for
which that has no room. Where the number has a canonical form, with no
bit too many, that form is what rounding finds, whichever way the number
is written: two ways to write one number differ by a shift of the
mantissa (`mantissa_eq`), so they have the same total exponent, and the
total exponent alone decides where rounding goes.
-/

namespace FourFunction

/-! ## The form of a double

A finite double other than zero is kept as a mantissa and an exponent,
and of the many ways to write `m * 2 ^ e` only one is `Canonical`: the
mantissa fills its 53 bits, unless the exponent is already the least
there is. The fields of a double are only read here. What is needed of
them is that reading one yields a canonical form (`canonical_of_unpack`)
and that a canonical form survives being written and read back
(`unpack_pack`). -/

namespace Double

open Float.Model (Format UnpackedFloat)
open Float.Model.UnpackedFloat (Sign)

/-- `m * 2 ^ e` as a double keeps it. -/
structure Canonical (m : Nat) (e : Int) : Prop where
  mantissa_lt : m < 2 ^ 53
  least_le : -1074 ≤ e
  le_greatest : e ≤ 971
  full : 2 ^ 52 ≤ m ∨ e = -1074

/-! ### Reading -/

/-- The leading bit of a full mantissa is not stored. -/
theorem toNat_leading_append (stored : BitVec 52) :
    (1#1 ++ stored).toNat = 2 ^ 52 + stored.toNat := by
  rw [BitVec.toNat_append, ← Nat.shiftLeft_add_eq_or_of_lt stored.isLt]
  rfl

theorem canonical_of_unpack {b : BitVec Format.binary64.numBits} {s : Sign} {m : Nat} {e : Int}
    {hm : 0 < m} (h : UnpackedFloat.unpack Format.binary64 b = .finite s m e hm) :
    Canonical m e := by
  have hbias : Format.binary64.exponentBias = 1023 := rfl
  have hmantissa : (UnpackedFloat.unpackMantissa b).toNat < 2 ^ 52 :=
    (UnpackedFloat.unpackMantissa b).isLt
  have hexponent : (UnpackedFloat.unpackExponent b).toNat < 2 ^ 11 :=
    (UnpackedFloat.unpackExponent b).isLt
  simp only [UnpackedFloat.unpack, hbias] at h
  split at h
  · split at h <;> cases h
  · rename_i hnotTop
    have htop : (UnpackedFloat.unpackExponent b).toNat ≠ 2047 := fun htop =>
      hnotTop (BitVec.eq_of_toNat_eq htop)
    split at h
    · rename_i hzero
      split at h
      · cases h
      · cases h
        rw [hzero]
        exact ⟨by omega, by decide, by decide, Or.inr rfl⟩
    · rename_i hnonzero
      have hbottom : (UnpackedFloat.unpackExponent b).toNat ≠ 0 := fun hbottom =>
        hnonzero (BitVec.eq_of_toNat_eq hbottom)
      cases h
      have hleading := toNat_leading_append (UnpackedFloat.unpackMantissa b)
      rw [hleading]
      exact ⟨by omega, by omega, by omega, Or.inl (by omega)⟩

/-! ### Writing -/

theorem finite_congr {s : Sign} {m m' : Nat} {e e' : Int} {hm : 0 < m} {hm' : 0 < m'}
    (h : m = m') (h' : e = e') : UnpackedFloat.finite s m e hm = .finite s m' e' hm' := by
  subst h h'
  rfl

theorem ofNat_ne {w m n : Nat} (hm : m < 2 ^ w) (hn : n < 2 ^ w) (h : m ≠ n) :
    BitVec.ofNat w m ≠ BitVec.ofNat w n := by
  intro heq
  have htoNat := congrArg BitVec.toNat heq
  rw [BitVec.toNat_ofNat, BitVec.toNat_ofNat, Nat.mod_eq_of_lt hm, Nat.mod_eq_of_lt hn] at htoNat
  exact h htoNat

theorem unpack_full (s : Sign) {m exponent : Nat} (hm : 0 < m) (hfull : 2 ^ 52 ≤ m)
    (hlt : m < 2 ^ 53) (hpos : 0 < exponent) (htop : exponent < 2047) :
    UnpackedFloat.unpack Format.binary64 (UnpackedFloat.packComponents Format.binary64 s
      (BitVec.ofNat 11 exponent) (BitVec.ofNat 52 m)) = .finite s m (exponent - 1075) hm := by
  have hbias : Format.binary64.exponentBias = 1023 := rfl
  have hnotTop : BitVec.ofNat 11 exponent ≠ -1#11 :=
    @ofNat_ne 11 _ 2047 (by omega) (by omega) (by omega)
  have hnotBottom : BitVec.ofNat 11 exponent ≠ BitVec.ofNat 11 0 :=
    ofNat_ne (by omega) (by omega) (by omega)
  simp only [UnpackedFloat.unpack, UnpackedFloat.unpackExponent_packComponents,
    UnpackedFloat.unpackMantissa_packComponents, UnpackedFloat.unpackSign_packComponents,
    Sign.ofBitVec_toBitVec]
  rw [if_neg hnotTop, if_neg hnotBottom]
  refine finite_congr ?_ ?_
  · rw [toNat_leading_append, BitVec.toNat_ofNat]
    omega
  · rw [BitVec.toNat_ofNat, hbias]
    omega

theorem unpack_subnormal (s : Sign) {m : Nat} (hm : 0 < m) (hlt : m < 2 ^ 52) :
    UnpackedFloat.unpack Format.binary64 (UnpackedFloat.packComponents Format.binary64 s
      0#11 (BitVec.ofNat 52 m)) = .finite s m (-1074) hm := by
  have hstored : BitVec.ofNat 52 m ≠ BitVec.ofNat 52 0 :=
    ofNat_ne hlt (by omega) (Nat.ne_of_gt hm)
  simp only [UnpackedFloat.unpack, UnpackedFloat.unpackExponent_packComponents,
    UnpackedFloat.unpackMantissa_packComponents, UnpackedFloat.unpackSign_packComponents,
    Sign.ofBitVec_toBitVec]
  rw [if_neg (by decide), if_pos trivial, dif_neg hstored]
  refine finite_congr ?_ rfl
  rw [BitVec.toNat_ofNat]
  omega

/-- A canonical form is read back as it was written. -/
theorem unpack_pack {s : Sign} {m : Nat} {e : Int} {hm : 0 < m} (h : Canonical m e) :
    (Float.Model.pack (.finite s m e hm)).unpack = .finite s m e hm := by
  obtain ⟨hlt, hleast, hgreatest, hfull⟩ := h
  have hbias : Format.binary64.exponentBias = 1023 := rfl
  have hbits : Format.binary64.mantissaBits = 53 := rfl
  have hbiased : ¬ 2 ^ 11 ≤ (e + (1023 : Nat) + (52 : Nat)).toNat + 1 := by omega
  have hlog : m.log2 + 1 = 53 ↔ 2 ^ 52 ≤ m := by
    have hlog53 := (Nat.log2_lt (Nat.ne_of_gt hm)).mpr hlt
    rw [← Nat.le_log2 (Nat.ne_of_gt hm)]
    omega
  show UnpackedFloat.unpack _ (UnpackedFloat.pack _ (.finite s m e hm)) = _
  simp only [UnpackedFloat.pack, hbias, hbits, hlog]
  rw [if_neg hbiased]
  split
  · rename_i hm52
    rw [unpack_full s hm hm52 hlt (by omega) (by omega)]
    exact finite_congr rfl (by omega)
  · rename_i hm52
    rw [unpack_subnormal s hm (Nat.not_le.mp hm52), hfull.resolve_left hm52]

end Double

/-- The rational that a mantissa and an exponent stand for, as a power. -/
theorem Rational.scaled_eq (m e : Int) : scaled m e = m * (2 : Rat) ^ e := by
  cases e with
  | ofNat n =>
      show ((m * (Nat.pow 2 n : Nat) : Int) : Rat) = m * (2 : Rat) ^ (n : Int)
      rw [zpow_natCast, Int.cast_mul]
      norm_cast
  | negSucc n =>
      show mkRat m (Nat.pow 2 (n + 1)) = _
      rw [Rat.mkRat_eq_div, zpow_negSucc, div_eq_mul_inv]
      norm_cast

namespace Double

open Float.Model (Format UnpackedFloat totalExponent)
open Float.Model.UnpackedFloat (ExtendedMantissa Sign)

variable {m m' : Nat} {e e' : Int}

/-! ## Mantissas and exponents -/

theorem two_zpow_pos (e : Int) : (0 : Rat) < 2 ^ e := zpow_pos (by norm_num) e

theorem magnitude_pos (hm : 0 < m) (e : Int) : (0 : Rat) < m * 2 ^ e :=
  mul_pos (by exact_mod_cast hm) (two_zpow_pos e)

theorem two_zpow_eq (h : e ≤ e') :
    (2 : Rat) ^ e' = ((2 ^ (e' - e).toNat : Nat) : Rat) * 2 ^ e := by
  rw [Nat.cast_pow, Nat.cast_ofNat, ← zpow_natCast, ← zpow_add₀ (by norm_num)]
  congr 1
  omega

/-- Of two ways to write a number, the one with the smaller exponent has
the mantissa of the other, shifted. -/
theorem mantissa_eq (he : e ≤ e') (h : (m : Rat) * 2 ^ e = m' * 2 ^ e') :
    m = m' * 2 ^ (e' - e).toNat := by
  rw [two_zpow_eq he, ← mul_assoc] at h
  exact_mod_cast mul_right_cancel₀ (two_zpow_pos e).ne' h

theorem log2_mul_two_pow (hm : 0 < m) (k : Nat) : (m * 2 ^ k).log2 = m.log2 + k := by
  induction k with
  | zero => simp
  | succ k ih =>
      have hpos : 0 < m * 2 ^ k := Nat.mul_pos hm (Nat.two_pow_pos k)
      rw [Nat.pow_succ', Nat.mul_left_comm, Nat.log2_two_mul hpos.ne', ih]
      rfl

theorem totalExponent_eq (hm : 0 < m) (hm' : 0 < m') (h : (m : Rat) * 2 ^ e = m' * 2 ^ e') :
    totalExponent m e = totalExponent m' e' := by
  unfold totalExponent
  rcases le_total e e' with he | he
  · rw [mantissa_eq he h, log2_mul_two_pow hm']
    omega
  · rw [mantissa_eq he h.symm, log2_mul_two_pow hm]
    omega

theorem targetExponent_eq (t : Int) :
    Format.binary64.targetExponent t = max (t - 53) (-1074) := rfl

/-- A canonical form has the exponent that rounding aims at. -/
theorem Canonical.targetExponent_eq (h : Canonical m e) (hm : 0 < m) :
    Format.binary64.targetExponent (totalExponent m e) = e := by
  have hlog : m.log2 < 53 := (Nat.log2_lt hm.ne').mpr h.mantissa_lt
  have hleast := h.least_le
  rw [Double.targetExponent_eq, totalExponent]
  rcases h.full with hfull | hfull
  · have := (Nat.le_log2 hm.ne').mpr hfull
    omega
  · omega

/-! ## Rounding -/

theorem shiftRight_exact (m k : Nat) :
    (ExtendedMantissa.ofMantissaAndAccuracy (m * 2 ^ k) .exact) >>> k =
      ExtendedMantissa.ofMantissaAndAccuracy m .exact := by
  show k.repeat ExtendedMantissa.shiftRightOne _ = _
  induction k generalizing m with
  | zero => simp [Nat.repeat]
  | succ k ih =>
      rw [Nat.repeat, Nat.pow_succ', ← Nat.mul_assoc, ih]
      simp [ExtendedMantissa.shiftRightOne, ExtendedMantissa.ofMantissaAndAccuracy]

section

variable (hm : 0 < m) (hm' : 0 < m') (hc : Canonical m' e') (h : (m : Rat) * 2 ^ e = m' * 2 ^ e')

include hm hm' hc h

theorem shiftToTargetExponent_exact (he : e ≤ e') :
    UnpackedFloat.shiftToTargetExponent Format.binary64 m e .exact =
      (ExtendedMantissa.ofMantissaAndAccuracy m' .exact, e') := by
  unfold UnpackedFloat.shiftToTargetExponent UnpackedFloat.shiftToExponent
  rw [totalExponent_eq hm hm' h, hc.targetExponent_eq hm', mantissa_eq he h]
  refine Prod.ext (shiftRight_exact m' _) ?_
  show e + ((e' - e).toNat : Int) = e'
  omega

/-- Rounding by dropping bits finds the canonical form of a number, if
there is one and its exponent is not below the one that is given. -/
theorem roundWithAccuracy_exact (he : e ≤ e') (s : Sign) :
    UnpackedFloat.roundWithAccuracy Format.binary64 s m e .exact = .finite s m' e' hm' := by
  -- rounding shifts once more after it has rounded up, which here it never has
  have hfirst := shiftToTargetExponent_exact hm hm' hc h he
  have hsecond := shiftToTargetExponent_exact hm' hm' hc rfl le_rfl
  have hround : (ExtendedMantissa.ofMantissaAndAccuracy m' .exact).roundedMantissa = m' := rfl
  simp only [UnpackedFloat.roundWithAccuracy, hfirst, hround, hsecond]
  exact dif_neg hm'.ne'

/-- Rounding finds the canonical form of a number, if there is one. -/
theorem round_exact (s : Sign) :
    UnpackedFloat.round Format.binary64 s m e = .finite s m' e' hm' := by
  unfold UnpackedFloat.round UnpackedFloat.decreaseExponent
  rw [totalExponent_eq hm hm' h, hc.targetExponent_eq hm']
  simp only [Nat.shiftLeft_eq]
  have hpos : 0 < m * 2 ^ (e - e').toNat := Nat.mul_pos hm (Nat.two_pow_pos _)
  refine roundWithAccuracy_exact hpos hm' hc ?_ (by omega) s
  rw [← h, two_zpow_eq (show e - ((e - e').toNat : Int) ≤ e by omega), Nat.cast_mul, mul_assoc]
  congr 4
  omega

end

/-! ## Products and quotients -/

/-- The product of two canonical mantissas never has too few bits. -/
theorem Canonical.le_targetExponent_mul (hc : Canonical m e) (hc' : Canonical m' e') (hm : 0 < m)
    (hm' : 0 < m') :
    e + e' ≤ Format.binary64.targetExponent (totalExponent (m * m') (e + e')) := by
  have hpos : m * m' ≠ 0 := (Nat.mul_pos hm hm').ne'
  rw [Double.targetExponent_eq, totalExponent]
  rcases hc.full with hfull | rfl
  · have : 52 ≤ (m * m').log2 :=
      (Nat.le_log2 hpos).mpr (hfull.trans (Nat.le_mul_of_pos_right m hm'))
    omega
  · rcases hc'.full with hfull | rfl
    · have : 52 ≤ (m * m').log2 :=
        (Nat.le_log2 hpos).mpr (hfull.trans (Nat.le_mul_of_pos_left m' hm))
      omega
    · omega

theorem log2_mul_le (hm : 0 < m) (hm' : 0 < m') : (m * m').log2 ≤ m.log2 + m'.log2 + 1 := by
  have hlt : m * m' < 2 ^ (m.log2 + 1) * 2 ^ (m'.log2 + 1) :=
    Nat.mul_lt_mul'' Nat.lt_log2_self Nat.lt_log2_self
  rw [← pow_add, ← Nat.log2_lt (Nat.mul_pos hm hm').ne'] at hlt
  omega

section

variable {n : Nat} {k : Int} (hm : 0 < m) (hm' : 0 < m') (hn : 0 < n) (hc : Canonical n k)
  (h : (m : Rat) * 2 ^ e = (n * m' : Nat) * 2 ^ (k + e'))

include hm hm' hn hc h

theorem targetExponent_div_le :
    Format.binary64.targetExponent (totalExponent m e - totalExponent m' e') ≤ k := by
  have htotal := totalExponent_eq hm (Nat.mul_pos hn hm') h
  have htarget := hc.targetExponent_eq hn
  have hlog := log2_mul_le hn hm'
  rw [targetExponent_eq] at htarget ⊢
  unfold totalExponent at *
  omega

/-- The division of mantissas leaves no remainder where the quotient has
a canonical form, and does not go past its exponent. -/
theorem divCore_exact :
    ∃ (i : Nat) (least : Int), least ≤ k ∧ ((n * 2 ^ i : Nat) : Rat) * 2 ^ least = n * 2 ^ k
      ∧ UnpackedFloat.divCore Format.binary64 m e m' e' = (n * 2 ^ i, least, .exact) := by
  have hle := targetExponent_div_le hm hm' hn hc h
  unfold UnpackedFloat.divCore
  generalize Format.binary64.targetExponent _ = target at hle
  obtain ⟨least, hleast⟩ : ∃ least, least = min (e - e') target := ⟨_, rfl⟩
  have hk : least ≤ k := by omega
  have hshift : m * 2 ^ (e - e' - least).toNat = n * m' * 2 ^ (k - least).toNat := by
    have heq : ((m * 2 ^ (e - e' - least).toNat : Nat) : Rat) * 2 ^ (least + e') =
        (n * m' : Nat) * 2 ^ (k + e') := by
      rw [← h, two_zpow_eq (show least + e' ≤ e by omega), Nat.cast_mul, mul_assoc]
      congr 4
      omega
    rw [mantissa_eq (by omega) heq]
    congr 3
    omega
  refine ⟨(k - least).toNat, least, hk, ?_, ?_⟩
  · rw [Nat.cast_mul, mul_assoc, ← two_zpow_eq hk]
  · have hquot : n * m' * 2 ^ (k - least).toNat = n * 2 ^ (k - least).toNat * m' :=
      Nat.mul_right_comm ..
    simp only [← hleast, Nat.shiftLeft_eq, hshift, hquot, Nat.mul_div_cancel _ hm',
      Nat.mul_mod_left]
    rfl

end

end Double

end FourFunction
