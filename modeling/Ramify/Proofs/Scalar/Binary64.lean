import Ramify.Proofs.Scalar.Laws
import Ramify.Scalar.Binary64

/-!
Laws of binary floating point. Two values that are numbers can be compared, one way or the other.
The result of an addition, a subtraction or a multiplication is a number, and not infinite, as long
as the exponents of the operands are small; how small is counted roughly, as an operation on 53-bit
mantissas cannot add more than their length to an exponent. The random factors of units are the
result of a few operations on numbers near one, far away from the largest exponent.
-/

namespace Ramify.Binary64

open Float.Model Float.Model.UnpackedFloat

/-- A value that is a number and not infinite, with an exponent up to the given one. -/
def Bounded (bound : Int) : UnpackedFloat → Prop
  | .zero _ => True
  | .finite _ _ exponent _ => exponent ≤ bound
  | .infinity _ | .notANumber => False

instance (bound : Int) : DecidablePred (Bounded bound)
  | .zero _ => inferInstanceAs (Decidable True)
  | .finite _ _ exponent _ => inferInstanceAs (Decidable (exponent ≤ bound))
  | .infinity _ | .notANumber => inferInstanceAs (Decidable False)

section Rounding

theorem log2_succ_le {mantissa size : Nat} (h : mantissa < 2 ^ size) (hsize : 0 < size) :
    mantissa.log2 + 1 ≤ size := by
  rcases Nat.eq_zero_or_pos mantissa with rfl | hpos
  · exact hsize
  · exact (Nat.log2_lt (Nat.ne_of_gt hpos)).2 h

theorem mantissa_shiftRight (steps : Nat) (m : ExtendedMantissa) :
    (m >>> steps).mantissa = m.mantissa / 2 ^ steps := by
  induction steps with
  | zero => exact (Nat.div_one _).symm
  | succ steps ih =>
      change (ExtendedMantissa.shiftRightOne (m >>> steps)).mantissa = _
      rw [Nat.pow_succ, ← Nat.div_div_eq_div_mul, ← ih]
      rfl

theorem mantissa_ofMantissaAndAccuracy (mantissa : Nat) (accuracy : Accuracy) :
    (ExtendedMantissa.ofMantissaAndAccuracy mantissa accuracy).mantissa = mantissa := by
  cases accuracy with
  | exact => rfl
  | inexact order => cases order <;> rfl

theorem roundToNearestEven_le (mantissa : Nat) (accuracy : Accuracy) :
    accuracy.roundToNearestEven mantissa ≤ mantissa + 1 := by
  cases accuracy with
  | exact => exact Nat.le_succ _
  | inexact order =>
      cases order with
      | lt => exact Nat.le_succ _
      | eq =>
          change mantissa + mantissa % 2 ≤ mantissa + 1
          omega
      | gt => exact Nat.le_refl _

variable {mantissa size : Nat}

/-- Dropping bits for the sake of the exponent leaves a value as small as it was, down to the
smallest exponent. -/
theorem exists_size_of_shift (exponent : Int) (accuracy : Accuracy) (h : mantissa < 2 ^ size)
    (hsize : 0 < size) :
    ∃ rest : Nat, 0 < rest ∧
      (shiftToTargetExponent .binary64 mantissa exponent accuracy).1.mantissa < 2 ^ rest ∧
      rest + (shiftToTargetExponent .binary64 mantissa exponent accuracy).2 ≤
        max (size + exponent) (-1073) := by
  have hlog := log2_succ_le h hsize
  have htarget : Format.binary64.targetExponent (totalExponent mantissa exponent) =
      max ((mantissa.log2 : Int) + 1 + exponent - 53) (-1074) := rfl
  unfold shiftToTargetExponent shiftToExponent
  rw [htarget]
  dsimp only
  generalize hshift : (max ((mantissa.log2 : Int) + 1 + exponent - 53) (-1074) - exponent).toNat =
    shift
  rw [mantissa_shiftRight, mantissa_ofMantissaAndAccuracy]
  by_cases hless : shift < size
  · refine ⟨size - shift, by omega, ?_, by omega⟩
    rw [Nat.div_lt_iff_lt_mul (Nat.two_pow_pos shift), ← Nat.pow_add]
    rwa [Nat.sub_add_cancel hless.le]
  · have hnone : mantissa / 2 ^ shift = 0 :=
      Nat.div_eq_of_lt (h.trans_le (Nat.pow_le_pow_right Nat.two_pos (Nat.le_of_not_lt hless)))
    exact ⟨1, Nat.one_pos, by rw [hnone]; exact Nat.two_pow_pos 1, by omega⟩

/-- A value that is rounded gets an exponent that is no larger than its size. -/
theorem bounded_roundWithAccuracy (sign : Sign) (exponent : Int) (accuracy : Accuracy)
    (h : mantissa < 2 ^ size) (hsize : 0 < size) :
    Bounded (max (size + exponent) (-1073))
      (roundWithAccuracy .binary64 sign mantissa exponent accuracy) := by
  obtain ⟨first, hfirst, hmantissa, hbound⟩ := exists_size_of_shift exponent accuracy h hsize
  unfold roundWithAccuracy
  generalize shiftToTargetExponent .binary64 mantissa exponent accuracy = shifted
    at hmantissa hbound ⊢
  obtain ⟨kept, shiftedExponent⟩ := shifted
  have hrounded : kept.roundedMantissa < 2 ^ (first + 1) := by
    have hle : kept.roundedMantissa ≤ kept.mantissa + 1 := roundToNearestEven_le _ _
    have hpow : 2 ^ (first + 1) = 2 ^ first + 2 ^ first := by rw [Nat.pow_succ, Nat.mul_two]
    have hpos := Nat.two_pow_pos first
    dsimp only at hmantissa
    omega
  obtain ⟨last, hlast, _, hbound'⟩ :=
    exists_size_of_shift shiftedExponent .exact hrounded (Nat.succ_pos first)
  dsimp only
  generalize shiftToTargetExponent .binary64 kept.roundedMantissa shiftedExponent .exact = final
    at hbound' ⊢
  by_cases hzero : final.1.mantissa = 0
  · rw [dif_pos hzero]
    trivial
  · rw [dif_neg hzero]
    change final.2 ≤ _
    dsimp only at hbound
    omega

theorem bounded_round (sign : Sign) (exponent : Int) (h : mantissa < 2 ^ size) (hsize : 0 < size) :
    Bounded (max (size + exponent) (-1073))
      (UnpackedFloat.round .binary64 sign mantissa exponent) := by
  unfold UnpackedFloat.round decreaseExponent
  dsimp only
  generalize (exponent - Format.binary64.targetExponent (totalExponent mantissa exponent)).toNat =
    shift
  have hshifted : mantissa <<< shift < 2 ^ (size + shift) := by
    rw [Nat.shiftLeft_eq, Nat.pow_add]
    exact Nat.mul_lt_mul_of_pos_right h (Nat.two_pow_pos shift)
  have hround := bounded_roundWithAccuracy sign (exponent - shift) .exact hshifted (by omega)
  rwa [Nat.cast_add, add_add_sub_cancel] at hround

theorem bounded_normalize (mantissa : Int) (exponent : Int) (zeroSign : Sign)
    (h : mantissa.natAbs < 2 ^ size) (hsize : 0 < size) :
    Bounded (max (size + exponent) (-1073))
      (UnpackedFloat.normalize .binary64 mantissa exponent zeroSign) := by
  unfold UnpackedFloat.normalize
  split
  · exact bounded_round _ _ (by omega) hsize
  · trivial
  · exact bounded_round _ _ (by omega) hsize

end Rounding

section Storage

variable {bound other : Int} {a b : UnpackedFloat}

theorem Bounded.mono (h : Bounded bound a) (hle : bound ≤ other) : Bounded other a := by
  cases a with
  | zero s => trivial
  | finite s m e hm => exact le_trans h hle
  | infinity s => exact h
  | notANumber => exact h

theorem Bounded.isNaN (h : Bounded bound a) : a.isNaN = false := by
  cases a with
  | notANumber => cases h
  | zero s => rfl
  | finite s m e hm => rfl
  | infinity s => rfl

/-- What a word can stand for: with the largest exponent nothing finite, and otherwise a zero, or a
mantissa of at most 53 bits with the exponent of the word. -/
inductive Unpacked (word : BitVec Format.binary64.numBits) : UnpackedFloat → Prop
  | infinity (s : Sign) : unpackExponent word = -1#11 → Unpacked word (.infinity s)
  | notANumber : unpackExponent word = -1#11 → Unpacked word .notANumber
  | zero (s : Sign) : Unpacked word (.zero s)
  | finite (s : Sign) {m : Nat} {e : Int} (hm : 0 < m) : m < 2 ^ 53 →
      e ≤ max ((unpackExponent word).toNat : Int) 1 - 1075 → Unpacked word (.finite s m e hm)

theorem unpacked_unpack (word : BitVec Format.binary64.numBits) :
    Unpacked word (UnpackedFloat.unpack .binary64 word) := by
  have hbias : ((Format.binary64.exponentBias : Nat) : Int) = 1023 := rfl
  have hbits : ((Format.binary64.mantissaBitsWithoutImplicit : Nat) : Int) = 52 := rfl
  unfold UnpackedFloat.unpack
  by_cases hones : unpackExponent word = -1#11
  · rw [if_pos hones]
    by_cases hmantissa : unpackMantissa word = 0#52
    · rw [if_pos hmantissa]
      exact .infinity _ hones
    · rw [if_neg hmantissa]
      exact .notANumber hones
  · rw [if_neg hones]
    by_cases hsubnormal : unpackExponent word = 0#11
    · rw [if_pos hsubnormal]
      by_cases hmantissa : unpackMantissa word = 0#52
      · rw [dif_pos hmantissa]
        exact .zero _
      · rw [dif_neg hmantissa]
        have hexponent : (unpackExponent word).toNat = 0 := congrArg BitVec.toNat hsubnormal
        exact .finite _ _ ((BitVec.isLt _).trans (by decide)) (by omega)
    · rw [if_neg hsubnormal]
      exact .finite _ _ (BitVec.isLt _) (by omega)

/-- The mantissa of a value that is stored has 53 bits. -/
theorem mantissa_lt {x : Float.Model} {s : Sign} {m : Nat} {e : Int} {hm : 0 < m}
    (h : x.unpack = .finite s m e hm) : m < 2 ^ 53 := by
  have hunpacked := unpacked_unpack x.toBits.toBitVec
  change Unpacked _ x.unpack at hunpacked
  rw [h] at hunpacked
  cases hunpacked with
  | finite _ _ hlt _ => exact hlt

theorem bounded_unpack {word : BitVec Format.binary64.numBits}
    (h : ((unpackExponent word).toNat : Int) ≤ bound + 1075) (hlow : -1074 ≤ bound)
    (hhigh : bound ≤ 970) : Bounded bound (UnpackedFloat.unpack .binary64 word) := by
  have hnormal : unpackExponent word ≠ -1#11 := by
    have hlargest : ((-1#11 : BitVec 11).toNat : Int) = 2047 := rfl
    intro hones
    rw [hones] at h
    omega
  have hunpacked := unpacked_unpack word
  generalize UnpackedFloat.unpack .binary64 word = a at hunpacked ⊢
  cases hunpacked with
  | infinity _ hones => exact absurd hones hnormal
  | notANumber hones => exact absurd hones hnormal
  | zero _ => trivial
  | @finite _ m e _ _ he =>
      change e ≤ bound
      omega

/-- Storing a value does not make it infinite if its exponent is small enough. -/
theorem bounded_unpack_pack (h : Bounded bound a) (hlow : -1074 ≤ bound) (hhigh : bound ≤ 970) :
    Bounded bound (Float.Model.pack a).unpack := by
  change Bounded bound (UnpackedFloat.unpack .binary64 (UnpackedFloat.pack .binary64 a))
  cases a with
  | infinity s => cases h
  | notANumber => cases h
  | zero s => cases s <;> trivial
  | finite s m e hm =>
      change e ≤ bound at h
      have hbias : ((Format.binary64.exponentBias : Nat) : Int) = 1023 := rfl
      have hbits : ((Format.binary64.mantissaBitsWithoutImplicit : Nat) : Int) = 52 := rfl
      apply bounded_unpack _ hlow hhigh
      unfold UnpackedFloat.pack
      dsimp only
      rw [hbias, hbits, if_neg (by omega)]
      split
      · rw [unpackExponent_packComponents, BitVec.toNat_ofNat]
        have hmod := Nat.mod_le (e + 1023 + 52).toNat (2 ^ 11)
        omega
      · rw [unpackExponent_packComponents]
        change ((0 : Nat) : Int) ≤ _
        omega

end Storage

section Operations

variable {bound other : Int} {x y : Float.Model}

/-- What is bounded and stored is a zero, or has a mantissa of 53 bits. -/
theorem stored_of_bounded (h : Bounded bound x.unpack) :
    (∃ s, x.unpack = .zero s) ∨
      ∃ s m e hm, x.unpack = .finite s m e hm ∧ m < 2 ^ 53 ∧ e ≤ bound := by
  cases hx : x.unpack with
  | zero s => exact Or.inl ⟨s, rfl⟩
  | finite s m e hm =>
      rw [hx] at h
      exact Or.inr ⟨s, m, e, hm, rfl, mantissa_lt hx, h⟩
  | infinity s =>
      rw [hx] at h
      cases h
  | notANumber =>
      rw [hx] at h
      cases h

theorem natAbs_apply (s : Sign) (n : Int) : (s.apply n).natAbs = n.natAbs := by
  cases s with
  | negative => exact Int.natAbs_neg n
  | positive => rfl

theorem shiftLeft_lt {m : Nat} {e low : Int} (hm : m < 2 ^ 53) (he : e ≤ bound) :
    m <<< (e - low).toNat < 2 ^ (53 + (bound - low).toNat) := by
  rw [Nat.shiftLeft_eq, Nat.pow_add]
  exact Nat.mul_lt_mul_of_lt_of_le hm (Nat.pow_le_pow_right Nat.two_pos (by omega))
    (Nat.two_pow_pos _)

/-- The sum or the difference of two stored values, with the smaller exponent. -/
theorem bounded_aligned {m n : Nat} {e f mantissa : Int} (hm : m < 2 ^ 53) (hn : n < 2 ^ 53)
    (he : e ≤ bound) (hf : f ≤ bound) (hlow : -1074 ≤ bound)
    (hmantissa : mantissa.natAbs ≤ m <<< (e - min e f).toNat + n <<< (f - min e f).toNat) :
    Bounded (bound + 54)
      (UnpackedFloat.normalize .binary64 mantissa (min e f) .positive) := by
  have hleft : m <<< (e - min e f).toNat < _ := shiftLeft_lt hm he
  have hright : n <<< (f - min e f).toNat < _ := shiftLeft_lt hn hf
  have hsize : mantissa.natAbs < 2 ^ (53 + (bound - min e f).toNat + 1) := by
    rw [Nat.pow_succ, Nat.mul_two]
    omega
  exact (bounded_normalize mantissa (min e f) .positive hsize (Nat.succ_pos _)).mono (by omega)

theorem bounded_add (hx : Bounded bound x.unpack) (hy : Bounded bound y.unpack)
    (hlow : -1074 ≤ bound) :
    Bounded (bound + 54) (UnpackedFloat.add .binary64 x.unpack y.unpack) := by
  rcases stored_of_bounded hx with ⟨s, hxu⟩ | ⟨s, m, e, _, hxu, hm, he⟩ <;>
    rcases stored_of_bounded hy with ⟨t, hyu⟩ | ⟨t, n, f, _, hyu, hn, hf⟩ <;>
    rw [hxu, hyu]
  · cases s <;> cases t <;> trivial
  · exact le_trans hf (by omega)
  · exact le_trans he (by omega)
  · apply bounded_aligned hm hn he hf hlow
    refine (Int.natAbs_add_le _ _).trans ?_
    rw [natAbs_apply, natAbs_apply]
    exact le_refl _

theorem bounded_sub (hx : Bounded bound x.unpack) (hy : Bounded bound y.unpack)
    (hlow : -1074 ≤ bound) :
    Bounded (bound + 54) (UnpackedFloat.sub .binary64 x.unpack y.unpack) := by
  rcases stored_of_bounded hx with ⟨s, hxu⟩ | ⟨s, m, e, _, hxu, hm, he⟩ <;>
    rcases stored_of_bounded hy with ⟨t, hyu⟩ | ⟨t, n, f, _, hyu, hn, hf⟩ <;>
    rw [hxu, hyu]
  · cases s <;> cases t <;> trivial
  · exact le_trans hf (by omega)
  · exact le_trans he (by omega)
  · apply bounded_aligned hm hn he hf hlow
    refine (Int.natAbs_sub_le _ _).trans ?_
    rw [natAbs_apply, natAbs_apply]
    exact le_refl _

theorem bounded_mul (hx : Bounded bound x.unpack) (hy : Bounded other y.unpack)
    (hlow : -1073 ≤ 106 + bound + other) :
    Bounded (106 + bound + other) (UnpackedFloat.mul .binary64 x.unpack y.unpack) := by
  rcases stored_of_bounded hx with ⟨s, hxu⟩ | ⟨s, m, e, _, hxu, hm, he⟩ <;>
    rcases stored_of_bounded hy with ⟨t, hyu⟩ | ⟨t, n, f, _, hyu, hn, hf⟩ <;>
    rw [hxu, hyu]
  · trivial
  · trivial
  · trivial
  · have hsize : m * n < 2 ^ (53 + 53) := by
      rw [Nat.pow_add]
      exact Nat.mul_lt_mul_of_lt_of_lt hm hn
    exact (bounded_roundWithAccuracy (s * t) (e + f) .exact hsize (by decide)).mono
      (by push_cast; omega)

/-- A quotient by a value of a certain size. -/
theorem bounded_div {t : Sign} {n : Nat} {f : Int} {hn : 0 < n} (hx : Bounded bound x.unpack)
    (hlow : -1073 ≤ 53 + bound - f) :
    Bounded (53 + bound - f) (UnpackedFloat.div .binary64 x.unpack (.finite t n f hn)) := by
  rcases stored_of_bounded hx with ⟨s, hxu⟩ | ⟨s, m, e, _, hxu, hm, he⟩ <;> rw [hxu]
  · trivial
  · unfold UnpackedFloat.div divCore
    dsimp only
    generalize htarget : min (e - f) (Format.binary64.targetExponent
      (totalExponent m e - totalExponent n f)) = target
    have hle : target ≤ e - f := htarget ▸ min_le_left _ _
    have hsize : m <<< (e - f - target).toNat / n < 2 ^ (53 + (e - f - target).toNat) :=
      (Nat.div_le_self _ _).trans_lt (shiftLeft_lt hm le_rfl)
    exact (bounded_roundWithAccuracy (s / t) target _ hsize (by omega)).mono (by omega)

end Operations

section Floats

/-- A number that is not infinite, and no larger than its exponent allows. -/
def Moderate (bound : Int) (x : Float) : Prop := Bounded bound x.toModel.unpack

instance (bound : Int) : DecidablePred (Moderate bound) :=
  fun x => inferInstanceAs (Decidable (Bounded bound x.toModel.unpack))

variable {bound other : Int} {x y : Float}

theorem Moderate.add (hx : Moderate bound x) (hy : Moderate bound y) (hlow : -1074 ≤ bound)
    (hhigh : bound ≤ 900) : Moderate (bound + 54) (x + y) :=
  bounded_unpack_pack (bounded_add hx hy hlow) (by omega) (by omega)

theorem Moderate.sub (hx : Moderate bound x) (hy : Moderate bound y) (hlow : -1074 ≤ bound)
    (hhigh : bound ≤ 900) : Moderate (bound + 54) (x - y) :=
  bounded_unpack_pack (bounded_sub hx hy hlow) (by omega) (by omega)

theorem Moderate.mul (hx : Moderate bound x) (hy : Moderate other y)
    (hlow : -1073 ≤ 106 + bound + other) (hhigh : 106 + bound + other ≤ 970) :
    Moderate (106 + bound + other) (x * y) :=
  bounded_unpack_pack (bounded_mul hx hy hlow) (by omega) hhigh

theorem Moderate.abs (hx : Moderate bound x) (hlow : -1074 ≤ bound) (hhigh : bound ≤ 970) :
    Moderate bound x.abs := by
  refine bounded_unpack_pack ?_ hlow hhigh
  rcases stored_of_bounded hx with ⟨s, hxu⟩ | ⟨s, m, e, _, hxu, _, he⟩ <;> rw [hxu]
  · trivial
  · exact he

theorem moderate_toFloat (word : UInt32) : Moderate 32 word.toFloat := by
  have hsize : (word.toNat : Int).natAbs < 2 ^ 32 := word.toNat_lt
  exact bounded_unpack_pack (bounded_normalize word.toNat 0 .positive hsize (by decide)) (by decide)
    (by decide)

theorem moderate_fraction (low high : UInt32) : Moderate 213 (fraction low high) := by
  have hradix : Moderate (-20) 4294967296.0 := by decide +kernel
  have hshifted : Moderate 118 (high.toFloat * 4294967296.0) :=
    (moderate_toFloat high).mul hradix (by decide) (by decide)
  have hlow : Moderate 118 low.toFloat := (moderate_toFloat low).mono (by decide)
  have hsum : Moderate 172 (low.toFloat + high.toFloat * 4294967296.0) :=
    hlow.add hshifted (by decide) (by decide)
  have hdivisor : (18446744073709551616.0 : Float).toModel.unpack =
      .finite .positive (2 ^ 52) 12 (by decide) := rfl
  have hquotient : Moderate 213
      ((low.toFloat + high.toFloat * 4294967296.0) / 18446744073709551616.0) := by
    refine bounded_unpack_pack ?_ (by decide) (by decide)
    rw [hdivisor]
    exact bounded_div hsum (by decide)
  unfold fraction
  dsimp only
  split
  · decide +kernel
  · exact hquotient

end Floats

section Comparison

theorem compare_swap_then (m₁ m₂ : Nat) (e₁ e₂ : Int) :
    (compare e₂ e₁).then (compare m₂ m₁) = ((compare e₁ e₂).then (compare m₁ m₂)).swap := by
  rw [Ordering.swap_then, ← Std.OrientedOrd.eq_swap, ← Std.OrientedOrd.eq_swap]

/-- Two numbers can be compared, and either way around. -/
theorem exists_compare {a b : UnpackedFloat} (ha : a.isNaN = false) (hb : b.isNaN = false) :
    ∃ order, a.compare b = some order ∧ b.compare a = some order.swap := by
  cases a with
  | notANumber => cases ha
  | infinity s =>
      cases b with
      | notANumber => cases hb
      | infinity t => cases s <;> cases t <;> exact ⟨_, rfl, rfl⟩
      | zero t => cases s <;> exact ⟨_, rfl, rfl⟩
      | finite t n f hn => cases s <;> cases t <;> exact ⟨_, rfl, rfl⟩
  | zero s =>
      cases b with
      | notANumber => cases hb
      | infinity t => cases t <;> exact ⟨_, rfl, rfl⟩
      | zero t => exact ⟨_, rfl, rfl⟩
      | finite t n f hn => cases t <;> exact ⟨_, rfl, rfl⟩
  | finite s m e hm =>
      cases b with
      | notANumber => cases hb
      | infinity t => cases s <;> cases t <;> exact ⟨_, rfl, rfl⟩
      | zero t => cases s <;> exact ⟨_, rfl, rfl⟩
      | finite t n f hn =>
          cases s <;> cases t
          case negative.negative =>
            refine ⟨_, rfl, ?_⟩
            change some ((compare f e).then (compare n m)).swap = _
            rw [compare_swap_then m n e f]
          case positive.positive => exact ⟨_, rfl, congrArg some (compare_swap_then m n e f)⟩
          all_goals exact ⟨_, rfl, rfl⟩

theorem lt_iff (x y : Binary64) :
    x < y ↔ x.value.toModel.unpack.compare y.value.toModel.unpack = some .lt := by
  change decide (x.value.toModel < y.value.toModel) = true ↔ _
  rw [decide_eq_true_iff]
  change (_ == some Ordering.lt) = true ↔ _
  exact beq_iff_eq

theorem le_iff (x y : Binary64) :
    x ≤ y ↔ (x.value.toModel.unpack.compare y.value.toModel.unpack).any (·.isLE) = true := by
  change decide (x.value.toModel ≤ y.value.toModel) = true ↔ _
  rw [decide_eq_true_iff]
  rfl

theorem le_of_not_lt {x y : Binary64} (hx : x.isNaN = false) (hy : y.isNaN = false)
    (h : ¬y < x) : x ≤ y := by
  obtain ⟨order, hxy, hyx⟩ := exists_compare hx hy
  rw [lt_iff, hyx] at h
  rw [le_iff, hxy]
  cases order with
  | lt => rfl
  | eq => rfl
  | gt => exact absurd rfl h

end Comparison

section Drawing

variable {bound other : Int} {x y spread : Binary64}

theorem value_combine (operation : Float → Float → Float) (hx : Moderate bound x.value)
    (hy : Moderate other y.value) :
    (combine operation x y).value = operation x.value y.value := by
  have hxnan : x.isNaN = false := hx.isNaN
  have hynan : y.isNaN = false := hy.isNaN
  unfold combine
  rw [hxnan, hynan]
  rfl

theorem moderate_add (hx : Moderate bound x.value) (hy : Moderate bound y.value)
    (hlow : -1074 ≤ bound) (hhigh : bound ≤ 900) : Moderate (bound + 54) (x + y).value := by
  change Moderate _ (combine (· + ·) x y).value
  rw [value_combine _ hx hy]
  exact hx.add hy hlow hhigh

theorem moderate_sub (hx : Moderate bound x.value) (hy : Moderate bound y.value)
    (hlow : -1074 ≤ bound) (hhigh : bound ≤ 900) : Moderate (bound + 54) (x - y).value := by
  change Moderate _ (combine (· - ·) x y).value
  rw [value_combine _ hx hy]
  exact hx.sub hy hlow hhigh

theorem moderate_mul (hx : Moderate bound x.value) (hy : Moderate other y.value)
    (hlow : -1073 ≤ 106 + bound + other) (hhigh : 106 + bound + other ≤ 970) :
    Moderate (106 + bound + other) (x * y).value := by
  change Moderate _ (combine (· * ·) x y).value
  rw [value_combine _ hx hy]
  exact hx.mul hy hlow hhigh

theorem moderate_one : Moderate (-52) (1 : Binary64).value := by decide +kernel

/-- A number between zero and one has a small exponent. -/
theorem moderate_spread (hspread : spread.isNaN = false) (hpositive : ¬spread ≤ 0)
    (hbelow : ¬1 ≤ spread) : Moderate (-52) spread.value := by
  have hzero : (0 : Binary64).value.toModel.unpack = .zero .positive := rfl
  have hone : (1 : Binary64).value.toModel.unpack =
      .finite .positive (2 ^ 52) (-52) (by decide) := rfl
  rw [le_iff, hzero] at hpositive
  rw [le_iff, hone] at hbelow
  unfold Moderate
  change spread.value.toModel.unpack.isNaN = false at hspread
  generalize spread.value.toModel.unpack = u at hspread hpositive hbelow ⊢
  cases u with
  | notANumber => cases hspread
  | zero s => trivial
  | infinity s =>
      cases s with
      | negative => exact absurd rfl hpositive
      | positive => exact absurd rfl hbelow
  | finite s m e hm =>
      cases s with
      | negative => exact absurd rfl hpositive
      | positive =>
          change e ≤ -52
          by_contra hlarge
          have hcompare : compare (-52) e = .lt := compare_lt_iff_lt.2 (not_le.1 hlarge)
          apply hbelow
          change (some ((compare (-52) e).then _)).any (·.isLE) = true
          rw [hcompare]
          rfl

theorem moderate_around (hspread : Moderate (-52) spread.value) (generator : Twister) :
    Moderate 429 (Twister.around spread generator).value := by
  have hlow : Moderate 2 (1 - spread).value :=
    moderate_sub moderate_one hspread (by decide) (by decide)
  have hhigh : Moderate 2 (1 + spread).value :=
    moderate_add moderate_one hspread (by decide) (by decide)
  have hwidth : Moderate 56 (1 + spread - (1 - spread)).value :=
    moderate_sub hhigh hlow (by decide) (by decide)
  have hoffset (u : Binary64) (hu : Moderate 213 u.value) :
      Moderate 375 (u * (1 + spread - (1 - spread))).value :=
    moderate_mul hu hwidth (by decide) (by decide)
  have hsum (v : Binary64) (hv : Moderate 375 v.value) : Moderate 429 (v + (1 - spread)).value :=
    moderate_add hv (hlow.mono (by decide)) (by decide) (by decide)
  exact hsum _ (hoffset _ (moderate_fraction _ _))

theorem isNaN_distance (hspread : spread.isNaN = false) (hpositive : ¬spread ≤ 0)
    (hbelow : ¬1 ≤ spread) (first second : Twister) :
    (Scalar.abs (Twister.around spread first - Twister.around spread second)).isNaN = false := by
  have hmoderate := moderate_around (moderate_spread hspread hpositive hbelow)
  have hdifference : Moderate 483
      (Twister.around spread first - Twister.around spread second).value :=
    moderate_sub (hmoderate first) (hmoderate second) (by decide) (by decide)
  exact (hdifference.abs (by decide) (by decide)).isNaN

instance : Scalar.Comparable Binary64 where
  le_of_not_lt := le_of_not_lt

instance : Scalar.Drawable Binary64 where
  isNaN_distance := isNaN_distance

end Drawing

end Ramify.Binary64
