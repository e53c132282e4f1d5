import Lox.Number
import Mathlib

/-!
# Numbers of a text

A number in a text is written with digits and a point, so it is read as a double that is neither
negative nor undefined, though it may be too large and become infinite.

**Main definition.**
* `Number.IsMagnitude`: the doubles that numbers of a text are read as.

**Results.**
* `Number.isMagnitude_ofDecimal`: whatever digits are read as is a magnitude.
* `Number.IsMagnitude.ofFloat`: the sign bit of a magnitude is clear.
-/

namespace Lox
namespace Number

open Float.Model Float.Model.UnpackedFloat Decimal

/-- A number that is not negative, or the positive infinity. -/
def IsMagnitude : UnpackedFloat → Prop
  | .infinity sign => sign = .positive
  | .notANumber => False
  | .zero sign => sign = .positive
  | .finite sign _ _ _ => sign = .positive

theorem isMagnitude_roundWithAccuracy
    (spec : Format)
    (m : Nat)
    (e : Int)
    (accuracy : Accuracy) :
    IsMagnitude (roundWithAccuracy spec .positive m e accuracy) := by
  unfold roundWithAccuracy
  dsimp only
  split <;> rfl

theorem unpackSign_packComponents {spec : Format} {sign exponent mantissa} :
    unpackSign (packComponents spec sign exponent mantissa) = sign.toBitVec := by
  ext i hi
  obtain rfl : i = 0 := by omega
  simp [unpackSign, packComponents, BitVec.getLsbD_eq_getElem, BitVec.getLsbD_append,
    BitVec.getElem_append]

theorem isMagnitude_unpack_packComponents
    {spec : Format}
    {exponent : BitVec spec.exponentBits}
    {mantissa : BitVec spec.mantissaBitsWithoutImplicit}
    (h : exponent = -1#_ → mantissa = 0#_) :
    IsMagnitude (UnpackedFloat.unpack spec (packComponents spec .positive exponent mantissa)) := by
  unfold UnpackedFloat.unpack
  simp only [unpackSign_packComponents, unpackExponent_packComponents,
    unpackMantissa_packComponents]
  split
  · next hall => simp [h hall, IsMagnitude, Sign.ofBitVec, Sign.toBitVec]
  · split
    · split <;> simp [IsMagnitude, Sign.ofBitVec, Sign.toBitVec]
    · simp [IsMagnitude, Sign.ofBitVec, Sign.toBitVec]

/-- Packing keeps a magnitude. -/
theorem isMagnitude_unpack_pack
    {spec : Format}
    {x : UnpackedFloat}
    (hx : IsMagnitude x) :
    IsMagnitude (UnpackedFloat.unpack spec (UnpackedFloat.pack spec x)) := by
  fun_cases UnpackedFloat.pack spec x with
  | case1 => exact hx.elim
  | case2 s => 
    obtain rfl : s = .positive := hx
    exact isMagnitude_unpack_packComponents fun _ => rfl
  | case3 s => 
    obtain rfl : s = .positive := hx
    exact isMagnitude_unpack_packComponents fun _ => rfl
  | case4 s m e hm biasedExponent h => 
    obtain rfl : s = .positive := hx
    exact isMagnitude_unpack_packComponents fun _ => rfl
  | case5 s m e hm actualMantissaBits biasedExponent h₁ h₂ =>
    obtain rfl : s = .positive := hx
    refine isMagnitude_unpack_packComponents fun hall => absurd hall ?_
    suffices biasedExponent % 2 ^ spec.exponentBits ≠ 2 ^ spec.exponentBits - 1 by
      simp [BitVec.neg_one_eq_allOnes, ← BitVec.toNat_inj, this]
    rw [Nat.mod_eq_of_lt (by omega)]
    omega
  | case6 s m e hm actualMantissaBits biasedExponent h₁ h₂ =>
    obtain rfl : s = .positive := hx
    refine isMagnitude_unpack_packComponents fun hall => absurd hall ?_
    have hlt := Nat.one_lt_two_pow spec.he.ne'
    simp [BitVec.neg_one_eq_allOnes, ← BitVec.toNat_inj]
    omega

/-- A positive finite number. -/
def isPositive : UnpackedFloat → Bool
  | .finite .positive _ _ _ => true
  | _ => false

theorem IsMagnitude.div
    {spec : Format}
    {x y : UnpackedFloat}
    (hx : IsMagnitude x)
    (hy : isPositive y = true) :
    IsMagnitude (UnpackedFloat.div spec x y) := by
  unfold isPositive at hy
  split at hy
  · cases x with
    | notANumber => exact hx.elim
    | infinity sign => cases hx; rfl
    | zero sign => cases hx; rfl
    | finite sign m e hm => cases hx; exact isMagnitude_roundWithAccuracy ..
  · cases hy

/-- Scientific notation is read as a magnitude. -/
theorem isMagnitude_ofScientific
    (spec : Format)
    (m : Nat)
    (e : Int) :
    IsMagnitude (UnpackedFloat.ofScientific spec m e) := by
  unfold UnpackedFloat.ofScientific
  split
  · rfl
  · split
    · rfl
    · split
      · rfl
      · split
        · exact isMagnitude_roundWithAccuracy ..
        · exact isMagnitude_roundWithAccuracy ..

theorem isMagnitude_ofNat (spec : Format) (n : Nat) : IsMagnitude (UnpackedFloat.ofNat spec n) := by
  unfold UnpackedFloat.ofNat UnpackedFloat.ofInt UnpackedFloat.normalize
  split
  · next h => exact absurd (compare_lt_iff_lt.mp h) (by omega)
  · rfl
  · exact isMagnitude_roundWithAccuracy ..

/-- The powers of ten that doubles represent exactly are positive. -/
theorem isPositive_powersOfTen :
    (Float.exactlyRepresentablePowersOfTen.all fun x => isPositive x.toModel.unpack) = true := by
  decide +kernel

theorem isMagnitude_float_ofScientific (m e : Nat) :
    IsMagnitude (Float.ofScientific m true e).toModel.unpack := by
  unfold Float.ofScientific
  split
  · next h =>
      have hm : IsMagnitude m.toUInt64.toFloat.toModel.unpack :=
        isMagnitude_unpack_pack (isMagnitude_ofNat _ _)
      exact isMagnitude_unpack_pack (hm.div (Array.all_eq_true.mp isPositive_powersOfTen e _))
  · exact isMagnitude_unpack_pack (isMagnitude_ofScientific _ _ _)

section Bits

variable (b : BitVec 64)

theorem toNat_unpackSign : (@unpackSign .binary64 b).toNat = b.toNat / Nat.pow 2 63 % 2 := by
  simp [unpackSign, Nat.shiftRight_eq_div_pow]

theorem toNat_unpackExponent :
    (@unpackExponent .binary64 b).toNat = b.toNat / Nat.pow 2 52 % Nat.pow 2 11 := by
  simp [unpackExponent, Nat.shiftRight_eq_div_pow]

theorem toNat_unpackMantissa :
    (@unpackMantissa .binary64 b).toNat = b.toNat % Nat.pow 2 52 := by
  simp [unpackMantissa]

end Bits

/-- What the bits of a magnitude look like. -/
theorem IsMagnitude.bits
    {b : BitVec 64}
    (h : IsMagnitude (UnpackedFloat.unpack .binary64 b)) :
    (@unpackSign .binary64 b).toNat = 0
      ∧ ((@unpackExponent .binary64 b).toNat = Nat.pow 2 11 - 1 →
        (@unpackMantissa .binary64 b).toNat = 0) := by
  have hsign {sign : BitVec 1} (hs : Sign.ofBitVec sign = .positive) : sign.toNat = 0 := by
    unfold Sign.ofBitVec at hs
    split at hs
    · next hzero => exact congrArg BitVec.toNat hzero
    · cases hs
  have hall {exponent : BitVec 11} (hne : exponent ≠ -1#_) : exponent.toNat ≠ Nat.pow 2 11 - 1 :=
    fun heq => hne (BitVec.eq_of_toNat_eq heq)
  unfold UnpackedFloat.unpack at h
  dsimp only at h
  split at h
  · split at h
    · next hzero => exact ⟨hsign h, fun _ => congrArg BitVec.toNat hzero⟩
    · exact h.elim
  · next hne =>
      refine ⟨?_, fun heq => absurd heq (hall hne)⟩
      split at h
      · split at h <;> exact hsign h
      · exact hsign h

/-- A magnitude is read as one. -/
theorem IsMagnitude.ofFloat
    {x : Float}
    (h : IsMagnitude x.toModel.unpack) :
    Reading.ofFloat x = .infinite false ∨ ∃ d, Reading.ofFloat x = .finite false d := by
  obtain ⟨hsign, hall⟩ := h.bits
  rw [toNat_unpackSign] at hsign
  rw [toNat_unpackExponent, toNat_unpackMantissa] at hall
  have hbits : x.toBits.toNat = x.toModel.toBits.toBitVec.toNat := rfl
  unfold Reading.ofFloat Reading.ofBits
  simp only [hbits, hsign, beq_iff_eq]
  split
  · next hexponent => exact .inl (by rw [if_pos (hall hexponent)]; rfl)
  · split
    · exact .inr ⟨_, rfl⟩
    · exact .inr ⟨_, rfl⟩

theorem isMagnitude_ofDecimal (decimal : List Char) :
    IsMagnitude (ofDecimal decimal).toModel.unpack :=
  isMagnitude_float_ofScientific _ _

end Number
end Lox
