import Lox.Decimal.Shortest
import Mathlib

/-!
# Decimals that round to a double

The numbers that round to one double form an interval, and the intervals of two doubles have no
number in common: where they meet, the end belongs to the one with the even significand.  The
shortest decimal of a double lies in its interval.  So no two doubles have the same shortest
decimal.

**Main definitions.**
* `Dyadic.Canonical`: the form in which doubles are read.
* `RoundingInterval.Holds`: the rational numbers of a rounding interval.

**Results.**
* `Dyadic.Canonical.unique`: a number rounds to only one double.
* `Dyadic.shortest_rounds`: the shortest decimal of a double rounds to it.
-/

namespace Lox
namespace Decimal

/-- The rational number that a dyadic stands for. -/
def Dyadic.value (d : Dyadic) : ℚ :=
  d.significand * 2 ^ d.exponent

/-- The rational number that a decimal stands for. -/
def Scientific.value (s : Scientific) : ℚ :=
  s.coefficient * 10 ^ s.exponent

/--
The form of the finite doubles: the significand uses all bits unless the exponent is the least.
-/
structure Dyadic.Canonical (d : Dyadic) : Prop where
  small : d.significand < 2 * fullSignificand
  least : leastExponent ≤ d.exponent
  full : leastExponent < d.exponent → fullSignificand ≤ d.significand

/-- The part of a power that is no fraction. -/
theorem pow_toNat_eq
    {b : ℚ}
    (hb : b ≠ 0)
    (k : Int) :
    b ^ k.toNat = b ^ k * b ^ (-k).toNat := by
  rw [← zpow_natCast b (-k).toNat, ← zpow_add₀ hb, ← zpow_natCast]
  congr 1
  omega

namespace RoundingInterval

/-- A rational number lies in the interval. -/
def Holds (i : RoundingInterval) (q : ℚ) : Prop :=
  if i.closed then
    i.low ≤ q * i.denominator ∧ q * i.denominator ≤ i.high
  else
    i.low < q * i.denominator ∧ q * i.denominator < i.high

theorem contains_iff {i : RoundingInterval} {c : Nat} : i.contains c = true ↔ i.Holds c := by
  unfold contains Holds
  split
  · simp only [Bool.and_eq_true, decide_eq_true_eq]
    norm_cast
  · simp only [Bool.and_eq_true, decide_eq_true_eq]
    norm_cast

/-- A number of units of a power of ten. -/
theorem holds_inUnits_iff
    {i : RoundingInterval}
    {k : Int}
    {q : ℚ} :
    (i.inUnits k).Holds q ↔ i.Holds (q * 10 ^ k) := by
  have hpos : (0 : ℚ) < 10 ^ (-k).toNat := by positivity
  have hunit : q * (i.denominator * 10 ^ k.toNat) =
      q * 10 ^ k * i.denominator * 10 ^ (-k).toNat := by
    rw [pow_toNat_eq (by norm_num) k]
    ring
  unfold Holds
  simp only [inUnits, scale, Nat.pow_eq, Nat.cast_mul, Nat.cast_pow, Nat.cast_ofNat, hunit,
    mul_le_mul_iff_left₀ hpos, mul_lt_mul_iff_left₀ hpos]

end RoundingInterval

/-- How many quarters of its last bit a double is away from the lower end of its interval. -/
def Dyadic.gap (d : Dyadic) : Nat :=
  if d.significand == fullSignificand && leastExponent < d.exponent then 1 else 2

theorem Dyadic.gap_pos (d : Dyadic) : 0 < d.gap := by
  unfold gap
  split <;> omega

theorem Dyadic.gap_le_two (d : Dyadic) : d.gap ≤ 2 := by
  unfold gap
  split <;> omega

theorem holds_ofDyadic_iff
    {d : Dyadic}
    {q : ℚ} :
    (RoundingInterval.ofDyadic d).Holds q ↔
      if d.significand % 2 == 0 then
        (4 * d.significand - d.gap : Nat) ≤ q / 2 ^ (d.exponent - 2)
          ∧ q / 2 ^ (d.exponent - 2) ≤ (4 * d.significand + 2 : Nat)
      else
        (4 * d.significand - d.gap : Nat) < q / 2 ^ (d.exponent - 2)
          ∧ q / 2 ^ (d.exponent - 2) < (4 * d.significand + 2 : Nat) := by
  have hpos : (0 : ℚ) < 2 ^ (d.exponent - 2).toNat := by positivity
  have hunit : q * 2 ^ (-(d.exponent - 2)).toNat =
      q / 2 ^ (d.exponent - 2) * 2 ^ (d.exponent - 2).toNat := by
    rw [pow_toNat_eq (by norm_num) (d.exponent - 2)]
    field_simp
  unfold RoundingInterval.Holds
  simp only [RoundingInterval.ofDyadic, Dyadic.gap, Nat.pow_eq, Nat.cast_mul, Nat.cast_pow,
    Nat.cast_ofNat, hunit, mul_le_mul_iff_left₀ hpos, mul_lt_mul_iff_left₀ hpos]

namespace Dyadic

variable {d d' : Dyadic} {q : ℚ}

/--
Two intervals with a number in common are no further apart than the last bits of their doubles.
-/
theorem meet
    {k : Nat}
    (hexponent : d'.exponent = d.exponent + k)
    (hd : (RoundingInterval.ofDyadic d).Holds q)
    (hd' : (RoundingInterval.ofDyadic d').Holds q) :
    (4 * d'.significand - d'.gap) * 2 ^ k ≤ 4 * d.significand + 2
      ∧ (d.significand % 2 = 1 ∨ d'.significand % 2 = 1 →
        (4 * d'.significand - d'.gap) * 2 ^ k < 4 * d.significand + 2) := by
  have hpos : (0 : ℚ) < 2 ^ k := by positivity
  have hscale : q / 2 ^ (d'.exponent - 2) = q / 2 ^ (d.exponent - 2) / 2 ^ k := by
    rw [hexponent, show d.exponent + k - 2 = d.exponent - 2 + k by ring,
      zpow_add₀ (by norm_num), zpow_natCast, div_div]
  rw [holds_ofDyadic_iff] at hd hd'
  rw [hscale] at hd'
  generalize q / 2 ^ (d.exponent - 2) = x at hd hd'
  have hupper : x ≤ (4 * d.significand + 2 : Nat)
      ∧ (d.significand % 2 = 1 → x < (4 * d.significand + 2 : Nat)) := by
    split at hd
    · next heven => exact ⟨hd.2, fun hodd => by simp [hodd] at heven⟩
    · exact ⟨hd.2.le, fun _ => hd.2⟩
  have hlower : ((4 * d'.significand - d'.gap : Nat) : ℚ) * 2 ^ k ≤ x
      ∧ (d'.significand % 2 = 1 → ((4 * d'.significand - d'.gap : Nat) : ℚ) * 2 ^ k < x) := by
    split at hd'
    · next heven => exact ⟨(le_div_iff₀ hpos).mp hd'.1, fun hodd => by simp [hodd] at heven⟩
    · exact ⟨((lt_div_iff₀ hpos).mp hd'.1).le, fun _ => (lt_div_iff₀ hpos).mp hd'.1⟩
  refine ⟨by exact_mod_cast hlower.1.trans hupper.1, fun hodd => ?_⟩
  rcases hodd with hodd | hodd
  · exact_mod_cast hlower.1.trans_lt (hupper.2 hodd)
  · exact_mod_cast (hlower.2 hodd).trans_le hupper.1

namespace Canonical

/-- Below a double with a greater exponent lies a gap. -/
theorem exponent_le
    (hd : d.Canonical)
    (hd' : d'.Canonical)
    (hq : (RoundingInterval.ofDyadic d).Holds q)
    (hq' : (RoundingInterval.ofDyadic d').Holds q) :
    d'.exponent ≤ d.exponent := by
  by_contra hlt
  obtain ⟨k, hk⟩ : ∃ k : Nat, d'.exponent = d.exponent + (k + 1 : Nat) :=
    ⟨(d'.exponent - d.exponent - 1).toNat, by omega⟩
  obtain ⟨hmeet, hstrict⟩ := meet hk hq hq'
  have hleast : leastExponent < d'.exponent := by
    have := hd.least
    omega
  have hfull := hd'.full hleast
  have hsmall := hd.small
  have hgap : d'.gap = if d'.significand = fullSignificand then 1 else 2 := by
    simp [gap, hleast]
  have htwo : (4 * d'.significand - d'.gap) * 2 ≤ (4 * d'.significand - d'.gap) * 2 ^ (k + 1) :=
    Nat.mul_le_mul_left _ (by rw [pow_succ]; exact Nat.le_mul_of_pos_left 2 (by positivity))
  have hvalue : fullSignificand = 4503599627370496 := by decide
  split at hgap <;> omega

/-- A number rounds to only one double. -/
theorem unique
    (hd : d.Canonical)
    (hd' : d'.Canonical)
    (hq : (RoundingInterval.ofDyadic d).Holds q)
    (hq' : (RoundingInterval.ofDyadic d').Holds q) :
    d = d' := by
  have hexponent : d'.exponent = d.exponent :=
    le_antisymm (exponent_le hd hd' hq hq') (exponent_le hd' hd hq' hq)
  have hsignificand {d d' : Dyadic} (hexponent : d'.exponent = d.exponent)
      (hq : (RoundingInterval.ofDyadic d).Holds q)
      (hq' : (RoundingInterval.ofDyadic d').Holds q) :
      d'.significand ≤ d.significand := by
    obtain ⟨hmeet, hstrict⟩ := meet (k := 0) (by simpa using hexponent) hq hq'
    have hgap := d'.gap_le_two
    rw [pow_zero, mul_one] at hmeet hstrict
    by_contra hlt
    omega
  have hsame : d'.significand = d.significand :=
    le_antisymm (hsignificand hexponent hq hq') (hsignificand hexponent.symm hq' hq)
  obtain ⟨s, e⟩ := d
  obtain ⟨s', e'⟩ := d'
  exact congrArg₂ Dyadic.mk hsame.symm hexponent.symm

end Canonical

/-- The double itself is in its interval. -/
theorem value_rounds (d : Dyadic) : (RoundingInterval.ofDyadic d).Holds d.value := by
  have hunit : d.value / 2 ^ (d.exponent - 2) = (4 * d.significand : Nat) := by
    rw [value, zpow_sub₀ (by norm_num)]
    field_simp
    push_cast
    ring
  have hgap := d.gap_pos
  rw [holds_ofDyadic_iff, hunit]
  split
  · exact ⟨by exact_mod_cast Nat.sub_le _ _, by exact_mod_cast Nat.le_add_right _ 2⟩
  · next hodd =>
      have hpos : d.significand ≠ 0 := fun hzero => by simp [hzero] at hodd
      exact ⟨by exact_mod_cast (by omega : 4 * d.significand - d.gap < 4 * d.significand),
        by exact_mod_cast Nat.lt_add_of_pos_right two_pos⟩

end Dyadic

namespace RoundingInterval

/-- If both ends are more than half a unit away, a unit next to the middle is in the interval. -/
theorem neighbour?_isSome
    {i : RoundingInterval}
    (hdenominator : 0 < i.denominator)
    (hlow : 2 * i.low + i.denominator < 2 * i.middle)
    (hhigh : 2 * i.middle + i.denominator < 2 * i.high) :
    i.neighbour?.isSome = true := by
  have hmiddle : i.middle / i.denominator * i.denominator + i.middle % i.denominator = i.middle :=
    Nat.div_add_mod' _ _
  have hmod := Nat.mod_lt i.middle hdenominator
  have hone : i.contains (i.middle / i.denominator) = true
      ∨ i.contains (i.middle / i.denominator + 1) = true := by
    rcases Nat.le_total (2 * (i.middle % i.denominator)) i.denominator with hle | hge
    · left
      unfold contains
      split <;> simp only [Bool.and_eq_true, decide_eq_true_eq] <;> omega
    · right
      unfold contains
      rw [Nat.add_mul, Nat.one_mul]
      split <;> simp only [Bool.and_eq_true, decide_eq_true_eq] <;> omega
  unfold neighbour?
  dsimp only
  split
  · next hbelow habove => simp [hbelow, habove] at hone
  · rfl
  · rfl
  · split
    · rfl
    · rfl
    · split <;> rfl

theorem contains_of_neighbour?
    {i : RoundingInterval}
    {c : Nat}
    (h : i.neighbour? = some c) :
    i.contains c = true := by
  unfold neighbour? at h
  dsimp only at h
  split at h
  · cases h
  · next hbelow _ => exact Option.some.inj h ▸ hbelow
  · next habove => exact Option.some.inj h ▸ habove
  · next hbelow habove =>
      split at h
      · exact Option.some.inj h ▸ hbelow
      · exact Option.some.inj h ▸ habove
      · split at h
        · exact Option.some.inj h ▸ hbelow
        · exact Option.some.inj h ▸ habove

/-- The power of ten with the leading exponent is not greater than the middle. -/
theorem leadingExponent_le
    {i : RoundingInterval}
    (hdenominator : 0 < i.denominator)
    (hpos : i.denominator ≤ i.middle * 10 ^ 330) :
    (10 : ℚ) ^ i.leadingExponent * i.denominator ≤ i.middle := by
  have hdenominator' : (0 : ℚ) < i.denominator := by exact_mod_cast hdenominator
  generalize hshifted : i.middle * 10 ^ 330 / i.denominator = shifted
  have hshifted' : (shifted : ℚ) * i.denominator ≤ i.middle * 10 ^ 330 := by
    exact_mod_cast hshifted ▸ Nat.div_mul_le_self _ _
  have hone : 1 ≤ shifted := hshifted ▸ (Nat.one_le_div_iff hdenominator).mpr hpos
  generalize hlength : (Nat.toDigits 10 shifted).length = length
  have hdigits : 10 ^ (length - 1) ≤ shifted := by
    by_contra hlt
    rcases Nat.lt_or_ge 1 length with hlong | hshort
    · have hle := (Nat.length_toDigits_le_iff (by norm_num) (by omega)).mpr (Nat.lt_of_not_le hlt)
      omega
    · rw [Nat.sub_eq_zero_of_le hshort] at hlt
      omega
  have hlength' : 0 < length := hlength ▸ Nat.length_toDigits_pos
  have hleading : (10 : ℚ) ^ i.leadingExponent * 10 ^ 330 = (10 ^ (length - 1) : Nat) := by
    have hexponent : i.leadingExponent + (330 : Nat) = (length - 1 : Nat) := by
      simp only [leadingExponent, Nat.pow_eq, hshifted, hlength]
      omega
    rw [← zpow_natCast (10 : ℚ) 330, ← zpow_add₀ (by norm_num), hexponent, zpow_natCast]
    push_cast
    rfl
  have hbig : (0 : ℚ) < 10 ^ 330 := by positivity
  generalize (10 : ℚ) ^ 330 = shift at hshifted' hleading hbig
  refine le_of_mul_le_mul_right ?_ hbig
  calc (10 : ℚ) ^ i.leadingExponent * i.denominator * shift
      = (10 ^ (length - 1) : Nat) * (i.denominator : ℚ) := by rw [← hleading]; ring
    _ ≤ (shifted : ℚ) * i.denominator := by
        have hdigits' : ((10 ^ (length - 1) : Nat) : ℚ) ≤ shifted := by exact_mod_cast hdigits
        exact mul_le_mul_of_nonneg_right hdigits' hdenominator'.le
    _ ≤ (i.middle : ℚ) * shift := hshifted'

/-- In smaller units the middle is as many powers of ten away from a unit. -/
theorem inUnits_denominator_le
    {i : RoundingInterval}
    {k : Int}
    {n : Nat}
    (h : (10 : ℚ) ^ (k + n) * i.denominator ≤ i.middle) :
    (i.inUnits k).denominator * 10 ^ n ≤ (i.inUnits k).middle := by
  have hpos : (0 : ℚ) ≤ 10 ^ (-k).toNat := by positivity
  have hscaled := mul_le_mul_of_nonneg_right h hpos
  have hdenominator : (10 : ℚ) ^ (k + n) * i.denominator * 10 ^ (-k).toNat =
      ((i.inUnits k).denominator * 10 ^ n : Nat) := by
    simp only [inUnits, scale, Nat.pow_eq]
    push_cast
    rw [pow_toNat_eq (by norm_num) k, zpow_add₀ (by norm_num), zpow_natCast]
    ring
  rw [hdenominator] at hscaled
  exact_mod_cast hscaled

theorem denominator_ofDyadic_pos (d : Dyadic) : 0 < (ofDyadic d).denominator := by
  simp only [ofDyadic, Nat.pow_eq]
  positivity

/-- The numerators in units of a power of ten are multiples of a quarter of the last bit. -/
theorem exists_quarter (d : Dyadic) (k : Int) :
    ∃ quarter, 0 < quarter
      ∧ ((ofDyadic d).inUnits k).low = (4 * d.significand - d.gap) * quarter
      ∧ ((ofDyadic d).inUnits k).middle = 4 * d.significand * quarter
      ∧ ((ofDyadic d).inUnits k).high = (4 * d.significand + 2) * quarter := by
  refine ⟨2 ^ (d.exponent - 2).toNat * 10 ^ (-k).toNat, by positivity, ?_, ?_, ?_⟩ <;>
    simp only [inUnits, scale, ofDyadic, Dyadic.gap, Nat.pow_eq, Nat.mul_assoc]

end RoundingInterval

namespace Dyadic

/-- The gap below a double is not much smaller than its last bit. -/
theorem Canonical.significand_le_gap
    {d : Dyadic}
    (hd : d.Canonical) :
    4 * d.significand ≤ d.gap * 2 ^ 54 := by
  have hsmall := hd.small
  have hvalue : fullSignificand = 4503599627370496 := by decide
  unfold gap
  split
  · next hfull =>
      have hsame : d.significand = fullSignificand := by
        simp only [Bool.and_eq_true, beq_iff_eq] at hfull
        exact hfull.1
      omega
  · omega

/-- A positive double is not so small that its leading exponent would not be found. -/
theorem Canonical.leadingExponent_le
    {d : Dyadic}
    (hd : d.Canonical)
    (hpos : 0 < d.significand) :
    (10 : ℚ) ^ (RoundingInterval.ofDyadic d).leadingExponent *
        (RoundingInterval.ofDyadic d).denominator ≤ (RoundingInterval.ofDyadic d).middle := by
  refine RoundingInterval.leadingExponent_le (RoundingInterval.denominator_ofDyadic_pos d) ?_
  have hscale : 0 < 2 ^ (d.exponent - 2).toNat := by positivity
  have hexponent : (-(d.exponent - 2)).toNat ≤ 1076 := by
    have hleast := hd.least
    simp only [leastExponent] at hleast
    omega
  calc (RoundingInterval.ofDyadic d).denominator = 2 ^ (-(d.exponent - 2)).toNat := rfl
    _ ≤ 2 ^ 1076 := pow_le_pow_right₀ one_le_two hexponent
    _ ≤ 4 * 10 ^ 330 := by decide +kernel
    _ ≤ (RoundingInterval.ofDyadic d).middle * 10 ^ 330 := by
        refine Nat.mul_le_mul_right _ ?_
        calc 4 ≤ 4 * d.significand * 1 := by omega
          _ ≤ (RoundingInterval.ofDyadic d).middle := Nat.mul_le_mul_left _ hscale

/-- Seventeen digits are enough. -/
theorem Canonical.neighbour?_isSome
    {d : Dyadic}
    (hd : d.Canonical)
    (hpos : 0 < d.significand) :
    (((RoundingInterval.ofDyadic d).inUnits
      ((RoundingInterval.ofDyadic d).leadingExponent - 16)).neighbour?).isSome = true := by
  have hleading := hd.leadingExponent_le hpos
  generalize hk : (RoundingInterval.ofDyadic d).leadingExponent - 16 = k
  have hexponent : (RoundingInterval.ofDyadic d).leadingExponent = k + (16 : Nat) := by omega
  rw [hexponent] at hleading
  have hfiner := RoundingInterval.inUnits_denominator_le hleading
  obtain ⟨quarter, hquarter, hlow, hmiddle, hhigh⟩ := RoundingInterval.exists_quarter d k
  have hgap_pos : 0 < d.gap * quarter := Nat.mul_pos d.gap_pos hquarter
  have hbelow : (4 * d.significand - d.gap) * quarter + d.gap * quarter =
      4 * d.significand * quarter := by
    have hgap := d.gap_le_two
    rw [← Nat.add_mul, Nat.sub_add_cancel (by omega)]
  -- Both ends are farther from the middle than half a unit, which is at most a part in 10 ^ 16.
  have hfar : 4 * d.significand * quarter ≤ d.gap * quarter * 2 ^ 54 := by
    rw [Nat.mul_right_comm d.gap]
    exact Nat.mul_le_mul_right _ hd.significand_le_gap
  have hnear : 4 * d.significand * quarter ≤ 2 ^ 55 * quarter := by
    have hsmall := hd.small
    have hvalue : fullSignificand = 4503599627370496 := by decide
    exact Nat.mul_le_mul_right _ (by omega)
  rw [hmiddle] at hfiner
  refine RoundingInterval.neighbour?_isSome ?_ ?_ ?_
  · exact Nat.mul_pos (RoundingInterval.denominator_ofDyadic_pos d)
      (Nat.pow_pos (n := k.toNat) (by norm_num : 0 < 10))
  · rw [hlow, hmiddle]
    omega
  · rw [hhigh, hmiddle, Nat.add_mul]
    omega

/-- The shortest decimal of a positive double rounds to it. -/
theorem shortest_rounds
    {d : Dyadic}
    (hd : d.Canonical)
    (hpos : 0 < d.significand) :
    (RoundingInterval.ofDyadic d).Holds d.shortest.value := by
  unfold shortest
  dsimp only
  generalize hfound : List.findSome? _ (List.range mostDigits) = found
  cases found with
  | none =>
      have hlast := List.findSome?_eq_none_iff.mp hfound 16 (by simp [mostDigits])
      have hsome := hd.neighbour?_isSome hpos
      rw [Option.map_eq_none_iff] at hlast
      norm_num at hlast
      rw [hlast] at hsome
      cases hsome
  | some decimal =>
      obtain ⟨fewer, -, hhit⟩ := List.exists_of_findSome?_eq_some hfound
      obtain ⟨c, hc, rfl⟩ := Option.map_eq_some_iff.mp hhit
      exact RoundingInterval.holds_inUnits_iff.mp
        (RoundingInterval.contains_iff.mp (RoundingInterval.contains_of_neighbour? hc))

end Dyadic

end Decimal
end Lox
