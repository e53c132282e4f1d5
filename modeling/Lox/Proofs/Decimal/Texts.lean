import Lox.Number
import Lox.Proofs.Decimal.Rounding

/-!
# Numbers in trees

The text of a number can be read back: its digits, its point and its exponent give a rational
number, and this number rounds to the double that was written.  A number that stands in a text of
the language is no negative one, so two of them with the same text are the same double.

**Main definition.**
* `Number.valueOf`: the rational number that a text of digits stands for.

**Results.**
* `Decimal.Layout.valueOf_magnitude`: a written decimal stands for itself.
* `Number.eq_of_treeText_eq`: numbers with the same text in trees are the same.
-/

namespace Lox

namespace Number

/-- The rational number for digits with or without a point. -/
def pointedValue (text : List Char) : ℚ :=
  let whole := text.takeWhile (· != '.')
  let fraction := (text.dropWhile (· != '.')).drop 1
  digitsValue (whole ++ fraction) / 10 ^ fraction.length

/-- The exponent at the end of a text. -/
def exponentValue : List Char → Int
  | 'e' :: '-' :: digits => -digitsValue digits
  | 'e' :: _ :: digits => digitsValue digits
  | _ => 0

/-- The rational number that a text stands for. -/
def valueOf (text : List Char) : ℚ :=
  pointedValue (text.takeWhile (· != 'e')) * 10 ^ exponentValue (text.dropWhile (· != 'e'))

section Digits

variable {digits : List Char}

/-- The digits of a text of digits. -/
def AllDigits (digits : List Char) : Prop :=
  ∀ c ∈ digits, c.isDigit = true

theorem AllDigits.append
    {more : List Char}
    (h : AllDigits digits)
    (hmore : AllDigits more) :
    AllDigits (digits ++ more) :=
  fun c hc => (List.mem_append.mp hc).elim (h c) (hmore c)

theorem allDigits_replicate (n : Nat) : AllDigits (List.replicate n '0') :=
  fun _ hc => List.eq_of_mem_replicate hc ▸ rfl

theorem allDigits_toDigits (n : Nat) : AllDigits (Nat.toDigits 10 n) :=
  fun _ hc => Nat.isDigit_of_mem_toDigits (by decide) (by decide) hc

theorem AllDigits.ne
    (h : AllDigits digits)
    {d : Char}
    (hd : d.isDigit = false) :
    ∀ c ∈ digits, (c != d) = true := by
  intro c hc
  rw [bne_iff_ne]
  rintro rfl
  rw [h c hc] at hd
  cases hd

theorem AllDigits.head
    (h : AllDigits digits)
    (hne : digits ≠ []) :
    ∃ c ∈ digits.head?, c.isDigit = true := by
  obtain ⟨c, rest, rfl⟩ := List.exists_cons_of_ne_nil hne
  exact ⟨c, rfl, h c List.mem_cons_self⟩

theorem digitsValue_append (digits more : List Char) :
    digitsValue (digits ++ more) = 10 ^ more.length * digitsValue digits + digitsValue more := by
  change Nat.ofDigitChars 10 (digits ++ more) 0 = _
  rw [Nat.ofDigitChars_append, Nat.ofDigitChars_eq_ofDigitChars_zero]
  rfl

theorem digitsValue_replicate (n : Nat) : digitsValue (List.replicate n '0') = 0 := by
  change Nat.ofDigitChars 10 (List.replicate n '0') 0 = 0
  simp

theorem digitsValue_toDigits (n : Nat) : digitsValue (Nat.toDigits 10 n) = n :=
  Nat.ofDigitChars_ten_toDigits

theorem pointedValue_of_allDigits (h : AllDigits digits) :
    pointedValue digits = digitsValue digits := by
  have hne := h.ne (d := '.') rfl
  unfold pointedValue
  rw [List.takeWhile_eq_self_iff.mpr hne, List.dropWhile_eq_nil_iff.mpr hne]
  simp

theorem pointedValue_append
    {fraction : List Char}
    (h : AllDigits digits) :
    pointedValue (digits ++ '.' :: fraction) =
      digitsValue (digits ++ fraction) / 10 ^ fraction.length := by
  have hne := h.ne (d := '.') rfl
  unfold pointedValue
  rw [List.takeWhile_append_of_pos hne, List.dropWhile_append_of_pos hne]
  simp

theorem valueOf_of_allDigits (h : AllDigits digits) : valueOf digits = digitsValue digits := by
  have hne := h.ne (d := 'e') rfl
  unfold valueOf
  rw [List.takeWhile_eq_self_iff.mpr hne, List.dropWhile_eq_nil_iff.mpr hne,
    pointedValue_of_allDigits h]
  simp [exponentValue]

/--
A text that starts with a digit and in which there is nothing but what numbers are written with.
-/
def Numeral (text : List Char) : Prop :=
  (∃ c ∈ text.head?, c.isDigit = true)
    ∧ ∀ c ∈ text, c.isDigit = true ∨ c ∈ ['.', 'e', '+', '-']

end Digits

end Number

namespace Decimal

open Number

/-- Nothing but zeros is left out at the end of the digits of a number. -/
theorem exists_toDigits_eq (n : Nat) :
    ∃ zeros, Nat.toDigits 10 n = significantDigits n ++ List.replicate zeros '0' := by
  generalize hzeros : (Nat.toDigits 10 n).reverse.takeWhile (· == '0') = zeros
  have hreplicate : zeros = List.replicate zeros.length '0' := by
    refine List.eq_replicate_of_mem fun c hc => ?_
    rw [← hzeros] at hc
    exact eq_of_beq (List.mem_takeWhile_imp (p := (· == '0')) hc)
  refine ⟨zeros.length, ?_⟩
  calc Nat.toDigits 10 n
      = (zeros ++ (Nat.toDigits 10 n).reverse.dropWhile (· == '0')).reverse := by
        rw [← hzeros, List.takeWhile_append_dropWhile, List.reverse_reverse]
    _ = significantDigits n ++ zeros.reverse := List.reverse_append
    _ = significantDigits n ++ List.replicate zeros.length '0' := by
        rw [hreplicate, List.reverse_replicate, List.length_replicate]

theorem allDigits_significantDigits (n : Nat) : AllDigits (significantDigits n) := by
  obtain ⟨zeros, hdigits⟩ := exists_toDigits_eq n
  exact fun c hc => allDigits_toDigits n c (hdigits ▸ List.mem_append_left _ hc)

/-- Digits with a point stand for the digits times a power of ten. -/
theorem pointedValue_positional
    {digits : List Char}
    (h : AllDigits digits)
    (point : Int) :
    pointedValue (positional digits point) =
      digitsValue digits * 10 ^ (point - digits.length) := by
  unfold positional
  split
  · next hpoint =>
      have hzero : AllDigits ['0'] := by simp [AllDigits]
      have hdigits : digitsValue (['0'] ++ (List.replicate (-point).toNat '0' ++ digits)) =
          digitsValue digits := by
        rw [digitsValue_append, digitsValue_append, digitsValue_replicate]
        simp [digitsValue]
      have hexponent : point - digits.length =
          -((List.replicate (-point).toNat '0' ++ digits).length : Int) := by
        rw [List.length_append, List.length_replicate]
        push_cast
        omega
      calc pointedValue ('0' :: '.' :: List.replicate (-point).toNat '0' ++ digits)
          = pointedValue (['0'] ++ '.' :: (List.replicate (-point).toNat '0' ++ digits)) := rfl
        _ = digitsValue digits * 10 ^ (point - digits.length) := by
            rw [pointedValue_append hzero, hdigits, hexponent, zpow_neg, zpow_natCast,
              div_eq_mul_inv]
  · split
    · next hpoint hlong =>
        have hexponent : point - digits.length = (point.toNat - digits.length : Nat) := by omega
        rw [pointedValue_of_allDigits (h.append (allDigits_replicate _)), digitsValue_append,
          digitsValue_replicate, hexponent, zpow_natCast, List.length_replicate]
        push_cast
        ring
    · next hpoint hshort =>
        have htake : AllDigits (digits.take point.toNat) := fun c hc =>
          h c (List.mem_of_mem_take hc)
        have hexponent : point - digits.length = -((digits.drop point.toNat).length : Int) := by
          rw [List.length_drop]
          omega
        rw [pointedValue_append htake, List.take_append_drop, hexponent, zpow_neg, zpow_natCast,
          div_eq_mul_inv]

/-- Digits with a point start with a digit. -/
theorem positional_numeral
    {digits : List Char}
    (h : AllDigits digits)
    (point : Int) :
    (∃ c ∈ (positional digits point).head?, c.isDigit = true)
      ∧ ∀ c ∈ positional digits point, c.isDigit = true ∨ c = '.' := by
  unfold positional
  split
  · refine ⟨⟨'0', rfl, rfl⟩, fun c hc => ?_⟩
    simp only [List.cons_append, List.mem_cons, List.mem_append] at hc
    rcases hc with rfl | rfl | hc | hc
    · exact .inl rfl
    · exact .inr rfl
    · exact .inl (allDigits_replicate _ c hc)
    · exact .inl (h c hc)
  · next hpoint =>
      split
      · next hlong =>
          have hall := h.append (allDigits_replicate (point.toNat - digits.length))
          refine ⟨hall.head (List.ne_nil_of_length_pos ?_), fun c hc => .inl (hall c hc)⟩
          rw [List.length_append, List.length_replicate]
          omega
      · next hshort =>
          have htake : AllDigits (digits.take point.toNat) :=
            fun c hc => h c (List.mem_of_mem_take hc)
          obtain ⟨c, hc, hdigit⟩ := htake.head (List.ne_nil_of_length_pos (by
            rw [List.length_take]
            omega))
          refine ⟨⟨c, ?_, hdigit⟩, fun c hc => ?_⟩
          · rw [List.head?_append, Option.mem_def.mp hc]
            rfl
          · simp only [List.mem_append, List.mem_cons] at hc
            rcases hc with hc | rfl | hc
            · exact .inl (htake c hc)
            · exact .inr rfl
            · exact .inl (h c (List.mem_of_mem_drop hc))

theorem positional_ne_e
    {digits : List Char}
    (h : AllDigits digits)
    (point : Int) :
    ∀ c ∈ positional digits point, (c != 'e') = true := by
  intro c hc
  rw [bne_iff_ne]
  rintro rfl
  rcases (positional_numeral h point).2 'e' hc with hdigit | hpoint
  · cases hdigit
  · cases hpoint

theorem valueOf_positional
    {digits : List Char}
    (h : AllDigits digits)
    (point : Int) :
    valueOf (positional digits point) = digitsValue digits * 10 ^ (point - digits.length) := by
  have hne := positional_ne_e h point
  unfold valueOf
  rw [List.takeWhile_eq_self_iff.mpr hne, List.dropWhile_eq_nil_iff.mpr hne,
    pointedValue_positional h]
  simp [exponentValue]

theorem valueOf_exponential
    {digits : List Char}
    (h : AllDigits digits)
    (width : Nat)
    (exponent : Int) :
    valueOf (exponential width digits exponent) =
      digitsValue digits * 10 ^ (exponent + 1 - digits.length) := by
  have hne := positional_ne_e h 1
  have hwritten : digitsValue (List.replicate (width - (Nat.toDigits 10 exponent.natAbs).length) '0'
      ++ Nat.toDigits 10 exponent.natAbs) = exponent.natAbs := by
    rw [digitsValue_append, digitsValue_replicate, digitsValue_toDigits, Nat.mul_zero, Nat.zero_add]
  unfold valueOf exponential
  dsimp only
  rw [List.takeWhile_append_of_pos hne, List.dropWhile_append_of_pos hne]
  have hexponent (rest : List Char) (hrest : digitsValue rest = exponent.natAbs) :
      exponentValue (List.dropWhile (· != 'e')
        ('e' :: (if exponent < 0 then '-' else '+') :: rest)) = exponent := by
    split
    · have hminus : exponentValue (List.dropWhile (· != 'e') ('e' :: '-' :: rest)) =
          -digitsValue rest := rfl
      omega
    · have hplus : exponentValue (List.dropWhile (· != 'e') ('e' :: '+' :: rest)) =
          digitsValue rest := rfl
      omega
  rw [hexponent _ hwritten]
  simp only [bne_self_eq_false, Bool.false_eq_true, not_false_eq_true, List.takeWhile_cons_of_neg,
    List.append_nil, pointedValue_positional h, mul_assoc]
  rw [← zpow_add₀ (by norm_num)]
  congr 2
  ring

/-- A written decimal stands for itself. -/
theorem Layout.valueOf_magnitude
    (layout : Layout)
    (number : Scientific) :
    valueOf (layout.magnitude number) = number.value := by
  have hdigits := allDigits_significantDigits number.coefficient
  obtain ⟨zeros, hzeros⟩ := exists_toDigits_eq number.coefficient
  have hcoefficient : (number.coefficient : ℚ) =
      digitsValue (significantDigits number.coefficient) * 10 ^ zeros := by
    have hvalue := digitsValue_toDigits number.coefficient
    rw [hzeros, digitsValue_append, digitsValue_replicate, List.length_replicate] at hvalue
    calc (number.coefficient : ℚ)
        = (10 ^ zeros * digitsValue (significantDigits number.coefficient) + 0 : Nat) := by
          rw [hvalue]
      _ = digitsValue (significantDigits number.coefficient) * 10 ^ zeros := by
          push_cast
          ring
  have hlength := congrArg List.length hzeros
  rw [List.length_append, List.length_replicate] at hlength
  have hexponent : number.exponent + (Nat.toDigits 10 number.coefficient).length - 1 + 1
      - (significantDigits number.coefficient).length = zeros + number.exponent := by
    rw [hlength]
    push_cast
    ring
  have hvalue :
      digitsValue (significantDigits number.coefficient) * (10 : ℚ) ^ (zeros + number.exponent) =
      number.value := by
    rw [zpow_add₀ (by norm_num), zpow_natCast, ← mul_assoc, ← hcoefficient, Scientific.value]
  unfold magnitude
  dsimp only
  split
  · rw [valueOf_positional hdigits, hexponent, hvalue]
  · rw [valueOf_exponential hdigits, hexponent, hvalue]

/-- Written decimals look like numbers. -/
theorem Layout.numeral_magnitude
    (layout : Layout)
    (number : Scientific) :
    Numeral (layout.magnitude number) := by
  have hdigits := allDigits_significantDigits number.coefficient
  have hpositional (point : Int) := positional_numeral hdigits point
  unfold magnitude
  dsimp only
  split
  · refine ⟨(hpositional _).1, fun c hc => ((hpositional _).2 c hc).imp_right ?_⟩
    rintro rfl
    simp
  · obtain ⟨⟨first, hfirst, hdigit⟩, hall⟩ := hpositional 1
    refine ⟨⟨first, ?_, hdigit⟩, fun c hc => ?_⟩
    · rw [exponential, List.head?_append, Option.mem_def.mp hfirst]
      rfl
    · simp only [exponential, List.mem_append, List.mem_cons] at hc
      rcases hc with hc | rfl | rfl | hc | hc
      · exact (hall c hc).imp_right (by rintro rfl; simp)
      · exact .inr (by simp)
      · exact .inr (by split <;> simp)
      · exact .inl (allDigits_replicate _ c hc)
      · exact .inl (allDigits_toDigits _ c hc)

/--
A finite double is in canonical form, and if it is not negative, its form determines its bits.
-/
theorem Reading.bits_of_finite
    {word : Nat}
    {d : Dyadic}
    (h : Reading.ofBits word = .finite false d)
    (hword : word < 2 ^ 64) :
    d.Canonical ∧ word = if d.significand < fullSignificand then d.significand
      else (d.exponent - leastExponent + 1).toNat * fullSignificand
        + (d.significand - fullSignificand) := by
  have hfull : fullSignificand = 4503599627370496 := by decide
  have hsplit : Nat.pow 2 63 = 9223372036854775808 ∧ Nat.pow 2 52 = 4503599627370496
      ∧ Nat.pow 2 11 = 2048 := by decide
  unfold ofBits at h
  simp only [hsplit, hfull] at h ⊢
  split at h
  · split at h <;> cases h
  · next hall =>
      simp only [beq_iff_eq] at hall
      split at h
      · next hzero =>
          obtain ⟨hsign, rfl⟩ := Reading.finite.inj h
          simp only [beq_iff_eq, beq_eq_false_iff_ne] at hzero hsign
          refine ⟨⟨?_, le_rfl, fun hlt => absurd hlt (lt_irrefl _)⟩, ?_⟩
          · simp only [hfull]
            omega
          · simp only
            rw [if_pos (Nat.mod_lt _ (by decide))]
            omega
      · next hnormal =>
          obtain ⟨hsign, rfl⟩ := Reading.finite.inj h
          simp only [beq_iff_eq, beq_eq_false_iff_ne] at hnormal hsign
          refine ⟨⟨?_, ?_, fun _ => ?_⟩, ?_⟩
          · simp only [hfull]
            omega
          · simp only
            omega
          · simp only [hfull]
            omega
          · simp only
            rw [if_neg (by omega)]
            omega

/-- The bits of a double. -/
theorem Reading.ofFloat_inj
    {x y : Float}
    {d : Dyadic}
    (hx : Reading.ofFloat x = .finite false d)
    (hy : Reading.ofFloat y = .finite false d) :
    x = y := by
  have hbits : x.toBits.toNat = y.toBits.toNat :=
    (bits_of_finite hx x.toBits.toNat_lt).2.trans (bits_of_finite hy y.toBits.toNat_lt).2.symm
  obtain ⟨⟨x, hvalid⟩⟩ := x
  obtain ⟨⟨y, hvalid'⟩⟩ := y
  obtain rfl : x = y := UInt64.toNat_inj.mp hbits
  rfl

/-- The value of an integer. -/
theorem Dyadic.value_eq_of_toNat?
    {d : Dyadic}
    {n : Nat}
    (h : d.toNat? = some n) :
    d.value = n := by
  unfold toNat? at h
  split at h
  · next hexponent =>
      cases h
      obtain ⟨k, hk⟩ := Int.eq_ofNat_of_zero_le hexponent
      rw [value, hk]
      simp
  · next hexponent =>
      dsimp only at h
      split at h
      · next hmod =>
          cases h
          obtain ⟨k, hk⟩ := Int.eq_ofNat_of_zero_le (show 0 ≤ -d.exponent by omega)
          have hexponent' : d.exponent = -(k : ℤ) := by omega
          rw [hk, Int.toNat_natCast, Nat.pow_eq] at hmod ⊢
          have hdvd : 2 ^ k ∣ d.significand := Nat.dvd_of_mod_eq_zero (eq_of_beq hmod)
          rw [value, hexponent', zpow_neg, zpow_natCast, Nat.cast_div hdvd (by positivity)]
          push_cast
          rw [div_eq_mul_inv]
      · cases h

end Decimal

namespace Number

open Decimal

variable {x y : Float} {d : Decimal.Dyadic}

/-- The text of a number that is too large. -/
theorem treeText_of_infinite (hx : Reading.ofFloat x = .infinite false) :
    treeText x = layout.infinity := by
  simp [treeText, text, Layout.text, hx, signed]

/-- The texts of integers and of other numbers. -/
theorem treeText_of_finite (hx : Reading.ofFloat x = .finite false d) :
    (∃ n, d.toNat? = some n ∧ (treeText x).toList = Nat.toDigits 10 n)
      ∨ 0 < d.significand ∧ (treeText x).toList = layout.magnitude d.shortest := by
  unfold treeText
  rw [hx]
  dsimp only
  cases hinteger : d.toNat? with
  | some n => exact .inl ⟨n, rfl, by simp⟩
  | none =>
      have hpos : 0 < d.significand := by
        rw [Nat.pos_iff_ne_zero]
        intro hzero
        simp [Dyadic.toNat?, hzero] at hinteger
      refine .inr ⟨hpos, ?_⟩
      unfold text Layout.text
      rw [hx]
      obtain ⟨significand, exponent⟩ := d
      dsimp only
      split
      · next heq => cases heq
      · next heq => cases heq
      · next heq =>
          cases heq
          exact absurd hpos (lt_irrefl 0)
      · next heq =>
          cases heq
          simp [signed]

/-- The text of a number that is not negative stands for a number that rounds to it. -/
theorem treeText_rounds (hx : Reading.ofFloat x = .finite false d) :
    (RoundingInterval.ofDyadic d).Holds (valueOf (treeText x).toList) := by
  obtain ⟨hcanonical, -⟩ := Reading.bits_of_finite hx x.toBits.toNat_lt
  rcases treeText_of_finite hx with ⟨n, hn, htext⟩ | ⟨hpos, htext⟩
  · rw [htext, valueOf_of_allDigits (allDigits_toDigits n), digitsValue_toDigits,
      ← Dyadic.value_eq_of_toNat? hn]
    exact d.value_rounds
  · rw [htext, layout.valueOf_magnitude]
    exact Dyadic.shortest_rounds hcanonical hpos

/-- The texts of numbers that are not negative look like numbers. -/
theorem numeral_treeText (hx : Reading.ofFloat x = .finite false d) :
    Numeral (treeText x).toList := by
  rcases treeText_of_finite hx with ⟨n, -, htext⟩ | ⟨-, htext⟩
  · rw [htext]
    exact ⟨(allDigits_toDigits n).head Nat.toDigits_ne_nil,
      fun c hc => .inl (allDigits_toDigits n c hc)⟩
  · rw [htext]
    exact layout.numeral_magnitude _

/-- Numbers that are not negative are the same if they have the same text. -/
theorem eq_of_treeText_eq
    {d' : Decimal.Dyadic}
    (hx : Reading.ofFloat x = .finite false d)
    (hy : Reading.ofFloat y = .finite false d')
    (h : treeText x = treeText y) :
    x = y := by
  have hrounds := treeText_rounds hx
  rw [h] at hrounds
  obtain ⟨hcanonical, -⟩ := Reading.bits_of_finite hx x.toBits.toNat_lt
  obtain ⟨hcanonical', -⟩ := Reading.bits_of_finite hy y.toBits.toNat_lt
  obtain rfl := hcanonical.unique hcanonical' hrounds (treeText_rounds hy)
  exact Reading.ofFloat_inj hx hy

end Number
end Lox
