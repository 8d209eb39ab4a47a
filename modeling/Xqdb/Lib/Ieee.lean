import Mathlib.Algebra.Group.Int.Defs
import Mathlib.Algebra.Group.Nat.Defs

/-! Binary floating point as bit patterns. Every finite number of a format is a whole number of
units, the unit being its least subnormal, so that values are integers and rounding is a shift. -/

namespace Ieee

/-- A binary interchange format, by the widths of its two lower fields. -/
structure Format where
  fraction : Nat
  exponent : Nat
  two_le : 2 ≤ exponent

namespace Format

variable (F : Format)

/-! ## The fields -/

/-- The pattern of positive infinity; what is above it, up to the sign, is not a number. -/
def infinity : Nat := (2 ^ F.exponent - 1) * 2 ^ F.fraction

def signBit : Nat := 2 ^ (F.fraction + F.exponent)

def pack (sign : Bool) (magnitude : Nat) : Nat := (if sign then F.signBit else 0) + magnitude

def sign (bits : Nat) : Bool := F.signBit ≤ bits

def magnitude (bits : Nat) : Nat := bits % F.signBit

def isNan (bits : Nat) : Bool := F.infinity < F.magnitude bits

def isFinite (bits : Nat) : Bool := F.magnitude bits < F.infinity

theorem infinity_lt_signBit : F.infinity < F.signBit := by
  rw [infinity, signBit, Nat.pow_add, Nat.mul_comm]
  refine Nat.mul_lt_mul_of_pos_left ?_ (Nat.two_pow_pos _)
  have : 0 < 2 ^ F.exponent := Nat.two_pow_pos _
  omega

theorem four_le : 4 ≤ 2 ^ F.exponent := by
  show 2 ^ 2 ≤ 2 ^ F.exponent
  exact Nat.pow_le_pow_right (by omega) F.two_le

theorem pow_le_infinity : 2 ^ F.fraction ≤ F.infinity := by
  have hpow := F.four_le
  calc 2 ^ F.fraction = 1 * 2 ^ F.fraction := (Nat.one_mul _).symm
    _ ≤ F.infinity := Nat.mul_le_mul_right _ (by omega)

theorem sign_pack {sign : Bool} {magnitude : Nat} (h : magnitude < F.signBit) :
    F.sign (F.pack sign magnitude) = sign := by
  cases sign with
  | false => simpa [Format.sign, pack] using h
  | true => simp [Format.sign, pack]

theorem magnitude_pack {sign : Bool} {magnitude : Nat} (h : magnitude < F.signBit) :
    F.magnitude (F.pack sign magnitude) = magnitude := by
  cases sign with
  | false => simpa [Format.magnitude, pack] using Nat.mod_eq_of_lt h
  | true => simpa [Format.magnitude, pack] using Nat.mod_eq_of_lt h

theorem pack_fields {bits : Nat} (h : bits < 2 * F.signBit) :
    F.pack (F.sign bits) (F.magnitude bits) = bits := by
  unfold pack sign magnitude
  by_cases hsign : F.signBit ≤ bits
  · have hmod : bits % F.signBit = bits - F.signBit := by
      rw [Nat.mod_eq_sub_mod hsign, Nat.mod_eq_of_lt (by omega)]
    rw [decide_eq_true hsign, if_pos rfl, hmod]
    omega
  · rw [decide_eq_false hsign, Nat.mod_eq_of_lt (by omega)]
    simp

theorem pack_lt {sign : Bool} {magnitude : Nat} (h : magnitude < F.signBit) :
    F.pack sign magnitude < 2 * F.signBit := by
  cases sign with
  | false => simp only [pack, Bool.false_eq_true, if_false]; omega
  | true => simp only [pack, if_true]; omega

/-! ## The value -/

/-- The units of a number without its sign. -/
def units (bits : Nat) : Nat :=
  if bits / 2 ^ F.fraction = 0 then bits
  else (2 ^ F.fraction + bits % 2 ^ F.fraction) * 2 ^ (bits / 2 ^ F.fraction - 1)

/-- The value in units. Infinity gets a value beyond all finite ones, as its order wants. -/
def value (bits : Nat) : Int :=
  if F.sign bits then -(F.units (F.magnitude bits) : Int) else F.units (F.magnitude bits)

/-- One is `2 ^ unitDigits` units. -/
def unitDigits : Nat := F.fraction + (2 ^ (F.exponent - 1) - 2)

def one : Nat := 2 ^ F.unitDigits

theorem one_pos : 0 < F.one := Nat.two_pow_pos _

/-- A finite number is one. -/
theorem isNan_of_isFinite {bits : Nat} (h : F.isFinite bits = true) : F.isNan bits = false := by
  rw [isFinite, decide_eq_true_eq] at h
  rw [isNan]
  exact decide_eq_false (by omega)

/-- `<`, which is false of what is not a number. -/
def lt (a b : Nat) : Bool := !F.isNan a && !F.isNan b && F.value a < F.value b

/-! ## Rounding -/

/-- `n / 2 ^ k`, to the nearest, ties to even. -/
def roundEven (n k : Nat) : Nat :=
  if 2 * (n % 2 ^ k) < 2 ^ k then n / 2 ^ k
  else if 2 ^ k < 2 * (n % 2 ^ k) then n / 2 ^ k + 1
  else n / 2 ^ k + n / 2 ^ k % 2

/-- The nearest number to `n / 2 ^ shift` units. A carry out of the fraction is one into the
exponent, as the fields stand. -/
def ofUnits (shift n : Nat) : Nat :=
  min ((max (n.log2 - F.fraction) shift - shift) * 2 ^ F.fraction +
    roundEven n (max (n.log2 - F.fraction) shift)) F.infinity

@[simp] theorem roundEven_mul (m k : Nat) : roundEven (m * 2 ^ k) k = m := by
  have hpos : 0 < 2 ^ k := Nat.two_pow_pos _
  rw [roundEven, Nat.mul_mod_left, if_pos (by omega), Nat.mul_div_cancel _ hpos]

theorem roundEven_scale (n k j : Nat) : roundEven (n * 2 ^ j) (k + j) = roundEven n k := by
  have hpos : 0 < 2 ^ j := Nat.two_pow_pos _
  have hdiv : n * 2 ^ j / 2 ^ (k + j) = n / 2 ^ k := by
    rw [Nat.pow_add, Nat.mul_div_mul_right _ _ hpos]
  have hmod : n * 2 ^ j % 2 ^ (k + j) = n % 2 ^ k * 2 ^ j := by
    rw [Nat.pow_add, Nat.mul_mod_mul_right]
  have hless : 2 * (n % 2 ^ k * 2 ^ j) < 2 ^ (k + j) ↔ 2 * (n % 2 ^ k) < 2 ^ k := by
    rw [Nat.pow_add, ← Nat.mul_assoc, Nat.mul_lt_mul_right hpos]
  have hmore : 2 ^ (k + j) < 2 * (n % 2 ^ k * 2 ^ j) ↔ 2 ^ k < 2 * (n % 2 ^ k) := by
    rw [Nat.pow_add, ← Nat.mul_assoc, Nat.mul_lt_mul_right hpos]
  unfold roundEven
  rw [hdiv, hmod]
  simp only [hless, hmore]

theorem log2_mul_pow {n : Nat} (hn : n ≠ 0) (j : Nat) : (n * 2 ^ j).log2 = n.log2 + j := by
  have hpos : 0 < 2 ^ j := Nat.two_pow_pos _
  rw [Nat.log2_eq_iff (Nat.mul_ne_zero hn (by omega)), Nat.pow_add, Nat.add_right_comm, Nat.pow_add]
  constructor
  · exact Nat.mul_le_mul_right _ (Nat.log2_self_le hn)
  · exact (Nat.mul_lt_mul_right hpos).mpr Nat.lt_log2_self

theorem mul_two_pow_lt {n digits j bound : Nat} (h : n < 2 ^ digits) (hbound : digits + j ≤ bound) :
    n * 2 ^ j < 2 ^ bound := by
  calc n * 2 ^ j < 2 ^ digits * 2 ^ j := (Nat.mul_lt_mul_right (Nat.two_pow_pos _)).mpr h
    _ = 2 ^ (digits + j) := (Nat.pow_add _ _ _).symm
    _ ≤ 2 ^ bound := Nat.pow_le_pow_right (by omega) hbound

/-- A common power of two in the units and in their divisor does not change the number. -/
theorem ofUnits_scale (shift j n : Nat) : F.ofUnits (shift + j) (n * 2 ^ j) = F.ofUnits shift n := by
  by_cases hn : n = 0
  · subst hn
    have h₁ : max (Nat.log2 0 - F.fraction) shift = shift := by simp
    have h₂ : max (Nat.log2 0 - F.fraction) (shift + j) = shift + j := by simp
    have h₃ : roundEven (0 * 2 ^ j) (shift + j) = roundEven 0 shift := roundEven_scale 0 shift j
    rw [Nat.zero_mul] at h₃
    rw [ofUnits, ofUnits, Nat.zero_mul, h₁, h₂, h₃]
    simp
  · have hmax : max (n.log2 + j - F.fraction) (shift + j) = max (n.log2 - F.fraction) shift + j := by omega
    rw [ofUnits, log2_mul_pow hn, hmax, roundEven_scale, Nat.add_sub_add_right, ofUnits]

theorem ofUnits_eq_of_log2_le {n : Nat} (h : n.log2 ≤ F.fraction) : F.ofUnits 0 n = min n F.infinity := by
  have hmax : max (n.log2 - F.fraction) 0 = 0 := by omega
  have hround : roundEven n 0 = n := by simpa using roundEven_mul n 0
  rw [ofUnits, hmax, hround]
  simp

/-- A significand of full width stands in the fields as it is. -/
theorem ofUnits_full {m k : Nat} (hlow : 2 ^ F.fraction ≤ m) (hhigh : m < 2 ^ (F.fraction + 1)) :
    F.ofUnits 0 (m * 2 ^ k) = min (k * 2 ^ F.fraction + m) F.infinity := by
  have hpos : 0 < 2 ^ F.fraction := Nat.two_pow_pos _
  have hm : m ≠ 0 := by omega
  have hlog : m.log2 = F.fraction := (Nat.log2_eq_iff hm).mpr ⟨hlow, hhigh⟩
  have hmax : max ((m * 2 ^ k).log2 - F.fraction) 0 = k := by
    rw [log2_mul_pow hm, hlog]
    omega
  rw [ofUnits, hmax, roundEven_mul]
  simp

theorem ofUnits_units {bits : Nat} (h : bits ≤ F.infinity) : F.ofUnits 0 (F.units bits) = bits := by
  have hpos : 0 < 2 ^ F.fraction := Nat.two_pow_pos _
  unfold units
  by_cases hexp : bits / 2 ^ F.fraction = 0
  · rw [if_pos hexp]
    have hlt : bits < 2 ^ F.fraction := (Nat.div_eq_zero_iff_lt hpos).mp hexp
    rw [ofUnits_eq_of_log2_le, Nat.min_eq_left h]
    by_cases hzero : bits = 0
    · simp [hzero]
    · exact Nat.le_of_lt ((Nat.log2_lt hzero).mpr hlt)
  · rw [if_neg hexp]
    have hmod := Nat.mod_lt bits hpos
    rw [ofUnits_full F (by omega) (by rw [Nat.pow_succ]; omega)]
    have hsplit : (bits / 2 ^ F.fraction - 1) * 2 ^ F.fraction + (2 ^ F.fraction + bits % 2 ^ F.fraction) = bits := by
      have hdiv := Nat.div_add_mod bits (2 ^ F.fraction)
      obtain ⟨e, he⟩ := Nat.exists_eq_succ_of_ne_zero hexp
      rw [he, Nat.mul_comm, Nat.succ_mul] at hdiv
      rw [he, Nat.succ_sub_one]
      omega
    rw [hsplit, Nat.min_eq_left h]

/-- The units a pattern of normal or subnormal shape stands for. -/
theorem units_fields {m k : Nat} (hlow : 2 ^ F.fraction ≤ m) (hhigh : m < 2 ^ (F.fraction + 1)) :
    F.units (k * 2 ^ F.fraction + m) = m * 2 ^ k := by
  have hpos : 0 < 2 ^ F.fraction := Nat.two_pow_pos _
  obtain ⟨r, rfl⟩ : ∃ r, m = 2 ^ F.fraction + r := ⟨m - 2 ^ F.fraction, by omega⟩
  have hr : r < 2 ^ F.fraction := by
    rw [Nat.pow_succ] at hhigh
    omega
  have hform : k * 2 ^ F.fraction + (2 ^ F.fraction + r) = r + 2 ^ F.fraction * (k + 1) := by
    rw [Nat.mul_succ, Nat.mul_comm k]
    omega
  have hdiv : (k * 2 ^ F.fraction + (2 ^ F.fraction + r)) / 2 ^ F.fraction = k + 1 := by
    rw [hform, Nat.add_mul_div_left _ _ hpos, Nat.div_eq_of_lt hr, Nat.zero_add]
  have hmod : (k * 2 ^ F.fraction + (2 ^ F.fraction + r)) % 2 ^ F.fraction = r := by
    rw [hform, Nat.add_mul_mod_self_left, Nat.mod_eq_of_lt hr]
  rw [units, hdiv, hmod, if_neg (by omega), Nat.add_sub_cancel]

/-- A number of few significant digits and no great size is kept as it is. -/
theorem units_ofUnits {m j : Nat} (hhigh : m < 2 ^ (F.fraction + 1))
    (hfit : m * 2 ^ j < 2 ^ (F.fraction + (2 ^ F.exponent - 2))) :
    F.units (F.ofUnits 0 (m * 2 ^ j)) = m * 2 ^ j := by
  by_cases hsmall : m * 2 ^ j < 2 ^ F.fraction
  · have hlog : (m * 2 ^ j).log2 ≤ F.fraction := by
      by_cases hzero : m * 2 ^ j = 0
      · simp [hzero]
      · exact Nat.le_of_lt ((Nat.log2_lt hzero).mpr hsmall)
    have hinf : m * 2 ^ j ≤ F.infinity := Nat.le_trans (Nat.le_of_lt hsmall) F.pow_le_infinity
    rw [ofUnits_eq_of_log2_le F hlog, Nat.min_eq_left hinf, units, if_pos (Nat.div_eq_of_lt hsmall)]
  · -- the significand is shifted to its full width
    have hpos : 0 < 2 ^ F.fraction := Nat.two_pow_pos _
    have hm : m ≠ 0 := by
      rintro rfl
      omega
    have hn : m * 2 ^ j ≠ 0 := by omega
    have hmlog : m.log2 < F.fraction + 1 := (Nat.log2_lt hm).mpr hhigh
    have hlog : F.fraction ≤ m.log2 + j := by
      rw [← log2_mul_pow hm]
      exact (Nat.le_log2 hn).mpr (by omega)
    have hless : m.log2 + j < F.fraction + (2 ^ F.exponent - 2) := by
      rw [← log2_mul_pow hm]
      exact (Nat.log2_lt hn).mpr hfit
    obtain ⟨k, hk⟩ : ∃ k, m.log2 + j = F.fraction + k := ⟨m.log2 + j - F.fraction, by omega⟩
    obtain ⟨i, rfl⟩ : ∃ i, j = i + k := ⟨j - k, by omega⟩
    have hsplit : m * 2 ^ (i + k) = m * 2 ^ i * 2 ^ k := by rw [Nat.pow_add, Nat.mul_assoc]
    have hi : m * 2 ^ i ≠ 0 := Nat.mul_ne_zero hm (Nat.pos_iff_ne_zero.mp (Nat.two_pow_pos _))
    obtain ⟨hlow, hfull⟩ := (Nat.log2_eq_iff hi).mp (show (m * 2 ^ i).log2 = F.fraction by
      rw [log2_mul_pow hm]
      omega)
    have hinf : k * 2 ^ F.fraction + m * 2 ^ i ≤ F.infinity := by
      calc k * 2 ^ F.fraction + m * 2 ^ i ≤ k * 2 ^ F.fraction + 2 ^ (F.fraction + 1) := by omega
        _ = (k + 2) * 2 ^ F.fraction := by rw [Nat.pow_succ, Nat.add_mul, Nat.mul_comm 2]
        _ ≤ F.infinity := Nat.mul_le_mul_right _ (by omega)
    rw [hsplit, ofUnits_full F hlow hfull, Nat.min_eq_left hinf, units_fields F hlow hfull]

theorem units_infinity : F.units F.infinity = 2 ^ (F.fraction + (2 ^ F.exponent - 2)) := by
  have hpow := F.four_le
  have hform : F.infinity = (2 ^ F.exponent - 2) * 2 ^ F.fraction + 2 ^ F.fraction := by
    rw [infinity, show 2 ^ F.exponent - 1 = 2 ^ F.exponent - 2 + 1 by omega, Nat.succ_mul]
  rw [hform, units_fields F (Nat.le_refl _) (Nat.pow_lt_pow_right (by omega) (by omega)), Nat.pow_add]

theorem units_finite {bits : Nat} (h : bits < F.infinity) :
    ∃ m j, F.units bits = m * 2 ^ j ∧ m < 2 ^ (F.fraction + 1) ∧ j ≤ 2 ^ F.exponent - 3 := by
  have hpos : 0 < 2 ^ F.fraction := Nat.two_pow_pos _
  unfold units
  by_cases hexp : bits / 2 ^ F.fraction = 0
  · rw [if_pos hexp]
    have hlt : bits < 2 ^ F.fraction := (Nat.div_eq_zero_iff_lt hpos).mp hexp
    refine ⟨bits, 0, by simp, ?_, by omega⟩
    exact Nat.lt_of_lt_of_le hlt (Nat.pow_le_pow_right (by omega) (by omega))
  · rw [if_neg hexp]
    have hmod := Nat.mod_lt bits hpos
    have hless : bits / 2 ^ F.fraction < 2 ^ F.exponent - 1 := (Nat.div_lt_iff_lt_mul hpos).mpr h
    generalize bits / 2 ^ F.fraction = e at hexp hless
    refine ⟨_, _, rfl, ?_, by omega⟩
    rw [Nat.pow_succ]
    omega

/-- The greatest finite number. -/
def greatest : Nat := F.infinity - 1

theorem units_greatest : F.units F.greatest = (2 ^ (F.fraction + 1) - 1) * 2 ^ (2 ^ F.exponent - 3) := by
  have hpow := F.four_le
  have hpos : 0 < 2 ^ F.fraction := Nat.two_pow_pos _
  have hsucc : 2 ^ (F.fraction + 1) = 2 ^ F.fraction * 2 := Nat.pow_succ _ _
  have hform : F.greatest = (2 ^ F.exponent - 3) * 2 ^ F.fraction + (2 ^ (F.fraction + 1) - 1) := by
    have hsplit : F.infinity = (2 ^ F.exponent - 3) * 2 ^ F.fraction + 2 * 2 ^ F.fraction := by
      rw [infinity, ← Nat.add_mul]
      congr 1
      omega
    rw [greatest, hsplit, hsucc]
    omega
  rw [hform, units_fields F (by omega) (by omega)]

theorem units_le_greatest {bits : Nat} (h : bits < F.infinity) : F.units bits ≤ F.units F.greatest := by
  obtain ⟨m, j, hunits, hm, hj⟩ := F.units_finite h
  rw [hunits, units_greatest]
  exact Nat.mul_le_mul (by omega) (Nat.pow_le_pow_right (by omega) hj)

theorem ofUnits_le (shift n : Nat) : F.ofUnits shift n ≤ F.infinity := Nat.min_le_right _ _

/-- What is kept as it is stays finite. -/
theorem ofUnits_lt {m j : Nat} (hhigh : m < 2 ^ (F.fraction + 1))
    (hfit : m * 2 ^ j < 2 ^ (F.fraction + (2 ^ F.exponent - 2))) : F.ofUnits 0 (m * 2 ^ j) < F.infinity := by
  refine Nat.lt_of_le_of_ne (F.ofUnits_le _ _) ?_
  intro hinf
  have hunits := F.units_ofUnits hhigh hfit
  rw [hinf, units_infinity] at hunits
  omega

/-! ## Casts between formats -/

/-- The cast from `F` to `G`. The payload of what is not a number is not specified. -/
def convert (F G : Format) (bits : Nat) : Nat :=
  if F.isNan bits then G.pack (F.sign bits) (G.infinity + 2 ^ (G.fraction - 1))
  else if F.magnitude bits = F.infinity then G.pack (F.sign bits) G.infinity
  else G.pack (F.sign bits) (G.ofUnits (F.unitDigits - G.unitDigits)
    (F.units (F.magnitude bits) * 2 ^ (G.unitDigits - F.unitDigits)))

theorem quiet_lt_signBit (hfraction : 0 < F.fraction) : F.infinity + 2 ^ (F.fraction - 1) < F.signBit := by
  have hpow : 2 ^ (F.fraction - 1) < 2 ^ F.fraction := Nat.pow_lt_pow_right (by omega) (by omega)
  have hsum : F.infinity + 2 ^ F.fraction = F.signBit := by
    rw [infinity, signBit, ← Nat.succ_mul, Nat.pow_add, Nat.mul_comm, Nat.succ_eq_add_one,
      Nat.sub_add_cancel (Nat.two_pow_pos _)]
  omega

theorem convert_lt (F : Format) {G : Format} (hfraction : 0 < G.fraction) (bits : Nat) :
    convert F G bits < 2 * G.signBit := by
  unfold convert
  split
  · exact G.pack_lt (G.quiet_lt_signBit hfraction)
  · split
    · exact G.pack_lt G.infinity_lt_signBit
    · exact G.pack_lt (Nat.lt_of_le_of_lt (G.ofUnits_le _ _) G.infinity_lt_signBit)

theorem convert_infinite {F G : Format} (hfraction : 0 < G.fraction) {bits : Nat} (h : F.isFinite bits = false) :
    G.isFinite (convert F G bits) = false := by
  have hge : F.infinity ≤ F.magnitude bits := by simpa [isFinite] using h
  unfold convert
  by_cases hnan : F.isNan bits = true
  · rw [if_pos hnan, isFinite, G.magnitude_pack (G.quiet_lt_signBit hfraction)]
    exact decide_eq_false (Nat.not_lt.mpr (Nat.le_add_right _ _))
  · have hle : F.magnitude bits ≤ F.infinity := by simpa [isNan] using hnan
    rw [if_neg hnan, if_pos (Nat.le_antisymm hle hge), isFinite, G.magnitude_pack G.infinity_lt_signBit]
    exact decide_eq_false (by omega)

section Widening

variable {F} {G : Format} (hfraction : F.fraction ≤ G.fraction) (hdigits : F.unitDigits ≤ G.unitDigits)
  (hroom : F.fraction + (2 ^ F.exponent - 2) + (G.unitDigits - F.unitDigits) ≤
    G.fraction + (2 ^ G.exponent - 2))

include hfraction hroom in
/-- A finite number keeps its value in a wider format. -/
theorem units_widened {bits : Nat} (h : bits < F.infinity) :
    G.ofUnits 0 (F.units bits * 2 ^ (G.unitDigits - F.unitDigits)) < G.infinity ∧
      G.units (G.ofUnits 0 (F.units bits * 2 ^ (G.unitDigits - F.unitDigits))) =
        F.units bits * 2 ^ (G.unitDigits - F.unitDigits) := by
  generalize G.unitDigits - F.unitDigits = up at hroom
  obtain ⟨m, j, hunits, hm, hj⟩ := F.units_finite h
  have hpow := F.four_le
  have hform : F.units bits * 2 ^ up = m * 2 ^ (j + up) := by rw [hunits, Nat.pow_add, Nat.mul_assoc]
  have hhigh : m < 2 ^ (G.fraction + 1) := Nat.lt_of_lt_of_le hm (Nat.pow_le_pow_right (by omega) (by omega))
  have hfit' : m * 2 ^ (j + up) < 2 ^ (G.fraction + (2 ^ G.exponent - 2)) := by
    exact mul_two_pow_lt hm (by omega)
  rw [hform]
  exact ⟨G.ofUnits_lt hhigh hfit', G.units_ofUnits hhigh hfit'⟩

include hfraction hdigits hroom in
theorem value_convert {bits : Nat} (h : F.isFinite bits = true) :
    G.isFinite (convert F G bits) = true ∧
      G.value (convert F G bits) = F.value bits * 2 ^ (G.unitDigits - F.unitDigits) := by
  have hless : F.magnitude bits < F.infinity := by simpa [isFinite] using h
  obtain ⟨hlt, hunits⟩ := units_widened hfraction hroom hless
  have hdown : F.unitDigits - G.unitDigits = 0 := by omega
  generalize hx : G.ofUnits 0 (F.units (F.magnitude bits) * 2 ^ (G.unitDigits - F.unitDigits)) = x
    at hlt hunits
  have hwide : convert F G bits = G.pack (F.sign bits) x := by
    rw [convert, isNan, if_neg (by simpa using Nat.le_of_lt hless), if_neg (Nat.ne_of_lt hless), hdown, hx]
  have hxlt : x < G.signBit := Nat.lt_trans hlt G.infinity_lt_signBit
  rw [hwide]
  constructor
  · rw [isFinite, G.magnitude_pack hxlt]
    exact decide_eq_true hlt
  · rw [value, value, G.sign_pack hxlt, G.magnitude_pack hxlt, hunits, Int.natCast_mul, Int.natCast_pow]
    cases F.sign bits with
    | false => rfl
    | true => exact (Int.neg_mul _ _).symm

include hfraction hdigits hroom in
/-- Widening and narrowing again gives the number back. -/
theorem convert_convert {bits : Nat} (hbits : bits < 2 * F.signBit) (hnan : F.isNan bits = false) :
    convert G F (convert F G bits) = bits := by
  have hle : F.magnitude bits ≤ F.infinity := by simpa [isNan] using hnan
  have hdown : F.unitDigits - G.unitDigits = 0 := by omega
  by_cases hinf : F.magnitude bits = F.infinity
  · have hwide : convert F G bits = G.pack (F.sign bits) G.infinity := by
      rw [convert, hnan, if_neg (by simp), if_pos hinf]
    have hmag : G.magnitude (G.pack (F.sign bits) G.infinity) = G.infinity :=
      G.magnitude_pack G.infinity_lt_signBit
    rw [hwide, convert, isNan, hmag, if_neg (by simp), if_pos rfl, G.sign_pack G.infinity_lt_signBit,
      ← hinf, F.pack_fields hbits]
  · obtain ⟨hlt, hunits⟩ := units_widened hfraction hroom (Nat.lt_of_le_of_ne hle hinf)
    generalize hx : G.ofUnits 0 (F.units (F.magnitude bits) * 2 ^ (G.unitDigits - F.unitDigits)) = x
      at hlt hunits
    have hwide : convert F G bits = G.pack (F.sign bits) x := by
      rw [convert, hnan, if_neg (by simp), if_neg hinf, hdown, hx]
    have hxlt : x < G.signBit := Nat.lt_trans hlt G.infinity_lt_signBit
    have hnarrow : F.ofUnits (G.unitDigits - F.unitDigits)
        (F.units (F.magnitude bits) * 2 ^ (G.unitDigits - F.unitDigits)) = F.magnitude bits := by
      have hscale := F.ofUnits_scale 0 (G.unitDigits - F.unitDigits) (F.units (F.magnitude bits))
      rw [Nat.zero_add] at hscale
      rw [hscale, F.ofUnits_units hle]
    rw [hwide, convert, isNan, G.magnitude_pack hxlt, if_neg (by simpa using Nat.le_of_lt hlt),
      if_neg (Nat.ne_of_lt hlt), G.sign_pack hxlt, hunits, hdown, Nat.pow_zero, Nat.mul_one, hnarrow,
      F.pack_fields hbits]

end Widening

/-! ## Whole numbers -/

/-- The nearest number to an integer. -/
def ofInt (n : Int) : Nat := F.pack (n < 0) (F.ofUnits 0 (n.natAbs * F.one))

theorem ofInt_lt (n : Int) : F.ofInt n < 2 * F.signBit :=
  F.pack_lt (Nat.lt_of_le_of_lt (F.ofUnits_le _ _) F.infinity_lt_signBit)

/-- A whole number that fits the significand is kept as it is. -/
theorem ofInt_spec {n : Int} (h : n.natAbs < 2 ^ (F.fraction + 1))
    (hroom : F.fraction + 1 + F.unitDigits ≤ F.fraction + (2 ^ F.exponent - 2)) :
    F.isFinite (F.ofInt n) = true ∧ F.isNan (F.ofInt n) = false ∧ F.value (F.ofInt n) = n * F.one := by
  have hfit := mul_two_pow_lt h hroom
  have hlt : F.ofUnits 0 (n.natAbs * F.one) < F.infinity := F.ofUnits_lt h hfit
  have hunits : F.units (F.ofUnits 0 (n.natAbs * F.one)) = n.natAbs * F.one := F.units_ofUnits h hfit
  have hsign := Nat.lt_trans hlt F.infinity_lt_signBit
  refine ⟨?_, ?_, ?_⟩
  · rw [ofInt, isFinite, F.magnitude_pack hsign]
    exact decide_eq_true hlt
  · rw [ofInt, isNan, F.magnitude_pack hsign]
    exact decide_eq_false (by omega)
  · rw [ofInt, value, F.sign_pack hsign, F.magnitude_pack hsign, hunits]
    by_cases hneg : n < 0
    · rw [if_pos (by simpa using hneg), Int.natCast_mul, ← Int.neg_mul]
      congr 1
      omega
    · rw [if_neg (by simpa using hneg), Int.natCast_mul]
      congr 1
      omega

end Format
end Ieee
