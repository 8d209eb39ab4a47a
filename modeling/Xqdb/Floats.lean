import Xqdb.Lib.Ieee

/-! The floats of Rust and JavaScript, as bit patterns, and the casts and comparisons that the
bindings make on them. -/

namespace Xqdb

def binary32 : Ieee.Format := ⟨23, 8, by decide⟩
def binary64 : Ieee.Format := ⟨52, 11, by decide⟩

/-- `f32::MIN` and `f32::MAX`. -/
def f32Min : UInt32 := 0xFF7FFFFF
def f32Max : UInt32 := 0x7F7FFFFF

def isNanF32 (bits : UInt32) : Bool := binary32.isNan bits.toNat

/-- `value as f64` of an `f32`. -/
def f32AsF64 (bits : UInt32) : UInt64 := UInt64.ofNat (Ieee.Format.convert binary32 binary64 bits.toNat)

/-- `value as f32` of an `f64`. -/
def f64AsF32 (bits : UInt64) : UInt32 := UInt32.ofNat (Ieee.Format.convert binary64 binary32 bits.toNat)

namespace F64

def isNan (bits : UInt64) : Bool := binary64.isNan bits.toNat

def isFinite (bits : UInt64) : Bool := binary64.isFinite bits.toNat

/-- The value, with `binary64.one` for one. -/
def value (bits : UInt64) : Int := binary64.value bits.toNat

def lt (a b : UInt64) : Bool := binary64.lt a.toNat b.toNat

/-- `value.fract() != 0.0`. What is not finite has no fraction that is a number. -/
def hasFraction (bits : UInt64) : Bool := !isFinite bits || value bits % binary64.one ≠ 0

/-- `n as f64`. -/
def ofInt (n : Int) : UInt64 := UInt64.ofNat (binary64.ofInt n)

/-- A saturating cast to the integers from `low` to `high`: the fraction is cut off, and what is
not a number becomes 0. -/
def cast (low high : Int) (bits : UInt64) : Int :=
  if isNan bits then 0 else max low (min high ((value bits).tdiv binary64.one))

theorem toNat_ofInt (n : Int) : (ofInt n).toNat = binary64.ofInt n :=
  UInt64.toNat_ofNat_of_lt' (binary64.ofInt_lt n)

theorem ofInt_spec {n : Int} (h : n.natAbs < 2 ^ 53) :
    isFinite (ofInt n) = true ∧ isNan (ofInt n) = false ∧ value (ofInt n) = n * binary64.one := by
  rw [isFinite, isNan, value, toNat_ofInt]
  exact binary64.ofInt_spec h (by decide)

theorem one_pos : (0 : Int) < binary64.one := Int.natCast_pos.mpr binary64.one_pos

theorem lt_ofInt {a b : Int} (ha : a.natAbs < 2 ^ 53) (hb : b.natAbs < 2 ^ 53) :
    lt (ofInt a) (ofInt b) = decide (a < b) := by
  obtain ⟨-, hnan, hvalue⟩ := ofInt_spec ha
  obtain ⟨-, hnan', hvalue'⟩ := ofInt_spec hb
  rw [isNan] at hnan hnan'
  rw [value] at hvalue hvalue'
  rw [lt, Ieee.Format.lt, hnan, hnan', hvalue, hvalue', Bool.not_false, Bool.true_and, Bool.true_and]
  exact decide_eq_decide.mpr (Int.mul_lt_mul_right one_pos)

theorem hasFraction_ofInt {n : Int} (h : n.natAbs < 2 ^ 53) : hasFraction (ofInt n) = false := by
  obtain ⟨hfinite, -, hvalue⟩ := ofInt_spec h
  rw [hasFraction, hfinite, hvalue, Int.mul_emod_left]
  rfl

theorem cast_ofInt {low high n : Int} (h : n.natAbs < 2 ^ 53) (hlow : low ≤ n) (hhigh : n ≤ high) :
    cast low high (ofInt n) = n := by
  obtain ⟨-, hnan, hvalue⟩ := ofInt_spec h
  have hone := one_pos
  rw [cast, hnan, if_neg (by simp), hvalue, Int.mul_tdiv_cancel _ (by omega)]
  omega

end F64

theorem toNat_f32AsF64 (bits : UInt32) :
    (f32AsF64 bits).toNat = Ieee.Format.convert binary32 binary64 bits.toNat :=
  UInt64.toNat_ofNat_of_lt' (Ieee.Format.convert_lt binary32 (by decide) bits.toNat)

def isFiniteF32 (bits : UInt32) : Bool := binary32.isFinite bits.toNat

theorem f32AsF64_finite {bits : UInt32} (h : isFiniteF32 bits = true) :
    F64.isFinite (f32AsF64 bits) = true ∧ F64.value (f32AsF64 bits) = binary32.value bits.toNat * 2 ^ 925 := by
  rw [F64.isFinite, F64.value, toNat_f32AsF64]
  exact Ieee.Format.value_convert (by decide) (by decide) (by decide) h

theorem f32AsF64_infinite {bits : UInt32} (h : isFiniteF32 bits = false) : F64.isFinite (f32AsF64 bits) = false := by
  rw [F64.isFinite, toNat_f32AsF64]
  exact Ieee.Format.convert_infinite (by decide) h

/-- A finite `f32` stays in the range of `f32`. -/
theorem f32AsF64_inRange {bits : UInt32} (h : isFiniteF32 bits = true) :
    F64.lt (f32AsF64 bits) (f32AsF64 f32Min) = false ∧ F64.lt (f32AsF64 f32Max) (f32AsF64 bits) = false := by
  obtain ⟨hfinite, hvalue⟩ := f32AsF64_finite h
  obtain ⟨hfiniteMin, hvalueMin⟩ := f32AsF64_finite (show isFiniteF32 f32Min = true by decide)
  obtain ⟨hfiniteMax, hvalueMax⟩ := f32AsF64_finite (show isFiniteF32 f32Max = true by decide)
  have hmagnitude : binary32.magnitude bits.toNat < binary32.infinity := by
    simpa [isFiniteF32, Ieee.Format.isFinite] using h
  have hle := binary32.units_le_greatest hmagnitude
  have hmin : binary32.value f32Min.toNat = -(binary32.units binary32.greatest : Int) := by decide
  have hmax : binary32.value f32Max.toNat = binary32.units binary32.greatest := by decide
  have hbounds : binary32.value f32Min.toNat ≤ binary32.value bits.toNat ∧
      binary32.value bits.toNat ≤ binary32.value f32Max.toNat := by
    rw [hmin, hmax, Ieee.Format.value]
    split
    · constructor
      · omega
      · omega
    · constructor
      · omega
      · omega
  have hpos : (0 : Int) ≤ 2 ^ 925 := Int.le_of_lt (Int.pow_pos (by decide))
  constructor
  · rw [F64.lt, Ieee.Format.lt]
    have hless : ¬ F64.value (f32AsF64 bits) < F64.value (f32AsF64 f32Min) := by
      rw [hvalue, hvalueMin, Int.not_lt]
      exact Int.mul_le_mul_of_nonneg_right hbounds.1 hpos
    simp only [F64.value] at hless
    simp [hless]
  · rw [F64.lt, Ieee.Format.lt]
    have hless : ¬ F64.value (f32AsF64 f32Max) < F64.value (f32AsF64 bits) := by
      rw [hvalue, hvalueMax, Int.not_lt]
      exact Int.mul_le_mul_of_nonneg_right hbounds.2 hpos
    simp only [F64.value] at hless
    simp [hless]

/-- A number that is one survives the way through `f64`. -/
theorem f64AsF32_f32AsF64 {bits : UInt32} (h : isNanF32 bits = false) : f64AsF32 (f32AsF64 bits) = bits := by
  have hback : Ieee.Format.convert binary64 binary32 (Ieee.Format.convert binary32 binary64 bits.toNat) =
      bits.toNat :=
    Ieee.Format.convert_convert (by decide) (by decide) (by decide) bits.toNat_lt h
  rw [f64AsF32, toNat_f32AsF64, hback, UInt32.ofNat_toNat]

end Xqdb
