import Xqdb.Errors
import Xqdb.Lib.LittleEndian

/-! Machine numbers of the wire (`WireNumber` of `serde6.rs`), the checked
arithmetic on them, and the float facts the decoder looks at. Floats are bit
patterns; only the q datetime, a count of days as a double, is computed with. -/

namespace Xqdb

def i16Min : Int16 := Int16.minValue
def i32Min : Int32 := Int32.minValue
def i64Min : Int64 := Int64.minValue

/-- A result of an `i64` operation, if it is in range. -/
def checkedI64 (value : Int) : Option Int64 :=
  if -2 ^ 63 ≤ value ∧ value < 2 ^ 63 then some (Int64.ofInt value) else none

def checkedI32 (value : Int) : Option Int32 :=
  if -2 ^ 31 ≤ value ∧ value < 2 ^ 31 then some (Int32.ofInt value) else none

theorem checkedI64_eq_some {value : Int} {word : Int64} :
    checkedI64 value = some word ↔ word.toInt = value := by
  unfold checkedI64
  constructor
  · intro h
    split at h
    · next hrange =>
      cases h
      exact Int64.toInt_ofInt_of_le (by omega) (by omega)
    · cases h
  · rintro rfl
    have h₁ := word.le_toInt
    have h₂ := word.toInt_lt
    rw [if_pos ⟨by omega, by omega⟩, Int64.ofInt_toInt]

theorem checkedI32_eq_some {value : Int} {word : Int32} :
    checkedI32 value = some word ↔ word.toInt = value := by
  unfold checkedI32
  constructor
  · intro h
    split at h
    · next hrange =>
      cases h
      exact Int32.toInt_ofInt_of_le (by omega) (by omega)
    · cases h
  · rintro rfl
    have h₁ := word.le_toInt
    have h₂ := word.toInt_lt
    rw [if_pos ⟨by omega, by omega⟩, Int32.ofInt_toInt]

/-- A fixed-width number with its little-endian octets. -/
class WireNumber (α : Type) where
  width : Nat
  toLe : α → Bytes
  fromLe : Bytes → α
  width_pos : 0 < width
  toLe_length : ∀ a, (toLe a).length = width
  fromLe_toLe : ∀ a, fromLe (toLe a) = a
  toLe_fromLe : ∀ bytes, bytes.length = width → toLe (fromLe bytes) = bytes

open LittleEndian (encode decode decode_encode encode_length encode_decode decode_lt)

/-- A number that is one word of `width` octets. -/
@[reducible] def WireNumber.ofWord {α : Type} (width : Nat) (toWord : α → Nat) (ofWord : Nat → α)
    (hpos : 0 < width) (hlt : ∀ a, toWord a < 256 ^ width) (hleft : ∀ a, ofWord (toWord a) = a)
    (hright : ∀ n, n < 256 ^ width → toWord (ofWord n) = n) : WireNumber α where
  width := width
  toLe a := encode width (toWord a)
  fromLe bytes := ofWord (decode bytes)
  width_pos := hpos
  toLe_length _ := encode_length _ _
  fromLe_toLe a := by rw [decode_encode width _ (hlt a), hleft]
  toLe_fromLe bytes h := by
    have hbytes := decode_lt bytes
    rw [h] at hbytes
    rw [hright _ hbytes, ← h]
    exact encode_decode bytes

instance : WireNumber Int16 :=
  .ofWord 2 (·.toUInt16.toNat) (fun n => (UInt16.ofNat n).toInt16) (by decide)
    (fun a => by simpa using a.toUInt16.toNat_lt) (fun a => by simp)
    (fun n h => by simpa [UInt16.size] using UInt16.toNat_ofNat_of_lt' h)

instance : WireNumber Int32 :=
  .ofWord 4 (·.toUInt32.toNat) (fun n => (UInt32.ofNat n).toInt32) (by decide)
    (fun a => by simpa using a.toUInt32.toNat_lt) (fun a => by simp)
    (fun n h => by simpa [UInt32.size] using UInt32.toNat_ofNat_of_lt' h)

instance : WireNumber Int64 :=
  .ofWord 8 (·.toUInt64.toNat) (fun n => (UInt64.ofNat n).toInt64) (by decide)
    (fun a => by simpa using a.toUInt64.toNat_lt) (fun a => by simp)
    (fun n h => by simpa [UInt64.size] using UInt64.toNat_ofNat_of_lt' h)

/-- The bits of an `f32`. -/
instance : WireNumber UInt32 :=
  .ofWord 4 (·.toNat) UInt32.ofNat (by decide) (fun a => by simpa using a.toNat_lt)
    (fun a => by simp) (fun n h => by simpa [UInt32.size] using UInt32.toNat_ofNat_of_lt' h)

/-- The bits of an `f64`. -/
instance : WireNumber UInt64 :=
  .ofWord 8 (·.toNat) UInt64.ofNat (by decide) (fun a => by simpa using a.toNat_lt)
    (fun a => by simp) (fun n h => by simpa [UInt64.size] using UInt64.toNat_ofNat_of_lt' h)

/-- The full `width`-octet chunks of a payload. -/
def chunksExact (width : Nat) : Nat → Bytes → List Bytes
  | 0, _ => []
  | count + 1, bytes => bytes.take width :: chunksExact width count (bytes.drop width)

/-- `decode_wire_numbers` (and `decode_owned_wire_numbers`, which only saves the copy). -/
def decodeWireNumbers (α : Type) [WireNumber α] (bytes : Bytes) (context : String) :
    Exec (List α) :=
  let width := WireNumber.width α
  if bytes.length % width ≠ 0 then
    Exec.err (.DeserializationErr
      (context ++ " payload has " ++ toString (bytes.length % width) ++ " trailing byte(s)"))
  else .ok ((chunksExact width (bytes.length / width) bytes).map WireNumber.fromLe)

/-- `write_wire_numbers` and `write_wire_numbers_from_iter`. -/
def writeWireNumbers {α : Type} [WireNumber α] (values : List α) : Bytes :=
  values.flatMap WireNumber.toLe

theorem writeWireNumbers_length {α : Type} [WireNumber α] (values : List α) :
    (writeWireNumbers values).length = values.length * WireNumber.width α := by
  induction values with
  | nil => simp [writeWireNumbers]
  | cons a values ih =>
    have hcons : writeWireNumbers (a :: values) = WireNumber.toLe a ++ writeWireNumbers values := by
      simp [writeWireNumbers]
    rw [hcons, List.length_append, ih, WireNumber.toLe_length, List.length_cons, Nat.add_one_mul]
    omega

/-! ## Floats -/

/-- `f32::is_nan` on the bits. -/
def f32IsNan (bits : UInt32) : Bool := bits.toNat % 2 ^ 31 > 0x7F800000

/-- `f64::is_nan` on the bits. -/
def f64IsNan (bits : UInt64) : Bool := bits.toNat % 2 ^ 63 > 0x7FF0000000000000

/-- `f64::is_finite` on the bits. -/
def f64IsFinite (bits : UInt64) : Bool := bits.toNat % 2 ^ 63 < 0x7FF0000000000000

/-- `f32::NAN` and `f64::NAN`. -/
def f32Nan : UInt32 := 0x7FC00000
def f64Nan : UInt64 := 0x7FF8000000000000

def nanosDiff : Int := 946684800000000000
def nanosPerDay : Int := 86400000000000
def msPerDay : Float := 86400000.0

def finiteF64ToI64 (value : Float) (context : String) : Exec Int64 :=
  if !value.isFinite || !(decide (-9223372036854775808.0 ≤ value)) ||
      !(decide (value < 9223372036854775808.0)) then
    Exec.err (.DeserializationErr (context ++ " is outside the i64 range"))
  else .ok value.toInt64

/-- `q_datetime_nanoseconds` on a finite value. -/
def qDatetimeNanoseconds (bits : UInt64) : Exec Int64 := do
  let qMilliseconds ← finiteF64ToI64 (Float.round (Float.ofBits bits * msPerDay)) "finite q datetime"
  Exec.okOr
    ((checkedI64 (qMilliseconds.toInt * 1000000)).bind fun v => checkedI64 (v.toInt + nanosDiff))
    (.DeserializationErr "finite q datetime is outside the Unix nanosecond range")

/-- `value as f64 / MS_PER_DAY - 10_957.0`, as bits. -/
def msDatetimeDays (value : Int64) : UInt64 :=
  (value.toFloat / msPerDay - 10957.0).toBits

end Xqdb
