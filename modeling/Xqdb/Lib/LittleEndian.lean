import Mathlib.Tactic.Common
import Mathlib.Data.Nat.Bitwise
import Mathlib.Tactic.Ring

/-! Little-endian words over byte lists: a fixed number of octets, least
significant first, with the unsigned and the two's-complement reading. -/

namespace LittleEndian

/-- The low `width` octets of `n`. -/
def encode : Nat → Nat → List UInt8
  | 0, _ => []
  | width + 1, n => UInt8.ofNat n :: encode width (n / 256)

def decode : List UInt8 → Nat
  | [] => 0
  | b :: bs => b.toNat + 256 * decode bs

/-- Two's-complement reading of `bits` bits. -/
def signed (bits n : Nat) : Int :=
  if n < 2 ^ (bits - 1) then n else (n : Int) - 2 ^ bits

@[simp] theorem encode_length (width n : Nat) : (encode width n).length = width := by
  induction width generalizing n with
  | zero => rfl
  | succ width ih => simp [encode, ih]

theorem decode_encode_mod (width n : Nat) : decode (encode width n) = n % 256 ^ width := by
  induction width generalizing n with
  | zero => simp [encode, decode, Nat.mod_one]
  | succ width ih =>
    have hpow : 256 ^ (width + 1) = 256 * 256 ^ width := by ring
    rw [encode, decode, ih, UInt8.toNat_ofNat', hpow, Nat.mod_mul]

theorem decode_encode (width n : Nat) (h : n < 256 ^ width) : decode (encode width n) = n := by
  rw [decode_encode_mod, Nat.mod_eq_of_lt h]

theorem encode_inj {width m n : Nat} (hm : m < 256 ^ width) (hn : n < 256 ^ width)
    (h : encode width m = encode width n) : m = n := by
  rw [← decode_encode width m hm, h, decode_encode width n hn]

theorem decode_lt (bs : List UInt8) : decode bs < 256 ^ bs.length := by
  induction bs with
  | nil => simp [decode]
  | cons b bs ih =>
    have hb := b.toNat_lt
    simp only [decode, List.length_cons, Nat.pow_succ]
    omega

/-- Writing back what was read gives the same octets. -/
theorem encode_decode (bs : List UInt8) : encode bs.length (decode bs) = bs := by
  induction bs with
  | nil => rfl
  | cons b bs ih =>
    have hb := b.toNat_lt
    have hdiv : (b.toNat + 256 * decode bs) / 256 = decode bs := by omega
    simp only [List.length_cons, encode, decode, hdiv, ih]
    congr 1
    apply UInt8.toNat_inj.mp
    rw [UInt8.toNat_ofNat']
    omega

theorem encode_mod (width n : Nat) : encode width (n % 256 ^ width) = encode width n := by
  have h := encode_decode (encode width n)
  rwa [encode_length, decode_encode_mod] at h

theorem decode_append (a b : List UInt8) :
    decode (a ++ b) = decode a + 256 ^ a.length * decode b := by
  induction a with
  | nil => simp [decode]
  | cons x a ih =>
    simp only [List.cons_append, decode, ih, List.length_cons, Nat.pow_succ]
    ring

theorem decode_replicate_zero (count : Nat) : decode (List.replicate count 0) = 0 := by
  induction count with
  | zero => rfl
  | succ count ih => simp [List.replicate_succ, decode, ih]

/-- More bytes than a number needs are zeros at the end. -/
theorem encode_widen {width n : Nat} (h : n < 256 ^ width) (extra : Nat) :
    encode (width + extra) n = encode width n ++ List.replicate extra 0 := by
  have hround := encode_decode (encode width n ++ List.replicate extra 0)
  rw [decode_append, decode_encode width n h, decode_replicate_zero] at hround
  simpa using hround

theorem signed_nonneg {bits n : Nat} (h : n < 2 ^ (bits - 1)) : signed bits n = n := by
  simp [signed, h]

theorem signed_neg {bits n : Nat} (hn : n < 2 ^ bits) (h : ¬ n < 2 ^ (bits - 1)) :
    signed bits n < 0 := by
  have : (n : Int) < 2 ^ bits := by exact_mod_cast hn
  simp only [signed, if_neg h]
  omega

end LittleEndian
