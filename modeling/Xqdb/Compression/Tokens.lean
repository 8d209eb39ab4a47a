import Xqdb.Compression.Codec
import Mathlib.Tactic.IntervalCases
import Mathlib.Tactic.Ring

/-! Compressed bytes as a list of operations. A compressed body is a sequence of
groups; a group is one flag byte and up to eight operations, each a literal byte
or a two-byte back reference, with bit `k` of the flag byte set when operation
`k` is a back reference. This module states what a token does to the
decompressor and how the decompressor reads a group. -/

namespace Xqdb.Compression

inductive Token where
  | literal (b : UInt8)
  | reference (hash extra : UInt8)
  deriving DecidableEq, Repr

namespace Token

def isReference : Token → Bool
  | literal _ => false
  | reference _ _ => true

def bytes : Token → Bytes
  | literal b => [b]
  | reference hash extra => [hash, extra]

end Token

/-- The flag byte of a group, first operation in the lowest bit. -/
def flagBits : List Token → Nat
  | [] => 0
  | t :: g => t.isReference.toNat + 2 * flagBits g

def tokenBytes (g : List Token) : Bytes := g.flatMap Token.bytes

def packGroup (g : List Token) : Bytes := UInt8.ofNat (flagBits g) :: tokenBytes g

def pack (groups : List (List Token)) : Bytes := groups.flatMap packGroup

@[simp] theorem tokenBytes_nil : tokenBytes [] = [] := rfl

@[simp] theorem tokenBytes_cons (t : Token) (g : List Token) :
    tokenBytes (t :: g) = t.bytes ++ tokenBytes g := rfl

@[simp] theorem tokenBytes_append (g h : List Token) :
    tokenBytes (g ++ h) = tokenBytes g ++ tokenBytes h := by
  simp [tokenBytes]

@[simp] theorem pack_nil : pack [] = [] := rfl

@[simp] theorem pack_cons (g : List Token) (groups : List (List Token)) :
    pack (g :: groups) = packGroup g ++ pack groups := rfl

@[simp] theorem pack_append (gs hs : List (List Token)) : pack (gs ++ hs) = pack gs ++ pack hs := by
  simp [pack]

theorem flagBits_lt (g : List Token) : flagBits g < 2 ^ g.length := by
  induction g with
  | nil => simp [flagBits]
  | cons t g ih =>
    have ht : t.isReference.toNat ≤ 1 := by cases t.isReference <;> simp
    simp only [flagBits, List.length_cons, Nat.pow_succ]
    omega

theorem flagBits_snoc (g : List Token) (t : Token) :
    flagBits (g ++ [t]) = flagBits g + 2 ^ g.length * t.isReference.toNat := by
  induction g with
  | nil => simp [flagBits]
  | cons u g ih =>
    simp only [List.cons_append, flagBits, ih, List.length_cons, Nat.pow_succ]
    ring

/-- Setting the bit of the next operation, as `n |= i` does. -/
theorem flagBits_snoc_or (g : List Token) (t : Token) (ht : t.isReference = true) :
    flagBits (g ++ [t]) = flagBits g ||| 2 ^ g.length := by
  have h := Nat.two_pow_add_eq_or_of_lt (flagBits_lt g) 1
  rw [flagBits_snoc, ht, Nat.or_comm]
  simp only [Nat.mul_one] at h
  rw [← h, Bool.toNat_true]
  omega

theorem flagBits_testBit (done : List Token) (t : Token) (rest : List Token) :
    (flagBits (done ++ t :: rest)).testBit done.length = t.isReference := by
  induction done with
  | nil =>
    have h : (t.isReference.toNat + 2 * flagBits rest) % 2 = t.isReference.toNat := by
      cases t.isReference <;> simp [Nat.add_mod]
    simp only [List.nil_append, flagBits, List.length_nil, Nat.testBit_zero, h]
    cases t.isReference <;> simp
  | cons u done ih =>
    have hdiv : (u.isReference.toNat + 2 * flagBits (done ++ t :: rest)) / 2 =
        flagBits (done ++ t :: rest) := by
      cases u.isReference <;> simp; omega
    simp only [List.cons_append, flagBits, List.length_cons, Nat.testBit_succ, hdiv]
    exact ih

/-- The mask after `k` operations of a group. -/
def maskAt (k : Nat) : UInt8 := UInt8.ofNat (2 ^ k)

theorem maskAt_succ (k : Nat) : maskAt k <<< 1 = maskAt (k + 1) := by
  apply UInt8.toNat_inj.mp
  rw [UInt8.toNat_shiftLeft]
  simp only [maskAt, UInt8.toNat_ofNat', Nat.shiftLeft_eq]
  have hone : (1 : UInt8).toNat % 8 = 1 := by decide
  rw [hone, Nat.mod_mul_mod, Nat.pow_one, ← Nat.pow_succ]

theorem maskAt_eight : maskAt 8 = 0 := by decide

theorem maskAt_ne_zero {k : Nat} (h : k < 8) : maskAt k ≠ 0 := by
  interval_cases k <;> decide

/-- Bit test of the decompressor against the flag byte of a packed group. -/
theorem flag_test (done : List Token) (t : Token) (rest : List Token)
    (h : (done ++ t :: rest).length ≤ 8) :
    (UInt8.ofNat (flagBits (done ++ t :: rest)) &&& maskAt done.length ≠ 0) ↔
      t.isReference = true := by
  have hk : done.length < 8 := by simp at h; omega
  have hflags : flagBits (done ++ t :: rest) < 2 ^ 8 :=
    Nat.lt_of_lt_of_le (flagBits_lt _) (Nat.pow_le_pow_right (by decide) h)
  have hmask : 2 ^ done.length < 2 ^ 8 := Nat.pow_lt_pow_right (by decide) hk
  have hpos : 0 < 2 ^ done.length := Nat.two_pow_pos _
  rw [Ne, ← UInt8.toNat_inj, UInt8.toNat_and, maskAt, UInt8.toNat_ofNat', UInt8.toNat_ofNat',
    Nat.mod_eq_of_lt hflags, Nat.mod_eq_of_lt hmask, Nat.and_two_pow, flagBits_testBit]
  cases t.isReference <;> simp

/-! ## The decompressor on tokens -/

namespace Decompressor

/-- What one operation does to the output, its compressed bytes already read. -/
def write (d : Decompressor) : Token → Exec Decompressor
  | .literal b => writeLiteral d b
  | .reference hash extra => writeReference d hash extra

end Decompressor

theorem takeCompressedByte_at (front : Bytes) (b : UInt8) (back : Bytes) (context : String)
    (hsize : front.length < usizeMax) :
    takeCompressedByte (front ++ b :: back) front.length context = .ok (b, front.length + 1) := by
  have hadd : checkedAdd front.length 1 = some (front.length + 1) := by
    simp [checkedAdd]; omega
  simp [takeCompressedByte, hadd]

/-- One iteration on the bytes of one token whose flag bit is already loaded. -/
theorem decompressStep_token (front : Bytes) (t : Token) (back : Bytes) (d : Decompressor)
    (hpos : d.compressedPosition = front.length) (hmask : d.mask ≠ 0)
    (hflag : d.flags &&& d.mask ≠ 0 ↔ t.isReference = true)
    (hsize : (front ++ t.bytes ++ back).length ≤ usizeMax) :
    decompressStep (front ++ t.bytes ++ back) d = (do
      let d ← Decompressor.write
        { d with compressedPosition := front.length + t.bytes.length } t
      .ok { d with mask := d.mask <<< 1 }) := by
  unfold decompressStep
  have hrefill : refillFlags (front ++ t.bytes ++ back) d = .ok d := by
    simp [refillFlags, hmask]
  rw [hrefill, Exec.ok_bind, decompressToken]
  cases t with
  | literal b =>
    have hbit : ¬ (d.flags &&& d.mask ≠ 0) := by
      rw [hflag]; simp [Token.isReference]
    simp only [Token.bytes, List.length_append, List.length_cons, List.length_nil] at hsize
    have htake := takeCompressedByte_at front b back "compressed literal" (by omega)
    rw [if_neg hbit]
    simp only [decompressLiteral, hpos, Token.bytes, List.append_assoc, List.cons_append,
      List.nil_append, htake, Exec.ok_bind, Decompressor.write, List.length_cons, List.length_nil]
  | reference hash extra =>
    have hbit : d.flags &&& d.mask ≠ 0 := by
      rw [hflag]; rfl
    simp only [Token.bytes, List.length_append, List.length_cons, List.length_nil] at hsize
    have hfirst := takeCompressedByte_at front hash (extra :: back)
      "compression backreference hash" (by omega)
    have hsecond := takeCompressedByte_at (front ++ [hash]) extra back
      "compression backreference length" (by simp; omega)
    simp only [List.append_assoc, List.cons_append, List.nil_append, List.length_append,
      List.length_cons, List.length_nil] at hsecond
    rw [if_pos hbit]
    simp only [decompressReference, hpos, Token.bytes, List.append_assoc, List.cons_append,
      List.nil_append, hfirst, Exec.ok_bind, hsecond, Decompressor.write, List.length_cons,
      List.length_nil]

end Xqdb.Compression
