import Mathlib.Tactic.Common

/-! The LZ4 block format. A block is a row of sequences: a token with two length fields of
four bits, literals, and a match that copies bytes written before. The last sequence ends
behind its literals. A field of 15 goes on in continuation bytes, each worth at most 255,
and this is all a block can gain: it never decodes to 255 times its own length. -/

namespace Lz4

/-- The bytes behind a full length field: every 255 goes on, the first other byte ends. -/
def continuation : List UInt8 → Option (Nat × List UInt8)
  | [] => none
  | b :: rest =>
    if b = 255 then (continuation rest).map fun (n, rest) => (255 + n, rest) else some (b.toNat, rest)

def takeLength (field : Nat) (input : List UInt8) : Option (Nat × List UInt8) :=
  if field = 15 then (continuation input).map fun (n, rest) => (15 + n, rest) else some (field, input)

/-- Copies `count` bytes from `offset` back, one by one: a match may read what it wrote. -/
def copyMatch (offset : Nat) : Nat → List UInt8 → List UInt8
  | 0, output => output
  | count + 1, output => copyMatch offset count (output ++ [output.getD (output.length - offset) 0])

/-- The sequences from here on, behind the bytes decoded so far. -/
def decodeFrom : Nat → List UInt8 → List UInt8 → Option (List UInt8)
  | 0, _, _ => none
  | _ + 1, [], _ => none
  | fuel + 1, token :: input, output => do
    let (literals, input) ← takeLength (token.toNat / 16) input
    if input.length < literals then none
    else
      let output := output ++ input.take literals
      match input.drop literals with
      | [] => some output
      | [_] => none
      | low :: high :: input =>
        let offset := low.toNat + 256 * high.toNat
        if offset = 0 ∨ output.length < offset then none
        else
          let (extra, input) ← takeLength (token.toNat % 16) input
          decodeFrom fuel input (copyMatch offset (4 + extra) output)

/-- A whole block. A sequence has at least its token, so the bytes are fuel enough. -/
def decodeBlock (block : List UInt8) : Option (List UInt8) := decodeFrom block.length block []

theorem continuation_bound {input rest : List UInt8} {n : Nat} (h : continuation input = some (n, rest)) :
    n + 255 * rest.length < 255 * input.length := by
  induction input generalizing n with
  | nil => cases h
  | cons b input ih =>
    rw [continuation] at h
    rw [List.length_cons]
    by_cases hb : b = 255
    · rw [if_pos hb, Option.map_eq_some_iff] at h
      obtain ⟨⟨m, rest'⟩, hm, heq⟩ := h
      obtain ⟨rfl, rfl⟩ := Prod.mk.inj heq
      have := ih hm
      omega
    · rw [if_neg hb, Option.some.injEq] at h
      obtain ⟨rfl, rfl⟩ := Prod.mk.inj h
      have hlt := b.toNat_lt
      have hne : b.toNat ≠ 255 := fun heq => hb (UInt8.toNat_inj.mp heq)
      omega

theorem takeLength_bound {field : Nat} {input rest : List UInt8} {n : Nat}
    (h : takeLength field input = some (n, rest)) : n + 255 * rest.length ≤ field + 255 * input.length := by
  rw [takeLength] at h
  by_cases hfield : field = 15
  · rw [if_pos hfield, Option.map_eq_some_iff] at h
    obtain ⟨⟨m, rest'⟩, hm, heq⟩ := h
    obtain ⟨rfl, rfl⟩ := Prod.mk.inj heq
    have := continuation_bound hm
    omega
  · rw [if_neg hfield, Option.some.injEq] at h
    obtain ⟨rfl, rfl⟩ := Prod.mk.inj h
    exact Nat.le_refl _

theorem copyMatch_length (offset count : Nat) (output : List UInt8) :
    (copyMatch offset count output).length = output.length + count := by
  induction count generalizing output with
  | zero => rfl
  | succ count ih =>
    rw [copyMatch, ih, List.length_append, List.length_singleton]
    omega

/-- One sequence after the other: what is decoded stays behind what is left. -/
theorem decodeFrom_bound {fuel : Nat} {input output result : List UInt8}
    (h : decodeFrom fuel input output = some result) : result.length < output.length + 255 * input.length := by
  induction fuel generalizing input output with
  | zero => cases h
  | succ fuel ih =>
    cases input with
    | nil => cases h
    | cons token input =>
      have htoken := token.toNat_lt
      rw [decodeFrom, Option.bind_eq_bind, Option.bind_eq_some_iff] at h
      obtain ⟨⟨literals, body⟩, hliterals, h⟩ := h
      have hfront := takeLength_bound hliterals
      dsimp only at h
      rw [List.length_cons]
      by_cases hshort : body.length < literals
      · rw [if_pos hshort] at h
        cases h
      rw [if_neg hshort] at h
      have hsplit : (body.drop literals).length = body.length - literals := List.length_drop
      have htaken : (output ++ body.take literals).length = output.length + literals := by
        rw [List.length_append, List.length_take]
        omega
      generalize output ++ body.take literals = written at h htaken
      generalize body.drop literals = behind at h hsplit
      match behind, h with
      | [], h =>
        obtain rfl := Option.some.inj h
        omega
      | low :: high :: behind, h =>
        dsimp only at h
        by_cases hoffset : low.toNat + 256 * high.toNat = 0 ∨ written.length < low.toNat + 256 * high.toNat
        · rw [if_pos hoffset] at h
          cases h
        rw [if_neg hoffset, Option.bind_eq_some_iff] at h
        obtain ⟨⟨extra, rest⟩, hextra, h⟩ := h
        have hback := takeLength_bound hextra
        have hmore := ih h
        simp only [copyMatch_length] at hmore
        simp only [List.length_cons] at hsplit
        omega

/-- **Bounded expansion**: fewer than 255 bytes for every byte of the block. -/
theorem decodeBlock_bound {block output : List UInt8} (h : decodeBlock block = some output) :
    output.length < 255 * block.length := by
  have hbound := decodeFrom_bound h
  rwa [List.length_nil, Nat.zero_add] at hbound

-- a literal that a match repeats six times, and no more literals
example : decodeBlock [0x12, 97, 1, 0, 0x00] = some [97, 97, 97, 97, 97, 97, 97] := by decide

end Lz4
