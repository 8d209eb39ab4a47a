import Xqdb.Deserialize

/-! Positions of the decoder as the bytes that are ahead of them. Every reader of
`serde6.rs` has one lemma here that says when it succeeds and what it leaves. -/

namespace Xqdb

open LittleEndian (encode decode)

/-- `rest` is what stands at `pos` in a slice. -/
structure At (vec : Bytes) (pos : Nat) (rest : Bytes) : Prop where
  ahead : vec.drop pos = rest
  within : pos ≤ vec.length
  bounded : vec.length ≤ usizeMax

namespace At

variable {vec rest : Bytes} {pos : Nat}

theorem length_eq (h : At vec pos rest) : pos + rest.length = vec.length := by
  have hlen := congrArg List.length h.ahead
  rw [List.length_drop] at hlen
  have := h.within
  omega

theorem start (h : vec.length ≤ usizeMax) : At vec 0 vec := ⟨rfl, Nat.zero_le _, h⟩

theorem skip {front : Bytes} (h : At vec pos (front ++ rest)) : At vec (pos + front.length) rest := by
  have hlen := h.length_eq
  rw [List.length_append] at hlen
  refine ⟨?_, by omega, h.bounded⟩
  rw [← List.drop_drop, h.ahead, List.drop_left]

theorem skip_one {b : UInt8} (h : At vec pos (b :: rest)) : At vec (pos + 1) rest :=
  @skip vec rest pos [b] h

theorem getElem? {b : UInt8} (h : At vec pos (b :: rest)) : vec[pos]? = some b := by
  have hhead := congrArg List.head? h.ahead
  rwa [List.head?_drop, List.head?_cons] at hhead

theorem getElem?_eq (h : At vec pos rest) : vec[pos]? = rest.head? := by
  rw [← h.ahead, List.head?_drop]

theorem getRange {front : Bytes} (h : At vec pos (front ++ rest)) :
    getRange vec pos (pos + front.length) = some front := by
  have hlen := h.length_eq
  rw [List.length_append] at hlen
  rw [getRange_eq_some]
  refine ⟨by omega, by omega, ?_⟩
  rw [h.ahead, Nat.add_sub_cancel_left, List.take_left]

end At

section Readers

variable {vec rest : Bytes} {pos : Nat}

/-- A slice inside what is ahead. -/
theorem getRange_at (h : At vec pos rest) {stop : Nat} {value : Bytes} :
    getRange vec pos stop = some value ↔
      ∃ rest', rest = value ++ rest' ∧ stop = pos + value.length := by
  constructor
  · intro hrange
    obtain ⟨hle, hstop, hvalue⟩ := getRange_eq_some.mp hrange
    have hlen := getRange_length hrange
    refine ⟨vec.drop stop, ?_, by omega⟩
    have hsplit := List.take_append_drop (stop - pos) (vec.drop pos)
    rw [← hvalue, List.drop_drop, show pos + (stop - pos) = stop by omega] at hsplit
    rw [← h.ahead, ← hsplit]
  · rintro ⟨rest', rfl, rfl⟩
    exact h.getRange

theorem takeBytes_eq_ok (h : At vec pos rest) {width stop : Nat} {value : Bytes} {context : String} :
    takeBytes vec pos width context = .ok (value, stop) ↔
      value.length = width ∧ ∃ rest', rest = value ++ rest' ∧ stop = pos + width := by
  simp only [takeBytes, Exec.bind_eq_ok, Exec.okOr_eq_ok, checkedAdd_eq_some, getRange_at h,
    Except.ok.injEq, Prod.mk.injEq]
  constructor
  · rintro ⟨_, ⟨rfl, -⟩, _, ⟨rest', rfl, hstop⟩, rfl, rfl⟩
    exact ⟨by omega, rest', rfl, rfl⟩
  · rintro ⟨rfl, rest', rfl, rfl⟩
    have hlen := h.length_eq
    have hbound := h.bounded
    rw [List.length_append] at hlen
    exact ⟨_, ⟨rfl, by omega⟩, value, ⟨rest', rfl, rfl⟩, rfl, rfl⟩

theorem takeListLength_eq_ok (h : At vec pos rest) {length stop : Nat} {context : String} :
    takeListLength vec pos context = .ok (length, stop) ↔
      ∃ attr rest', rest = attr :: (encode 4 length ++ rest') ∧ length ≤ i32Max ∧ stop = pos + 5 := by
  have hi32 : i32Max = 2 ^ 31 - 1 := rfl
  simp only [takeListLength, Exec.bind_eq_ok, Exec.okOr_eq_ok, checkedAdd_eq_some, getRange_at h]
  constructor
  · rintro ⟨_, ⟨rfl, -⟩, header, ⟨rest', rfl, hstop⟩, hok⟩
    have hheader : header.length = 5 := by omega
    obtain ⟨attr, count, rfl⟩ : ∃ attr count, header = attr :: count := by
      cases header with
      | nil => cases hheader
      | cons attr count => exact ⟨attr, count, rfl⟩
    have hcount : count.length = 4 := by simpa using hheader
    have hlt := LittleEndian.decode_lt count
    rw [hcount] at hlt
    simp only [List.drop_succ_cons, List.drop_zero] at hok
    split at hok
    · cases hok
    next hneg =>
    cases hok
    refine ⟨attr, rest', ?_, ?_, rfl⟩
    · have hround := LittleEndian.encode_decode count
      rw [hcount] at hround
      rw [hround]
      rfl
    · by_contra hbig
      exact hneg (LittleEndian.signed_neg hlt (by omega))
  · rintro ⟨attr, rest', rfl, hle, rfl⟩
    have hlen := h.length_eq
    have hbound := h.bounded
    simp only [List.length_cons, List.length_append, LittleEndian.encode_length] at hlen
    refine ⟨pos + 5, ⟨rfl, by omega⟩, attr :: encode 4 length, ⟨rest', rfl, by simp⟩, ?_⟩
    have hdecode : decode (encode 4 length) = length :=
      LittleEndian.decode_encode 4 length (by omega)
    simp only [List.drop_succ_cons, List.drop_zero, hdecode]
    rw [if_neg]
    rw [LittleEndian.signed_nonneg (by omega)]
    omega

theorem sliceRange_at (h : At vec pos rest) {stop : Nat} {value : Bytes} :
    sliceRange vec pos stop = .ok value ↔
      ∃ rest', rest = value ++ rest' ∧ stop = pos + value.length := by
  rw [sliceRange_eq_ok, getRange_at h]

theorem takeUntilNul_eq_ok (h : At vec pos rest) {text : Bytes} {stop : Nat} {context : String} :
    takeUntilNul vec pos context = .ok (text, stop) ↔
      0 ∉ text ∧ ∃ rest', rest = text ++ 0 :: rest' ∧ stop = pos + text.length + 1 := by
  have hfrom : getFrom vec pos = some rest := by rw [getFrom, if_pos h.within, h.ahead]
  simp only [takeUntilNul, hfrom, Exec.okOr_some, Exec.ok_bind, Exec.bind_eq_ok, Exec.okOr_eq_ok,
    checkedAdd_eq_some, sliceRange_at h, Except.ok.injEq, Prod.mk.injEq]
  constructor
  · rintro ⟨length, hnul, _, ⟨rfl, -⟩, value, ⟨rest', hrest, hstop⟩, _, ⟨rfl, -⟩, rfl, rfl⟩
    obtain ⟨text, tail, hsplit, hclean, rfl⟩ := memchr_eq_some.mp hnul
    have hlen : value.length = text.length := by omega
    rw [hsplit] at hrest
    obtain ⟨rfl, -⟩ := List.append_inj hrest hlen.symm
    exact ⟨hclean, tail, hsplit, rfl⟩
  · rintro ⟨hclean, rest', rfl, rfl⟩
    have hlen := h.length_eq
    have hbound := h.bounded
    simp only [List.length_append, List.length_cons] at hlen
    exact ⟨text.length, memchr_append_zero hclean, _, ⟨rfl, by omega⟩, text, ⟨_, rfl, rfl⟩, _,
      ⟨rfl, by omega⟩, rfl, rfl⟩

end Readers

theorem decodeUtf8_valid {text : Str} {encoding : SymbolEncoding} {context : String} :
    decodeUtf8 text.bytes encoding context = .ok text := by
  simp [decodeUtf8]

end Xqdb
