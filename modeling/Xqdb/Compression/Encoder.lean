import Xqdb.Compression.Tokens

/-! What the compressor emits. `Emits` is one iteration of its loop without the
output buffer: which token is written and how the position table moves. `Open`
is the shape of the buffer while a group is being filled. The loop either gives
the frame up or ends with a buffer that holds the packed tokens of a chain of
such iterations. -/

namespace Xqdb.Compression

/-- A byte of a frame, 0 beyond its end. -/
def byteAt (vec : Bytes) (i : Nat) : UInt8 := vec[i]?.getD 0

theorem index_byteAt {vec : Bytes} {i : Nat} (h : i < vec.length) :
    index vec i = .ok (byteAt vec i) := by
  simp [index, byteAt, List.getElem?_eq_getElem h]

/-- The part of the compressor's state that decides the next token. -/
structure Cursor where
  oPos : Nat
  x : UInt8 → Nat
  px : UInt8
  pPos : Nat

def Compressor.cursor (s : Compressor) : Cursor := ⟨s.oPos, s.x, s.px, s.pPos⟩

/-- The position table once the pending pair has been entered. -/
def Cursor.flushed (e : Cursor) : UInt8 → Nat :=
  if e.pPos > 0 then Function.update e.x e.px e.pPos else e.x

def pairHash (vec : Bytes) (i : Nat) : UInt8 := byteAt vec i ^^^ byteAt vec (i + 1)

/-- Pairs with the same hash and the same first byte are equal. -/
theorem second_of_pairHash {vec : Bytes} {i j : Nat} (hhash : pairHash vec i = pairHash vec j)
    (hfirst : byteAt vec i = byteAt vec j) : byteAt vec (i + 1) = byteAt vec (j + 1) := by
  unfold pairHash at hhash
  rw [hfirst] at hhash
  exact (UInt8.xor_right_inj _).mp hhash

inductive Emits (vec : Bytes) : Cursor → Token → Cursor → Prop
  /-- Fewer than three bytes are left: always a literal, with a made-up hash. -/
  | tail (e : Cursor) (hlt : e.oPos < vec.length) (hrest : vec.length < e.oPos + 3) :
      Emits vec e (.literal (byteAt vec e.oPos)) ⟨e.oPos + 1, e.flushed, 0, e.oPos⟩
  | literal (e : Cursor) (hrest : e.oPos + 3 ≤ vec.length) :
      Emits vec e (.literal (byteAt vec e.oPos))
        ⟨e.oPos + 1, e.flushed, pairHash vec e.oPos, e.oPos⟩
  | reference (e : Cursor) (extra : Nat) (hrest : e.oPos + 3 ≤ vec.length)
      (hslot : e.x (pairHash vec e.oPos) ≠ 0)
      (hextra : extra ≤ 255) (hend : e.oPos + 2 + extra ≤ vec.length)
      (hmatch : ∀ k, k < extra + 2 →
        byteAt vec (e.x (pairHash vec e.oPos) + k) = byteAt vec (e.oPos + k)) :
      Emits vec e (.reference (pairHash vec e.oPos) (UInt8.ofNat extra))
        ⟨e.oPos + 2 + extra, Function.update e.flushed (pairHash vec e.oPos) e.oPos, e.px, 0⟩

/-- Every table entry is the start of an earlier pair with the entry's hash,
and so is the pair waiting to be entered. Holds until the last two bytes. -/
structure Tracked (vec : Bytes) (e : Cursor) : Prop where
  entry : ∀ h, e.x h ≠ 0 → 8 ≤ e.x h ∧ e.x h + 2 ≤ e.oPos ∧ pairHash vec (e.x h) = h
  pending : e.pPos ≠ 0 → e.pPos + 1 = e.oPos ∧ 8 ≤ e.pPos ∧ e.px = pairHash vec e.pPos

/-- `Tracked` as long as the table is still looked at. -/
def Cursor.Sound (vec : Bytes) (e : Cursor) : Prop :=
  8 ≤ e.oPos ∧ e.oPos ≤ vec.length ∧ (e.oPos + 3 ≤ vec.length → Tracked vec e)

theorem Tracked.flushed {vec : Bytes} {e : Cursor} (ht : Tracked vec e) (h : UInt8)
    (hne : e.flushed h ≠ 0) :
    8 ≤ e.flushed h ∧ e.flushed h + 1 ≤ e.oPos ∧ pairHash vec (e.flushed h) = h := by
  unfold Cursor.flushed at hne ⊢
  by_cases hp : e.pPos > 0
  · simp only [if_pos hp] at hne ⊢
    obtain ⟨hpos, hge, hpx⟩ := ht.pending (by omega)
    by_cases heq : h = e.px
    · subst heq
      rw [Function.update_self]
      exact ⟨hge, by omega, hpx.symm⟩
    · rw [Function.update_of_ne heq] at hne ⊢
      obtain ⟨h₁, h₂, h₃⟩ := ht.entry h hne
      exact ⟨h₁, by omega, h₃⟩
  · simp only [if_neg hp] at hne ⊢
    obtain ⟨h₁, h₂, h₃⟩ := ht.entry h hne
    exact ⟨h₁, by omega, h₃⟩

theorem Emits.advances {vec : Bytes} {e e' : Cursor} {t : Token} (h : Emits vec e t e') :
    e.oPos < e'.oPos ∧ e'.oPos ≤ vec.length := by
  cases h with
  | tail hlt hrest => simp only; omega
  | literal hrest => simp only; omega
  | reference extra hrest hslot hextra hend hmatch => simp only; omega

theorem Emits.sound {vec : Bytes} {e e' : Cursor} {t : Token} (h : Emits vec e t e')
    (hs : e.Sound vec) : e'.Sound vec := by
  obtain ⟨hge, hle, htrack⟩ := hs
  have hadv := h.advances
  refine ⟨by omega, hadv.2, fun hmore => ?_⟩
  cases h with
  | tail hlt hrest => simp only at hmore; omega
  | literal hrest =>
    have ht := htrack hrest
    constructor
    · intro h hne
      obtain ⟨h₁, h₂, h₃⟩ := ht.flushed h hne
      exact ⟨h₁, by simp only; omega, h₃⟩
    · intro _
      exact ⟨rfl, hge, rfl⟩
  | reference extra hrest hslot hextra hend hmatch =>
    have ht := htrack hrest
    constructor
    · intro h hne
      by_cases heq : h = pairHash vec e.oPos
      · subst heq
        simp only [Function.update_self]
        exact ⟨hge, by omega, trivial⟩
      · simp only [Function.update_of_ne heq] at hne ⊢
        obtain ⟨h₁, h₂, h₃⟩ := ht.flushed h hne
        exact ⟨h₁, by omega, h₃⟩
    · intro hp
      exact absurd rfl hp

/-! ## One iteration -/

theorem extendMatch_spec (vec : Bytes) (maxIndex fuel xPos oPos : Nat)
    (hx : xPos < oPos) (ho : oPos ≤ maxIndex) (hmax : maxIndex ≤ vec.length)
    (hfuel : maxIndex - oPos ≤ fuel) :
    ∃ stop, extendMatch vec maxIndex fuel xPos oPos = .ok stop ∧ oPos ≤ stop ∧ stop ≤ maxIndex ∧
      ∀ k, k < stop - oPos → byteAt vec (xPos + k) = byteAt vec (oPos + k) := by
  induction fuel generalizing xPos oPos with
  | zero => exact ⟨oPos, by simp [extendMatch]; omega, by omega, ho, by omega⟩
  | succ fuel ih =>
    by_cases hlt : oPos < maxIndex
    · have hread : extendMatch vec maxIndex (fuel + 1) xPos oPos =
          if byteAt vec xPos = byteAt vec oPos then
            extendMatch vec maxIndex fuel (xPos + 1) (oPos + 1)
          else .ok oPos := by
        rw [extendMatch, if_pos hlt, index_byteAt (by omega), index_byteAt (by omega)]
        rfl
      by_cases heq : byteAt vec xPos = byteAt vec oPos
      · obtain ⟨stop, hrun, hge, hle, hall⟩ := ih (xPos + 1) (oPos + 1) (by omega) (by omega)
          (by omega)
        refine ⟨stop, by rw [hread, if_pos heq, hrun], by omega, hle, fun k hk => ?_⟩
        cases k with
        | zero => exact heq
        | succ k =>
          have := hall k (by omega)
          rwa [show xPos + (k + 1) = xPos + 1 + k by omega,
            show oPos + (k + 1) = oPos + 1 + k by omega]
      · exact ⟨oPos, by rw [hread, if_neg heq], by omega, by omega, by omega⟩
    · exact ⟨oPos, by rw [extendMatch, if_neg hlt], by omega, ho, by omega⟩

/-- The buffer while group `g` is being filled behind the finished groups `gs`. -/
structure Open (head : Bytes) (gs : List (List Token)) (g : List Token) (s : Compressor) : Prop where
  buffer : ∃ slot spare, s.cVec = head ++ pack gs ++ slot :: (tokenBytes g ++ spare) ∧
    2 * (8 - g.length) ≤ spare.length
  nPos : s.nPos = (head ++ pack gs).length
  cPos : s.cPos = s.nPos + 1 + (tokenBytes g).length
  flags : s.n = UInt8.ofNat (flagBits g)
  bit : s.i = maskAt g.length
  full : ∀ h ∈ gs, h.length = 8
  room : g.length ≤ 8

/-- Before the first group: nothing but the header has been written. -/
structure Fresh (head : Bytes) (s : Compressor) : Prop where
  buffer : ∃ spare, s.cVec = head ++ spare
  nPos : s.nPos = head.length
  cPos : s.cPos = head.length
  flags : s.n = 0
  bit : s.i = 0

theorem set_at {α : Type} (front : List α) (old new : α) (back : List α) :
    (front ++ old :: back).set front.length new = front ++ new :: back := by
  simp

/-- The next flag byte is reserved where the written bytes end. -/
theorem beginGroup_reserve (head written : Bytes) (gs : List (List Token)) (s : Compressor)
    (spare : Bytes) (hi : s.i = 0)
    (hset : setIndex s.cVec s.nPos s.n = .ok (head ++ written ++ spare))
    (hlen : s.cVec.length = (head ++ written ++ spare).length)
    (hcPos : s.cPos = (head ++ written).length) (hpack : written = pack gs)
    (hfull : ∀ h ∈ gs, h.length = 8) (hcap : 17 ≤ s.cVec.length) :
    beginGroup s = .ok none ∨ ∃ s', beginGroup s = .ok (some s') ∧ s'.cursor = s.cursor ∧
      s'.cVec.length = s.cVec.length ∧ Open head gs [] s' := by
  have hsub : subtract s.cVec.length 17 = .ok (s.cVec.length - 17) := by
    simp [subtract, hcap]
  unfold beginGroup
  rw [if_pos hi, hsub, Exec.ok_bind]
  by_cases hover : s.cPos > s.cVec.length - 17
  · exact .inl (by rw [if_pos hover])
  · have hspare : 17 ≤ spare.length := by
      simp only [List.length_append] at hlen hcPos
      omega
    obtain ⟨slot, rest, rfl⟩ : ∃ slot rest, spare = slot :: rest := by
      cases spare with
      | nil => simp at hspare
      | cons slot rest => exact ⟨slot, rest, rfl⟩
    right
    rw [if_neg hover, hset, Exec.ok_bind]
    refine ⟨_, rfl, rfl, hlen.symm, ?_⟩
    constructor
    · refine ⟨slot, rest, by simp [hpack], ?_⟩
      simp only [List.length_cons] at hspare
      simp only [List.length_nil]
      omega
    · simp only [hcPos, hpack]
    · rfl
    · rfl
    · rfl
    · exact hfull
    · simp

theorem beginGroup_fresh (head : Bytes) (s : Compressor) (h : Fresh head s)
    (hcap : 17 ≤ s.cVec.length) :
    beginGroup s = .ok none ∨ ∃ s', beginGroup s = .ok (some s') ∧ s'.cursor = s.cursor ∧
      s'.cVec.length = s.cVec.length ∧ Open head [] [] s' := by
  obtain ⟨spare, hbuf⟩ := h.buffer
  by_cases hover : s.cPos > s.cVec.length - 17
  · left
    simp [beginGroup, h.bit, subtract, hcap, hover]
  · have hne : 0 < spare.length := by
      have := congrArg List.length hbuf
      have := h.cPos
      simp only [List.length_append] at *
      omega
    obtain ⟨slot, rest, rfl⟩ : ∃ slot rest, spare = slot :: rest := by
      cases spare with
      | nil => simp at hne
      | cons slot rest => exact ⟨slot, rest, rfl⟩
    apply beginGroup_reserve head [] [] s (s.n :: rest) h.bit _ _ _ rfl (by simp) hcap
    · rw [setIndex_of_lt _ (by rw [hbuf, h.nPos]; simp), hbuf, h.nPos, set_at]
      simp
    · rw [hbuf]; simp
    · simp [h.cPos]

theorem beginGroup_open (head : Bytes) (gs : List (List Token)) (g : List Token) (s : Compressor)
    (h : Open head gs g s) (hcap : 17 ≤ s.cVec.length) :
    beginGroup s = .ok none ∨ ∃ s' gs' g', beginGroup s = .ok (some s') ∧ s'.cursor = s.cursor ∧
      s'.cVec.length = s.cVec.length ∧ Open head gs' g' s' ∧ g'.length < 8 ∧
      gs'.flatten ++ g' = gs.flatten ++ g := by
  by_cases hg : g.length < 8
  · have hi : s.i ≠ 0 := by
      rw [h.bit]
      exact maskAt_ne_zero hg
    exact .inr ⟨s, gs, g, by simp [beginGroup, hi], rfl, rfl, h, hg, rfl⟩
  · have hg8 : g.length = 8 := by have := h.room; omega
    have hi : s.i = 0 := by rw [h.bit, hg8, maskAt_eight]
    obtain ⟨slot, spare, hbuf, hspare⟩ := h.buffer
    have hpack : pack (gs ++ [g]) = pack gs ++ s.n :: tokenBytes g := by
      rw [pack_append, pack_cons, pack_nil, List.append_nil, packGroup, ← h.flags]
    have hres := beginGroup_reserve head (pack (gs ++ [g])) (gs ++ [g]) s spare hi
      (by
        have hlt : s.nPos < s.cVec.length := by rw [hbuf, h.nPos]; simp
        rw [setIndex_of_lt _ hlt, hbuf, h.nPos, set_at, hpack]
        simp)
      (by rw [hbuf, hpack]; simp)
      (by
        have hn := h.nPos
        simp only [List.length_append] at hn
        rw [h.cPos, hn, hpack]
        simp only [List.length_append, List.length_cons]
        omega)
      rfl
      (by
        intro k hk
        rcases List.mem_append.mp hk with hk | hk
        · exact h.full k hk
        · rw [List.mem_singleton.mp hk, hg8])
      hcap
    rcases hres with hnone | ⟨s', hrun, hcur, hlen, hopen⟩
    · exact .inl hnone
    · exact .inr ⟨s', gs ++ [g], [], hrun, hcur, hlen, hopen, by simp, by simp⟩

theorem flag_or (g : List Token) (t : Token) (ht : t.isReference = true) (hg : g.length < 8) :
    UInt8.ofNat (flagBits g) ||| maskAt g.length = UInt8.ofNat (flagBits (g ++ [t])) := by
  have hsum := flagBits_lt (g ++ [t])
  have hflags := flagBits_lt g
  have hpow : 2 ^ (g ++ [t]).length ≤ 2 ^ 8 := Nat.pow_le_pow_right (by decide) (by simp; omega)
  have hmask : 2 ^ g.length < 2 ^ 8 := Nat.pow_lt_pow_right (by decide) hg
  apply UInt8.toNat_inj.mp
  rw [UInt8.toNat_or, maskAt, UInt8.toNat_ofNat', UInt8.toNat_ofNat', UInt8.toNat_ofNat',
    Nat.mod_eq_of_lt (by omega), Nat.mod_eq_of_lt hmask, Nat.mod_eq_of_lt (by omega),
    flagBits_snoc_or g t ht]

/-- Writing a token behind the open group keeps the shape of the buffer. -/
theorem Open.push {head : Bytes} {gs : List (List Token)} {g : List Token} {s s' : Compressor}
    (h : Open head gs g s) (hg : g.length < 8) (t : Token) (slot : UInt8) (spare : Bytes)
    (hbuf : s'.cVec = head ++ pack gs ++ slot :: (tokenBytes g ++ (t.bytes ++ spare)))
    (hspare : 2 * (8 - (g.length + 1)) ≤ spare.length)
    (hnPos : s'.nPos = s.nPos) (hcPos : s'.cPos = s.cPos + t.bytes.length)
    (hn : s'.n = if t.isReference then s.n ||| s.i else s.n) (hi : s'.i = s.i) :
    Open head gs (g ++ [t]) { s' with i := s'.i <<< 1 } := by
  constructor
  · refine ⟨slot, spare, ?_, by simpa using hspare⟩
    simp only [hbuf, tokenBytes_append, tokenBytes_cons, tokenBytes_nil, List.append_nil,
      List.append_assoc]
  · simp only [hnPos, h.nPos]
  · simp only [hcPos, hnPos, h.cPos, tokenBytes_append, tokenBytes_cons, tokenBytes_nil,
      List.append_nil, List.length_append]
    omega
  · simp only [hn]
    by_cases ht : t.isReference = true
    · rw [if_pos ht, h.flags, h.bit, flag_or g t ht hg]
    · have hzero : t.isReference.toNat = 0 := by simp [ht]
      rw [if_neg ht, h.flags, flagBits_snoc, hzero, Nat.mul_zero, Nat.add_zero]
  · simp only [hi, h.bit, maskAt_succ, List.length_append, List.length_cons, List.length_nil]
  · exact h.full
  · simp only [List.length_append, List.length_cons, List.length_nil]
    omega

theorem flushPending_fields (s : Compressor) :
    (flushPending s).x = s.cursor.flushed ∧ (flushPending s).pPos = 0 ∧
      (flushPending s).cVec = s.cVec ∧ (flushPending s).cPos = s.cPos ∧
      (flushPending s).nPos = s.nPos ∧ (flushPending s).oPos = s.oPos ∧
      (flushPending s).px = s.px ∧ (flushPending s).n = s.n ∧ (flushPending s).i = s.i := by
  unfold flushPending Cursor.flushed Compressor.cursor
  by_cases hp : s.pPos > 0
  · simp [hp]
  · simp [hp]; omega

/-- What a literal does to the buffer and the cursor. -/
theorem emitLiteral_spec (vec head : Bytes) (gs : List (List Token)) (g : List Token)
    (s : Compressor) (cx : UInt8) (h : Open head gs g s) (hg : g.length < 8)
    (hlt : s.oPos < vec.length) :
    ∃ s', emitLiteral vec (flushPending s) cx = .ok s' ∧
      s'.cursor = ⟨s.oPos + 1, s.cursor.flushed, cx, s.oPos⟩ ∧ s'.cVec.length = s.cVec.length ∧
      Open head gs (g ++ [.literal (byteAt vec s.oPos)]) { s' with i := s'.i <<< 1 } := by
  obtain ⟨hx, -, hcVec, hcPos, hnPos, hoPos, -, hn, hi⟩ := flushPending_fields s
  obtain ⟨slot, spare, hbuf, hspare⟩ := h.buffer
  obtain ⟨old, spare, rfl⟩ : ∃ old rest, spare = old :: rest := by
    cases spare with
    | nil => simp at hspare; omega
    | cons old rest => exact ⟨old, rest, rfl⟩
  have hfront : s.cPos = (head ++ pack gs ++ slot :: tokenBytes g).length := by
    rw [h.cPos, h.nPos]; simp; omega
  have hbuf' : s.cVec = head ++ pack gs ++ slot :: tokenBytes g ++ old :: spare := by
    rw [hbuf]; simp
  have hroom : s.cPos < s.cVec.length := by rw [hfront, hbuf']; simp
  have hwrite : s.cVec.set s.cPos (byteAt vec s.oPos) =
      head ++ pack gs ++ slot :: tokenBytes g ++ byteAt vec s.oPos :: spare := by
    rw [hbuf', hfront, set_at]
  have hrun : emitLiteral vec (flushPending s) cx = .ok
      { flushPending s with
        px := cx, pPos := s.oPos, cVec := s.cVec.set s.cPos (byteAt vec s.oPos),
        cPos := s.cPos + 1, oPos := s.oPos + 1 } := by
    simp only [emitLiteral, hcVec, hcPos, hoPos, index_byteAt hlt, Exec.ok_bind,
      setIndex_of_lt _ hroom]
  refine ⟨_, hrun, by simp [Compressor.cursor, hx], by simp, ?_⟩
  apply h.push hg (.literal (byteAt vec s.oPos)) slot spare
  · simp only [hwrite, Token.bytes]; simp
  · simp only [List.length_cons] at hspare; omega
  · exact hnPos
  · simp [Token.bytes]
  · simp [Token.isReference, hn]
  · exact hi

/-- What a back reference does to the buffer and the cursor. -/
theorem emitReference_spec (vec head : Bytes) (gs : List (List Token)) (g : List Token)
    (s : Compressor) (xPos : Nat) (cx : UInt8) (h : Open head gs g s) (hg : g.length < 8)
    (hrest : s.oPos + 3 ≤ vec.length) (hx : xPos < s.oPos) :
    ∃ s' extra, emitReference vec (flushPending s) xPos cx = .ok s' ∧ extra ≤ 255 ∧
      s.oPos + 2 + extra ≤ vec.length ∧
      (∀ k, k < extra → byteAt vec (xPos + 2 + k) = byteAt vec (s.oPos + 2 + k)) ∧
      s'.cursor =
        ⟨s.oPos + 2 + extra, Function.update s.cursor.flushed cx s.oPos, s.px, 0⟩ ∧
      s'.cVec.length = s.cVec.length ∧
      Open head gs (g ++ [.reference cx (UInt8.ofNat extra)]) { s' with i := s'.i <<< 1 } := by
  obtain ⟨hxf, hpPos, hcVec, hcPos, hnPos, hoPos, hpx, hn, hi⟩ := flushPending_fields s
  obtain ⟨stop, hext, hge, hle, hall⟩ := extendMatch_spec vec (min (s.oPos + 2 + 255) vec.length)
    255 (xPos + 2) (s.oPos + 2) (by omega) (by omega) (by omega) (by omega)
  obtain ⟨slot, spare, hbuf, hspare⟩ := h.buffer
  obtain ⟨old₁, old₂, spare, rfl⟩ : ∃ old₁ old₂ rest, spare = old₁ :: old₂ :: rest := by
    match spare, hspare with
    | [], hs => simp at hs; omega
    | [_], hs => simp at hs; omega
    | old₁ :: old₂ :: rest, _ => exact ⟨old₁, old₂, rest, rfl⟩
  have hfront : s.cPos = (head ++ pack gs ++ slot :: tokenBytes g).length := by
    rw [h.cPos, h.nPos]; simp; omega
  have hbuf' : s.cVec = head ++ pack gs ++ slot :: tokenBytes g ++ old₁ :: old₂ :: spare := by
    rw [hbuf]; simp
  have hroom : s.cPos + 1 < s.cVec.length := by rw [hfront, hbuf']; simp; omega
  have hwrite₁ : s.cVec.set s.cPos cx =
      head ++ pack gs ++ slot :: tokenBytes g ++ cx :: old₂ :: spare := by
    rw [hbuf', hfront, set_at]
  have hwrite₂ (b : UInt8) : (s.cVec.set s.cPos cx).set (s.cPos + 1) b =
      head ++ pack gs ++ slot :: tokenBytes g ++ cx :: b :: spare := by
    have hmid : s.cPos + 1 = (head ++ pack gs ++ slot :: tokenBytes g ++ [cx]).length := by
      rw [hfront]; simp; omega
    have hshape : head ++ pack gs ++ slot :: tokenBytes g ++ cx :: old₂ :: spare =
        (head ++ pack gs ++ slot :: tokenBytes g ++ [cx]) ++ old₂ :: spare := by simp
    rw [hwrite₁, hmid, hshape, set_at]
    simp
  have hrun : emitReference vec (flushPending s) xPos cx = .ok
      { flushPending s with
        x := Function.update (flushPending s).x cx s.oPos, n := s.n ||| s.i, oPos := stop,
        cVec := (s.cVec.set s.cPos cx).set (s.cPos + 1) (UInt8.ofNat (stop - (s.oPos + 2))),
        cPos := s.cPos + 2 } := by
    have hset₁ := @setIndex_of_lt s.cVec _ cx (show s.cPos < s.cVec.length by omega)
    have hset₂ := @setIndex_of_lt (s.cVec.set s.cPos cx) _
      (UInt8.ofNat (stop - (s.oPos + 2)))
      (show s.cPos + 1 < (s.cVec.set s.cPos cx).length by simpa using hroom)
    simp only [emitReference, hcVec, hcPos, hoPos, hn, hi, hext, Exec.ok_bind, hset₁, hset₂]
  have hstop : stop = s.oPos + 2 + (stop - (s.oPos + 2)) := by omega
  refine ⟨_, stop - (s.oPos + 2), hrun, by omega, by omega, hall, ?_, by simp, ?_⟩
  · simp only [Compressor.cursor, hxf, hpx, hpPos]
    rw [← hstop]
  · apply h.push hg (.reference cx (UInt8.ofNat (stop - (s.oPos + 2)))) slot spare
    · simp only [hwrite₂, Token.bytes]; simp
    · simp only [List.length_cons] at hspare; omega
    · exact hnPos
    · simp [Token.bytes]
    · simp [Token.isReference]
    · exact hi

theorem emitToken_spec (vec head : Bytes) (gs : List (List Token)) (g : List Token)
    (s : Compressor) (h : Open head gs g s) (hg : g.length < 8) (hs : s.cursor.Sound vec)
    (hlt : s.oPos < vec.length) :
    ∃ s' t, emitToken vec s = .ok s' ∧ Emits vec s.cursor t s'.cursor ∧
      s'.cVec.length = s.cVec.length ∧ Open head gs (g ++ [t]) { s' with i := s'.i <<< 1 } := by
  obtain ⟨hge, -, htrack⟩ := hs
  unfold emitToken
  by_cases htail : vec.length - s.oPos < 3
  · obtain ⟨s', hrun, hcur, hlen, hopen⟩ := emitLiteral_spec vec head gs g s 0 h hg hlt
    refine ⟨s', _, by simp [lookup, htail, hrun], ?_, hlen, hopen⟩
    rw [hcur]
    exact Emits.tail s.cursor hlt (by simp only [Compressor.cursor]; omega)
  · have hrest : s.oPos + 3 ≤ vec.length := by omega
    have ht := htrack hrest
    have hread : lookup vec s = if s.x (pairHash vec s.oPos) = 0 then
          .ok (true, s.x (pairHash vec s.oPos), pairHash vec s.oPos)
        else index vec (s.x (pairHash vec s.oPos)) >>= fun c =>
          .ok (byteAt vec s.oPos != c, s.x (pairHash vec s.oPos), pairHash vec s.oPos) := by
      rw [lookup, if_neg htail, index_byteAt (by omega), index_byteAt (by omega)]
      rfl
    obtain ⟨lit, hlit, hcurl, hlenl, hopenl⟩ :=
      emitLiteral_spec vec head gs g s (pairHash vec s.oPos) h hg hlt
    by_cases hzero : s.x (pairHash vec s.oPos) = 0
    · refine ⟨lit, _, by simp [hread, hzero, hlit], ?_, hlenl, hopenl⟩
      rw [hcurl]
      exact Emits.literal s.cursor hrest
    · obtain ⟨-, hbelow, hhash⟩ := ht.entry _ hzero
      simp only [Compressor.cursor] at hbelow hhash
      rw [hread, if_neg hzero, index_byteAt (by omega)]
      by_cases hfirst : byteAt vec s.oPos = byteAt vec (s.x (pairHash vec s.oPos))
      · obtain ⟨s', extra, hrun, hextra, hend, hmatch, hcur, hlen, hopen⟩ :=
          emitReference_spec vec head gs g s (s.x (pairHash vec s.oPos)) (pairHash vec s.oPos) h hg
            hrest (by omega)
        refine ⟨s', _, by simp [hfirst, hrun], ?_, hlen, hopen⟩
        rw [hcur]
        refine Emits.reference s.cursor extra hrest hzero hextra hend (fun k hk => ?_)
        match k with
        | 0 => exact hfirst.symm
        | 1 => exact second_of_pairHash hhash hfirst.symm
        | k + 2 =>
          have hk' := hmatch k (by omega)
          have h₁ : s.x (pairHash vec s.oPos) + (k + 2) = s.x (pairHash vec s.oPos) + 2 + k := by
            omega
          have h₂ : s.oPos + (k + 2) = s.oPos + 2 + k := by omega
          simp only [Compressor.cursor, h₁, h₂, hk']
      · refine ⟨lit, _, by simp [hfirst, hlit], ?_, hlenl, hopenl⟩
        rw [hcurl]
        exact Emits.literal s.cursor hrest

/-! ## The whole loop -/

/-- A chain of iterations and the tokens they emit. -/
inductive EmitsAll (vec : Bytes) : Cursor → List Token → Cursor → Prop
  | nil (e : Cursor) : EmitsAll vec e [] e
  | cons {e e' e'' : Cursor} {t : Token} {ts : List Token} (h : Emits vec e t e')
      (hs : EmitsAll vec e' ts e'') : EmitsAll vec e (t :: ts) e''

/-- The loop state at the head of an iteration. -/
def AtHead (head : Bytes) (done : List Token) (s : Compressor) : Prop :=
  (done = [] ∧ Fresh head s) ∨ ∃ gs g, done = gs.flatten ++ g ∧ 0 < g.length ∧ Open head gs g s

theorem compressStep_spec (vec head : Bytes) (done : List Token) (s : Compressor)
    (h : AtHead head done s) (hs : s.cursor.Sound vec) (hlt : s.oPos < vec.length)
    (hcap : 17 ≤ s.cVec.length) :
    compressStep vec s = .ok none ∨ ∃ s' t, compressStep vec s = .ok (some s') ∧
      Emits vec s.cursor t s'.cursor ∧ s'.cVec.length = s.cVec.length ∧
      AtHead head (done ++ [t]) s' := by
  have hbegin : beginGroup s = .ok none ∨ ∃ s' gs g, beginGroup s = .ok (some s') ∧
      s'.cursor = s.cursor ∧ s'.cVec.length = s.cVec.length ∧ Open head gs g s' ∧ g.length < 8 ∧
      gs.flatten ++ g = done := by
    rcases h with ⟨rfl, hfresh⟩ | ⟨gs, g, rfl, -, hopen⟩
    · rcases beginGroup_fresh head s hfresh hcap with hnone | ⟨s', hrun, hcur, hlen, hopen⟩
      · exact .inl hnone
      · exact .inr ⟨s', [], [], hrun, hcur, hlen, hopen, by simp, by simp⟩
    · exact beginGroup_open head gs g s hopen hcap
  rcases hbegin with hnone | ⟨s', gs, g, hrun, hcur, hlen, hopen, hg, hdone⟩
  · exact .inl (by simp [compressStep, hnone])
  · have hoPos : s'.oPos = s.oPos := congrArg Cursor.oPos hcur
    obtain ⟨s'', t, hemit, hstep, hlen', hopen'⟩ :=
      emitToken_spec vec head gs g s' hopen hg (by rw [hcur]; exact hs) (by omega)
    refine .inr ⟨{ s'' with i := s''.i <<< 1 }, t, by simp [compressStep, hrun, hemit], ?_,
      by simp [hlen', hlen], .inr ⟨gs, g ++ [t], by simp [← hdone], by simp, hopen'⟩⟩
    rw [← hcur]
    exact hstep

theorem compressLoop_spec (vec head : Bytes) (fuel : Nat) (done : List Token) (s : Compressor)
    (h : AtHead head done s) (hs : s.cursor.Sound vec) (hcap : 17 ≤ s.cVec.length)
    (hfuel : vec.length - s.oPos ≤ fuel) :
    compressLoop vec fuel s = .ok none ∨ ∃ s' ts, compressLoop vec fuel s = .ok (some s') ∧
      EmitsAll vec s.cursor ts s'.cursor ∧ s'.oPos = vec.length ∧
      s'.cVec.length = s.cVec.length ∧ AtHead head (done ++ ts) s' := by
  have hle : s.oPos ≤ vec.length := hs.2.1
  induction fuel generalizing s done with
  | zero =>
    refine .inr ⟨s, [], ?_, .nil _, by omega, rfl, by simpa using h⟩
    rw [compressLoop, if_neg (by omega)]
  | succ fuel ih =>
    by_cases hlt : s.oPos < vec.length
    · rcases compressStep_spec vec head done s h hs hlt hcap with
        hnone | ⟨s', t, hstep, hemit, hlen, hhead⟩
      · exact .inl (by simp [compressLoop, hlt, hnone])
      · have hadv := hemit.advances
        have hloop : compressLoop vec (fuel + 1) s = compressLoop vec fuel s' := by
          simp [compressLoop, hlt, hstep]
        simp only [Compressor.cursor] at hadv
        rcases ih (done ++ [t]) s' hhead (hemit.sound hs) (by omega) (by omega) hadv.2 with
          hnone | ⟨s'', ts, hrun, hall, hend, hlen', hhead'⟩
        · exact .inl (by rw [hloop, hnone])
        · exact .inr ⟨s'', t :: ts, by rw [hloop, hrun], .cons hemit hall, hend, by omega,
            by simpa using hhead'⟩
    · refine .inr ⟨s, [], ?_, .nil _, by omega, rfl, by simpa using h⟩
      rw [compressLoop, if_neg hlt]

end Xqdb.Compression
