import Xqdb.Compression.Encoder

/-! The decompressor follows the compressor. `Lock` relates the two position
tables while both walk the same frame: same body position, same bytes written,
same slots up to the eight header bytes and the two empty markers, and the same
pair waiting to be entered. Every emitted token keeps it, so unpacking the
packed tokens rebuilds the body. -/

namespace Xqdb.Compression

/-! ## Writing into the destination -/

theorem byteAt_set (vec : Bytes) (i j : Nat) (b : UInt8) (hi : i < vec.length) :
    byteAt (vec.set i b) j = if i = j then b else byteAt vec j := by
  unfold byteAt
  rw [List.getElem?_set]
  by_cases hij : i = j
  · subst hij
    simp [hi]
  · simp [hij]

theorem copyForward_spec (f : Nat → UInt8) (count source output : Nat) (deVec : Bytes)
    (hsource : source < output) (hroom : output + count ≤ deVec.length)
    (hdone : ∀ i, i < output → byteAt deVec i = f i)
    (hsame : ∀ k, k < count → f (source + k) = f (output + k)) :
    ∃ out, copyForward source output count deVec = .ok out ∧ out.length = deVec.length ∧
      ∀ i, i < output + count → byteAt out i = f i := by
  induction count generalizing source output deVec with
  | zero => exact ⟨deVec, rfl, rfl, hdone⟩
  | succ count ih =>
    have hset : setIndex deVec output (byteAt deVec source) =
        .ok (deVec.set output (byteAt deVec source)) := setIndex_of_lt _ (by omega)
    have hnext : ∀ i, i < output + 1 →
        byteAt (deVec.set output (byteAt deVec source)) i = f i := by
      intro i hi
      rw [byteAt_set _ _ _ _ (by omega)]
      by_cases hio : output = i
      · subst hio
        rw [if_pos rfl, hdone source hsource]
        exact hsame 0 (by omega)
      · rw [if_neg hio, hdone i (by omega)]
    obtain ⟨out, hrun, hlen, hall⟩ := ih (source + 1) (output + 1)
      (deVec.set output (byteAt deVec source)) (by omega) (by simp; omega) hnext
      (fun k hk => by
        have := hsame (k + 1) (by omega)
        rwa [show source + (k + 1) = source + 1 + k by omega,
          show output + (k + 1) = output + 1 + k by omega] at this)
    refine ⟨out, ?_, by simpa using hlen, fun i hi => hall i (by omega)⟩
    rw [copyForward, index_byteAt (by omega), Exec.ok_bind, hset, Exec.ok_bind, hrun]

theorem copyWithin_spec (f : Nat → UInt8) (count source output : Nat) (deVec : Bytes)
    (hsource : source + count ≤ output) (hroom : output + count ≤ deVec.length)
    (hdone : ∀ i, i < output → byteAt deVec i = f i)
    (hsame : ∀ k, k < count → f (source + k) = f (output + k)) :
    ∃ out, copyWithin source (source + count) output deVec = .ok out ∧
      out.length = deVec.length ∧ ∀ i, i < output + count → byteAt out i = f i := by
  have hget : getRange deVec source (source + count) =
      some ((deVec.drop source).take count) := by
    rw [getRange_eq_some]
    exact ⟨by omega, by omega, by rw [Nat.add_sub_cancel_left]⟩
  have hlen : ((deVec.drop source).take count).length = count := by simp; omega
  refine ⟨deVec.take output ++ (deVec.drop source).take count ++ deVec.drop (output + count),
    ?_, by simp; omega, fun i hi => ?_⟩
  · rw [copyWithin, sliceRange, hget, Exec.ok_bind, copyFromSlice, hlen, if_pos hroom]
  · by_cases hio : i < output
    · rw [← hdone i hio]
      unfold byteAt
      rw [List.append_assoc, List.getElem?_append_left (by simp; omega),
        List.getElem?_take_of_lt hio]
    · have hk := hsame (i - output) (by omega)
      rw [show output + (i - output) = i by omega] at hk
      rw [← hk, ← hdone (source + (i - output)) (by omega)]
      unfold byteAt
      rw [List.append_assoc, List.getElem?_append_right (by simp; omega),
        List.getElem?_append_left (by simp; omega), List.length_take,
        Nat.min_eq_left (by omega), List.getElem?_take_of_lt (by omega), List.getElem?_drop]

theorem copyRun_spec (f : Nat → UInt8) (count source output : Nat) (deVec : Bytes)
    (hsource : source < output) (hroom : output + count ≤ deVec.length)
    (hdone : ∀ i, i < output → byteAt deVec i = f i)
    (hsame : ∀ k, k < count → f (source + k) = f (output + k)) :
    ∃ out, copyRun source count output deVec = .ok out ∧ out.length = deVec.length ∧
      ∀ i, i < output + count → byteAt out i = f i := by
  unfold copyRun
  by_cases hdisjoint : source + count ≤ output
  · rw [if_pos hdisjoint]
    exact copyWithin_spec f count source output deVec hdisjoint hroom hdone hsame
  · rw [if_neg hdisjoint]
    exact copyForward_spec f count source output deVec hsource hroom hdone hsame

/-- `hashPairs` when every pair is in range. -/
def enterPairs (deVec : Bytes) : Nat → Nat → (UInt8 → Nat) → (UInt8 → Nat)
  | 0, _, dictionary => dictionary
  | count + 1, position, dictionary =>
    enterPairs deVec count (position + 1)
      (Function.update dictionary (pairHash deVec position) position)

theorem hashPairs_spec (deVec : Bytes) (count position : Nat) (dictionary : UInt8 → Nat)
    (hroom : position + count < deVec.length) (hsize : deVec.length ≤ usizeMax) :
    hashPairs deVec count position dictionary =
      .ok (enterPairs deVec count position dictionary) := by
  induction count generalizing position dictionary with
  | zero => rfl
  | succ count ih =>
    have hadd : checkedAdd position 1 = some (position + 1) := by simp [checkedAdd]; omega
    have hfirst : deVec[position]? = some (byteAt deVec position) := by
      simp [byteAt, List.getElem?_eq_getElem (show position < deVec.length by omega)]
    have hsecond : deVec[position + 1]? = some (byteAt deVec (position + 1)) := by
      simp [byteAt, List.getElem?_eq_getElem (show position + 1 < deVec.length by omega)]
    rw [hashPairs, hadd, Exec.okOr_some, Exec.ok_bind, hfirst, hsecond]
    exact ih (position + 1) _ (by omega)

/-! ## The two walks in step -/

/-- The tables agree and the same pair is pending. -/
structure TableLock (frame : Bytes) (e : Cursor) (d : Decompressor) : Prop where
  slots : ∀ h, e.x h = if d.dictionary h = invalidOffset then 0 else d.dictionary h + 8
  pending : (e.pPos = 0 ∧ d.hashPosition = d.outputPosition) ∨
    (e.pPos = d.hashPosition + 8 ∧ d.hashPosition + 1 = d.outputPosition)

structure Lock (frame : Bytes) (e : Cursor) (d : Decompressor) : Prop where
  sound : e.Sound frame
  position : d.outputPosition + 8 = e.oPos
  size : d.deVec.length + 8 = frame.length
  written : ∀ i, i < d.outputPosition → byteAt d.deVec i = byteAt frame (i + 8)
  hashed : d.hashPosition ≤ d.outputPosition
  table : e.oPos + 3 ≤ frame.length → TableLock frame e d

/-- Entering one more pair in both tables keeps the slots equal. -/
theorem slots_update {x : UInt8 → Nat} {dictionary : UInt8 → Nat} (key : UInt8) (position : Nat)
    (hslots : ∀ h, x h = if dictionary h = invalidOffset then 0 else dictionary h + 8)
    (hposition : position < invalidOffset) :
    ∀ h, Function.update x key (position + 8) h =
      if Function.update dictionary key position h = invalidOffset then 0
      else Function.update dictionary key position h + 8 := by
  intro h
  by_cases hkey : h = key
  · subst hkey
    simp only [Function.update_self]
    rw [if_neg (by omega)]
  · simp only [Function.update_of_ne hkey]
    exact hslots h

theorem pairHash_written {frame : Bytes} {deVec : Bytes} {i stop : Nat}
    (hwritten : ∀ j, j < stop → byteAt deVec j = byteAt frame (j + 8)) (hi : i + 1 < stop) :
    pairHash deVec i = pairHash frame (i + 8) := by
  unfold pairHash
  rw [hwritten i (by omega), hwritten (i + 1) hi, Nat.add_right_comm]

/-- Entering the pending pair late in both tables keeps the slots equal. -/
theorem slots_flushed {frame : Bytes} {e : Cursor} {d : Decompressor} (h : Lock frame e d)
    (hmore : e.oPos + 3 ≤ frame.length) (hsmall : frame.length < 2 ^ 40) (deVec : Bytes)
    (hwritten : ∀ j, j < d.outputPosition + 1 → byteAt deVec j = byteAt frame (j + 8)) :
    ∀ k, e.flushed k =
      if enterPairs deVec (d.outputPosition - d.hashPosition) d.hashPosition d.dictionary k =
        invalidOffset then 0
      else enterPairs deVec (d.outputPosition - d.hashPosition) d.hashPosition d.dictionary k + 8 := by
  have htable := h.table hmore
  have hpos := h.position
  have hinvalid : (2 : Nat) ^ 40 < invalidOffset := by decide
  rcases htable.pending with ⟨hnone, hhash⟩ | ⟨hsome, hhash⟩
  · have hcount : d.outputPosition - d.hashPosition = 0 := by omega
    rw [hcount]
    simp only [Cursor.flushed, hnone, enterPairs]
    exact htable.slots
  · have hcount : d.outputPosition - d.hashPosition = 1 := by omega
    obtain ⟨-, -, hpx⟩ := (h.sound.2.2 hmore).pending (by omega)
    have hkey : e.px = pairHash deVec d.hashPosition := by
      rw [hpx, hsome, pairHash_written hwritten (by omega)]
    have hflushed : e.flushed = Function.update e.x e.px e.pPos :=
      if_pos (show e.pPos > 0 by omega)
    rw [hcount, hflushed, hkey, hsome]
    simp only [enterPairs]
    exact slots_update _ _ htable.slots (by omega)

theorem writeLiteral_lock {frame : Bytes} {e : Cursor} {d : Decompressor} (h : Lock frame e d)
    (hsmall : frame.length < 2 ^ 40) (hlt : e.oPos < frame.length) :
    ∃ deVec, writeLiteral d (byteAt frame e.oPos) = .ok
        { d with
          deVec := deVec, outputPosition := d.outputPosition + 1,
          hashPosition := d.outputPosition,
          dictionary :=
            enterPairs deVec (d.outputPosition - d.hashPosition) d.hashPosition d.dictionary } ∧
      deVec.length = d.deVec.length ∧
      ∀ i, i < d.outputPosition + 1 → byteAt deVec i = byteAt frame (i + 8) := by
  have hpos := h.position
  have hsize := h.size
  have hhashed := h.hashed
  have hroom : d.outputPosition < d.deVec.length := by omega
  have husize : (2 : Nat) ^ 40 < usizeMax := by decide
  refine ⟨d.deVec.set d.outputPosition (byteAt frame e.oPos), ?_, by simp, fun i hi => ?_⟩
  · have hpairs := hashPairs_spec (d.deVec.set d.outputPosition (byteAt frame e.oPos))
      (d.outputPosition - d.hashPosition) d.hashPosition d.dictionary (by simp; omega)
      (by simp; omega)
    simp only [writeLiteral, setIndex_of_lt _ hroom, Exec.ok_bind, Nat.add_sub_cancel, hpairs]
  · rw [byteAt_set _ _ _ _ hroom]
    by_cases hio : d.outputPosition = i
    · rw [if_pos hio, ← hio, hpos]
    · rw [if_neg hio, h.written i (by omega)]

theorem copyReference_ok (deVec : Bytes) (source output extra : Nat) (hash : UInt8)
    (hsource : source + 2 ≤ output) (hroom : output + extra + 2 ≤ deVec.length)
    (hsize : deVec.length < 2 ^ 40) :
    copyReference deVec source output extra hash =
      (copyRun source (extra + 2) output deVec >>= fun out => .ok (out, output + (extra + 2))) := by
  have husize : (2 : Nat) ^ 40 < usizeMax := by decide
  have hinvalid : source ≠ invalidOffset := by unfold invalidOffset; omega
  have hpair : checkedAdd source 2 = some (source + 2) := by simp [checkedAdd]; omega
  have hout : checkedAdd output (extra + 2) = some (output + (extra + 2)) := by
    simp [checkedAdd]; omega
  have hread : checkedAdd source (extra + 2) = some (source + (extra + 2)) := by
    simp [checkedAdd]; omega
  simp only [copyReference, if_neg hinvalid, hpair, hout, hread, Exec.okOr_some, Exec.ok_bind,
    if_neg (show ¬ source + 2 > output by omega),
    if_neg (show ¬ output + (extra + 2) > deVec.length by omega),
    if_neg (show ¬ source + (extra + 2) > deVec.length by omega)]

theorem enterPairs_snoc (deVec : Bytes) (count position : Nat) (dictionary : UInt8 → Nat) :
    enterPairs deVec (count + 1) position dictionary =
      Function.update (enterPairs deVec count position dictionary)
        (pairHash deVec (position + count)) (position + count) := by
  induction count generalizing position dictionary with
  | zero => rfl
  | succ count ih =>
    rw [enterPairs, ih, enterPairs, show position + 1 + count = position + (count + 1) by omega]

theorem writeReference_lock {frame : Bytes} {e : Cursor} {d : Decompressor} (h : Lock frame e d)
    (hsmall : frame.length < 2 ^ 40) (extra : Nat) (hmore : e.oPos + 3 ≤ frame.length)
    (hslot : e.x (pairHash frame e.oPos) ≠ 0) (hextra : extra ≤ 255)
    (hend : e.oPos + 2 + extra ≤ frame.length)
    (hmatch : ∀ k, k < extra + 2 →
      byteAt frame (e.x (pairHash frame e.oPos) + k) = byteAt frame (e.oPos + k)) :
    ∃ deVec, writeReference d (pairHash frame e.oPos) (UInt8.ofNat extra) = .ok
        { d with
          deVec := deVec, outputPosition := d.outputPosition + (extra + 2),
          hashPosition := d.outputPosition + (extra + 2),
          dictionary := Function.update
            (enterPairs deVec (d.outputPosition - d.hashPosition) d.hashPosition d.dictionary)
            (pairHash frame e.oPos) d.outputPosition } ∧
      deVec.length = d.deVec.length ∧
      ∀ i, i < d.outputPosition + (extra + 2) → byteAt deVec i = byteAt frame (i + 8) := by
  have hpos := h.position
  have hsize := h.size
  have hhashed := h.hashed
  have husize : (2 : Nat) ^ 40 < usizeMax := by decide
  have htable := h.table hmore
  obtain ⟨hlow, hbelow, -⟩ := (h.sound.2.2 hmore).entry _ hslot
  -- the slot the decompressor finds is the same pair, counted from the body
  have hsource : d.dictionary (pairHash frame e.oPos) + 8 = e.x (pairHash frame e.oPos) := by
    have hs := htable.slots (pairHash frame e.oPos)
    by_cases hempty : d.dictionary (pairHash frame e.oPos) = invalidOffset
    · rw [if_pos hempty] at hs
      exact absurd hs hslot
    · rw [if_neg hempty] at hs
      exact hs.symm
  have hextraNat : (UInt8.ofNat extra).toNat = extra := by
    rw [UInt8.toNat_ofNat', Nat.mod_eq_of_lt (by omega)]
  obtain ⟨deVec, hcopy, hlen, hwritten⟩ := copyRun_spec (fun i => byteAt frame (i + 8))
    (extra + 2) (d.dictionary (pairHash frame e.oPos)) d.outputPosition d.deVec (by omega)
    (by omega) h.written (fun k hk => by
      have hk := hmatch k hk
      rwa [← hsource, Nat.add_right_comm,
        show e.oPos + k = d.outputPosition + k + 8 by omega] at hk)
  have hadd : checkedAdd d.outputPosition 1 = some (d.outputPosition + 1) := by
    simp [checkedAdd]; omega
  have hcount : d.outputPosition + 1 - d.hashPosition =
      (d.outputPosition - d.hashPosition) + 1 := by omega
  have hpairs := hashPairs_spec deVec (d.outputPosition + 1 - d.hashPosition) d.hashPosition
    d.dictionary (by omega) (by omega)
  rw [hcount, enterPairs_snoc, show d.hashPosition + (d.outputPosition - d.hashPosition) =
    d.outputPosition by omega, pairHash_written hwritten (by omega), hpos, ← hcount] at hpairs
  refine ⟨deVec, ?_, hlen, hwritten⟩
  simp only [writeReference, hextraNat, copyReference_ok _ _ _ _ _ (show
    d.dictionary (pairHash frame e.oPos) + 2 ≤ d.outputPosition by omega) (show
    d.outputPosition + extra + 2 ≤ d.deVec.length by omega) (by omega), hcopy, Exec.ok_bind, hadd,
    Exec.okOr_some, hpairs]

/-- Step lemma: a token the compressor emits is accepted and keeps the lock. -/
theorem Lock.write {frame : Bytes} {e e' : Cursor} {d : Decompressor} {t : Token}
    (h : Lock frame e d) (hsmall : frame.length < 2 ^ 40) (hemit : Emits frame e t e') :
    ∃ d', d.write t = .ok d' ∧ Lock frame e' d' ∧
      d'.compressedPosition = d.compressedPosition ∧ d'.mask = d.mask ∧ d'.flags = d.flags := by
  have hpos := h.position
  have hsize := h.size
  have hsound := hemit.sound h.sound
  have hinvalid : (2 : Nat) ^ 40 < invalidOffset := by decide
  cases hemit with
  | tail hlt hrest =>
    obtain ⟨deVec, hrun, hlen, hwritten⟩ := writeLiteral_lock h hsmall hlt
    refine ⟨_, hrun, ⟨hsound, ?_, ?_, hwritten, ?_, fun hmore => ?_⟩, rfl, rfl, rfl⟩
    · simp only; omega
    · simp only; omega
    · simp only; omega
    · simp only at hmore; omega
  | literal hrest =>
    obtain ⟨deVec, hrun, hlen, hwritten⟩ := writeLiteral_lock h hsmall (by omega)
    refine ⟨_, hrun, ⟨hsound, ?_, ?_, hwritten, ?_, fun _ => ⟨?_, .inr ⟨?_, ?_⟩⟩⟩, rfl, rfl, rfl⟩
    · simp only; omega
    · simp only; omega
    · simp only; omega
    · exact slots_flushed h hrest hsmall deVec hwritten
    · exact hpos.symm
    · rfl
  | reference extra hrest hslot hextra hend hmatch =>
    obtain ⟨deVec, hrun, hlen, hwritten⟩ :=
      writeReference_lock h hsmall extra hrest hslot hextra hend hmatch
    refine ⟨_, hrun, ⟨hsound, ?_, ?_, hwritten, ?_, fun _ => ⟨?_, .inl ⟨rfl, rfl⟩⟩⟩, rfl, rfl, rfl⟩
    · simp only; omega
    · simp only; omega
    · simp only; omega
    · have hflushed := slots_flushed h hrest hsmall deVec (fun j hj => hwritten j (by omega))
      have hupdate := slots_update (pairHash frame e.oPos) d.outputPosition hflushed (by omega)
      rwa [hpos] at hupdate

/-! ## Unpacking the groups -/

theorem Lock.congr {frame : Bytes} {e : Cursor} {d d' : Decompressor} (h : Lock frame e d)
    (hdeVec : d'.deVec = d.deVec) (hout : d'.outputPosition = d.outputPosition)
    (hhash : d'.hashPosition = d.hashPosition) (hdict : d'.dictionary = d.dictionary) :
    Lock frame e d' := by
  refine ⟨h.sound, by rw [hout, h.position], by rw [hdeVec, h.size], ?_, by
    rw [hhash, hout]; exact h.hashed, fun hmore => ⟨?_, ?_⟩⟩
  · rw [hout, hdeVec]; exact h.written
  · rw [hdict]; exact (h.table hmore).slots
  · rw [hhash, hout]; exact (h.table hmore).pending

/-- The rest of a group whose flag byte has been read. -/
theorem decompressLoop_group (frame : Bytes) (hsmall : frame.length < 2 ^ 40)
    (done rest : List Token) (front back : Bytes) (fuel : Nat) (e e' : Cursor) (d : Decompressor)
    (hgroup : (done ++ rest).length ≤ 8) (hlock : Lock frame e d)
    (hemits : EmitsAll frame e rest e') (hpos : d.compressedPosition = front.length)
    (hmask : d.mask = maskAt done.length) (hflags : d.flags = UInt8.ofNat (flagBits (done ++ rest)))
    (hsize : (front ++ tokenBytes rest ++ back).length ≤ usizeMax) :
    ∃ d', decompressLoop (front ++ tokenBytes rest ++ back) (rest.length + fuel) d =
        decompressLoop (front ++ tokenBytes rest ++ back) fuel d' ∧ Lock frame e' d' ∧
      d'.compressedPosition = (front ++ tokenBytes rest).length ∧
      d'.mask = maskAt (done ++ rest).length := by
  induction rest generalizing done front e d with
  | nil =>
    cases hemits
    exact ⟨d, by simp, hlock, by simpa using hpos, by simpa using hmask⟩
  | cons t rest ih =>
    cases hemits with
    | @cons _ e₁ _ _ _ hemit hall =>
      have hadv := hemit.advances
      have hlt : d.outputPosition < d.deVec.length := by
        have := hlock.position
        have := hlock.size
        omega
      have hk : done.length < 8 := by simp at hgroup; omega
      have hlock₁ : Lock frame e
          { d with compressedPosition := front.length + t.bytes.length } :=
        hlock.congr rfl rfl rfl rfl
      obtain ⟨d₁, hwrite, hlock₂, hcp, hm, hf⟩ := hlock₁.write hsmall hemit
      have hbit : d.flags &&& d.mask ≠ 0 ↔ t.isReference = true := by
        rw [hflags, hmask]
        exact flag_test done t rest hgroup
      have hstep := decompressStep_token front t (tokenBytes rest ++ back) d hpos
        (by rw [hmask]; exact maskAt_ne_zero hk) hbit
        (by simpa [List.append_assoc] using hsize)
      rw [hwrite, Exec.ok_bind] at hstep
      obtain ⟨d', hrun, hlock', hcp', hm'⟩ := ih (done ++ [t]) (front ++ t.bytes) e₁
        { d₁ with mask := d₁.mask <<< 1 } (by simpa using hgroup)
        (hlock₂.congr rfl rfl rfl rfl) hall (by simp [hcp])
        (by simp only [hm, hmask, maskAt_succ, List.length_append, List.length_cons,
              List.length_nil])
        (by simp only [hf, hflags]; simp)
        (by simpa [List.append_assoc] using hsize)
      have hvec : front ++ tokenBytes (t :: rest) ++ back =
          front ++ t.bytes ++ (tokenBytes rest ++ back) := by simp [List.append_assoc]
      have hvec' : front ++ t.bytes ++ tokenBytes rest ++ back =
          front ++ t.bytes ++ (tokenBytes rest ++ back) := by simp [List.append_assoc]
      rw [hvec'] at hrun
      refine ⟨d', ?_, hlock', ?_, ?_⟩
      · have hfuel : (t :: rest).length + fuel = (rest.length + fuel) + 1 := by
          simp only [List.length_cons]; omega
        rw [hvec, hfuel, decompressLoop, if_pos hlt, hstep, Exec.ok_bind, hrun]
      · rw [hcp']; simp [List.append_assoc]
      · rw [hm']; simp

/-- A whole group, starting where the previous flag byte is used up. -/
theorem decompressLoop_packGroup (frame : Bytes) (hsmall : frame.length < 2 ^ 40) (g : List Token)
    (front back : Bytes) (fuel : Nat) (e e' : Cursor) (d : Decompressor) (hne : 0 < g.length)
    (hg : g.length ≤ 8) (hlock : Lock frame e d) (hemits : EmitsAll frame e g e')
    (hpos : d.compressedPosition = front.length) (hmask : d.mask = 0)
    (hsize : (front ++ packGroup g ++ back).length ≤ usizeMax) :
    ∃ d', decompressLoop (front ++ packGroup g ++ back) (g.length + fuel) d =
        decompressLoop (front ++ packGroup g ++ back) fuel d' ∧ Lock frame e' d' ∧
      d'.compressedPosition = (front ++ packGroup g).length ∧ d'.mask = maskAt g.length := by
  have hvec : front ++ packGroup g ++ back =
      (front ++ [UInt8.ofNat (flagBits g)]) ++ tokenBytes g ++ back := by
    simp [packGroup]
  have hlt : d.outputPosition < d.deVec.length := by
    cases hemits with
    | nil => simp at hne
    | cons hemit hall =>
      have := hemit.advances
      have := hlock.position
      have := hlock.size
      omega
  have hbound : front.length < usizeMax := by
    simp only [packGroup, List.length_append, List.length_cons] at hsize
    omega
  have htake := takeCompressedByte_at front (UInt8.ofNat (flagBits g)) (tokenBytes g ++ back)
    "compression flags" hbound
  have hsplit : front ++ packGroup g ++ back =
      front ++ UInt8.ofNat (flagBits g) :: (tokenBytes g ++ back) := by simp [packGroup]
  rw [← hsplit] at htake
  -- reading the flag byte changes nothing the lock looks at
  have hrefill : refillFlags (front ++ packGroup g ++ back) d = .ok
      { d with flags := UInt8.ofNat (flagBits g), mask := 1,
               compressedPosition := front.length + 1 } := by
    rw [refillFlags, if_pos hmask, hpos, htake, Exec.ok_bind]
  have hloaded (n : Nat) : decompressLoop (front ++ packGroup g ++ back) (n + 1) d =
      decompressLoop (front ++ packGroup g ++ back) (n + 1)
        { d with flags := UInt8.ofNat (flagBits g), mask := 1,
                 compressedPosition := front.length + 1 } := by
    have hidle : refillFlags (front ++ packGroup g ++ back)
        { d with flags := UInt8.ofNat (flagBits g), mask := 1,
                 compressedPosition := front.length + 1 } = .ok
        { d with flags := UInt8.ofNat (flagBits g), mask := 1,
                 compressedPosition := front.length + 1 } := by
      rw [refillFlags, if_neg (show ¬ ((1 : UInt8) = 0) by decide)]
    rw [decompressLoop, decompressLoop, if_pos hlt, if_pos hlt, decompressStep, decompressStep,
      hrefill, hidle]
  obtain ⟨d', hrun, hlock', hcp, hm⟩ := decompressLoop_group frame hsmall [] g
    (front ++ [UInt8.ofNat (flagBits g)]) back fuel e e'
    { d with flags := UInt8.ofNat (flagBits g), mask := 1,
             compressedPosition := front.length + 1 }
    (by simpa using hg) (hlock.congr rfl rfl rfl rfl) hemits (by simp) rfl rfl
    (by rw [← hvec]; exact hsize)
  refine ⟨d', ?_, hlock', ?_, by simpa using hm⟩
  · obtain ⟨n, hn⟩ : ∃ n, g.length + fuel = n + 1 := ⟨g.length + fuel - 1, by omega⟩
    rw [hn, hloaded, ← hn]
    rw [← hvec] at hrun
    exact hrun
  · rw [hcp]; simp [packGroup]

theorem EmitsAll.eq_of_nil {frame : Bytes} {e e' : Cursor} (h : EmitsAll frame e [] e') :
    e' = e := by
  cases h
  rfl

theorem EmitsAll.split {frame : Bytes} {e e'' : Cursor} {ts us : List Token}
    (h : EmitsAll frame e (ts ++ us) e'') :
    ∃ e', EmitsAll frame e ts e' ∧ EmitsAll frame e' us e'' := by
  induction ts generalizing e with
  | nil => exact ⟨e, .nil e, h⟩
  | cons t ts ih =>
    cases h with
    | cons hemit hall =>
      obtain ⟨e', h₁, h₂⟩ := ih hall
      exact ⟨e', .cons hemit h₁, h₂⟩

/-- Run lemma: the decompressor reads the packed groups one after another. -/
theorem decompressLoop_pack (frame : Bytes) (hsmall : frame.length < 2 ^ 40)
    (gs : List (List Token)) (g : List Token) (front : Bytes) (fuel : Nat) (e e' : Cursor)
    (d : Decompressor) (hfull : ∀ h ∈ gs, h.length = 8) (hne : 0 < g.length) (hg : g.length ≤ 8)
    (hlock : Lock frame e d) (hemits : EmitsAll frame e (gs.flatten ++ g) e')
    (hpos : d.compressedPosition = front.length) (hmask : d.mask = 0)
    (hsize : (front ++ pack (gs ++ [g])).length ≤ usizeMax) :
    ∃ d', decompressLoop (front ++ pack (gs ++ [g])) ((gs.flatten ++ g).length + fuel) d =
        decompressLoop (front ++ pack (gs ++ [g])) fuel d' ∧ Lock frame e' d' ∧
      d'.compressedPosition = (front ++ pack (gs ++ [g])).length := by
  induction gs generalizing front e d with
  | nil =>
    have hvec : front ++ pack ([] ++ [g]) = front ++ packGroup g ++ [] := by simp
    obtain ⟨d', hrun, hlock', hcp, -⟩ := decompressLoop_packGroup frame hsmall g front [] fuel e e' d
      hne hg hlock (by simpa using hemits) hpos hmask (by rw [← hvec]; exact hsize)
    refine ⟨d', ?_, hlock', by rw [hcp]; simp⟩
    rw [hvec]
    simpa using hrun
  | cons h gs ih =>
    have hh : h.length = 8 := hfull h (by simp)
    rw [List.flatten_cons, List.append_assoc] at hemits
    obtain ⟨e₁, hfirst, hrest⟩ := hemits.split
    have hvec : front ++ pack (h :: gs ++ [g]) = front ++ packGroup h ++ pack (gs ++ [g]) := by
      simp
    rw [hvec] at hsize ⊢
    obtain ⟨d₁, hrun, hlock₁, hcp, hm⟩ := decompressLoop_packGroup frame hsmall h front
      (pack (gs ++ [g])) ((gs.flatten ++ g).length + fuel) e e₁ d (by omega) (by omega) hlock hfirst
      hpos hmask hsize
    obtain ⟨d', hrun', hlock', hcp'⟩ := ih (front ++ packGroup h) e₁ d₁
      (fun k hk => hfull k (by simp [hk])) hlock₁ hrest hcp (by rw [hm, hh, maskAt_eight]) hsize
    refine ⟨d', ?_, hlock', hcp'⟩
    have hfuel : ((h :: gs).flatten ++ g).length + fuel =
        h.length + ((gs.flatten ++ g).length + fuel) := by
      simp only [List.flatten_cons, List.length_append]; omega
    rw [hfuel, hrun, hrun']

/-! ## The frame -/

/-- The 40-bit length field of a frame header. -/
def lengthField (frame : Bytes) : Nat :=
  LittleEndian.decode ((frame.drop 4).take 4) + 2 ^ 32 * (byteAt frame 3).toNat

/-- Width of the decompressed-length prefix of each compression mode. -/
def prefixWidth (mode : UInt8) : Nat := if mode = 1 then 4 else 8

/-- Mode and prefix bytes `write_decompressed_length_prefix` chooses. -/
def prefixMode (length : Nat) : UInt8 := if length > u32Max then 2 else 1

theorem writeDecompressedLengthPrefix_spec (scratch length : Nat) (h : 16 ≤ scratch) :
    ∃ spare, writeDecompressedLengthPrefix (List.replicate scratch 0) length = .ok
        ([0, 0, prefixMode length, 0, 0, 0, 0, 0] ++
          LittleEndian.encode (prefixWidth (prefixMode length)) length ++ spare,
          8 + prefixWidth (prefixMode length)) ∧
      8 + prefixWidth (prefixMode length) + spare.length = scratch := by
  obtain ⟨m, rfl⟩ : ∃ m, scratch = m + 16 := ⟨scratch - 16, by omega⟩
  unfold writeDecompressedLengthPrefix prefixMode
  by_cases hbig : length > u32Max
  · refine ⟨List.replicate m 0, ?_⟩
    simp [hbig, setIndex, copyFromSlice, List.replicate_succ, prefixWidth]
    omega
  · refine ⟨List.replicate (m + 4) 0, ?_⟩
    simp [hbig, setIndex, copyFromSlice, List.replicate_succ, prefixWidth]
    omega

theorem sealFrame_spec (vec lengthBytes body spare : Bytes) (mode a b : UInt8) (tail : Bytes)
    (s : Compressor) (hvec : vec = a :: b :: tail)
    (hset : setIndex s.cVec s.nPos s.n = .ok
      ([0, 0, mode, 0, 0, 0, 0, 0] ++ lengthBytes ++ body ++ spare))
    (hcPos : s.cPos = 8 + lengthBytes.length + body.length) :
    sealFrame vec s = .ok ([a, b, mode, UInt8.ofNat (s.cPos / 2 ^ 32)] ++
      LittleEndian.encode 4 s.cPos ++ lengthBytes ++ body) := by
  have htake : ([a, b, mode, UInt8.ofNat (s.cPos / 2 ^ 32)] ++ LittleEndian.encode 4 s.cPos ++
      lengthBytes ++ body ++ spare).take s.cPos =
      [a, b, mode, UInt8.ofNat (s.cPos / 2 ^ 32)] ++ LittleEndian.encode 4 s.cPos ++
        lengthBytes ++ body := by
    apply List.take_left'
    simp [hcPos]; omega
  subst hvec
  simp only [sealFrame, hset, Exec.ok_bind, index]
  simp [setIndex, copyFromSlice] at htake ⊢
  rw [htake]
  simp [hcPos]
  omega

/-- A compressed frame as the compressor lays it out. -/
def compressedFrame (a b mode : UInt8) (length : Nat) (body : Bytes) : Bytes :=
  let total := 8 + prefixWidth mode + body.length
  [a, b, mode, UInt8.ofNat (total / 2 ^ 32)] ++ LittleEndian.encode 4 total ++
    LittleEndian.encode (prefixWidth mode) length ++ body

theorem compressedFrame_length (a b mode : UInt8) (length : Nat) (body : Bytes) :
    (compressedFrame a b mode length body).length = 8 + prefixWidth mode + body.length := by
  simp [compressedFrame]
  omega

theorem lengthField_compressedFrame (a b mode : UInt8) (length : Nat) (body : Bytes)
    (hsmall : 8 + prefixWidth mode + body.length < 2 ^ 40) :
    lengthField (compressedFrame a b mode length body) =
      (compressedFrame a b mode length body).length := by
  rw [compressedFrame_length]
  have hfield : ((compressedFrame a b mode length body).drop 4).take 4 =
      LittleEndian.encode 4 (8 + prefixWidth mode + body.length) := by
    simp only [compressedFrame, List.cons_append, List.nil_append, List.drop_succ_cons,
      List.drop_zero, List.append_assoc]
    exact List.take_left' (by simp)
  have hhigh : byteAt (compressedFrame a b mode length body) 3 =
      UInt8.ofNat ((8 + prefixWidth mode + body.length) / 2 ^ 32) := by
    simp [byteAt, compressedFrame]
  rw [lengthField, hfield, hhigh, LittleEndian.decode_encode_mod, UInt8.toNat_ofNat']
  omega

/-- Everything the compressor can return. -/
theorem compress_cases (v : Bytes) (hsmall : v.length < 2 ^ 40) :
    compress v = .ok v ∨ ∃ a b tail gs g e', v = a :: b :: tail ∧ 2000 ≤ v.length ∧
      compress v = .ok (compressedFrame a b (prefixMode v.length) v.length (pack (gs ++ [g]))) ∧
      8 + prefixWidth (prefixMode v.length) + (pack (gs ++ [g])).length < v.length ∧
      (∀ h ∈ gs, h.length = 8) ∧ 0 < g.length ∧ g.length ≤ 8 ∧
      EmitsAll v ⟨8, fun _ => 0, 0, 0⟩ (gs.flatten ++ g) e' ∧ e'.oPos = v.length := by
  by_cases hshort : v.length < 2000
  · exact .inl (by simp [compress, hshort])
  obtain ⟨spare, hlead, hspare⟩ := writeDecompressedLengthPrefix_spec (v.length / 2) v.length (by omega)
  set head := [0, 0, prefixMode v.length, 0, 0, 0, 0, 0] ++
    LittleEndian.encode (prefixWidth (prefixMode v.length)) v.length with hhead
  have hheadLen : head.length = 8 + prefixWidth (prefixMode v.length) := by
    simp [hhead]; omega
  let start : Compressor :=
    { cVec := head ++ spare, cPos := head.length, nPos := head.length, oPos := 8,
      x := fun _ => 0, px := 0, n := 0, pPos := 0, i := 0 }
  have hfirst : ∀ r, compressLoop v v.length start = .ok r →
      compress v = r.elim (.ok v) (sealFrame v) := by
    intro r hr
    rw [compress, if_neg hshort, hlead, ← hheadLen]
    change (compressLoop v v.length start >>= _) = _
    rw [hr]
    cases r <;> rfl
  have hsound : Cursor.Sound v ⟨8, fun _ => 0, 0, 0⟩ :=
    ⟨by simp, by simp only; omega, fun _ => ⟨fun _ hne => absurd rfl hne, fun hne => absurd rfl hne⟩⟩
  rcases compressLoop_spec v head v.length [] start
      (.inl ⟨rfl, ⟨spare, rfl⟩, rfl, rfl, rfl, rfl⟩) hsound
      (by simp only [start, List.length_append, hheadLen]; omega) (by omega) with
    hnone | ⟨s, ts, hrun, hall, hend, hlen, hatHead⟩
  · exact .inl (hfirst none hnone)
  right
  obtain ⟨a, b, tail, rfl⟩ : ∃ a b tail, v = a :: b :: tail := by
    cases v with
    | nil => exact absurd (by decide) hshort
    | cons a tail =>
      cases tail with
      | nil => exact absurd (by simp) hshort
      | cons b tail => exact ⟨a, b, tail, rfl⟩
  rcases hatHead with ⟨hnil, -⟩ | ⟨gs, g, hts, hne, hopen⟩
  · -- the loop cannot end before its first operation
    obtain rfl : ts = [] := by simpa using hnil
    have hcur : s.oPos = 8 := congrArg Cursor.oPos hall.eq_of_nil
    omega
  · obtain rfl : ts = gs.flatten ++ g := by simpa using hts
    obtain ⟨slot, rest, hbuf, -⟩ := hopen.buffer
    have hpack : pack (gs ++ [g]) = pack gs ++ s.n :: tokenBytes g := by
      rw [pack_append, pack_cons, pack_nil, List.append_nil, packGroup, ← hopen.flags]
    have hnPos : s.nPos < s.cVec.length := by rw [hbuf, hopen.nPos]; simp
    have hset : setIndex s.cVec s.nPos s.n = .ok (head ++ pack (gs ++ [g]) ++ rest) := by
      rw [setIndex_of_lt _ hnPos, hbuf, hopen.nPos, set_at, hpack]
      simp
    have hcPos : s.cPos = 8 + prefixWidth (prefixMode (a :: b :: tail).length) +
        (pack (gs ++ [g])).length := by
      have hn := hopen.nPos
      simp only [List.length_append] at hn
      rw [hopen.cPos, hn, hheadLen, hpack]
      simp only [List.length_append, List.length_cons]
      omega
    have hfit : s.cPos ≤ (a :: b :: tail).length / 2 := by
      have hbound := congrArg List.length hbuf
      rw [hlen] at hbound
      simp only [start, List.length_append, List.length_cons, hheadLen] at hbound hspare hcPos hpack ⊢
      rw [hpack] at hcPos
      simp only [List.length_append, List.length_cons] at hcPos
      omega
    have hsealed := sealFrame_spec (a :: b :: tail)
      (LittleEndian.encode (prefixWidth (prefixMode (a :: b :: tail).length))
        (a :: b :: tail).length)
      (pack (gs ++ [g])) rest (prefixMode (a :: b :: tail).length) a b tail s rfl hset
      (by rw [hcPos, LittleEndian.encode_length])
    refine ⟨a, b, tail, gs, g, s.cursor, rfl, by omega, ?_, by omega, hopen.full, hne, hopen.room,
      hall, hend⟩
    rw [hfirst (some s) hrun, Option.elim_some]
    simp only [hsealed, compressedFrame, hcPos]

/-- The start of both walks. -/
theorem lock_start (v buffer : Bytes) (position : Nat) (hlen : 8 ≤ v.length)
    (hbuffer : buffer.length + 8 = v.length) :
    Lock v ⟨8, fun _ => 0, 0, 0⟩
      { deVec := buffer, compressedPosition := position, outputPosition := 0, hashPosition := 0,
        flags := 0, mask := 0, dictionary := fun _ => invalidOffset } := by
  refine ⟨⟨by simp, hlen, fun _ => ⟨fun _ hne => absurd rfl hne, fun hne => absurd rfl hne⟩⟩, rfl,
    hbuffer, fun i hi => absurd hi (by simp), by simp, fun _ => ⟨fun _ => by simp, .inl ⟨rfl, rfl⟩⟩⟩

theorem EmitsAll.length_le {frame : Bytes} {e e' : Cursor} {ts : List Token}
    (h : EmitsAll frame e ts e') : e.oPos + ts.length ≤ e'.oPos := by
  induction h with
  | nil => simp
  | cons hemit _ ih =>
    have := hemit.advances
    simp only [List.length_cons]
    omega

/-- Decompressing the packed tokens of a complete walk gives the body back. -/
theorem decompress_packed (v buffer : Bytes) (width : Nat) (gs : List (List Token))
    (g : List Token) (e' : Cursor) (hsmall : v.length < 2 ^ 40) (hlen : 8 ≤ v.length)
    (hbuffer : buffer.length + 8 = v.length)
    (hwidth : width = 4 ∧ v.length < 256 ^ 4 ∨ width = 8)
    (hfits : (pack (gs ++ [g])).length < v.length) (hfull : ∀ h ∈ gs, h.length = 8)
    (hne : 0 < g.length) (hg : g.length ≤ 8)
    (hall : EmitsAll v ⟨8, fun _ => 0, 0, 0⟩ (gs.flatten ++ g) e') (hend : e'.oPos = v.length) :
    decompress (LittleEndian.encode width v.length ++ pack (gs ++ [g])) buffer width =
      .ok (v.drop 8) := by
  have husize : (2 : Nat) ^ 41 < usizeMax := by decide
  have htotal : decompressedTotalLength
      (LittleEndian.encode width v.length ++ pack (gs ++ [g])) width = .ok v.length := by
    have hget : getRange (LittleEndian.encode width v.length ++ pack (gs ++ [g])) 0 width =
        some (LittleEndian.encode width v.length) := by
      rw [getRange_eq_some]
      exact ⟨by omega, by simp, by simp⟩
    unfold decompressedTotalLength
    rcases hwidth with ⟨rfl, hw⟩ | rfl
    · rw [if_pos rfl, hget, Exec.okOr_some, Exec.ok_bind, LittleEndian.decode_encode _ _ hw]
    · rw [if_neg (by decide), if_pos rfl, hget, Exec.okOr_some, Exec.ok_bind,
        LittleEndian.decode_encode _ _ (by omega)]
  have hcount := hall.length_le
  simp only [hend] at hcount
  have hvecLen : (LittleEndian.encode width v.length ++ pack (gs ++ [g])).length ≤ usizeMax := by
    simp only [List.length_append, LittleEndian.encode_length]
    rcases hwidth with ⟨rfl, -⟩ | rfl <;> omega
  obtain ⟨d, hrun, hlock, hcp⟩ := decompressLoop_pack v hsmall gs g
    (LittleEndian.encode width v.length) (buffer.length - (gs.flatten ++ g).length)
    ⟨8, fun _ => 0, 0, 0⟩ e' _ hfull hne hg (lock_start v buffer width hlen hbuffer) hall
    (by simp) rfl hvecLen
  rw [show (gs.flatten ++ g).length + (buffer.length - (gs.flatten ++ g).length) =
    buffer.length by omega] at hrun
  have hpos := hlock.position
  have hsize := hlock.size
  have hout : d.outputPosition = d.deVec.length := by omega
  have hstop (fuel : Nat) : decompressLoop
      (LittleEndian.encode width v.length ++ pack (gs ++ [g])) fuel d = .ok d := by
    cases fuel <;> simp [decompressLoop, hout]
  have hbody : d.deVec = v.drop 8 := by
    apply List.ext_getElem?
    intro i
    rw [List.getElem?_drop]
    by_cases hi : i < d.outputPosition
    · have hw := hlock.written i hi
      unfold byteAt at hw
      rw [List.getElem?_eq_getElem (show i < d.deVec.length by omega),
        List.getElem?_eq_getElem (show i + 8 < v.length by omega)] at hw
      rw [List.getElem?_eq_getElem (show i < d.deVec.length by omega),
        List.getElem?_eq_getElem (show 8 + i < v.length by omega)]
      simp only [Option.getD_some] at hw
      rw [hw]
      simp only [Nat.add_comm]
    · rw [List.getElem?_eq_none (by omega), List.getElem?_eq_none (by omega)]
  have hsub : checkedSub v.length 8 = some buffer.length := by
    simp [checkedSub, hlen]; omega
  rw [decompress, htotal, Exec.ok_bind, hsub, Exec.okOr_some, Exec.ok_bind,
    if_neg (show ¬ (buffer.length ≠ buffer.length) by simp)]
  simp only [hrun, hstop, Exec.ok_bind, hcp]
  rw [if_neg (by simp), hbody]

/-! ## A frame of one byte -/

theorem index_replicate {count i : Nat} {b a : UInt8} (h : index (List.replicate count b) i = .ok a) : a = b :=
  List.eq_of_mem_replicate (List.mem_of_getElem? (index_eq_ok.mp h))

theorem sealFrame_length {vec out : Bytes} {s : Compressor} (h : sealFrame vec s = .ok out) : out.length = s.cPos := by
  simp only [sealFrame, Exec.bind_eq_ok] at h
  obtain ⟨_, -, _, -, _, -, _, -, _, -, _, -, cVec, -, hout⟩ := h
  rw [← Except.ok.inj hout, List.length_append, List.length_take, List.length_replicate]
  omega

/-- A match runs as far as it may. -/
theorem extendMatch_replicate {count : Nat} {b : UInt8} {maxIndex fuel xPos oPos stop : Nat} (ho : oPos ≤ maxIndex)
    (h : extendMatch (List.replicate count b) maxIndex fuel xPos oPos = .ok stop) : stop = maxIndex := by
  induction fuel generalizing xPos oPos with
  | zero =>
    rw [extendMatch] at h
    split at h
    · cases h
    · have := Except.ok.inj h
      omega
  | succ fuel ih =>
    rw [extendMatch] at h
    by_cases hlt : oPos < maxIndex
    · rw [if_pos hlt] at h
      simp only [Exec.bind_eq_ok] at h
      obtain ⟨first, hfirst, second, hsecond, h⟩ := h
      rw [if_pos ((index_replicate hfirst).trans (index_replicate hsecond).symm)] at h
      exact ih (by omega) h
    · rw [if_neg hlt] at h
      have := Except.ok.inj h
      omega

theorem lookup_replicate {count : Nat} {b : UInt8} {s : Compressor} {skip : Bool} {xPos : Nat} {cx : UInt8}
    (h : lookup (List.replicate count b) s = .ok (skip, xPos, cx)) :
    cx = 0 ∧ (skip = true ↔ count - s.oPos < 3 ∨ s.x 0 = 0) := by
  rw [lookup, List.length_replicate] at h
  by_cases hfew : count - s.oPos < 3
  · rw [if_pos hfew] at h
    obtain ⟨rfl, -, rfl⟩ := Prod.mk.inj (Except.ok.inj h) |>.imp_right Prod.mk.inj
    simp [hfew]
  · rw [if_neg hfew] at h
    simp only [Exec.bind_eq_ok] at h
    obtain ⟨first, hfirst, second, hsecond, h⟩ := h
    obtain rfl := index_replicate hfirst
    obtain rfl := index_replicate hsecond
    rw [UInt8.xor_self] at h
    by_cases hempty : s.x 0 = 0
    · rw [if_pos hempty] at h
      obtain ⟨rfl, -, rfl⟩ := Prod.mk.inj (Except.ok.inj h) |>.imp_right Prod.mk.inj
      simp [hempty]
    · rw [if_neg hempty, Exec.bind_eq_ok] at h
      obtain ⟨third, hthird, h⟩ := h
      obtain rfl := index_replicate hthird
      obtain ⟨rfl, -, rfl⟩ := Prod.mk.inj (Except.ok.inj h) |>.imp_right Prod.mk.inj
      simp [hfew, hempty]

/-- What the compressor has written and may still write, in 257ths of a byte: a reference, with its
flag byte, takes three bytes for 257, and the first two bytes and the last two may be literals. -/
def cost (length cPos oPos : Nat) : Nat :=
  257 * cPos + 3 * (length - oPos) + 514 * min (length - oPos) 2 + 514 * (10 - oPos)

theorem cost_literal {length cPos cPos' oPos : Nat} (hleft : oPos < length) (hedge : length - oPos < 3 ∨ oPos ≤ 9)
    (hwritten : cPos' ≤ cPos + 2) : cost length cPos' (oPos + 1) ≤ cost length cPos oPos := by
  unfold cost
  omega

theorem cost_reference {length cPos cPos' oPos : Nat} (hleft : 3 ≤ length - oPos) (hwritten : cPos' ≤ cPos + 3) :
    cost length cPos' (min (oPos + 257) length) ≤ cost length cPos oPos := by
  unfold cost
  omega

/-- The pair of two equal bytes is known, or will be behind the second literal, and what is left of
the frame fits. -/
structure Thrifty (length : Nat) (s : Compressor) : Prop where
  buffer : s.cVec.length = length / 2
  behind : 8 ≤ s.oPos
  known : s.x 0 ≠ 0 ∨ s.oPos = 8 ∨ s.oPos = 9 ∧ 0 < s.pPos ∧ s.px = 0
  fits : cost length s.cPos s.oPos ≤ 257 * (length / 2 - 17)

theorem Thrifty.room {length : Nat} {s : Compressor} (h : Thrifty length s) : s.cPos ≤ length / 2 - 17 := by
  have hfits := h.fits
  unfold cost at hfits
  omega

/-- A group opens while there is room. -/
theorem beginGroup_room {s : Compressor} {r : Option Compressor} (hroom : s.cPos ≤ s.cVec.length - 17)
    (h : beginGroup s = .ok r) : ∃ s', r = some s' ∧ s'.cursor = s.cursor ∧ s'.cVec.length = s.cVec.length ∧
      s'.cPos ≤ s.cPos + 1 := by
  unfold beginGroup at h
  split at h
  · simp only [Exec.bind_eq_ok] at h
    obtain ⟨limit, hlimit, h⟩ := h
    have hlimit' : limit = s.cVec.length - 17 := by
      unfold subtract at hlimit
      split at hlimit
      · exact (Except.ok.inj hlimit).symm
      · cases hlimit
    rw [if_neg (by omega), Exec.bind_eq_ok] at h
    obtain ⟨cVec, hset, h⟩ := h
    exact ⟨_, (Except.ok.inj h).symm, rfl, setIndex_length hset, Nat.le_refl _⟩
  · exact ⟨s, (Except.ok.inj h).symm, rfl, rfl, Nat.le_succ _⟩

theorem flushed_known {s : Compressor} (hknown : s.x 0 ≠ 0 ∨ 0 < s.pPos ∧ s.px = 0) : (flushPending s).x 0 ≠ 0 := by
  unfold flushPending
  split
  · simp only [Function.update_apply]
    split
    · omega
    · rename_i hpending hother
      rcases hknown with hknown | ⟨-, hpx⟩
      · exact hknown
      · exact absurd hpx.symm hother
  · rename_i hpending
    exact hknown.resolve_right fun hpair => hpending hpair.1

theorem emitLiteral_room {vec : Bytes} {s s' : Compressor} {cx : UInt8} (h : emitLiteral vec s cx = .ok s') :
    s'.cursor = ⟨s.oPos + 1, s.x, cx, s.oPos⟩ ∧ s'.cVec.length = s.cVec.length ∧ s'.cPos = s.cPos + 1 := by
  simp only [emitLiteral, Exec.bind_eq_ok] at h
  obtain ⟨_, -, cVec, hset, h⟩ := h
  obtain rfl := Except.ok.inj h
  exact ⟨rfl, setIndex_length hset, rfl⟩

theorem emitReference_replicate {count : Nat} {b : UInt8} {s s' : Compressor} {xPos : Nat} {cx : UInt8}
    (hleft : s.oPos + 2 ≤ count) (h : emitReference (List.replicate count b) s xPos cx = .ok s') :
    s'.x = Function.update s.x cx s.oPos ∧ s'.oPos = min (s.oPos + 257) count ∧ s'.cVec.length = s.cVec.length ∧
      s'.cPos = s.cPos + 2 := by
  simp only [emitReference, Exec.bind_eq_ok, List.length_replicate] at h
  obtain ⟨stop, hstop, first, hfirst, second, hsecond, h⟩ := h
  obtain rfl := extendMatch_replicate (by omega) hstop
  obtain rfl := Except.ok.inj h
  exact ⟨rfl, rfl, (setIndex_length hsecond).trans (setIndex_length hfirst), rfl⟩

theorem Thrifty.step {count : Nat} {b : UInt8} {s : Compressor} {r : Option Compressor} (h : Thrifty count s)
    (hleft : s.oPos < count) (hrun : compressStep (List.replicate count b) s = .ok r) :
    ∃ s', r = some s' ∧ Thrifty count s' := by
  have hroom := h.room
  obtain ⟨hbuffer, hbehind, hknown, hfits⟩ := h
  simp only [compressStep, Exec.bind_eq_ok] at hrun
  obtain ⟨opened, hopened, hrun⟩ := hrun
  obtain ⟨s', rfl, hcursor, hlength, hcPos⟩ := beginGroup_room (by omega) hopened
  simp only [Compressor.cursor, Cursor.mk.injEq] at hcursor
  obtain ⟨hoPos, hx, hpx, hpPos⟩ := hcursor
  simp only [Exec.bind_eq_ok, emitToken] at hrun
  obtain ⟨next, ⟨⟨skip, xPos, cx⟩, hlookup, hemit⟩, hrun⟩ := hrun
  obtain ⟨rfl, hskip⟩ := lookup_replicate hlookup
  obtain ⟨-, -, hflushedV, hflushedC, -, hflushedO, -, -, -⟩ := flushPending_fields s'
  refine ⟨_, (Except.ok.inj hrun).symm, ?_⟩
  rw [hx, hoPos] at hskip
  -- the pair is known behind the second literal
  have hflushed : s.oPos ≠ 8 → (flushPending s').x 0 ≠ 0 := by
    intro hlate
    apply flushed_known
    rw [hx, hpx, hpPos]
    rcases hknown with hknown | hfirst | ⟨-, hpair⟩
    · exact .inl hknown
    · exact absurd hfirst hlate
    · exact .inr hpair
  cases skip with
  | true =>
    obtain ⟨hnext, hnextV, hnextC⟩ := emitLiteral_room hemit
    simp only [Compressor.cursor, Cursor.mk.injEq] at hnext
    obtain ⟨hnextO, hnextX, hnextPx, hnextP⟩ := hnext
    rw [hflushedO, hoPos] at hnextO hnextP
    rw [hflushedV] at hnextV
    rw [hflushedC] at hnextC
    have hedge : count - s.oPos < 3 ∨ s.oPos ≤ 9 := by
      rcases hskip.mp rfl with hfew | hempty
      · exact .inl hfew
      · right
        omega
    refine ⟨by simp only; omega, by simp only; omega, ?_, ?_⟩
    · simp only [hnextX, hnextO, hnextPx, hnextP, and_true]
      by_cases hfirst : s.oPos = 8
      · exact .inr (.inr (by omega))
      · exact .inl (hflushed hfirst)
    · simp only [hnextO]
      exact (cost_literal hleft hedge (by omega)).trans hfits
  | false =>
    have hmany : ¬ (count - s.oPos < 3 ∨ s.x 0 = 0) := fun hedge => Bool.false_ne_true (hskip.mpr hedge)
    obtain ⟨hnextX, hnextO, hnextV, hnextC⟩ := emitReference_replicate (by omega) hemit
    rw [hflushedO, hoPos] at hnextO hnextX
    rw [hflushedV] at hnextV
    rw [hflushedC] at hnextC
    refine ⟨by simp only; omega, by simp only; omega, .inl ?_, ?_⟩
    · simp only [hnextX, Function.update_self]
      omega
    · simp only [hnextO]
      exact (cost_reference (by omega) (by omega)).trans hfits

theorem Thrifty.loop {count : Nat} {b : UInt8} {fuel : Nat} {s : Compressor} {r : Option Compressor}
    (h : Thrifty count s) (hrun : compressLoop (List.replicate count b) fuel s = .ok r) :
    ∃ s', r = some s' ∧ Thrifty count s' := by
  induction fuel generalizing s with
  | zero =>
    rw [compressLoop] at hrun
    split at hrun
    · cases hrun
    · exact ⟨s, (Except.ok.inj hrun).symm, h⟩
  | succ fuel ih =>
    rw [compressLoop, List.length_replicate] at hrun
    by_cases hleft : s.oPos < count
    · rw [if_pos hleft, Exec.bind_eq_ok] at hrun
      obtain ⟨next, hnext, hrun⟩ := hrun
      obtain ⟨s', rfl, hthrifty⟩ := h.step hleft hnext
      exact ih hthrifty hrun
    · rw [if_neg hleft] at hrun
      exact ⟨s, (Except.ok.inj hrun).symm, h⟩

/-- A long frame of one byte never comes back as it is. -/
theorem compress_replicate_ne (count : Nat) (b : UInt8) (hlong : 2000 ≤ count) :
    compress (List.replicate count b) ≠ .ok (List.replicate count b) := by
  intro h
  obtain ⟨spare, hlead, hspare⟩ := writeDecompressedLengthPrefix_spec (count / 2) count (by omega)
  have hwidth : prefixWidth (prefixMode count) = 4 ∨ prefixWidth (prefixMode count) = 8 := by
    unfold prefixWidth
    split <;> simp
  rw [compress, List.length_replicate, if_neg (by omega), hlead, Exec.ok_bind] at h
  simp only [Exec.bind_eq_ok] at h
  obtain ⟨r, hrun, h⟩ := h
  obtain ⟨s, rfl, hthrifty⟩ := Thrifty.loop (by
    refine ⟨?_, Nat.le_refl _, .inr (.inl rfl), ?_⟩
    · simp only [List.length_append, List.length_cons, List.length_nil, LittleEndian.encode_length]
      omega
    · simp only [cost]
      omega) hrun
  have hlength := sealFrame_length h
  have hroom := hthrifty.room
  rw [List.length_replicate] at hlength
  omega

/-! ## There and back -/

/-- Compression round trip for every frame the length field can describe: the
compressor never panics; it returns the frame itself, or a shorter compressed
frame with the same first two bytes, the prefix its mode announces, its own
length in the length field, and a body that decompresses, into any buffer of the
right size, to the body of the frame. -/
theorem compress_round_trip (v : Bytes) (hsmall : v.length < 2 ^ 40) :
    compress v = .ok v ∨ ∃ out, compress v = .ok out ∧ out.length < v.length ∧ out.take 2 = v.take 2 ∧
      ((v.length ≤ u32Max ∧ out[2]? = some 1) ∨ (u32Max < v.length ∧ out[2]? = some 2)) ∧
      lengthField out = out.length ∧
      LittleEndian.decode ((out.drop 8).take (prefixWidth (byteAt out 2))) = v.length ∧
      ∀ buffer : Bytes, buffer.length = v.length - 8 →
        decompress (out.drop 8) buffer (prefixWidth (byteAt out 2)) = .ok (v.drop 8) := by
  rcases compress_cases v hsmall with hsame | ⟨a, b, tail, gs, g, e', hv, hlong, hrun, hfits, hfull,
    hne, hg, hall, hend⟩
  · exact .inl hsame
  right
  have hmode : byteAt (compressedFrame a b (prefixMode v.length) v.length (pack (gs ++ [g]))) 2 =
      prefixMode v.length := by
    simp [byteAt, compressedFrame]
  have hbody : (compressedFrame a b (prefixMode v.length) v.length (pack (gs ++ [g]))).drop 8 =
      LittleEndian.encode (prefixWidth (prefixMode v.length)) v.length ++ pack (gs ++ [g]) := by
    simp only [compressedFrame, List.append_assoc]
    exact @List.drop_left' _ (_ :: _ :: _ :: _ :: LittleEndian.encode 4 _) _ _ (by simp)
  have hwidth : prefixWidth (prefixMode v.length) = 4 ∧ v.length < 256 ^ 4 ∨
      prefixWidth (prefixMode v.length) = 8 := by
    unfold prefixMode
    by_cases hbig : v.length > u32Max
    · right; simp [hbig, prefixWidth]
    · left
      have : u32Max < 256 ^ 4 := by decide
      simp [hbig, prefixWidth]
      omega
  refine ⟨_, hrun, by rw [compressedFrame_length]; exact hfits, by simp [hv, compressedFrame], ?_,
    lengthField_compressedFrame _ _ _ _ _ (by omega), ?_, fun buffer hbuffer => ?_⟩
  · by_cases hbig : v.length > u32Max
    · exact .inr ⟨hbig, by simp [compressedFrame, prefixMode, hbig]⟩
    · exact .inl ⟨by omega, by simp [compressedFrame, prefixMode, hbig]⟩
  · rw [hmode, hbody, List.take_left' (by simp)]
    rcases hwidth with ⟨hw, hlt⟩ | hw
    · rw [hw, LittleEndian.decode_encode _ _ hlt]
    · rw [hw, LittleEndian.decode_encode _ _ (by omega)]
  · rw [hmode, hbody]
    exact decompress_packed v buffer _ gs g e' hsmall (by omega) (by omega) hwidth (by omega) hfull
      hne hg hall hend

theorem compress_round_trip_zeros :
    let v : Bytes := List.replicate 2000 0
    v.length < 2 ^ 40 ∧ compress v ≠ .ok v ∧ ∃ out, compress v = .ok out ∧ out.length < v.length ∧
      out.take 2 = v.take 2 ∧
      ((v.length ≤ u32Max ∧ out[2]? = some 1) ∨ (u32Max < v.length ∧ out[2]? = some 2)) ∧
      lengthField out = out.length ∧
      LittleEndian.decode ((out.drop 8).take (prefixWidth (byteAt out 2))) = v.length ∧
      ∀ buffer : Bytes, buffer.length = v.length - 8 →
        decompress (out.drop 8) buffer (prefixWidth (byteAt out 2)) = .ok (v.drop 8) := by
  have hlen : (List.replicate 2000 (0 : UInt8)).length < 2 ^ 40 := by
    rw [List.length_replicate]
    decide
  have hne := compress_replicate_ne 2000 0 (Nat.le_refl _)
  exact ⟨hlen, hne, (compress_round_trip _ hlen).resolve_left hne⟩

end Xqdb.Compression
