import Xqdb.Compression.RoundTrip

/-! What decompression computes, without positions and without a destination. The
compressed bytes are consumed from the front, the output only ever grows at its end, and
a back reference copies from what has been written. `decompress` is this expansion into a
buffer of the declared length; whatever the buffer held before is never looked at. -/

namespace Xqdb.Compression

/-- How many bytes an operation writes. -/
def Token.width : Token → Nat
  | .literal _ => 1
  | .reference _ extra => extra.toNat + 2

theorem Token.width_pos (t : Token) : 0 < t.width := by
  cases t <;> simp [Token.width]

/-- The compressed bytes ahead, under the flag byte of the open group. -/
structure Source where
  flags : UInt8
  mask : UInt8
  rest : Bytes

namespace Source

/-- A group opens with its flag byte. -/
def refill (s : Source) : Option Source :=
  if s.mask = 0 then
    match s.rest with
    | [] => none
    | flags :: rest => some ⟨flags, 1, rest⟩
  else some s

/-- The operation the flag bit announces. -/
def take (s : Source) : Option (Token × Source) :=
  if s.flags &&& s.mask ≠ 0 then
    match s.rest with
    | hash :: extra :: rest => some (.reference hash extra, ⟨s.flags, s.mask <<< 1, rest⟩)
    | _ => none
  else
    match s.rest with
    | b :: rest => some (.literal b, ⟨s.flags, s.mask <<< 1, rest⟩)
    | [] => none

def next (s : Source) : Option (Token × Source) := s.refill.bind take

def start (compressed : Bytes) : Source := ⟨0, 0, compressed⟩

end Source

/-- What has been written, and the pairs entered so far. -/
structure Output where
  written : Bytes
  hashed : Nat
  dictionary : UInt8 → Nat

/-- Appends `count` bytes read from `source` on, one at a time: a run may read what it has
just written. -/
def appendRun : Nat → Nat → Bytes → Bytes
  | _, 0, written => written
  | source, count + 1, written => appendRun (source + 1) count (written ++ [byteAt written source])

namespace Output

def start : Output := ⟨[], 0, fun _ => invalidOffset⟩

/-- One operation; a back reference needs a pair that was written and room for its run. -/
def write (total : Nat) (o : Output) : Token → Option Output
  | .literal b =>
    some ⟨o.written ++ [b], o.written.length,
      enterPairs (o.written ++ [b]) (o.written.length - o.hashed) o.hashed o.dictionary⟩
  | .reference hash extra =>
    let written := appendRun (o.dictionary hash) (extra.toNat + 2) o.written
    if o.dictionary hash + 2 ≤ o.written.length ∧ o.written.length + (extra.toNat + 2) ≤ total then
      some ⟨written, written.length,
        enterPairs written (o.written.length + 1 - o.hashed) o.hashed o.dictionary⟩
    else none

end Output

/-- Operations until `total` bytes are written. -/
def expand (total : Nat) : Nat → Source → Output → Option (Source × Output)
  | 0, s, o => if o.written.length < total then none else some (s, o)
  | fuel + 1, s, o =>
    if o.written.length < total then
      s.next.bind fun operation =>
        (o.write total operation.1).bind fun o => expand total fuel operation.2 o
    else some (s, o)

/-! ## Copies -/

theorem appendRun_length (source count : Nat) (written : Bytes) :
    (appendRun source count written).length = written.length + count := by
  induction count generalizing source written with
  | zero => rfl
  | succ count ih =>
    rw [appendRun, ih]
    simp
    omega

theorem take_set_succ {vec : Bytes} {i : Nat} (b : UInt8) (h : i < vec.length) :
    (vec.set i b).take (i + 1) = vec.take i ++ [b] := by
  rw [List.take_add_one, List.take_set_of_le (Nat.le_refl i)]
  simp [h]

theorem byteAt_take {vec : Bytes} {i stop : Nat} (h : i < stop) :
    byteAt (vec.take stop) i = byteAt vec i := by
  unfold byteAt
  rw [List.getElem?_take_of_lt h]

/-- The byte-wise copy appends the run behind what stood before it. -/
theorem copyForward_append (count source output : Nat) (deVec : Bytes) (hsource : source < output)
    (hroom : output + count ≤ deVec.length) :
    ∃ out, copyForward source output count deVec = .ok out ∧ out.length = deVec.length ∧
      out.take (output + count) = appendRun source count (deVec.take output) := by
  induction count generalizing source output deVec with
  | zero => exact ⟨deVec, rfl, rfl, rfl⟩
  | succ count ih =>
    obtain ⟨out, hrun, hlen, htake⟩ := ih (source + 1) (output + 1)
      (deVec.set output (byteAt deVec source)) (by omega) (by simp; omega)
    refine ⟨out, ?_, by simpa using hlen, ?_⟩
    · rw [copyForward, index_byteAt (by omega), Exec.ok_bind, setIndex_of_lt _ (by omega),
        Exec.ok_bind, hrun]
    · rw [show output + (count + 1) = output + 1 + count by omega, htake,
        take_set_succ _ (by omega), appendRun, byteAt_take hsource]

/-- Where the run ends before its target starts, byte by byte is the block copy. -/
theorem copyForward_disjoint (count source output : Nat) (deVec : Bytes)
    (hsource : source + count ≤ output) (hroom : output + count ≤ deVec.length) :
    copyForward source output count deVec =
      .ok (deVec.take output ++ (deVec.drop source).take count ++ deVec.drop (output + count)) := by
  induction count generalizing source output deVec with
  | zero => simp [copyForward]
  | succ count ih =>
    have hsecond := ih (source + 1) (output + 1) (deVec.set output (byteAt deVec source)) (by omega)
      (by simp; omega)
    have hfirst : (deVec.drop source).take (count + 1) =
        byteAt deVec source :: (deVec.drop (source + 1)).take count := by
      rw [List.drop_eq_getElem_cons (by omega), List.take_succ_cons]
      simp [byteAt, List.getElem?_eq_getElem (show source < deVec.length by omega)]
    have hmiddle : ((deVec.set output (byteAt deVec source)).drop (source + 1)).take count =
        (deVec.drop (source + 1)).take count := by
      rw [List.drop_set, if_neg (by omega), List.take_set_of_le (by omega)]
    have hback : (deVec.set output (byteAt deVec source)).drop (output + 1 + count) =
        deVec.drop (output + 1 + count) := by
      rw [List.drop_set, if_pos (by omega)]
    rw [copyForward, index_byteAt (by omega), Exec.ok_bind, setIndex_of_lt _ (by omega), Exec.ok_bind,
      hsecond, take_set_succ _ (by omega), hmiddle, hback, hfirst,
      show output + (count + 1) = output + 1 + count by omega]
    simp

/-- **The block copy** gives what copying one byte at a time gives. -/
theorem copyWithin_eq_copyForward {count source output : Nat} {deVec : Bytes}
    (hsource : source + count ≤ output) (hroom : output + count ≤ deVec.length) :
    copyWithin source (source + count) output deVec = copyForward source output count deVec := by
  have hget : getRange deVec source (source + count) = some ((deVec.drop source).take count) := by
    rw [getRange_eq_some]
    exact ⟨by omega, by omega, by rw [Nat.add_sub_cancel_left]⟩
  have hlen : ((deVec.drop source).take count).length = count := by
    simp
    omega
  rw [copyForward_disjoint count source output deVec hsource hroom, copyWithin, sliceRange, hget,
    Exec.ok_bind, copyFromSlice, hlen, if_pos hroom]

theorem copyRun_append (count source output : Nat) (deVec : Bytes) (hsource : source < output)
    (hroom : output + count ≤ deVec.length) :
    ∃ out, copyRun source count output deVec = .ok out ∧ out.length = deVec.length ∧
      out.take (output + count) = appendRun source count (deVec.take output) := by
  have hrun : copyRun source count output deVec = copyForward source output count deVec := by
    unfold copyRun
    split
    · next hdisjoint => exact copyWithin_eq_copyForward hdisjoint hroom
    · rfl
  rw [hrun]
  exact copyForward_append count source output deVec hsource hroom

/-! ## The buffer follows the expansion -/

/-- Entering pairs only looks at the bytes of these pairs. -/
theorem enterPairs_congr {a b : Bytes} {stop : Nat} (h : a.take stop = b.take stop) (count : Nat) :
    ∀ (position : Nat) (dictionary : UInt8 → Nat), position + count < stop →
      enterPairs a count position dictionary = enterPairs b count position dictionary := by
  induction count with
  | zero =>
    intro position dictionary _
    rfl
  | succ count ih =>
    intro position dictionary hstop
    have hbyte : ∀ i, i < stop → byteAt a i = byteAt b i := by
      intro i hi
      rw [← byteAt_take hi, h, byteAt_take hi]
    have hhash : pairHash a position = pairHash b position := by
      unfold pairHash
      rw [hbyte position (by omega), hbyte (position + 1) (by omega)]
    rw [enterPairs, enterPairs, hhash]
    exact ih (position + 1) _ (by omega)

/-- The buffer holds what is written; behind it stands what stood there before. -/
structure Holds (total : Nat) (d : Decompressor) (o : Output) : Prop where
  size : d.deVec.length = total
  position : d.outputPosition = o.written.length
  written : d.deVec.take o.written.length = o.written
  hashed : d.hashPosition = o.hashed
  behind : o.hashed ≤ o.written.length
  dictionary : d.dictionary = o.dictionary

theorem Holds.room {total : Nat} {d : Decompressor} {o : Output} (h : Holds total d o) :
    o.written.length ≤ total := by
  have hlen := congrArg List.length h.written
  rw [List.length_take, h.size] at hlen
  omega

theorem writeLiteral_holds {total : Nat} {d : Decompressor} {o : Output} (h : Holds total d o)
    (hmore : o.written.length < total) (htotal : total ≤ usizeMax) (b : UInt8) :
    ∃ d' o', writeLiteral d b = .ok d' ∧ o.write total (.literal b) = some o' ∧ Holds total d' o' ∧
      d'.compressedPosition = d.compressedPosition ∧ d'.flags = d.flags ∧ d'.mask = d.mask := by
  have hsize := h.size
  have hposition := h.position
  have hbehind := h.behind
  have hroom : d.outputPosition < d.deVec.length := by omega
  have htake : (d.deVec.set d.outputPosition b).take (o.written.length + 1) = o.written ++ [b] := by
    rw [← hposition, take_set_succ _ hroom, hposition, h.written]
  have hpairs := hashPairs_spec (d.deVec.set d.outputPosition b) (d.outputPosition - d.hashPosition)
    d.hashPosition d.dictionary (by rw [h.hashed]; simp; omega) (by simp; omega)
  have hrun : writeLiteral d b = .ok
      { d with
        deVec := d.deVec.set d.outputPosition b, outputPosition := d.outputPosition + 1,
        hashPosition := d.outputPosition,
        dictionary := enterPairs (d.deVec.set d.outputPosition b) (d.outputPosition - d.hashPosition)
          d.hashPosition d.dictionary } := by
    simp only [writeLiteral, setIndex_of_lt _ hroom, Exec.ok_bind, Nat.add_sub_cancel, hpairs]
  refine ⟨_, _, hrun, rfl, ⟨?_, ?_, ?_, hposition, ?_, ?_⟩, rfl, rfl, rfl⟩
  · simpa using hsize
  · simp [hposition]
  · simpa using htake
  · simp
  · simp only [h.hashed, hposition, h.dictionary]
    rw [hposition] at htake
    refine @enterPairs_congr _ _ (o.written.length + 1) ?_ _ _ _ (by omega)
    rw [htake, List.take_of_length_le (by simp)]

theorem copyReference_of_room (deVec : Bytes) (source output extra : Nat) (hash : UInt8)
    (hsource : source + 2 ≤ output) (hroom : output + (extra + 2) ≤ deVec.length)
    (hsize : deVec.length ≤ usizeMax) :
    copyReference deVec source output extra hash =
      (copyRun source (extra + 2) output deVec >>= fun out => .ok (out, output + (extra + 2))) := by
  have hinvalid : source ≠ invalidOffset := by
    unfold invalidOffset
    omega
  have hadd : ∀ a b, a + b ≤ deVec.length → checkedAdd a b = some (a + b) := fun a b hle =>
    checkedAdd_eq_some.mpr ⟨rfl, by omega⟩
  simp only [copyReference, if_neg hinvalid, hadd source 2 (by omega), hadd output (extra + 2) hroom,
    hadd source (extra + 2) (by omega), Exec.okOr_some, Exec.ok_bind,
    if_neg (show ¬ source + 2 > output by omega),
    if_neg (show ¬ output + (extra + 2) > deVec.length by omega),
    if_neg (show ¬ source + (extra + 2) > deVec.length by omega)]

/-- A back reference that is refused is refused with an error. -/
theorem copyReference_refused {deVec : Bytes} {source output extra : Nat} (hash : UInt8)
    (hbad : ¬ (source + 2 ≤ output ∧ output + (extra + 2) ≤ deVec.length)) :
    ∃ e, copyReference deVec source output extra hash = Exec.err e := by
  unfold copyReference
  split
  · exact ⟨_, rfl⟩
  cases hpair : checkedAdd source 2 with
  | none => exact ⟨_, rfl⟩
  | some pairEnd =>
    obtain ⟨rfl, -⟩ := checkedAdd_eq_some.mp hpair
    rw [Exec.okOr_some, Exec.ok_bind]
    split
    · exact ⟨_, rfl⟩
    next hsource =>
    cases hout : checkedAdd output (extra + 2) with
    | none =>
      simp only [hout, Exec.okOr_none, Exec.err_bind]
      exact ⟨_, rfl⟩
    | some outputEnd =>
      obtain ⟨rfl, -⟩ := checkedAdd_eq_some.mp hout
      simp only [hout, Exec.okOr_some, Exec.ok_bind]
      rw [if_pos (by omega)]
      exact ⟨_, rfl⟩

theorem writeReference_holds {total : Nat} {d : Decompressor} {o : Output} (h : Holds total d o)
    (htotal : total ≤ usizeMax) (hash extra : UInt8) :
    match o.write total (.reference hash extra) with
    | some o' => ∃ d', writeReference d hash extra = .ok d' ∧ Holds total d' o' ∧
        d'.compressedPosition = d.compressedPosition ∧ d'.flags = d.flags ∧ d'.mask = d.mask
    | none => ∃ e, writeReference d hash extra = Exec.err e := by
  have hsize := h.size
  have hposition := h.position
  have hbehind := h.behind
  have hroom := h.room
  by_cases hok : o.dictionary hash + 2 ≤ o.written.length ∧
      o.written.length + (extra.toNat + 2) ≤ total
  · simp only [Output.write, if_pos hok]
    obtain ⟨hsource, hend⟩ := hok
    rw [← h.dictionary] at hsource ⊢
    obtain ⟨out, hcopy, hlen, htake⟩ := copyRun_append (extra.toNat + 2) (d.dictionary hash)
      d.outputPosition d.deVec (by omega) (by omega)
    rw [hposition, h.written] at htake
    have hcopied : copyReference d.deVec (d.dictionary hash) d.outputPosition extra.toNat hash =
        .ok (out, d.outputPosition + (extra.toNat + 2)) := by
      rw [copyReference_of_room _ _ _ _ _ (by omega) (by omega) (by omega), hcopy, Exec.ok_bind]
    have hadd : checkedAdd d.outputPosition 1 = some (d.outputPosition + 1) :=
      checkedAdd_eq_some.mpr ⟨rfl, by omega⟩
    have hpairs := hashPairs_spec out (d.outputPosition + 1 - d.hashPosition) d.hashPosition
      d.dictionary (by rw [h.hashed]; omega) (by omega)
    have hrun : writeReference d hash extra = .ok
        { d with
          deVec := out, outputPosition := d.outputPosition + (extra.toNat + 2),
          hashPosition := d.outputPosition + (extra.toNat + 2),
          dictionary := enterPairs out (d.outputPosition + 1 - d.hashPosition) d.hashPosition
            d.dictionary } := by
      simp only [writeReference, hcopied, Exec.ok_bind, hadd, Exec.okOr_some, hpairs]
    refine ⟨_, hrun, ⟨?_, ?_, ?_, ?_, ?_, ?_⟩, rfl, rfl, rfl⟩
    · exact hlen.trans hsize
    · simp [appendRun_length, hposition]
    · rw [appendRun_length, htake]
    · simp [appendRun_length, hposition]
    · exact Nat.le_refl _
    · simp only [h.hashed, hposition]
      refine @enterPairs_congr _ _ (o.written.length + (extra.toNat + 2)) ?_ _ _ _ (by omega)
      rw [htake, List.take_of_length_le (by rw [appendRun_length])]
  · simp only [Output.write, if_neg hok]
    rw [← h.dictionary, ← hposition, ← hsize] at hok
    obtain ⟨e, herr⟩ := copyReference_refused hash hok
    exact ⟨e, by rw [writeReference, herr, Exec.err_bind]⟩

/-- The position in the compressed bytes, as what is ahead of it. -/
structure Reads (vec : Bytes) (d : Decompressor) (s : Source) : Prop where
  flags : d.flags = s.flags
  mask : d.mask = s.mask
  ahead : vec.drop d.compressedPosition = s.rest
  within : d.compressedPosition ≤ vec.length

section Steps

variable {vec : Bytes} {total : Nat} {d : Decompressor} {s : Source} {o : Output}

theorem takeCompressedByte_nil {position : Nat} (h : vec.drop position = []) (context : String) :
    ∃ e, takeCompressedByte vec position context = Exec.err e := by
  have hnone : vec[position]? = none := by
    rw [List.getElem?_eq_none_iff]
    exact List.drop_eq_nil_iff.mp h
  exact ⟨_, by rw [takeCompressedByte, hnone, Exec.okOr_none, Exec.err_bind]⟩

theorem takeCompressedByte_cons {position : Nat} {b : UInt8} {rest : Bytes} (hvec : vec.length ≤ usizeMax)
    (h : vec.drop position = b :: rest) (context : String) :
    takeCompressedByte vec position context = .ok (b, position + 1) ∧
      vec.drop (position + 1) = rest ∧ position + 1 ≤ vec.length := by
  have hlen := congrArg List.length h
  rw [List.length_drop, List.length_cons] at hlen
  have hbyte : vec[position]? = some b := by
    have hhead := congrArg List.head? h
    rwa [List.head?_drop, List.head?_cons] at hhead
  have hadd : checkedAdd position 1 = some (position + 1) :=
    checkedAdd_eq_some.mpr ⟨rfl, by omega⟩
  refine ⟨?_, ?_, by omega⟩
  · rw [takeCompressedByte, hbyte, Exec.okOr_some, Exec.ok_bind, hadd, Exec.okOr_some, Exec.ok_bind]
  · rw [← List.drop_drop, h, List.drop_succ_cons, List.drop_zero]

theorem refillFlags_reads (hvec : vec.length ≤ usizeMax) (h : Reads vec d s) :
    match s.refill with
    | some s' => ∃ flags mask position, refillFlags vec d =
        .ok { d with flags := flags, mask := mask, compressedPosition := position } ∧
        Reads vec { d with flags := flags, mask := mask, compressedPosition := position } s'
    | none => ∃ e, refillFlags vec d = Exec.err e := by
  unfold Source.refill refillFlags
  rw [h.mask]
  by_cases hmask : s.mask = 0
  · rw [if_pos hmask, if_pos hmask]
    cases hrest : s.rest with
    | nil =>
      obtain ⟨e, herr⟩ := takeCompressedByte_nil (h.ahead.trans hrest) "compression flags"
      exact ⟨e, by rw [herr, Exec.err_bind]⟩
    | cons flags rest =>
      obtain ⟨htake, hahead, hwithin⟩ :=
        takeCompressedByte_cons hvec (h.ahead.trans hrest) "compression flags"
      exact ⟨flags, 1, d.compressedPosition + 1, by rw [htake, Exec.ok_bind],
        ⟨rfl, rfl, hahead, hwithin⟩⟩
  · rw [if_neg hmask, if_neg hmask]
    exact ⟨d.flags, d.mask, d.compressedPosition, rfl, h⟩

/-- What one operation does, its bytes already read: as `write` of the output says. -/
theorem write_holds (h : Holds total d o) (hmore : o.written.length < total)
    (htotal : total ≤ usizeMax) (t : Token) :
    match o.write total t with
    | some o' => ∃ d', d.write t = .ok d' ∧ Holds total d' o' ∧
        d'.compressedPosition = d.compressedPosition ∧ d'.flags = d.flags ∧ d'.mask = d.mask
    | none => ∃ e, d.write t = Exec.err e := by
  cases t with
  | literal b =>
    obtain ⟨d', o', hrun, hwrite, hholds, hfields⟩ := writeLiteral_holds h hmore htotal b
    rw [hwrite]
    exact ⟨d', hrun, hholds, hfields⟩
  | reference hash extra => exact writeReference_holds h htotal hash extra

/-- The operation behind the flag byte. -/
theorem decompressToken_reads (hvec : vec.length ≤ usizeMax) (h : Reads vec d s) :
    match s.take with
    | some operation => ∃ position,
        decompressToken vec d =
          Decompressor.write { d with compressedPosition := position } operation.1 ∧
        operation.2.flags = s.flags ∧ operation.2.mask = s.mask <<< 1 ∧
        vec.drop position = operation.2.rest ∧ position ≤ vec.length
    | none => ∃ e, decompressToken vec d = Exec.err e := by
  unfold Source.take decompressToken
  rw [← h.flags, ← h.mask]
  by_cases hflag : d.flags &&& d.mask ≠ 0
  · rw [if_pos hflag, if_pos hflag, decompressReference]
    cases hrest : s.rest with
    | nil =>
      obtain ⟨e, herr⟩ := takeCompressedByte_nil (h.ahead.trans hrest) "compression backreference hash"
      exact ⟨e, by rw [herr, Exec.err_bind]⟩
    | cons hash rest =>
      obtain ⟨htake, hahead, hwithin⟩ :=
        takeCompressedByte_cons hvec (h.ahead.trans hrest) "compression backreference hash"
      rw [htake, Exec.ok_bind]
      cases rest with
      | nil =>
        obtain ⟨e, herr⟩ := takeCompressedByte_nil hahead "compression backreference length"
        exact ⟨e, by simp only [herr, Exec.err_bind]⟩
      | cons extra rest =>
        obtain ⟨hnext, hahead', hwithin'⟩ :=
          takeCompressedByte_cons hvec hahead "compression backreference length"
        exact ⟨_, by simp only [hnext, Exec.ok_bind]; rfl, rfl, rfl, hahead', hwithin'⟩
  · rw [if_neg hflag, if_neg hflag, decompressLiteral]
    cases hrest : s.rest with
    | nil =>
      obtain ⟨e, herr⟩ := takeCompressedByte_nil (h.ahead.trans hrest) "compressed literal"
      exact ⟨e, by rw [herr, Exec.err_bind]⟩
    | cons b rest =>
      obtain ⟨htake, hahead, hwithin⟩ :=
        takeCompressedByte_cons hvec (h.ahead.trans hrest) "compressed literal"
      exact ⟨_, by rw [htake, Exec.ok_bind]; rfl, rfl, rfl, hahead, hwithin⟩

/-- **One iteration** of the loop is one operation of the expansion. -/
theorem decompressStep_expands (hvec : vec.length ≤ usizeMax) (htotal : total ≤ usizeMax)
    (hreads : Reads vec d s) (hholds : Holds total d o) (hmore : o.written.length < total) :
    match s.next.bind fun operation => (o.write total operation.1).map fun o' => (operation.2, o') with
    | some (s', o') => ∃ d', decompressStep vec d = .ok d' ∧ Reads vec d' s' ∧ Holds total d' o'
    | none => ∃ e, decompressStep vec d = Exec.err e := by
  have hrefill := refillFlags_reads hvec hreads
  unfold Source.next decompressStep
  cases hs : s.refill with
  | none =>
    rw [hs] at hrefill
    obtain ⟨e, herr⟩ := hrefill
    exact ⟨e, by rw [herr, Exec.err_bind]⟩
  | some s₁ =>
    rw [hs] at hrefill
    obtain ⟨flags, mask, position, hrun, hreads₁⟩ := hrefill
    rw [hrun, Exec.ok_bind, Option.bind_some]
    have htoken := decompressToken_reads hvec hreads₁
    cases htake : s₁.take with
    | none =>
      rw [htake] at htoken
      obtain ⟨e, herr⟩ := htoken
      exact ⟨e, by rw [herr, Exec.err_bind]⟩
    | some operation =>
      obtain ⟨t, s'⟩ := operation
      rw [htake] at htoken
      obtain ⟨position', hread, hflags, hmask, hahead, hwithin⟩ := htoken
      have hloaded : Holds total
          { d with flags := flags, mask := mask, compressedPosition := position' } o :=
        ⟨hholds.size, hholds.position, hholds.written, hholds.hashed, hholds.behind,
          hholds.dictionary⟩
      have hwrite := write_holds hloaded hmore htotal t
      rw [hread, Option.bind_some]
      cases ho : o.write total t with
      | none =>
        rw [ho] at hwrite
        obtain ⟨e, herr⟩ := hwrite
        exact ⟨e, by rw [herr, Exec.err_bind]⟩
      | some o' =>
        rw [ho] at hwrite
        obtain ⟨d', hok, hholds', hcp, hf, hm⟩ := hwrite
        refine ⟨{ d' with mask := d'.mask <<< 1 }, by rw [hok, Exec.ok_bind], ⟨?_, ?_, ?_, ?_⟩,
          ⟨hholds'.size, hholds'.position, hholds'.written, hholds'.hashed, hholds'.behind,
            hholds'.dictionary⟩⟩
        · exact hf.trans (hreads₁.flags.trans hflags.symm)
        · simp only [hm]
          rw [show s'.mask = s₁.mask <<< 1 from hmask, ← hreads₁.mask]
        · simp only [hcp]
          exact hahead
        · simp only [hcp]
          exact hwithin

/-- Every operation writes: one byte, or the run of a back reference. -/
theorem write_length {o' : Output} {t : Token} (h : o.write total t = some o') :
    o'.written.length = o.written.length + t.width := by
  cases t with
  | literal b =>
    simp only [Output.write, Option.some.injEq] at h
    subst h
    simp [Token.width]
  | reference hash extra =>
    simp only [Output.write, Option.ite_none_right_eq_some, Option.some.injEq] at h
    obtain ⟨-, rfl⟩ := h
    rw [appendRun_length, Token.width]

/-- **The loop** is the expansion; the fuel is enough because every operation writes. -/
theorem decompressLoop_expands (hvec : vec.length ≤ usizeMax) (htotal : total ≤ usizeMax) (fuel : Nat) :
    ∀ (d : Decompressor) (s : Source) (o : Output), Reads vec d s → Holds total d o →
      total ≤ o.written.length + fuel →
      (∃ d' s' o', expand total fuel s o = some (s', o') ∧ decompressLoop vec fuel d = .ok d' ∧
        Reads vec d' s' ∧ Holds total d' o' ∧ o'.written.length = total) ∨
      (expand total fuel s o = none ∧ ∃ e, decompressLoop vec fuel d = Exec.err e) := by
  induction fuel with
  | zero =>
    intro d s o hreads hholds hfuel
    have hroom := hholds.room
    have hposition := hholds.position
    have hsize := hholds.size
    refine .inl ⟨d, s, o, ?_, ?_, hreads, hholds, by omega⟩
    · rw [expand, if_neg (by omega)]
    · rw [decompressLoop, if_neg (by omega)]
  | succ fuel ih =>
    intro d s o hreads hholds hfuel
    have hroom := hholds.room
    have hposition := hholds.position
    have hsize := hholds.size
    by_cases hmore : o.written.length < total
    · have hstep := decompressStep_expands hvec htotal hreads hholds hmore
      rw [expand, if_pos hmore, decompressLoop, if_pos (by omega)]
      cases hnext : s.next with
      | none =>
        rw [hnext] at hstep
        obtain ⟨e, herr⟩ := hstep
        exact .inr ⟨rfl, e, by rw [herr, Exec.err_bind]⟩
      | some operation =>
        rw [hnext, Option.bind_some] at hstep
        rw [Option.bind_some]
        cases hwrite : o.write total operation.1 with
        | none =>
          rw [hwrite] at hstep
          obtain ⟨e, herr⟩ := hstep
          exact .inr ⟨rfl, e, by rw [herr, Exec.err_bind]⟩
        | some o' =>
          rw [hwrite] at hstep
          obtain ⟨d', hok, hreads', hholds'⟩ := hstep
          have hlen := write_length hwrite
          have hwidth := operation.1.width_pos
          rw [Option.bind_some, hok, Exec.ok_bind]
          exact ih d' operation.2 o' hreads' hholds' (by omega)
    · refine .inl ⟨d, s, o, ?_, ?_, hreads, hholds, by omega⟩
      · rw [expand, if_neg hmore]
      · rw [decompressLoop, if_neg (by omega)]

end Steps

/-- The whole expansion of the compressed bytes into `total` bytes, all of them used. -/
def expandAll (total : Nat) (compressed : Bytes) : Option Bytes :=
  match expand total total (Source.start compressed) Output.start with
  | some (s, o) => if s.rest = [] then some o.written else none
  | none => none

theorem decompressedTotalLength_noPanic (vec : Bytes) (startPos : Nat) :
    NoPanic (decompressedTotalLength vec startPos) := by
  unfold decompressedTotalLength deserializationErr
  split
  · exact (noPanic_okOr _ _).bind fun _ _ => noPanic_ok _
  split
  · exact (noPanic_okOr _ _).bind fun _ _ => noPanic_ok _
  · exact noPanic_err _

/-- The prefix stands in front of the compressed bytes. -/
theorem decompressedTotalLength_width {vec : Bytes} {startPos total : Nat}
    (h : decompressedTotalLength vec startPos = .ok total) :
    (startPos = 4 ∨ startPos = 8) ∧ startPos ≤ vec.length := by
  unfold decompressedTotalLength at h
  split at h
  · next hwidth =>
    obtain ⟨bytes, hbytes, -⟩ := Exec.bind_eq_ok.mp h
    exact ⟨.inl hwidth, hwidth ▸ (getRange_eq_some.mp (Exec.okOr_eq_ok.mp hbytes)).2.1⟩
  split at h
  · next hwidth =>
    obtain ⟨bytes, hbytes, -⟩ := Exec.bind_eq_ok.mp h
    exact ⟨.inr hwidth, hwidth ▸ (getRange_eq_some.mp (Exec.okOr_eq_ok.mp hbytes)).2.1⟩
  · exact absurd h (by simp [deserializationErr])

/-- **What `decompress` computes.** It ends with an error, or the prefix declares the
destination's length and the destination is left holding the expansion of what follows. -/
theorem decompress_expands {vec deVec : Bytes} {startPos : Nat} (hvec : vec.length ≤ usizeMax)
    (hdeVec : deVec.length ≤ usizeMax) :
    (∃ out, decompress vec deVec startPos = .ok out ∧
      decompressedTotalLength vec startPos = .ok (deVec.length + 8) ∧
      expandAll deVec.length (vec.drop startPos) = some out ∧ out.length = deVec.length) ∨
    ((∃ e, decompress vec deVec startPos = Exec.err e) ∧
      ¬ (decompressedTotalLength vec startPos = .ok (deVec.length + 8) ∧
        (expandAll deVec.length (vec.drop startPos)).isSome)) := by
  unfold decompress
  cases hlead : decompressedTotalLength vec startPos with
  | error failure =>
    cases failure with
    | panic => exact absurd hlead (decompressedTotalLength_noPanic vec startPos)
    | error e => exact .inr ⟨⟨e, rfl⟩, fun h => by cases h.1⟩
  | ok total =>
    obtain ⟨-, hstart⟩ := decompressedTotalLength_width hlead
    rw [Exec.ok_bind]
    cases hbody : checkedSub total 8 with
    | none =>
      refine .inr ⟨⟨_, rfl⟩, ?_⟩
      rintro ⟨htotal, -⟩
      cases htotal
      simp [checkedSub] at hbody
    | some expected =>
      rw [Exec.okOr_some, Exec.ok_bind]
      have hexpected : 8 ≤ total ∧ expected = total - 8 := by
        unfold checkedSub at hbody
        split at hbody
        · exact ⟨by assumption, (Option.some.inj hbody).symm⟩
        · cases hbody
      by_cases hlength : expected ≠ deVec.length
      · rw [if_pos hlength]
        refine .inr ⟨⟨_, rfl⟩, ?_⟩
        rintro ⟨htotal, -⟩
        cases htotal
        omega
      · rw [if_neg hlength]
        have htotal : total = deVec.length + 8 := by omega
        rcases decompressLoop_expands hvec hdeVec deVec.length
          { deVec := deVec, compressedPosition := startPos, outputPosition := 0, hashPosition := 0,
            flags := 0, mask := 0, dictionary := fun _ => invalidOffset }
          (Source.start (vec.drop startPos)) Output.start ⟨rfl, rfl, rfl, hstart⟩
          ⟨rfl, rfl, rfl, rfl, Nat.le_refl _, rfl⟩ (Nat.le_add_left _ _) with
          ⟨d, s, o, hexpand, hloop, hreads, hholds, hfull⟩ | ⟨hexpand, e, herr⟩
        · have hpast := hreads.within
          have hahead := congrArg List.length hreads.ahead
          rw [List.length_drop] at hahead
          simp only [hloop, Exec.ok_bind]
          by_cases hend : d.compressedPosition = vec.length
          · have hrest : s.rest = [] := List.eq_nil_of_length_eq_zero (by omega)
            have hout : d.deVec = o.written := by
              rw [← hholds.written, hfull, List.take_of_length_le (by rw [hholds.size])]
            refine .inl ⟨o.written, ?_, by rw [htotal], ?_, hfull⟩
            · rw [if_neg (by simpa using hend), hout]
            · rw [expandAll, hexpand]
              exact if_pos hrest
          · rw [if_pos hend, subtract, if_pos hpast]
            refine .inr ⟨⟨_, rfl⟩, ?_⟩
            rintro ⟨-, hsome⟩
            have hrest : s.rest ≠ [] := by
              intro hnil
              rw [hnil, List.length_nil] at hahead
              omega
            rw [expandAll, hexpand] at hsome
            simp [hrest] at hsome
        · refine .inr ⟨⟨e, by simp only [herr, Exec.err_bind]⟩, ?_⟩
          rintro ⟨-, hsome⟩
          rw [expandAll, hexpand] at hsome
          cases hsome

/-- The locals in front of the `while` loop. -/
def Decompressor.start (deVec : Bytes) (startPos : Nat) : Decompressor :=
  { deVec := deVec, compressedPosition := startPos, outputPosition := 0, hashPosition := 0,
    flags := 0, mask := 0, dictionary := fun _ => invalidOffset }

/-- `Ok` comes out of a finished loop only. -/
theorem decompress_finished {vec deVec out : Bytes} {startPos : Nat}
    (h : decompress vec deVec startPos = .ok out) :
    ∃ d, decompressLoop vec deVec.length (Decompressor.start deVec startPos) = .ok d ∧
      d.compressedPosition = vec.length ∧ d.deVec = out := by
  obtain ⟨total, -, hrest⟩ := Exec.bind_eq_ok.mp h
  obtain ⟨expected, -, hrest⟩ := Exec.bind_eq_ok.mp hrest
  split at hrest
  · exact absurd hrest (by simp [deserializationErr])
  obtain ⟨d, hloop, hend⟩ := Exec.bind_eq_ok.mp hrest
  refine ⟨d, hloop, ?_⟩
  split at hend
  · obtain ⟨trailing, -, herr⟩ := Exec.bind_eq_ok.mp hend
    exact absurd herr (by simp [deserializationErr])
  · next hposition => exact ⟨not_not.mp hposition, Except.ok.inj hend⟩

/-- A back reference reads from a pair that is written: byte `i` of its run is read from
in front of the place it is written to. -/
theorem writeReference_source {d d' : Decompressor} {hash extra : UInt8}
    (h : writeReference d hash extra = .ok d') : d.dictionary hash + 2 ≤ d.outputPosition := by
  obtain ⟨copied, hcopy, -⟩ := Exec.bind_eq_ok.mp h
  by_contra hbad
  obtain ⟨e, herr⟩ := @copyReference_refused d.deVec (d.dictionary hash) d.outputPosition extra.toNat
    hash fun hok => hbad hok.1
  rw [herr] at hcopy
  exact absurd hcopy (Exec.err_ne_ok _ _)

theorem decompress_noPanic {vec deVec : Bytes} {startPos : Nat} (hvec : vec.length ≤ usizeMax)
    (hdeVec : deVec.length ≤ usizeMax) : NoPanic (decompress vec deVec startPos) := by
  rcases @decompress_expands vec deVec startPos hvec hdeVec with ⟨out, hok, -⟩ | ⟨⟨e, herr⟩, -⟩
  · rw [hok]
    exact noPanic_ok out
  · rw [herr]
    exact noPanic_err e

/-- **Decompression of arbitrary bytes** into arbitrary destinations. It never panics and
never runs out of fuel. When it succeeds, every compressed byte is consumed, the output
position stands at the end of the destination, and the destination holds the expansion of
the compressed bytes, whatever it held before. A back reference only starts where a pair is
written, and its block copy is the copy of one byte after the other. -/
theorem decompress_definite (vec deVec : Bytes) (startPos : Nat) (hvec : vec.length ≤ usizeMax)
    (hdeVec : deVec.length ≤ usizeMax) :
    NoPanic (decompress vec deVec startPos) ∧
    (∀ out, decompress vec deVec startPos = .ok out →
      (∃ d, decompressLoop vec deVec.length (Decompressor.start deVec startPos) = .ok d ∧
        d.compressedPosition = vec.length ∧ d.outputPosition = deVec.length ∧
        d.deVec = out ∧ out.length = deVec.length) ∧
      expandAll deVec.length (vec.drop startPos) = some out ∧
      ∀ deVec' : Bytes, deVec'.length = deVec.length → decompress vec deVec' startPos = .ok out) ∧
    (∀ d hash extra d', writeReference d hash extra = .ok d' →
      d.dictionary hash + 2 ≤ d.outputPosition) ∧
    ∀ source count output (buffer : Bytes), source + count ≤ output →
      output + count ≤ buffer.length →
      copyWithin source (source + count) output buffer = copyForward source output count buffer := by
  refine ⟨decompress_noPanic hvec hdeVec, ?_, fun _ _ _ _ => writeReference_source,
    fun _ _ _ _ => copyWithin_eq_copyForward⟩
  · intro out hok
    obtain ⟨d, hloop, hend, hout⟩ := decompress_finished hok
    obtain ⟨hlead, hall, hlen⟩ : decompressedTotalLength vec startPos = .ok (deVec.length + 8) ∧
        expandAll deVec.length (vec.drop startPos) = some out ∧ out.length = deVec.length := by
      rcases @decompress_expands vec deVec startPos hvec hdeVec with ⟨out', hok', h⟩ | ⟨⟨e, herr⟩, -⟩
      · obtain rfl : out' = out := Except.ok.inj (hok'.symm.trans hok)
        exact h
      · rw [herr] at hok
        exact absurd hok (Exec.err_ne_ok _ _)
    refine ⟨⟨d, hloop, hend, ?_, hout, hlen⟩, hall, ?_⟩
    · rcases decompressLoop_expands hvec hdeVec deVec.length (Decompressor.start deVec startPos)
        (Source.start (vec.drop startPos)) Output.start
        ⟨rfl, rfl, rfl, (decompressedTotalLength_width hlead).2⟩
        ⟨rfl, rfl, rfl, rfl, Nat.le_refl _, rfl⟩ (Nat.le_add_left _ _) with
        ⟨d', s, o, -, hloop', -, hholds, hfull⟩ | ⟨-, e, herr⟩
      · obtain rfl : d' = d := Except.ok.inj (hloop'.symm.trans hloop)
        rw [hholds.position, hfull]
      · rw [herr] at hloop
        exact absurd hloop (Exec.err_ne_ok _ _)
    · intro deVec' hsame
      rcases @decompress_expands vec deVec' startPos hvec (by omega) with
        ⟨out', hok', -, hall', -⟩ | ⟨-, hnot⟩
      · rw [hsame, hall] at hall'
        rw [hok', Option.some.inj hall']
      · rw [hsame, hall] at hnot
        exact absurd ⟨hlead, rfl⟩ hnot

/-- A back reference that overlaps its own run: `ab` and then five more bytes from it. -/
theorem decompress_definite_overlap :
    let vec : Bytes := [15, 0, 0, 0, 4, 97, 98, 3, 3]
    let deVec : Bytes := [9, 9, 9, 9, 9, 9, 9]
    NoPanic (decompress vec deVec 4) ∧ decompress vec deVec 4 = .ok [97, 98, 97, 98, 97, 98, 97] ∧
      ∀ deVec' : Bytes, deVec'.length = 7 →
        decompress vec deVec' 4 = .ok [97, 98, 97, 98, 97, 98, 97] := by
  intro vec deVec
  have hok : decompress vec deVec 4 = .ok [97, 98, 97, 98, 97, 98, 97] := by decide
  have hdefinite := decompress_definite vec deVec 4 (by decide) (by decide)
  exact ⟨hdefinite.1, hok, (hdefinite.2.1 _ hok).2.2⟩

/-! ## How far an expansion reaches -/

/-- What a run of operations costs and gives: `references` of its `operations` are back
references, and a flag byte was read whenever the open group had no slot left. -/
structure Spent (s s' : Source) (o o' : Output) (slots slots' : Nat) where
  operations : Nat
  references : Nat
  flagBytes : Nat
  kinds : references ≤ operations
  consumed : s.rest.length = s'.rest.length + operations + references + flagBytes
  groups : 8 * flagBytes + slots = operations + slots'
  least : o.written.length + operations + references ≤ o'.written.length
  most : o'.written.length ≤ o.written.length + operations + 256 * references

/-- The group that is open has `slots` operations to come. -/
def Source.Slots (s : Source) (slots : Nat) : Prop := slots < 8 ∧ s.mask = maskAt (8 - slots)

theorem refill_slots {s s' : Source} {slots : Nat} (h : s.refill = some s') (hslots : s.Slots slots) :
    ∃ flagBytes left, left < 8 ∧ s'.mask = maskAt (7 - left) ∧
      s.rest.length = s'.rest.length + flagBytes ∧ 8 * flagBytes + slots = 1 + left := by
  obtain ⟨hlt, hmask⟩ := hslots
  unfold Source.refill at h
  by_cases hzero : slots = 0
  · subst hzero
    rw [if_pos (by rw [hmask]; exact maskAt_eight)] at h
    cases hrest : s.rest with
    | nil =>
      rw [hrest] at h
      cases h
    | cons flags rest =>
      rw [hrest] at h
      cases h
      exact ⟨1, 7, by omega, rfl, rfl, rfl⟩
  · rw [if_neg (by rw [hmask]; exact maskAt_ne_zero (by omega))] at h
    cases h
    refine ⟨0, slots - 1, by omega, ?_, rfl, by omega⟩
    rw [hmask]
    congr 1
    omega

theorem take_bytes {s s' : Source} {t : Token} (h : s.take = some (t, s')) :
    s'.mask = s.mask <<< 1 ∧ s.rest = t.bytes ++ s'.rest := by
  unfold Source.take at h
  split at h
  · cases hrest : s.rest with
    | nil =>
      rw [hrest] at h
      cases h
    | cons hash rest =>
      cases rest with
      | nil =>
        rw [hrest] at h
        cases h
      | cons extra rest =>
        rw [hrest] at h
        cases h
        exact ⟨rfl, rfl⟩
  · cases hrest : s.rest with
    | nil =>
      rw [hrest] at h
      cases h
    | cons b rest =>
      rw [hrest] at h
      cases h
      exact ⟨rfl, rfl⟩

theorem next_slots {s s' : Source} {t : Token} {slots : Nat} (h : s.next = some (t, s'))
    (hslots : s.Slots slots) :
    ∃ flagBytes left, s'.Slots left ∧ s.rest.length = s'.rest.length + t.bytes.length + flagBytes ∧
      8 * flagBytes + slots = 1 + left := by
  obtain ⟨opened, hrefill, htake⟩ := Option.bind_eq_some_iff.mp h
  obtain ⟨flagBytes, left, hleft, hmask, hconsumed, hgroups⟩ := refill_slots hrefill hslots
  obtain ⟨hshift, hbytes⟩ := take_bytes htake
  refine ⟨flagBytes, left, ⟨hleft, ?_⟩, ?_, hgroups⟩
  · rw [hshift, hmask, maskAt_succ]
    congr 1
    omega
  · rw [hconsumed, hbytes, List.length_append]
    omega

theorem Token.width_bounds (t : Token) :
    t.bytes.length = 1 + t.isReference.toNat ∧ 1 + t.isReference.toNat ≤ t.width ∧
      t.width ≤ 1 + 256 * t.isReference.toNat := by
  cases t with
  | literal b => exact ⟨rfl, Nat.le_refl _, Nat.le_refl _⟩
  | reference hash extra =>
    have hextra := extra.toNat_lt
    refine ⟨rfl, ?_, ?_⟩
    · simp [Token.width, Token.isReference]
    · simp only [Token.width, Token.isReference, Bool.toNat_true]
      omega

/-- The expansion, counted. -/
theorem expand_spent {total : Nat} (fuel : Nat) :
    ∀ (s s' : Source) (o o' : Output) (slots : Nat), expand total fuel s o = some (s', o') →
      s.Slots slots → ∃ slots', s'.Slots slots' ∧ Nonempty (Spent s s' o o' slots slots') := by
  have hdone : ∀ (s : Source) (o : Output) (slots : Nat), s.Slots slots →
      ∃ slots', s.Slots slots' ∧ Nonempty (Spent s s o o slots slots') := by
    intro s o slots hslots
    exact ⟨slots, hslots, ⟨0, 0, 0, Nat.le_refl _, rfl, by omega, Nat.le_refl _, Nat.le_refl _⟩⟩
  induction fuel with
  | zero =>
    intro s s' o o' slots h hslots
    rw [expand] at h
    split at h
    · cases h
    · cases h
      exact hdone s o slots hslots
  | succ fuel ih =>
    intro s s' o o' slots h hslots
    rw [expand] at h
    split at h
    · obtain ⟨operation, hnext, h⟩ := Option.bind_eq_some_iff.mp h
      obtain ⟨o₁, hwrite, h⟩ := Option.bind_eq_some_iff.mp h
      obtain ⟨flagBytes, left, hleft, hconsumed, hgroups⟩ := next_slots hnext hslots
      obtain ⟨slots', hslots', ⟨later⟩⟩ := ih _ _ _ _ _ h hleft
      have hwritten := write_length hwrite
      obtain ⟨hbytes, hleast, hmost⟩ := operation.1.width_bounds
      have hbit : operation.1.isReference.toNat ≤ 1 := Bool.toNat_le _
      have hkinds := later.kinds
      have hconsumed' := later.consumed
      have hgroups' := later.groups
      have hleast' := later.least
      have hmost' := later.most
      refine ⟨slots', hslots', ⟨later.operations + 1,
        later.references + operation.1.isReference.toNat, later.flagBytes + flagBytes, ?_, ?_, ?_, ?_,
        ?_⟩⟩ <;> omega
    · cases h
      exact hdone s o slots hslots

/-- **The two bounds on a compressed body**: it is at most as long as its expansion and a
flag byte for every eight bytes of it, and its expansion is at most 121 times as long. -/
theorem decompress_lengths {vec deVec out : Bytes} {startPos : Nat} (hvec : vec.length ≤ usizeMax)
    (hdeVec : deVec.length ≤ usizeMax) (h : decompress vec deVec startPos = .ok out) :
    (startPos = 4 ∨ startPos = 8) ∧ startPos ≤ vec.length ∧
      decompressedTotalLength vec startPos = .ok (deVec.length + 8) ∧
      vec.length - startPos ≤ deVec.length + (deVec.length + 7) / 8 ∧
      deVec.length ≤ (vec.length - startPos) * 121 := by
  rcases @decompress_expands vec deVec startPos hvec hdeVec with
    ⟨out', -, hlead, hall, hlen⟩ | ⟨⟨e, herr⟩, -⟩
  · obtain ⟨hwidth, hstart⟩ := decompressedTotalLength_width hlead
    refine ⟨hwidth, hstart, hlead, ?_⟩
    unfold expandAll at hall
    cases hexpand : expand deVec.length deVec.length (Source.start (vec.drop startPos)) Output.start with
    | none =>
      rw [hexpand] at hall
      cases hall
    | some final =>
      obtain ⟨s, o⟩ := final
      rw [hexpand] at hall
      simp only [Option.ite_none_right_eq_some, Option.some.injEq] at hall
      obtain ⟨hrest, rfl⟩ := hall
      obtain ⟨slots, ⟨hslots, -⟩, ⟨spent⟩⟩ := expand_spent _ _ _ _ _ 0 hexpand ⟨by omega, rfl⟩
      have hkinds := spent.kinds
      have hconsumed := spent.consumed
      have hgroups := spent.groups
      have hleast := spent.least
      have hmost := spent.most
      simp only [Source.start, List.length_drop, hrest, List.length_nil] at hconsumed
      simp only [Output.start, List.length_nil] at hleast hmost
      omega
  · rw [herr] at h
    exact absurd h (Exec.err_ne_ok _ _)

end Xqdb.Compression
