import Xqdb.Connector.QStream

/-! `read_file_fallibly` of `io.rs`: a file is read whole, whatever length its metadata
reports. The buffer grows only through reservations that may be refused; between two of
them a single byte is read to tell the end of the file from a longer one. -/

namespace Xqdb.Io

open Incoming (Unfailing content readSome)
open Connector (QStream Buffer readToEnd)

/-- `INITIAL_FILE_RESERVATION`. -/
def initialFileReservation : Nat := 64 * 1024

/-- `TryReserveError`. -/
inductive TryReserveError where
  | capacityOverflow
  | allocError
  deriving DecidableEq, Repr

def TryReserveError.text : TryReserveError → String
  | .capacityOverflow => "memory allocation failed because the computed capacity exceeded the collection's maximum"
  | .allocError => "memory allocation failed because the memory allocator returned an error"

/-- The capacity the heap hands out for a request, if it serves it. -/
structure Heap where
  allocate : Nat → Option Nat
  enough : ∀ {request capacity}, allocate request = some capacity → request ≤ capacity ∧ capacity ≤ isizeMax

/-- Why the heap does not serve a request. -/
def Heap.Refuses (heap : Heap) (request : Nat) : TryReserveError → Prop
  | .capacityOverflow => isizeMax < request
  | .allocError => heap.allocate request = none

/-- `try_reserve_exact`. -/
def tryReserveExact (heap : Heap) (buffer : Buffer) (additional : Nat) : Except TryReserveError Buffer :=
  let request := buffer.bytes.length + additional
  if request ≤ buffer.capacity then .ok buffer
  else if isizeMax < request then .error .capacityOverflow
  else
    match heap.allocate request with
    | none => .error .allocError
    | some capacity => .ok ⟨buffer.bytes, max buffer.capacity capacity, Nat.le_trans buffer.fits (Nat.le_max_left _ _)⟩

def unableToAllocate (target : Nat) (description : String) (error : TryReserveError) : XqdbError :=
  let reason := error.text
  .Err s!"Unable to allocate {target}-byte {description} buffer: {reason}"

/-- `try_reserve_exact(..).map_err(..)?`, the error naming `target`. -/
def reserveOrReport (heap : Heap) (description : String) (buffer : Buffer) (additional target : Nat) : Exec Buffer :=
  match tryReserveExact heap buffer additional with
  | .ok buffer => .ok buffer
  | .error error => Exec.err (unableToAllocate target description error)

def growthTarget (buffer : Buffer) : Nat :=
  max (min (buffer.capacity * 2) usizeMax) initialFileReservation

def grow (heap : Heap) (description : String) (buffer : Buffer) : Exec Buffer :=
  let target := growthTarget buffer
  reserveOrReport heap description buffer (target - buffer.bytes.length) target

/-- One byte, or nothing at the end of the file. -/
def probe (stream : QStream) : Exec (Option UInt8 × QStream) :=
  match readSome 1 stream with
  | (_, .failed e, _) => Exec.err e.toError
  | (bytes, _, stream) => .ok (bytes.head?, stream)

/-- `take(spare).read_to_end(..)`, not called for a full buffer. -/
def readSpare (spare : Nat) (stream : QStream) : Exec (Bytes × QStream) :=
  if 0 < spare then readToEnd spare stream else .ok ([], stream)

def readLoop (heap : Heap) (description : String) : Nat → Buffer → QStream → Exec Bytes
  | 0, _, _ => Exec.panicked
  | fuel + 1, buffer, stream => do
    let spare := buffer.capacity - buffer.bytes.length
    let (bytes, stream) ← readSpare spare stream
    let buffer := buffer.extendFromSlice bytes
    if bytes.length < spare then return buffer.bytes
    let (probed, stream) ← probe stream
    match probed with
    | none => return buffer.bytes
    | some byte =>
      let buffer ← grow heap description buffer
      readLoop heap description fuel (buffer.extendFromSlice [byte]) stream

/-- Every turn of the loop takes a byte, so the bytes ahead are fuel enough. -/
def readFileFallibly (heap : Heap) (stream : QStream) (hint : Nat) (description : String) : Exec Bytes := do
  let buffer ←
    if 0 < hint then reserveOrReport heap description Buffer.empty hint hint
    else grow heap description Buffer.empty
  readLoop heap description ((content stream).length + 1) buffer stream

/-! ## Reservations -/

theorem tryReserveExact_cases (heap : Heap) {buffer : Buffer} (hcapacity : buffer.capacity ≤ isizeMax) (additional : Nat) :
    (∃ larger, tryReserveExact heap buffer additional = .ok larger ∧ larger.bytes = buffer.bytes ∧
      buffer.bytes.length + additional ≤ larger.capacity ∧ larger.capacity ≤ isizeMax) ∨
    ∃ error, tryReserveExact heap buffer additional = .error error ∧
      heap.Refuses (buffer.bytes.length + additional) error := by
  simp only [tryReserveExact]
  by_cases hroom : buffer.bytes.length + additional ≤ buffer.capacity
  · rw [if_pos hroom]
    exact .inl ⟨buffer, rfl, rfl, hroom, hcapacity⟩
  · rw [if_neg hroom]
    by_cases hlarge : isizeMax < buffer.bytes.length + additional
    · rw [if_pos hlarge]
      exact .inr ⟨_, rfl, hlarge⟩
    · rw [if_neg hlarge]
      cases hserved : heap.allocate (buffer.bytes.length + additional) with
      | none => exact .inr ⟨_, rfl, hserved⟩
      | some capacity =>
        obtain ⟨henough, hfits⟩ := heap.enough hserved
        exact .inl ⟨_, rfl, rfl, Nat.le_trans henough (Nat.le_max_right _ _), Nat.max_le.mpr ⟨hcapacity, hfits⟩⟩

/-- A reservation gives the room, or the report of a request the heap refuses. -/
theorem reserveOrReport_cases (heap : Heap) (description : String) {buffer : Buffer}
    (hcapacity : buffer.capacity ≤ isizeMax) {additional target : Nat}
    (htarget : target = buffer.bytes.length + additional) :
    (∃ larger, reserveOrReport heap description buffer additional target = .ok larger ∧
      larger.bytes = buffer.bytes ∧ target ≤ larger.capacity ∧ larger.capacity ≤ isizeMax) ∨
    ∃ error, heap.Refuses target error ∧ reserveOrReport heap description buffer additional target =
      Exec.err (unableToAllocate target description error) := by
  obtain ⟨larger, heq, hbytes, hroom, hfits⟩ | ⟨error, heq, hrefuses⟩ :=
    tryReserveExact_cases heap hcapacity additional
  · rw [reserveOrReport, heq]
    exact .inl ⟨larger, rfl, hbytes, htarget ▸ hroom, hfits⟩
  · rw [reserveOrReport, heq]
    exact .inr ⟨error, htarget ▸ hrefuses, rfl⟩

theorem growthTarget_gt {buffer : Buffer} (hcapacity : buffer.capacity ≤ isizeMax) :
    buffer.capacity < growthTarget buffer := by
  simp only [growthTarget, initialFileReservation, usizeMax, isizeMax] at *
  omega

theorem growthTarget_le (buffer : Buffer) :
    growthTarget buffer ≤ max initialFileReservation (2 * buffer.capacity) := by
  simp only [growthTarget]
  omega

theorem grow_cases (heap : Heap) (description : String) {buffer : Buffer} (hcapacity : buffer.capacity ≤ isizeMax) :
    (∃ larger, grow heap description buffer = .ok larger ∧ larger.bytes = buffer.bytes ∧
      buffer.capacity < larger.capacity ∧ larger.capacity ≤ isizeMax) ∨
    ∃ error, heap.Refuses (growthTarget buffer) error ∧
      grow heap description buffer = Exec.err (unableToAllocate (growthTarget buffer) description error) := by
  have hgrows := growthTarget_gt hcapacity
  have hfits := buffer.fits
  have htarget : growthTarget buffer = buffer.bytes.length + (growthTarget buffer - buffer.bytes.length) := by omega
  obtain ⟨larger, heq, hbytes, hroom, hmax⟩ | h := reserveOrReport_cases heap description hcapacity htarget
  · exact .inl ⟨larger, heq, hbytes, Nat.lt_of_lt_of_le hgrows hroom, hmax⟩
  · exact .inr h

/-! ## Reads -/

theorem readToEnd_unfailing {limit : Nat} {stream : QStream} (hstream : Unfailing stream) :
    ∃ rest, readToEnd limit stream = .ok ((content stream).take limit, rest) ∧ Unfailing rest ∧
      content rest = (content stream).drop limit := by
  obtain ⟨hrest, hstop⟩ := Incoming.drain_unfailing hstream limit
  by_cases hlong : limit ≤ (content stream).length
  · obtain ⟨rest, hdrain, hahead⟩ := Incoming.drain_full stream limit hlong
    rw [hdrain] at hrest
    exact ⟨rest, by rw [readToEnd, hdrain], hrest, hahead⟩
  · obtain ⟨stop, rest, hdrain, ⟨rfl, rfl⟩ | ⟨e, rfl⟩⟩ := Incoming.drain_short stream limit (by omega)
    · refine ⟨[], ?_, by simp [Unfailing], ?_⟩
      · rw [readToEnd, hdrain, List.take_of_length_le (by omega)]
      · rw [List.drop_of_length_le (by omega), content]
    · rw [hdrain] at hstop
      exact absurd rfl (hstop e)

theorem readSpare_unfailing (spare : Nat) {stream : QStream} (hstream : Unfailing stream) :
    ∃ rest, readSpare spare stream = .ok ((content stream).take spare, rest) ∧ Unfailing rest ∧
      content rest = (content stream).drop spare := by
  by_cases hspare : 0 < spare
  · rw [readSpare, if_pos hspare]
    exact readToEnd_unfailing hstream
  · obtain rfl : spare = 0 := by omega
    exact ⟨stream, rfl, hstream, rfl⟩

theorem probe_unfailing {stream : QStream} (hstream : Unfailing stream) :
    (∃ byte rest, probe stream = .ok (some byte, rest) ∧ Unfailing rest ∧ content stream = byte :: content rest) ∨
      content stream = [] ∧ ∃ rest, probe stream = .ok (none, rest) := by
  obtain ⟨hrest, hstop⟩ := Incoming.readSome_unfailing hstream 1
  obtain ⟨bytes, rest, hread, hne, hlength, hahead⟩ | ⟨hempty, stop, rest, hread, hend⟩ :=
    Incoming.readSome_content 1 Nat.one_pos stream
  · rw [hread] at hrest
    obtain ⟨byte, rfl⟩ : ∃ byte, bytes = [byte] :=
      List.length_eq_one_iff.mp (Nat.le_antisymm hlength (List.length_pos_iff.mpr hne))
    exact .inl ⟨byte, rest, by rw [probe, hread]; rfl, hrest, hahead⟩
  · rw [hread] at hstop
    obtain rfl | ⟨e, rfl⟩ := hend
    · exact .inr ⟨hempty, rest, by rw [probe, hread]; rfl⟩
    · exact absurd rfl (hstop e)

/-! ## The loop -/

/-- How a read ends: with the bytes, or with the report that the heap refuses a request. -/
def Ends (heap : Heap) (description : String) (requested : Nat → Prop) (bytes : Bytes) (result : Exec Bytes) : Prop :=
  result = .ok bytes ∨ ∃ target error, requested target ∧ heap.Refuses target error ∧
    result = Exec.err (unableToAllocate target description error)

/-- The requests that growing makes for a file of `size` bytes. -/
def GrowthRequest (size target : Nat) : Prop := target ≤ max initialFileReservation (2 * size)

/-- The buffer keeps what was read, the stream the rest; the probed byte goes in between. -/
theorem readLoop_ends (heap : Heap) (description : String) :
    ∀ (fuel : Nat) (buffer : Buffer) (stream : QStream), Unfailing stream → (content stream).length < fuel →
      buffer.capacity ≤ isizeMax →
      Ends heap description (GrowthRequest (buffer.bytes ++ content stream).length) (buffer.bytes ++ content stream)
        (readLoop heap description fuel buffer stream) := by
  intro fuel
  induction fuel with
  | zero =>
    intro buffer stream _ hfuel
    omega
  | succ fuel ih =>
    intro buffer stream hstream hfuel hcapacity
    obtain ⟨rest, hread, hrest, hahead⟩ := readSpare_unfailing (buffer.capacity - buffer.bytes.length) hstream
    have hfits := buffer.fits
    simp only [readLoop, hread, Exec.ok_bind, List.length_take]
    by_cases hshort : (content stream).length < buffer.capacity - buffer.bytes.length
    · rw [if_pos (by omega), List.take_of_length_le (by omega)]
      exact .inl rfl
    · rw [if_neg (by omega)]
      -- the buffer is full now
      generalize hfull : buffer.extendFromSlice ((content stream).take (buffer.capacity - buffer.bytes.length)) = full
      have hbytes : full.bytes = buffer.bytes ++ (content stream).take (buffer.capacity - buffer.bytes.length) := by
        rw [← hfull]
        rfl
      have hlength : full.bytes.length = buffer.capacity := by
        rw [hbytes, List.length_append, List.length_take]
        omega
      have hsame : full.capacity = buffer.capacity := by
        rw [← hlength, hbytes, ← hfull]
        simp only [Buffer.extendFromSlice, List.length_append, List.length_take]
        omega
      have hwhole : full.bytes ++ content rest = buffer.bytes ++ content stream := by
        rw [hbytes, hahead, List.append_assoc, List.take_append_drop]
      rw [← hwhole]
      obtain ⟨byte, last, hprobe, hlast, hcons⟩ | ⟨hend, last, hprobe⟩ := probe_unfailing hrest
      · simp only [hprobe, Exec.ok_bind]
        rw [hcons]
        have hsize : full.capacity ≤ (full.bytes ++ byte :: content last).length := by
          rw [hsame, ← hlength, List.length_append]
          omega
        have hfullCapacity : full.capacity ≤ isizeMax := by omega
        obtain ⟨larger, hgrow, hkept, hroom, hmax⟩ | ⟨error, hrefuses, hgrow⟩ :=
          grow_cases heap description hfullCapacity
        · simp only [hgrow, Exec.ok_bind]
          have hpushed : (larger.extendFromSlice [byte]).capacity ≤ isizeMax := by
            simp only [Buffer.extendFromSlice, hkept, List.length_append, List.length_singleton]
            omega
          have hless : (content last).length < fuel := by
            have hdrop : (content rest).length ≤ (content stream).length := by
              rw [hahead, List.length_drop]
              omega
            rw [hcons, List.length_cons] at hdrop
            omega
          have hnext : (larger.extendFromSlice [byte]).bytes ++ content last = full.bytes ++ byte :: content last := by
            simp [Buffer.extendFromSlice, hkept]
          rw [← hnext]
          exact ih _ last hlast hless hpushed
        · simp only [hgrow, Exec.err_bind]
          refine .inr ⟨_, error, ?_, hrefuses, rfl⟩
          have htarget := growthTarget_le full
          simp only [GrowthRequest]
          omega
      · simp only [hprobe, Exec.ok_bind]
        rw [hend, List.append_nil]
        exact .inl rfl

/-- **A file is read exactly**, unless the heap refuses the hint or a growth step; then the
report names the refused size. -/
theorem readFileFallibly_exact (heap : Heap) (description : String) (hint : Nat) (stream : QStream)
    (hstream : Unfailing stream) :
    Ends heap description (fun target => target = hint ∧ 0 < hint ∨ GrowthRequest (content stream).length target)
      (content stream) (readFileFallibly heap stream hint description) := by
  have hloop : ∀ {buffer : Buffer}, buffer.bytes = [] → buffer.capacity ≤ isizeMax →
      Ends heap description (fun target => target = hint ∧ 0 < hint ∨ GrowthRequest (content stream).length target)
        (content stream) (readLoop heap description ((content stream).length + 1) buffer stream) := by
    intro buffer hempty hcapacity
    have hends := readLoop_ends heap description _ buffer stream hstream (Nat.lt_succ_self _) hcapacity
    rw [hempty, List.nil_append] at hends
    obtain hok | ⟨target, error, hrequest, hrefuses, herr⟩ := hends
    · exact .inl hok
    · exact .inr ⟨target, error, .inr hrequest, hrefuses, herr⟩
  have hzero : Buffer.empty.capacity ≤ isizeMax := Nat.zero_le _
  by_cases hhint : 0 < hint
  · simp only [readFileFallibly, if_pos hhint]
    obtain ⟨larger, hreserve, hkept, -, hmax⟩ | ⟨error, hrefuses, hreserve⟩ :=
      reserveOrReport_cases heap description hzero (show hint = Buffer.empty.bytes.length + hint by simp [Buffer.empty])
    · rw [hreserve]
      exact hloop hkept hmax
    · rw [hreserve]
      exact .inr ⟨hint, error, .inl ⟨rfl, hhint⟩, hrefuses, rfl⟩
  · simp only [readFileFallibly, if_neg hhint]
    obtain ⟨larger, hgrow, hkept, -, hmax⟩ | ⟨error, hrefuses, hgrow⟩ := grow_cases heap description hzero
    · rw [hgrow]
      exact hloop hkept hmax
    · rw [hgrow]
      refine .inr ⟨_, error, .inr ?_, hrefuses, rfl⟩
      have htarget := growthTarget_le Buffer.empty
      simp only [GrowthRequest, Buffer.empty] at *
      omega

/-- A heap that serves every request it may, with the capacity asked for. -/
def exactHeap : Heap where
  allocate request := if request ≤ isizeMax then some request else none
  enough := by
    intro request capacity h
    split at h
    · obtain rfl := Option.some.inj h
      exact ⟨Nat.le_refl _, by assumption⟩
    · cases h

/-- Two bytes behind a hint of one, the first read interrupted. -/
theorem readFileFallibly_exact_grown :
    Unfailing ([.interrupted, .data 1 [], .data 2 []] : QStream) ∧
      Ends exactHeap "file" (fun target => target = 1 ∧ 0 < 1 ∨ GrowthRequest 2 target) [1, 2]
        (readFileFallibly exactHeap [.interrupted, .data 1 [], .data 2 []] 1 "file") := by
  have hstream : Unfailing ([.interrupted, .data 1 [], .data 2 []] : QStream) := by simp [Unfailing]
  exact ⟨hstream, readFileFallibly_exact exactHeap "file" 1 _ hstream⟩

/-- A hint beyond what an allocation can have is refused, though the file is empty. -/
theorem readFileFallibly_hint_refused :
    ∃ hint stream, hint ≤ usizeMax ∧ Unfailing stream ∧
      readFileFallibly exactHeap stream hint "file" ≠ .ok (content stream) := by
  refine ⟨2 ^ 63, [], by decide, by simp [Unfailing], ?_⟩
  have hrefused : tryReserveExact exactHeap Buffer.empty (2 ^ 63) = .error .capacityOverflow := by
    simp [tryReserveExact, Buffer.empty, isizeMax]
  rw [readFileFallibly, if_pos (by decide), reserveOrReport, hrefused]
  simp only [Exec.err_bind]
  exact Exec.err_ne_ok _ _

end Xqdb.Io
