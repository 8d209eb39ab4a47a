import Xqdb.Connector.Framing
import Xqdb.Pipeline

/-! `read_ipc_body` of `connector.rs`: one frame from the socket into the buffer that is kept
between frames. -/

namespace Xqdb.Connector

open Compression (decompress lengthField byteAt)
open Incoming (Event Stop content readSome readSome_content)
open Pipeline (Scope ReceivesTable receiveOutcome receiptFailed tableType)

def pipelineMinBodyBytes : Nat := 256 * 1024

/-- Where the body of a frame is after framing. -/
inductive IpcBody where
  | Retained
  | Decompressed (body : Bytes)
  | Decoded (value : Except XqdbError K)

def IpcBody.ofPrepared : PreparedBody → IpcBody
  | .borrowed _ => .Retained
  | .owned decompressed => .Decompressed decompressed

/-- What the connector runs on: the category numbers, the allocator, and a scheduler that
takes every pipelined receive to an end. -/
structure Runtime where
  categories : CategoricalMapping
  alloc : Allocator
  schedule : QStream → Bytes → Nat → SymbolEncoding → Scope
  complete : ∀ stream buffer total encoding, total ≤ isizeMax → buffer.length ≤ total →
    ReceivesTable categories encoding stream buffer total (schedule stream buffer total encoding)

/-- Some runtime with given category numbers and allocator. -/
noncomputable def Runtime.ofAllocator (categories : CategoricalMapping) (alloc : Allocator) : Runtime where
  categories := categories
  alloc := alloc
  schedule stream buffer total encoding :=
    if h : total ≤ isizeMax ∧ buffer.length ≤ total then
      (Pipeline.exists_receivesTable categories encoding stream buffer total h.1 h.2).choose
    else Prefetch.State.start stream buffer (Pipeline.scanColumns categories encoding total)
  complete stream buffer total encoding hsize hbuffer := by
    rw [dif_pos ⟨hsize, hbuffer⟩]
    exact (Pipeline.exists_receivesTable categories encoding stream buffer total hsize hbuffer).choose_spec

/-- `reserve_buffer`, on an empty buffer. -/
def reserveBuffer (alloc : Allocator) (buffer : Buffer) (length : Nat) : Buffer :=
  if length ≤ buffer.capacity then buffer else buffer.tryReserveExact alloc length

/-- A full buffer grows by a factor, up to the declared length. -/
def growBody (alloc : Allocator) (bodyLength : Nat) (body : Buffer) : Exec Buffer :=
  if body.bytes.length = body.capacity then do
    let target := min bodyLength (min (body.capacity * bodyReservationFactor) usizeMax)
    let additional ← subtract target body.bytes.length
    .ok (body.tryReserveExact alloc additional)
  else .ok body

/-- The loop of `read_message_body`. -/
def readMessageBody (alloc : Allocator) (bodyLength : Nat) :
    Nat → QStream → Buffer → Exec (QStream × Buffer)
  | 0, stream, body => if body.bytes.length < bodyLength then Exec.panicked else .ok (stream, body)
  | fuel + 1, stream, body =>
    if body.bytes.length < bodyLength then do
      let body ← growBody alloc bodyLength body
      let owed := bodyLength - body.bytes.length
      let spare := min (body.capacity - body.bytes.length) owed
      let read ← readToEnd spare stream
      if read.1 = [] then Exec.err receiptFailed
      else readMessageBody alloc bodyLength fuel read.2 (body.extendFromSlice read.1)
    else .ok (stream, body)

/-- `read_some`: one read into the spare capacity. -/
def readSomeInto (bodyLength : Nat) (stream : QStream) (buffer : Buffer) : Exec (QStream × Buffer) :=
  let want := min (buffer.capacity - buffer.bytes.length) (bodyLength - buffer.bytes.length)
  match readSome want stream with
  | ([], .failed e, _) => Exec.err e.toError
  | ([], _, _) => Exec.err receiptFailed
  | (bytes, _, stream) => .ok (stream, buffer.extendFromSlice bytes)

/-- The width of the prefix; an uncompressed frame is held to the bound here. -/
def bodyPrefixLength (header : ParsedIpcHeader) (maxMessageBytes : Option Nat) : Exec Nat :=
  if header.compressionMode = 0 then do
    enforceMessageBound header.totalLength maxMessageBytes
    .ok 0
  else if header.compressionMode = 1 then .ok 4
  else if header.compressionMode = 2 then .ok 8
  else Exec.panicked

/-- The prefix of a compressed body, read and checked before the rest. -/
def readPrefix (header : ParsedIpcHeader) (prefixLength : Nat) (maxMessageBytes : Option Nat)
    (stream : QStream) : Exec (Bytes × QStream) :=
  if 0 < prefixLength then do
    let read ← readExact prefixLength stream
    let declared ← compressedMessageLength read.1 header.compressionMode
    enforceMessageBound declared.1 maxMessageBytes
    enforceCompressedPhysicalBound header.totalLength declared.1 prefixLength
    .ok read
  else .ok ([], stream)

/-- The rest of the body, and what it holds. -/
def readWholeBody (alloc : Allocator) (header : ParsedIpcHeader) (bodyLength : Nat)
    (maxMessageBytes : Option Nat) (stream : QStream) (buffer : Buffer) :
    Exec (MsgType × IpcBody × QStream × Buffer) := do
  let read ← readMessageBody alloc bodyLength bodyLength stream buffer
  let prepared ← prepareIpcBody header read.2.bytes maxMessageBytes
  .ok (prepared.1, .ofPrepared prepared.2, read.1, read.2)

/-- A table that is decoded while it arrives. -/
def receivePipelined (runtime : Runtime) (encoding : SymbolEncoding) (header : ParsedIpcHeader)
    (bodyLength : Nat) (stream : QStream) (buffer : Buffer) :
    Exec (MsgType × IpcBody × QStream × Buffer) := do
  let kind ← messageType header.messageKind
  let scope := runtime.schedule stream buffer.bytes bodyLength encoding
  let decoded ← receiveOutcome runtime.categories encoding scope
  .ok (kind, .Decoded decoded, scope.source, buffer)

/-- The body behind its prefix. A large table that is not all there yet is pipelined. -/
def readBody (runtime : Runtime) (header : ParsedIpcHeader) (bodyLength prefixLength : Nat)
    (maxMessageBytes : Option Nat) (pipeline : Option SymbolEncoding) (stream : QStream)
    (buffer : Buffer) : Exec (MsgType × IpcBody × QStream × Buffer) :=
  match pipeline with
  | some encoding =>
    if prefixLength = 0 ∧ pipelineMinBodyBytes ≤ bodyLength ∧ bodyLength ≤ buffer.capacity then do
      let read ← readSomeInto bodyLength stream buffer
      let first ← index read.2.bytes 0
      if first = tableType ∧ read.2.bytes.length < bodyLength then
        receivePipelined runtime encoding header bodyLength read.1 read.2
      else readWholeBody runtime.alloc header bodyLength maxMessageBytes read.1 read.2
    else readWholeBody runtime.alloc header bodyLength maxMessageBytes stream buffer
  | none => readWholeBody runtime.alloc header bodyLength maxMessageBytes stream buffer

/-- Behind the header: the prefix of a compressed body first, then the body. -/
def readFramedBody (runtime : Runtime) (header : ParsedIpcHeader) (bodyLength : Nat)
    (maxMessageBytes : Option Nat) (pipeline : Option SymbolEncoding) (stream : QStream)
    (buffer : Buffer) : Exec (MsgType × IpcBody × QStream × Buffer) := do
  let prefixLength ← bodyPrefixLength header maxMessageBytes
  if prefixLength > bodyLength then
    Exec.err (.DeserializationErr s!"Compressed IPC body is {bodyLength} bytes; compression mode {header.compressionMode} requires a {prefixLength}-byte decompressed-length prefix")
  else do
    let lead ← readPrefix header prefixLength maxMessageBytes stream
    let buffer := reserveBuffer runtime.alloc buffer.clear
      (max (min bodyLength initialBodyReservation) prefixLength)
    readBody runtime header bodyLength prefixLength maxMessageBytes pipeline lead.2
      (buffer.extendFromSlice lead.1)

def readIpcBody (runtime : Runtime) (maxMessageBytes : Option Nat) (pipeline : Option SymbolEncoding)
    (stream : QStream) (buffer : Buffer) : Exec (MsgType × IpcBody × QStream × Buffer) := do
  let read ← readExact ipcHeaderLength stream
  let header ← parseIpcHeader read.1
  let bodyLength ← checkedBodyLength header.totalLength "IPC message"
  readFramedBody runtime header bodyLength maxMessageBytes pipeline read.2 buffer

/-! ## The body arrives, or it does not -/

theorem growBody_spec (alloc : Allocator) {bodyLength : Nat} {body : Buffer}
    (hsize : bodyLength ≤ isizeMax) (hcapacity : 0 < body.capacity)
    (hmore : body.bytes.length < bodyLength) :
    ∃ grown, growBody alloc bodyLength body = .ok grown ∧ grown.bytes = body.bytes ∧
      body.bytes.length < grown.capacity := by
  have hfits := body.fits
  have husize : isizeMax < usizeMax := by decide
  unfold growBody bodyReservationFactor
  split
  · next hfull =>
    simp only [subtract]
    rw [if_pos (by omega), Exec.ok_bind]
    refine ⟨_, rfl, Buffer.tryReserveExact_bytes _ _ _, ?_⟩
    have hgrown := (body.tryReserveExact_capacity alloc
      (min bodyLength (min (body.capacity * 8) usizeMax) - body.bytes.length)).1
    omega
  · exact ⟨body, rfl, rfl, by omega⟩

theorem extendFromSlice_capacity (buffer : Buffer) (bytes : Bytes) :
    buffer.capacity ≤ (buffer.extendFromSlice bytes).capacity := Nat.le_max_left _ _

/-- **A body that arrives** is read in whole and nothing behind it is taken, whatever the
buffer holds and however the stream is cut. -/
theorem readMessageBody_full (alloc : Allocator) {bodyLength : Nat} (hsize : bodyLength ≤ isizeMax)
    (fuel : Nat) :
    ∀ (stream : QStream) (buffer : Buffer), 0 < buffer.capacity → buffer.bytes.length ≤ bodyLength →
      bodyLength ≤ buffer.bytes.length + fuel →
      bodyLength - buffer.bytes.length ≤ (content stream).length →
      ∃ stream' buffer', readMessageBody alloc bodyLength fuel stream buffer = .ok (stream', buffer') ∧
        buffer'.bytes = buffer.bytes ++ (content stream).take (bodyLength - buffer.bytes.length) ∧
        content stream' = (content stream).drop (bodyLength - buffer.bytes.length) := by
  induction fuel with
  | zero =>
    intro stream buffer hcapacity hwithin hfuel hahead
    refine ⟨stream, buffer, ?_, ?_, ?_⟩
    · rw [readMessageBody, if_neg (by omega)]
    · rw [show bodyLength - buffer.bytes.length = 0 by omega, List.take_zero, List.append_nil]
    · rw [show bodyLength - buffer.bytes.length = 0 by omega, List.drop_zero]
  | succ fuel ih =>
    intro stream buffer hcapacity hwithin hfuel hahead
    by_cases hmore : buffer.bytes.length < bodyLength
    · obtain ⟨grown, hgrow, hbytes, hroom⟩ := growBody_spec alloc hsize hcapacity hmore
      obtain ⟨stream₁, hread, hrest⟩ := @readToEnd_full
        (min (grown.capacity - grown.bytes.length) (bodyLength - grown.bytes.length)) stream
        (by rw [hbytes]; omega)
      set spare := min (grown.capacity - grown.bytes.length) (bodyLength - grown.bytes.length) with hspare
      have hspareLe : spare ≤ bodyLength - buffer.bytes.length := by
        rw [hspare, hbytes]
        omega
      have hsparePos : 0 < spare := by
        rw [hspare, hbytes]
        omega
      have htaken : ((content stream).take spare).length = spare := by
        rw [List.length_take]
        omega
      have hlen : (grown.extendFromSlice ((content stream).take spare)).bytes.length =
          buffer.bytes.length + spare := by
        simp only [Buffer.extendFromSlice, List.length_append, htaken, hbytes]
      obtain ⟨stream', buffer', hrun, hbuffer, hstream⟩ := ih stream₁
        (grown.extendFromSlice ((content stream).take spare))
        (by have := extendFromSlice_capacity grown ((content stream).take spare); omega)
        (by omega) (by omega) (by rw [hrest, List.length_drop]; omega)
      refine ⟨stream', buffer', ?_, ?_, ?_⟩
      · rw [readMessageBody, if_pos hmore, hgrow, Exec.ok_bind]
        simp only [← hspare, hread, Exec.ok_bind]
        rw [if_neg, hrun]
        intro hnil
        rw [hnil, List.length_nil] at htaken
        omega
      · rw [hbuffer, hrest, hlen]
        simp only [Buffer.extendFromSlice, hbytes, List.append_assoc]
        rw [show bodyLength - buffer.bytes.length =
          spare + (bodyLength - (buffer.bytes.length + spare)) by omega, List.take_add]
      · rw [hstream, hrest, hlen, List.drop_drop]
        congr 1
        omega
    · refine ⟨stream, buffer, ?_, ?_, ?_⟩
      · rw [readMessageBody, if_neg hmore]
      · rw [show bodyLength - buffer.bytes.length = 0 by omega, List.take_zero, List.append_nil]
      · rw [show bodyLength - buffer.bytes.length = 0 by omega, List.drop_zero]

/-- A body that does not arrive is an error. -/
theorem readMessageBody_short (alloc : Allocator) {bodyLength : Nat} (hsize : bodyLength ≤ isizeMax)
    (fuel : Nat) :
    ∀ (stream : QStream) (buffer : Buffer), 0 < buffer.capacity →
      bodyLength ≤ buffer.bytes.length + fuel →
      (content stream).length < bodyLength - buffer.bytes.length →
      ∃ e, readMessageBody alloc bodyLength fuel stream buffer = Exec.err e := by
  induction fuel with
  | zero =>
    intro stream buffer hcapacity hfuel hahead
    omega
  | succ fuel ih =>
    intro stream buffer hcapacity hfuel hahead
    have hmore : buffer.bytes.length < bodyLength := by omega
    obtain ⟨grown, hgrow, hbytes, hroom⟩ := growBody_spec alloc hsize hcapacity hmore
    rw [readMessageBody, if_pos hmore, hgrow, Exec.ok_bind]
    dsimp only
    set spare := min (grown.capacity - grown.bytes.length) (bodyLength - grown.bytes.length) with hspare
    -- one round reads all that is left, or fills the buffer and leaves the rest short
    by_cases hfull : spare ≤ (content stream).length
    · obtain ⟨stream₁, hread, hrest⟩ := readToEnd_full hfull
      have htaken : ((content stream).take spare).length = spare := by
        rw [List.length_take]
        omega
      rw [hread, Exec.ok_bind]
      dsimp only
      split
      · exact ⟨_, rfl⟩
      · next hne =>
        have hpos : 0 < spare := by
          rw [← htaken]
          exact List.length_pos_iff.mpr hne
        refine ih stream₁ _ ?_ ?_ ?_
        · have := extendFromSlice_capacity grown ((content stream).take spare)
          omega
        · simp only [Buffer.extendFromSlice, List.length_append, htaken, hbytes]
          omega
        · simp only [Buffer.extendFromSlice, List.length_append, htaken, hbytes, hrest,
            List.length_drop]
          omega
    · rcases readToEnd_short (show (content stream).length < spare by omega) with ⟨e, hread⟩ | hread
      · rw [hread]
        exact ⟨e, rfl⟩
      · rw [hread, Exec.ok_bind]
        dsimp only
        split
        · exact ⟨_, rfl⟩
        · next hne =>
          have hpos := List.length_pos_iff.mpr hne
          refine ih [] _ ?_ ?_ ?_
          · have := extendFromSlice_capacity grown (content stream)
            omega
          · simp only [Buffer.extendFromSlice, List.length_append, hbytes]
            omega
          · simp only [Buffer.extendFromSlice, List.length_append, hbytes, content, List.length_nil]
            omega

/-! ## The socket and the slice -/

/-- The bytes of a body that was not decoded on the way. -/
def IpcBody.bytes (buffer : Buffer) : IpcBody → Option Bytes
  | .Retained => some buffer.bytes
  | .Decompressed body => some body
  | .Decoded _ => none

/-- The prefix is all the connector looks at to learn the declared length. -/
theorem compressedMessageLength_take {body : Bytes} {mode : UInt8} {width : Nat}
    (hwidth : mode = 1 ∧ width = 4 ∨ mode = 2 ∧ width = 8) (hlong : width ≤ body.length) :
    ∃ declared, compressedMessageLength (body.take width) mode = .ok (declared, width) ∧
      compressedMessageLength body mode = .ok (declared, width) ∧
      declared = LittleEndian.decode (body.take width) := by
  have hget : ∀ n, n = width → getRange (body.take width) 0 n = some (body.take width) ∧
      getRange body 0 n = some (body.take width) := by
    rintro n rfl
    constructor
    · rw [getRange_eq_some]
      simp [hlong]
    · rw [getRange_eq_some]
      simp [hlong]
  refine ⟨_, ?_, ?_, rfl⟩
  · rcases hwidth with ⟨rfl, rfl⟩ | ⟨rfl, rfl⟩
    · rw [compressedMessageLength, if_pos rfl, (hget 4 rfl).1]
      rfl
    · rw [compressedMessageLength, if_neg (by decide), if_pos rfl, (hget 8 rfl).1]
      rfl
  · rcases hwidth with ⟨rfl, rfl⟩ | ⟨rfl, rfl⟩
    · rw [compressedMessageLength, if_pos rfl, (hget 4 rfl).2]
      rfl
    · rw [compressedMessageLength, if_neg (by decide), if_pos rfl, (hget 8 rfl).2]
      rfl

theorem reserveBuffer_spec (alloc : Allocator) (buffer : Buffer) (length : Nat) :
    (reserveBuffer alloc buffer.clear length).bytes = [] ∧
      length ≤ (reserveBuffer alloc buffer.clear length).capacity := by
  unfold reserveBuffer
  split
  · exact ⟨rfl, by assumption⟩
  · have hgrown := (buffer.clear.tryReserveExact_capacity alloc length).1
    exact ⟨Buffer.tryReserveExact_bytes _ _ _, by simpa [Buffer.clear] using hgrown⟩

section Frame

variable {runtime : Runtime} {maximum : Option Nat} {stream : QStream} {buffer : Buffer}
  {frame more : Bytes} {header : ParsedIpcHeader}

/-- The mode decides how the body is read. -/
theorem mode_cases {mode : UInt8} (h : mode ≤ 2) : mode = 0 ∨ mode = 1 ∨ mode = 2 := by
  have hle : mode.toNat ≤ 2 := h
  rcases (by omega : mode.toNat = 0 ∨ mode.toNat = 1 ∨ mode.toNat = 2) with h | h | h
  · exact .inl (UInt8.toNat_inj.mp h)
  · exact .inr (.inl (UInt8.toNat_inj.mp h))
  · exact .inr (.inr (UInt8.toNat_inj.mp h))

/-- The checks in front of the body pass, and the rest is `prepare_ipc_body`. -/
theorem readWholeBody_eq (hlead : buffer.bytes.length ≤ frame.length) (hcapacity : 0 < buffer.capacity)
    (hsize : frame.length ≤ isizeMax) (hstream : buffer.bytes ++ content stream = frame ++ more) :
    ∃ stream' buffer', content stream' = more ∧ buffer'.bytes = frame ∧
      readWholeBody runtime.alloc header frame.length maximum stream buffer = (do
        let prepared ← prepareIpcBody header frame maximum
        .ok (prepared.1, .ofPrepared prepared.2, stream', buffer')) := by
  have hlen := congrArg List.length hstream
  simp only [List.length_append] at hlen
  obtain ⟨stream', buffer', hrun, hbytes, hrest⟩ := readMessageBody_full runtime.alloc hsize frame.length
    stream buffer hcapacity hlead (by omega) (by omega)
  have hlead : buffer.bytes <+: frame :=
    List.prefix_of_prefix_length_le ⟨_, hstream⟩ ⟨more, rfl⟩ hlead
  obtain ⟨tail, rfl⟩ := hlead
  rw [List.append_assoc] at hstream
  have hcontent := List.append_cancel_left hstream
  have htail : (buffer.bytes ++ tail).length - buffer.bytes.length = tail.length := by simp
  rw [hcontent, htail, List.take_left] at hbytes
  rw [hcontent, htail, List.drop_left] at hrest
  refine ⟨stream', buffer', hrest, hbytes, ?_⟩
  rw [readWholeBody, hrun, Exec.ok_bind]
  simp only [hbytes]

theorem prepareIpcBody_noPanic {body : Bytes} (hsize : body.length ≤ isizeMax) :
    NoPanic (prepareIpcBody header body maximum) := by
  have husize : isizeMax < usizeMax := by decide
  refine (checkedBodyLength_noPanic _ _).bind fun expected _ => ?_
  split
  · exact noPanic_err _
  split
  · refine (enforceMessageBound_noPanic _ _).bind fun _ _ => ?_
    exact (messageType_noPanic _).bind fun _ _ => noPanic_ok _
  · refine (compressedMessageLength_noPanic _ _).bind fun declared hdeclared => ?_
    refine (enforceMessageBound_noPanic _ _).bind fun _ _ => ?_
    refine (enforceCompressedPhysicalBound_noPanic _ _ _).bind fun _ _ => ?_
    refine (checkedDecompressedBodyLength_noPanic _ _).bind fun length hlength => ?_
    refine NoPanic.bind ?_ fun _ _ => (messageType_noPanic _).bind fun _ _ => noPanic_ok _
    obtain ⟨hfits, hlen, -⟩ := checkedDecompressedBodyLength_eq_ok.mp hlength
    refine Compression.decompress_noPanic (by omega) ?_
    rw [List.length_replicate]
    omega

/-- An outcome that is no panic. -/
theorem outcome_cases {α : Type} {run : Exec α} (h : NoPanic run) :
    (∃ a, run = .ok a) ∨ ∃ e, run = Exec.err e := by
  cases run with
  | ok a => exact .inl ⟨a, rfl⟩
  | error failure =>
    cases failure with
    | error e => exact .inr ⟨e, rfl⟩
    | panic => exact absurd rfl h

/-- What is behind the checks in front of the body. -/
theorem readWholeBody_cases {body : Bytes} (hlead : buffer.bytes.length ≤ body.length)
    (hcapacity : 0 < buffer.capacity) (hsize : body.length ≤ isizeMax)
    (hstream : buffer.bytes ++ content stream = body ++ more) :
    (∃ kind prepared stream' buffer', prepareIpcBody header body maximum = .ok (kind, prepared) ∧
      readWholeBody runtime.alloc header body.length maximum stream buffer =
        .ok (kind, .ofPrepared prepared, stream', buffer') ∧
      content stream' = more ∧ buffer'.bytes = body) ∨
    ((∃ e, readWholeBody runtime.alloc header body.length maximum stream buffer = Exec.err e) ∧
      ∀ accepted, prepareIpcBody header body maximum ≠ .ok accepted) := by
  obtain ⟨stream', buffer', hrest, hbytes, hrun⟩ :=
    @readWholeBody_eq runtime maximum stream buffer body more header hlead hcapacity hsize hstream
  rcases outcome_cases (@prepareIpcBody_noPanic maximum header body hsize) with
    ⟨⟨kind, prepared⟩, hprepared⟩ | ⟨e, hprepared⟩
  · refine .inl ⟨kind, prepared, stream', buffer', hprepared, ?_, hrest, hbytes⟩
    rw [hrun, hprepared, Exec.ok_bind]
  · refine .inr ⟨⟨e, by rw [hrun, hprepared, Exec.err_bind]⟩, fun accepted haccepted => ?_⟩
    rw [hprepared] at haccepted
    exact Exec.err_ne_ok _ _ haccepted

/-- The prefix of a compressed body that has arrived: it is read and passes, or it fails a
check that `prepare_ipc_body` makes as well. -/
theorem readPrefix_cases {body : Bytes} {width : Nat}
    (hwidth : header.compressionMode = 1 ∧ width = 4 ∨ header.compressionMode = 2 ∧ width = 8)
    (hlong : width ≤ body.length) (hstream : content stream = body ++ more) :
    (∃ stream', readPrefix header width maximum stream = .ok (body.take width, stream') ∧
      content stream' = body.drop width ++ more) ∨
    ((∃ e, readPrefix header width maximum stream = Exec.err e) ∧
      ∀ accepted, prepareIpcBody header body maximum ≠ .ok accepted) := by
  obtain ⟨declared, hpart, hwhole, -⟩ := compressedMessageLength_take hwidth hlong
  have hmode : header.compressionMode ≠ 0 := by
    rcases hwidth with ⟨hmode, -⟩ | ⟨hmode, -⟩
    · rw [hmode]
      decide
    · rw [hmode]
      decide
  have hpos : 0 < width := by omega
  obtain ⟨stream', hread, hrest⟩ := @readExact_full width stream (by
    rw [hstream, List.length_append]
    omega)
  rw [hstream, List.take_append_of_le_length hlong] at hread
  rw [hstream, List.drop_append_of_le_length hlong] at hrest
  rw [readPrefix, if_pos hpos, hread, Exec.ok_bind]
  simp only [hpart, Exec.ok_bind]
  -- an accepted body has passed both bounds for the declared length of this prefix
  have hbounds : ∀ accepted, prepareIpcBody header body maximum = .ok accepted →
      enforceMessageBound declared maximum = .ok () ∧
        enforceCompressedPhysicalBound header.totalLength declared width = .ok () := by
    rintro ⟨kind, prepared⟩ haccepted
    obtain ⟨-, -, ⟨hzero, -⟩ | ⟨-, declared', width', -, -, hdeclared, hbound, hphysical, -⟩⟩ :=
      prepareIpcBody_eq_ok.mp haccepted
    · exact absurd hzero hmode
    · rw [hwhole] at hdeclared
      cases hdeclared
      exact ⟨hbound, hphysical⟩
  rcases outcome_cases (enforceMessageBound_noPanic declared maximum) with ⟨⟨⟩, hbound⟩ | ⟨e, hbound⟩
  · rcases outcome_cases (enforceCompressedPhysicalBound_noPanic header.totalLength declared width) with
      ⟨⟨⟩, hphysical⟩ | ⟨e, hphysical⟩
    · exact .inl ⟨stream', by rw [hbound, Exec.ok_bind, hphysical, Exec.ok_bind], hrest⟩
    · refine .inr ⟨⟨e, by rw [hbound, Exec.ok_bind, hphysical, Exec.err_bind]⟩, fun accepted h => ?_⟩
      have hok := (hbounds accepted h).2
      rw [hphysical] at hok
      exact Exec.err_ne_ok _ _ hok
  · refine .inr ⟨⟨e, by rw [hbound, Exec.err_bind]⟩, fun accepted h => ?_⟩
    have hok := (hbounds accepted h).1
    rw [hbound] at hok
    exact Exec.err_ne_ok _ _ hok

/-- The body of a frame whose header is read. -/
theorem readFramedBody_cases {body : Bytes} (hmode : header.compressionMode ≤ 2)
    (hleast : 2 ≤ body.length) (hsize : body.length ≤ isizeMax)
    (hstream : content stream = body ++ more) :
    (∃ kind prepared stream' buffer', prepareIpcBody header body maximum = .ok (kind, prepared) ∧
      readFramedBody runtime header body.length maximum none stream buffer =
        .ok (kind, .ofPrepared prepared, stream', buffer') ∧
      content stream' = more ∧ buffer'.bytes = body) ∨
    ((∃ e, readFramedBody runtime header body.length maximum none stream buffer = Exec.err e) ∧
      ∀ accepted, prepareIpcBody header body maximum ≠ .ok accepted) := by
  -- behind the prefix, whose bytes are in the buffer
  have hbehind : ∀ (width : Nat) (stream₁ : QStream), width ≤ body.length →
      content stream₁ = body.drop width ++ more →
      (∃ kind prepared stream' buffer', prepareIpcBody header body maximum = .ok (kind, prepared) ∧
        readBody runtime header body.length width maximum none stream₁
          ((reserveBuffer runtime.alloc buffer.clear
            (max (min body.length initialBodyReservation) width)).extendFromSlice (body.take width)) =
          .ok (kind, .ofPrepared prepared, stream', buffer') ∧
        content stream' = more ∧ buffer'.bytes = body) ∨
      ((∃ e, readBody runtime header body.length width maximum none stream₁
          ((reserveBuffer runtime.alloc buffer.clear
            (max (min body.length initialBodyReservation) width)).extendFromSlice (body.take width)) =
          Exec.err e) ∧
        ∀ accepted, prepareIpcBody header body maximum ≠ .ok accepted) := by
    intro width stream₁ hwidth hrest
    obtain ⟨hempty, hroom⟩ := reserveBuffer_spec runtime.alloc buffer
      (max (min body.length initialBodyReservation) width)
    have hgrown := extendFromSlice_capacity (reserveBuffer runtime.alloc buffer.clear
      (max (min body.length initialBodyReservation) width)) (body.take width)
    unfold initialBodyReservation at *
    refine readWholeBody_cases ?_ (by omega) hsize ?_
    · simp only [Buffer.extendFromSlice, hempty, List.nil_append, List.length_take]
      omega
    · simp only [Buffer.extendFromSlice, hempty, List.nil_append, hrest]
      rw [← List.append_assoc, List.take_append_drop]
  unfold readFramedBody
  rcases mode_cases hmode with hzero | hcompressed
  · rcases outcome_cases (enforceMessageBound_noPanic header.totalLength maximum) with
      ⟨⟨⟩, hbound⟩ | ⟨e, hbound⟩
    · have hlead : bodyPrefixLength header maximum = .ok 0 := by
        rw [bodyPrefixLength, if_pos hzero, hbound, Exec.ok_bind]
      rw [hlead, Exec.ok_bind, if_neg (by omega), readPrefix, if_neg (by omega), Exec.ok_bind]
      exact hbehind 0 stream (Nat.zero_le _) hstream
    · have hlead : bodyPrefixLength header maximum = Exec.err e := by
        rw [bodyPrefixLength, if_pos hzero, hbound, Exec.err_bind]
      refine .inr ⟨⟨e, by rw [hlead, Exec.err_bind]⟩, ?_⟩
      rintro ⟨kind, prepared⟩ haccepted
      obtain ⟨-, -, ⟨-, hok, -⟩ | ⟨hmode, -⟩⟩ := prepareIpcBody_eq_ok.mp haccepted
      · rw [hbound] at hok
        exact Exec.err_ne_ok _ _ hok
      · exact hmode hzero
  · obtain ⟨width, hlead, hwidth⟩ : ∃ width, bodyPrefixLength header maximum = .ok width ∧
        (header.compressionMode = 1 ∧ width = 4 ∨ header.compressionMode = 2 ∧ width = 8) := by
      unfold bodyPrefixLength
      rcases hcompressed with hone | htwo
      · exact ⟨4, by rw [hone]; rfl, .inl ⟨hone, rfl⟩⟩
      · exact ⟨8, by rw [htwo]; rfl, .inr ⟨htwo, rfl⟩⟩
    rw [hlead, Exec.ok_bind]
    by_cases hlong : width > body.length
    · rw [if_pos hlong]
      refine .inr ⟨⟨_, rfl⟩, ?_⟩
      rintro ⟨kind, prepared⟩ haccepted
      obtain ⟨-, -, ⟨hzero, -⟩ | ⟨-, declared, width', -, -, hdeclared, -⟩⟩ :=
        prepareIpcBody_eq_ok.mp haccepted
      · rcases hcompressed with hone | htwo
        · rw [hone] at hzero
          cases hzero
        · rw [htwo] at hzero
          cases hzero
      · obtain ⟨hwidth', hlead⟩ := compressedMessageLength_eq_ok.mp hdeclared
        have hfits := (Compression.decompressedTotalLength_width hlead).2
        have hsame : width' = width := by
          rcases hwidth with ⟨hone, rfl⟩ | ⟨htwo, rfl⟩
          · rw [hone] at hwidth'
            simpa using hwidth'
          · rw [htwo] at hwidth'
            simpa using hwidth'
        omega
    · rw [if_neg hlong]
      rcases readPrefix_cases hwidth (by omega) hstream with ⟨stream₁, hread, hrest⟩ | ⟨⟨e, hread⟩, hnot⟩
      · rw [hread, Exec.ok_bind]
        exact hbehind width stream₁ (by omega) hrest
      · exact .inr ⟨⟨e, by rw [hread, Exec.err_bind]⟩, hnot⟩

/-- **A complete frame on the socket**: the path accepts what `prepare_ipc_body` accepts, with
the same body, and stands right behind the frame; else it ends with an error. -/
theorem readIpcBody_cases (hstream : content stream = frame ++ more) (hframe : CompleteFrame frame) :
    (∃ header kind prepared stream' buffer', parseIpcHeader (frame.take 8) = .ok header ∧
      prepareIpcBody header (frame.drop 8) maximum = .ok (kind, prepared) ∧
      readIpcBody runtime maximum none stream buffer =
        .ok (kind, .ofPrepared prepared, stream', buffer') ∧
      content stream' = more ∧ buffer'.bytes = frame.drop 8) ∨
    ((∃ e, readIpcBody runtime maximum none stream buffer = Exec.err e) ∧
      ∀ header accepted, parseIpcHeader (frame.take 8) = .ok header →
        prepareIpcBody header (frame.drop 8) maximum ≠ .ok accepted) := by
  have hlong : 8 ≤ frame.length := hframe.1
  have hsmall : (2 : Nat) ^ 40 < isizeMax := by decide
  have husize : isizeMax < usizeMax := by decide
  obtain ⟨stream₁, hread, hrest⟩ := @readExact_full 8 stream (by
    rw [hstream, List.length_append]
    omega)
  rw [hstream, List.take_append_of_le_length hlong] at hread
  rw [hstream, List.drop_append_of_le_length hlong] at hrest
  rw [readIpcBody, ipcHeaderLength, hread, Exec.ok_bind]
  dsimp only
  rcases outcome_cases (parseIpcHeader_noPanic (frame.take 8)) with ⟨header, hparse⟩ | ⟨e, hparse⟩
  · obtain ⟨htotal, -, hmode, -, hleast, hmost⟩ := parsedHeader hframe hparse
    have hbodyLen : (frame.drop 8).length = frame.length - 8 := List.length_drop
    have hbody : checkedBodyLength header.totalLength "IPC message" = .ok (frame.drop 8).length :=
      checkedBodyLength_eq_ok.mpr ⟨by omega, by omega, by omega⟩
    rw [hparse, Exec.ok_bind, hbody, Exec.ok_bind]
    rcases @readFramedBody_cases runtime maximum stream₁ buffer more header (frame.drop 8) hmode
      (by omega) (by omega) hrest with
      ⟨kind, prepared, stream', buffer', hprepared, hrun, hend, hbytes⟩ | ⟨⟨e, hrun⟩, hnot⟩
    · exact .inl ⟨header, kind, prepared, stream', buffer', rfl, hprepared, hrun, hend, hbytes⟩
    · refine .inr ⟨⟨e, hrun⟩, fun header' accepted hparse' => ?_⟩
      cases hparse'
      exact hnot accepted
  · rw [hparse]
    refine .inr ⟨⟨e, rfl⟩, fun header accepted h => ?_⟩
    exact absurd h (Exec.err_ne_ok _ _)

end Frame

/-- A frame that lies in memory: `parse_ipc_header`, then `prepare_ipc_body`. -/
def prepareFrame (frame : Bytes) (maximum : Option Nat) : Exec (MsgType × PreparedBody) := do
  let header ← parseIpcHeader (frame.take ipcHeaderLength)
  prepareIpcBody header (frame.drop ipcHeaderLength) maximum

/-- A bound only refuses what is longer uncompressed. -/
theorem prepareFrame_bounded {frame : Bytes} {maximum : Option Nat} {accepted : MsgType × PreparedBody}
    (hframe : CompleteFrame frame) :
    prepareFrame frame maximum = .ok accepted ↔
      prepareFrame frame none = .ok accepted ∧
        ∀ m, maximum = some m → uncompressedLength frame ≤ m := by
  obtain ⟨kind, prepared⟩ := accepted
  unfold prepareFrame
  cases hparse : parseIpcHeader (frame.take ipcHeaderLength) with
  | error e =>
    rw [Exec.error_bind, Exec.error_bind]
    simp
  | ok header =>
    obtain ⟨htotal, hmode, -⟩ := parsedHeader hframe hparse
    have hnone : ∀ length, enforceMessageBound length none = .ok () := fun _ => rfl
    rw [Exec.ok_bind, Exec.ok_bind, prepareIpcBody_eq_ok, prepareIpcBody_eq_ok]
    have hdeclared : ∀ declared width, header.compressionMode ≠ 0 →
        compressedMessageLength (frame.drop 8) header.compressionMode = .ok (declared, width) →
        uncompressedLength frame = declared := by
      intro declared width hzero h
      obtain ⟨hwidth, hlead⟩ := compressedMessageLength_eq_ok.mp h
      obtain ⟨declared', -, hwhole, hvalue⟩ := compressedMessageLength_take hwidth
        (Compression.decompressedTotalLength_width hlead).2
      rw [hwhole] at h
      cases h
      rw [uncompressedLength, ← hmode, if_neg hzero, hvalue, Compression.prefixWidth]
      rcases hwidth with ⟨hone, rfl⟩ | ⟨htwo, rfl⟩
      · rw [if_pos hone]
      · rw [htwo, if_neg (by decide)]
    constructor
    · rintro ⟨hlength, htype, ⟨hzero, hbound, hborrowed⟩ |
        ⟨hzero, declared, width, length, out, hlead, hbound, hrest⟩⟩
      · refine ⟨⟨hlength, htype, .inl ⟨hzero, hnone _, hborrowed⟩⟩, ?_⟩
        rw [uncompressedLength, ← hmode, if_pos hzero, hframe.2, ← htotal]
        exact enforceMessageBound_eq_ok.mp hbound
      · refine ⟨⟨hlength, htype, .inr ⟨hzero, declared, width, length, out, hlead, hnone _, hrest⟩⟩, ?_⟩
        rw [hdeclared declared width hzero hlead]
        exact enforceMessageBound_eq_ok.mp hbound
    · rintro ⟨⟨hlength, htype, ⟨hzero, -, hborrowed⟩ |
        ⟨hzero, declared, width, length, out, hlead, -, hrest⟩⟩, hbound⟩
      · rw [uncompressedLength, ← hmode, if_pos hzero, hframe.2, ← htotal] at hbound
        exact ⟨hlength, htype, .inl ⟨hzero, enforceMessageBound_eq_ok.mpr hbound, hborrowed⟩⟩
      · rw [hdeclared declared width hzero hlead] at hbound
        exact ⟨hlength, htype, .inr ⟨hzero, declared, width, length, out, hlead,
          enforceMessageBound_eq_ok.mpr hbound, hrest⟩⟩

theorem ofPrepared_bytes {prepared : PreparedBody} {buffer : Buffer} {header : ParsedIpcHeader}
    {body : Bytes} {maximum : Option Nat} {kind : MsgType}
    (h : prepareIpcBody header body maximum = .ok (kind, prepared)) (hbuffer : buffer.bytes = body) :
    (IpcBody.ofPrepared prepared).bytes buffer = some prepared.bytes := by
  obtain ⟨-, -, ⟨-, -, rfl⟩ | ⟨-, _, _, _, _, -, -, -, -, -, rfl⟩⟩ := prepareIpcBody_eq_ok.mp h
  · exact congrArg some hbuffer
  · rfl

/-- **Socket framing agrees with framing in memory.** The frame is followed by any bytes, the
stream is cut anywhere, and the retained buffer has any capacity. The socket path accepts
what the slice path accepts and, with a bound, what is in addition not longer than the
bound uncompressed; message type and body are the same, and exactly the frame is consumed. -/
theorem readIpcBody_agrees (runtime : Runtime) (maximum : Option Nat) (stream : QStream)
    (buffer : Buffer) (frame more : Bytes) (hstream : content stream = frame ++ more)
    (hframe : CompleteFrame frame) :
    NoPanic (readIpcBody runtime maximum none stream buffer) ∧
    (∀ kind ipc stream' buffer',
      readIpcBody runtime maximum none stream buffer = .ok (kind, ipc, stream', buffer') →
        content stream' = more) ∧
    ∀ kind body,
      (∃ ipc stream' buffer',
        readIpcBody runtime maximum none stream buffer = .ok (kind, ipc, stream', buffer') ∧
          ipc.bytes buffer' = some body) ↔
      (∃ prepared, prepareFrame frame none = .ok (kind, prepared) ∧ prepared.bytes = body) ∧
        ∀ m, maximum = some m → uncompressedLength frame ≤ m := by
  rcases @readIpcBody_cases runtime maximum stream buffer frame more hstream hframe with
    ⟨header, kind₀, prepared, stream₀, buffer₀, hparse, hprepared, hrun, hend, hbytes⟩ |
    ⟨⟨e, hrun⟩, hnot⟩
  · have hframed : prepareFrame frame maximum = .ok (kind₀, prepared) := by
      rw [prepareFrame, ipcHeaderLength, hparse, Exec.ok_bind, hprepared]
    obtain ⟨hunbounded, hbound⟩ := (prepareFrame_bounded hframe).mp hframed
    rw [hrun]
    refine ⟨noPanic_ok _, ?_, fun kind body => ⟨?_, ?_⟩⟩
    · intro kind ipc stream' buffer' h
      cases h
      exact hend
    · rintro ⟨ipc, stream', buffer', h, hbody⟩
      cases h
      rw [ofPrepared_bytes hprepared hbytes] at hbody
      exact ⟨⟨prepared, hunbounded, Option.some.inj hbody⟩, hbound⟩
    · rintro ⟨⟨prepared', haccepted, rfl⟩, -⟩
      rw [hunbounded] at haccepted
      cases haccepted
      exact ⟨_, stream₀, buffer₀, rfl, ofPrepared_bytes hprepared hbytes⟩
  · rw [hrun]
    refine ⟨noPanic_err e, fun _ _ _ _ h => absurd h (Exec.err_ne_ok _ _), fun kind body => ⟨?_, ?_⟩⟩
    · rintro ⟨ipc, stream', buffer', h, -⟩
      exact absurd h (Exec.err_ne_ok _ _)
    · rintro ⟨⟨prepared, haccepted, -⟩, hbound⟩
      have hframed := (prepareFrame_bounded hframe).mpr ⟨haccepted, hbound⟩
      obtain ⟨header, hparse, hprepared⟩ := Exec.bind_eq_ok.mp hframed
      exact absurd hprepared (hnot header _ hparse)

/-- A frame of ten bytes in three pieces, with the start of the next behind it. -/
theorem readIpcBody_agrees_pieces :
    let runtime := Runtime.ofAllocator numberedTexts ⟨fun n => n, fun _ => Nat.le_refl _⟩
    let stream : QStream :=
      [.data 1 [2, 0], .interrupted, .data 0 [10, 0, 0], .data 0 [0xFC, 7, 1, 2]]
    ∃ ipc stream' buffer', readIpcBody runtime (some 10) none stream Buffer.empty =
        .ok (.Response, ipc, stream', buffer') ∧
      ipc.bytes buffer' = some [0xFC, 7] ∧ content stream' = [1, 2] := by
  intro runtime stream
  obtain ⟨-, hrest, hsame⟩ := readIpcBody_agrees runtime (some 10) stream Buffer.empty
    [1, 2, 0, 0, 10, 0, 0, 0, 0xFC, 7] [1, 2] rfl ⟨by decide, by decide⟩
  obtain ⟨ipc, stream', buffer', hrun, hbody⟩ := (hsame .Response [0xFC, 7]).mpr
    ⟨⟨.borrowed [0xFC, 7], by decide, rfl⟩, fun m hm => by cases hm; decide⟩
  exact ⟨ipc, stream', buffer', hrun, hbody, hrest _ _ _ _ hrun⟩

end Xqdb.Connector
