import Xqdb.Connector.Framing
import Xqdb.Deserialize
import Xqdb.LengthExact
import Xqdb.QValue.Soundness

/-! Whole messages: `generate_j6_ipc_msg` of `io.rs` writes one, `deserialize_ipc_frame` of
`connector.rs` reads it back. -/

namespace Xqdb.Connector

open Compression

/-- The total length of a message with its high byte and low word. -/
def checkedJ6IpcTotalLength (bodyLength : Nat) : Exec (Nat × UInt8 × Nat) := do
  let totalLength ← Exec.okOr (checkedAdd bodyLength 8) (.Err "J6 IPC message length overflowed")
  let field ← ipcLengthHeader totalLength
  .ok (totalLength, field)

/-- The length is computed before the first byte is written, and compared with what was. -/
def generateJ6IpcMsg (msgType : MsgType) (enableCompression : Bool) (k : K) : Exec Bytes := do
  let bodyLength ← k.j6Len
  let length ← checkedJ6IpcTotalLength bodyLength
  let vec ← k.serializeInto
    ([1, msgType.toByte, 0, length.2.1] ++ LittleEndian.encode 4 length.2.2)
  if vec.length ≠ length.1 then
    Exec.err (.Err "Serialized q value length differs from its declared J6 length")
  else if enableCompression then compress vec
  else .ok vec

inductive ValueMode where
  | Native
  | Lossless
  deriving DecidableEq, Repr

section Decoding

variable (categories : CategoricalMapping) (encoding : SymbolEncoding) (mode : ValueMode)

/-- The lossless mode copies a borrowed body and adopts an owned one. -/
def decodeValueBody (body : Bytes) : Exec K :=
  match mode with
  | .Native => (deserialize categories encoding body).mapError Failure.error
  | .Lossless => do
    let value ← QValue.fromBytes body
    .ok (.QValue value)

def deserializeIpcFrame (frame : Bytes) : Exec (MsgType × K) := do
  let headerBytes ← Exec.okOr (getRange frame 0 ipcHeaderLength)
    (.DeserializationErr s!"IPC frame is shorter than its {ipcHeaderLength}-byte header")
  let header ← parseIpcHeader headerBytes
  let declaredLength ← Exec.okOr (if header.totalLength ≤ usizeMax then some header.totalLength else none)
    (.DeserializationErr "IPC message length cannot be represented on this platform")
  if frame.length ≠ declaredLength then
    Exec.err (.DeserializationErr s!"IPC frame length mismatch: header declares {declaredLength} bytes, got {frame.length}")
  else do
    let prepared ← prepareIpcBody header (frame.drop ipcHeaderLength) none
    let value ← decodeValueBody categories encoding mode prepared.2.bytes
    .ok (prepared.1, value)

end Decoding

/-! ## The layout of a frame -/

/-- A frame with its own length in its header. -/
def layFrame (order kind mode : UInt8) (payload : Bytes) : Bytes :=
  [order, kind, mode, UInt8.ofNat ((8 + payload.length) / 2 ^ 32)] ++
    LittleEndian.encode 4 (8 + payload.length) ++ payload

theorem layFrame_length (order kind mode : UInt8) (payload : Bytes) :
    (layFrame order kind mode payload).length = 8 + payload.length := by
  simp [layFrame]
  omega

theorem compressedFrame_eq_layFrame (order kind mode : UInt8) (length : Nat) (body : Bytes) :
    compressedFrame order kind mode length body =
      layFrame order kind mode (LittleEndian.encode (prefixWidth mode) length ++ body) := by
  simp [compressedFrame, layFrame, Nat.add_assoc]

theorem drop_layFrame (order kind mode : UInt8) (payload : Bytes) :
    (layFrame order kind mode payload).drop 8 = payload := by
  unfold layFrame
  exact List.drop_left' (by simp)

theorem lengthField_layFrame (order kind mode : UInt8) (payload : Bytes)
    (hsmall : 8 + payload.length < 2 ^ 40) :
    lengthField (layFrame order kind mode payload) = (layFrame order kind mode payload).length := by
  have hlow : ((layFrame order kind mode payload).drop 4).take 4 =
      LittleEndian.encode 4 (8 + payload.length) := by
    simp only [layFrame, List.cons_append, List.nil_append, List.drop_succ_cons, List.drop_zero]
    exact List.take_left' (by simp)
  have hhigh : byteAt (layFrame order kind mode payload) 3 =
      UInt8.ofNat ((8 + payload.length) / 2 ^ 32) := by
    simp [byteAt, layFrame]
  rw [lengthField, hlow, hhigh, LittleEndian.decode_encode_mod, UInt8.toNat_ofNat', layFrame_length]
  omega

/-- The header of a frame that was laid out is read back. -/
theorem parseIpcHeader_layFrame (msgType : MsgType) (mode : UInt8) (payload : Bytes) (hmode : mode ≤ 2)
    (hleast : 2 ≤ payload.length) (hsmall : 8 + payload.length < 2 ^ 40) :
    parseIpcHeader ((layFrame 1 msgType.toByte mode payload).take 8) =
      .ok ⟨msgType.toByte, mode, 8 + payload.length⟩ := by
  have htake : (layFrame 1 msgType.toByte mode payload).take 8 =
      [1, msgType.toByte, mode, UInt8.ofNat ((8 + payload.length) / 2 ^ 32)] ++
        LittleEndian.encode 4 (8 + payload.length) := by
    unfold layFrame
    exact List.take_left' (by simp)
  have hlow := LittleEndian.decode_encode_mod 4 (8 + payload.length)
  have hhigh : (UInt8.ofNat ((8 + payload.length) / 2 ^ 32)).toNat =
      (8 + payload.length) / 2 ^ 32 % 256 := UInt8.toNat_ofNat'
  rw [htake]
  simp only [LittleEndian.encode, List.cons_append, List.nil_append] at hlow ⊢
  rw [parseIpcHeader_eq_ok, hlow, hhigh]
  refine ⟨rfl, ⟨msgType, rfl⟩, hmode, by omega, ?_⟩
  simp only [ParsedIpcHeader.mk.injEq, true_and]
  omega

/-! ## The round trip -/

theorem checkedJ6IpcTotalLength_eq_ok {bodyLength : Nat} {length : Nat × UInt8 × Nat} :
    checkedJ6IpcTotalLength bodyLength = .ok length ↔ 8 + bodyLength < 2 ^ 40 ∧
      length = (8 + bodyLength, UInt8.ofNat ((8 + bodyLength) / 2 ^ 32), (8 + bodyLength) % 2 ^ 32) := by
  have husize : (2 : Nat) ^ 40 < usizeMax := by decide
  have hfield : maxIpcLengthField = 2 ^ 40 - 1 := rfl
  unfold checkedJ6IpcTotalLength ipcLengthHeader
  rw [Exec.bind_eq_ok]
  constructor
  · rintro ⟨total, htotal, hrest⟩
    obtain ⟨rfl, hfits⟩ := checkedAdd_eq_some.mp (Exec.okOr_eq_ok.mp htotal)
    split at hrest
    · exact absurd hrest (by simp)
    next hsmall =>
    rw [Exec.ok_bind] at hrest
    cases hrest
    rw [Nat.add_comm 8 bodyLength]
    exact ⟨by omega, rfl⟩
  · rintro ⟨hsmall, rfl⟩
    rw [Nat.add_comm 8 bodyLength] at hsmall ⊢
    refine ⟨bodyLength + 8, Exec.okOr_eq_ok.mpr (checkedAdd_eq_some.mpr ⟨rfl, by omega⟩), ?_⟩
    rw [if_neg (by omega), Exec.ok_bind]

/-- Every message that is generated: the laid-out body, compressed on request. -/
theorem generateJ6IpcMsg_eq_ok {msgType : MsgType} {enableCompression : Bool} {k : K} {frame : Bytes}
    (h : generateJ6IpcMsg msgType enableCompression k = .ok frame) :
    ∃ body, k.serialize = .ok body ∧ 8 + body.length < 2 ^ 40 ∧
      (frame = layFrame 1 msgType.toByte 0 body ∨
        compress (layFrame 1 msgType.toByte 0 body) = .ok frame) := by
  unfold generateJ6IpcMsg at h
  obtain ⟨n, hn, h⟩ := Exec.bind_eq_ok.mp h
  obtain ⟨length, hlength, h⟩ := Exec.bind_eq_ok.mp h
  obtain ⟨vec, hvec, h⟩ := Exec.bind_eq_ok.mp h
  obtain ⟨hsmall, rfl⟩ := checkedJ6IpcTotalLength_eq_ok.mp hlength
  obtain ⟨body, hbody, rfl⟩ : ∃ body, k.appended = .ok body ∧ vec = [1, msgType.toByte, 0,
      UInt8.ofNat ((8 + n) / 2 ^ 32)] ++ LittleEndian.encode 4 ((8 + n) % 2 ^ 32) ++ body := by
    obtain ⟨body, hbody, hok⟩ := Exec.bind_eq_ok.mp hvec
    exact ⟨body, hbody, (Except.ok.inj hok).symm⟩
  obtain ⟨body', hbody', rfl⟩ | ⟨herr, -⟩ := K.j6LenWithDepth_exact k hn
  · obtain rfl : body' = body := Except.ok.inj (hbody'.symm.trans hbody)
    have hisize : (2 : Nat) ^ 40 < isizeMax := by decide
    refine ⟨body', K.serialize_eq_ok.mpr ⟨⟨_, hn, by omega⟩, hbody⟩, hsmall, ?_⟩
    rw [show (2 : Nat) ^ 32 = 256 ^ 4 from rfl, LittleEndian.encode_mod,
      show (256 : Nat) ^ 4 = 2 ^ 32 from rfl] at h
    split at h
    · exact absurd h (Exec.err_ne_ok _ _)
    split at h
    · exact .inr h
    · exact .inl (Except.ok.inj h).symm
  · rw [hbody] at herr
    exact absurd herr.symm (Exec.err_ne_ok _ _)

/-- A frame of whatever mode decodes to the value its prepared body holds. -/
theorem deserializeIpcFrame_lossless (categories : CategoricalMapping) (encoding : SymbolEncoding)
    {msgType : MsgType} {mode : UInt8} {payload : Bytes} (prepared : PreparedBody) {value : QValue}
    (hmode : mode ≤ 2) (hleast : 2 ≤ payload.length) (hsmall : 8 + payload.length < 2 ^ 40)
    (hprepared : prepareIpcBody ⟨msgType.toByte, mode, 8 + payload.length⟩ payload none =
      .ok (msgType, prepared))
    (hvalue : QValue.fromBytes prepared.bytes = .ok value) :
    deserializeIpcFrame categories encoding .Lossless (layFrame 1 msgType.toByte mode payload) =
      .ok (msgType, .QValue value) := by
  have husize : (2 : Nat) ^ 40 < usizeMax := by decide
  have hlength := layFrame_length 1 msgType.toByte mode payload
  have hget : getRange (layFrame 1 msgType.toByte mode payload) 0 ipcHeaderLength =
      some ((layFrame 1 msgType.toByte mode payload).take 8) :=
    getRange_eq_some.mpr ⟨by simp, by rw [hlength]; simp [ipcHeaderLength], rfl⟩
  unfold deserializeIpcFrame
  rw [hget, Exec.okOr_some, Exec.ok_bind, parseIpcHeader_layFrame msgType mode payload hmode hleast hsmall,
    Exec.ok_bind, if_pos (by simp only; omega), Exec.okOr_some, Exec.ok_bind, if_neg (by simp [hlength]),
    ipcHeaderLength, drop_layFrame, hprepared, Exec.ok_bind, decodeValueBody, hvalue, Exec.ok_bind,
    Exec.ok_bind]

theorem prefixMode_width (length : Nat) (h : length < 2 ^ 40) :
    prefixMode length ≤ 2 ∧
      (prefixMode length = 1 ∧ prefixWidth (prefixMode length) = 4 ∧ length < 256 ^ 4 ∨
        prefixMode length = 2 ∧ prefixWidth (prefixMode length) = 8 ∧ length < 256 ^ 8) := by
  have hmax : u32Max = 256 ^ 4 - 1 := rfl
  unfold prefixMode
  by_cases hbig : length > u32Max
  · rw [if_pos hbig]
    exact ⟨by decide, .inr ⟨rfl, rfl, by omega⟩⟩
  · rw [if_neg hbig]
    exact ⟨by decide, .inl ⟨rfl, rfl, by omega⟩⟩

/-- The framing of a body that was compressed gives the body back: the ratio bound and the
structural bound hold of everything the decompressor accepts. -/
theorem prepareIpcBody_decompresses {msgType : MsgType} {mode : UInt8} {payload body : Bytes} {width : Nat}
    (hmode : mode = 1 ∧ width = 4 ∨ mode = 2 ∧ width = 8) (hpayload : 8 + payload.length < 2 ^ 40)
    (hbody : 8 + body.length < 2 ^ 40) (hleast : 2 ≤ body.length)
    (hok : decompress payload (List.replicate body.length 0) width = .ok body) :
    prepareIpcBody ⟨msgType.toByte, mode, 8 + payload.length⟩ payload none =
      .ok (msgType, .owned body) := by
  have husize : (2 : Nat) ^ 42 < usizeMax := by decide
  obtain ⟨hwidth, hstart, hlead, hphysical, hratio⟩ :=
    decompress_lengths (by omega) (by simp only [List.length_replicate]; omega) hok
  rw [List.length_replicate] at hlead hphysical hratio
  have hnonzero : mode ≠ 0 := by
    rcases hmode with ⟨rfl, -⟩ | ⟨rfl, -⟩ <;> decide
  rw [prepareIpcBody_eq_ok]
  refine ⟨checkedBodyLength_eq_ok.mpr ⟨?_, ?_, ?_⟩, messageType_eq_ok.mpr rfl, .inr ⟨hnonzero,
    body.length + 8, width, body.length, body, ?_, ?_, ?_, ?_, hok, rfl⟩⟩
  · simp only
    omega
  · exact Nat.add_comm _ _
  · omega
  · exact compressedMessageLength_eq_ok.mpr ⟨hmode, hlead⟩
  · rfl
  · rw [enforceCompressedPhysicalBound_eq_ok (by omega)]
    simp only
    omega
  · rw [checkedDecompressedBodyLength_eq_ok]
    omega

/-- **Frame round trip.** Every message that is generated holds its own length in its length
field, and where the serialized body is a valid lossless body, decoding the message gives
back the message type and the value with exactly these bytes, compressed or not. -/
theorem deserializeIpcFrame_generate (categories : CategoricalMapping) (encoding : SymbolEncoding)
    (msgType : MsgType) (enableCompression : Bool) (k : K) (frame : Bytes)
    (hframe : generateJ6IpcMsg msgType enableCompression k = .ok frame) :
    lengthField frame = frame.length ∧ ∃ body, k.serialize = .ok body ∧
      ∀ value, QValue.fromBytes body = .ok value →
        value.bytes = body ∧
        deserializeIpcFrame categories encoding .Lossless frame = .ok (msgType, .QValue value) := by
  obtain ⟨body, hbody, hsmall, hshape⟩ := generateJ6IpcMsg_eq_ok hframe
  have husize : (2 : Nat) ^ 40 < usizeMax := by decide
  have hlength := layFrame_length 1 msgType.toByte 0 body
  have hleast {value : QValue} (hvalue : QValue.fromBytes body = .ok value) : 2 ≤ body.length := by
    obtain ⟨⟨metadata, hvalid⟩, hbounded⟩ := QValue.fromBytes_isOk.mp ⟨value, hvalue⟩
    obtain ⟨wire, hwf, -, rfl, -⟩ := (QValue.validate_eq_ok hbounded).mp hvalid
    exact QValue.Wire.two_le_encode hwf
  have hplain : lengthField (layFrame 1 msgType.toByte 0 body) = (layFrame 1 msgType.toByte 0 body).length ∧
      ∀ value, QValue.fromBytes body = .ok value → value.bytes = body ∧
        deserializeIpcFrame categories encoding .Lossless (layFrame 1 msgType.toByte 0 body) =
          .ok (msgType, .QValue value) := by
    refine ⟨lengthField_layFrame _ _ _ _ hsmall, fun value hvalue => ⟨QValue.fromBytes_eq_ok.mp hvalue, ?_⟩⟩
    refine deserializeIpcFrame_lossless categories encoding (.borrowed body) (by decide) (hleast hvalue)
      hsmall (prepareIpcBody_eq_ok.mpr ⟨checkedBodyLength_eq_ok.mpr ?_,
        messageType_eq_ok.mpr rfl, .inl ⟨rfl, rfl, rfl⟩⟩) hvalue
    have := hleast hvalue
    simp only
    omega
  rcases hshape with rfl | hcompressed
  · exact ⟨hplain.1, body, hbody, hplain.2⟩
  rcases compress_cases (layFrame 1 msgType.toByte 0 body) (by omega) with hsame | ⟨order, kind, tail, gs, g,
    e, hcons, hlong, hrun, hfits, hfull, hne, hg, hall, hend⟩
  · obtain rfl : frame = layFrame 1 msgType.toByte 0 body :=
      Except.ok.inj (hcompressed.symm.trans hsame)
    exact ⟨hplain.1, body, hbody, hplain.2⟩
  -- the compressor copies the byte order and the message type and lays the frame out anew
  obtain ⟨rfl, rfl⟩ : order = 1 ∧ kind = msgType.toByte := by
    simp only [layFrame, List.cons_append, List.cons.injEq] at hcons
    exact ⟨hcons.1.symm, hcons.2.1.symm⟩
  rw [hlength] at hrun hfits hlong
  obtain ⟨hmode, hwidth⟩ := prefixMode_width (8 + body.length) hsmall
  obtain rfl := Except.ok.inj (hrun.symm.trans hcompressed)
  rw [compressedFrame_eq_layFrame]
  have hpacked := decompress_packed (layFrame 1 msgType.toByte 0 body) (List.replicate body.length 0)
    (prefixWidth (prefixMode (8 + body.length))) gs g e (by omega) (by omega)
    (by rw [hlength, List.length_replicate]; omega) (by rw [hlength]; omega)
    (by rw [hlength]; omega) hfull hne hg hall hend
  rw [hlength, drop_layFrame] at hpacked
  set payload := LittleEndian.encode (prefixWidth (prefixMode (8 + body.length))) (8 + body.length) ++
    pack (gs ++ [g]) with hpayload
  have hsize : payload.length = prefixWidth (prefixMode (8 + body.length)) + (pack (gs ++ [g])).length := by
    rw [hpayload, List.length_append, LittleEndian.encode_length]
  refine ⟨lengthField_layFrame _ _ _ _ (by omega), body, hbody, fun value hvalue =>
    ⟨QValue.fromBytes_eq_ok.mp hvalue, ?_⟩⟩
  refine deserializeIpcFrame_lossless categories encoding (.owned body) hmode (by omega) (by omega)
    (prepareIpcBody_decompresses ?_ (by omega) hsmall (by omega) hpacked) hvalue
  rcases hwidth with ⟨hm, hw, -⟩ | ⟨hm, hw, -⟩
  · exact .inl ⟨hm, hw⟩
  · exact .inr ⟨hm, hw⟩

theorem deserializeIpcFrame_generate_list :
    let k : K := .MixedList [.Boolean true, .CharVector [97, 98]]
    let frame : Bytes := [1, 1, 0, 0, 24, 0, 0, 0, 0, 0, 2, 0, 0, 0, 255, 1, 10, 0, 2, 0, 0, 0, 97, 98]
    generateJ6IpcMsg .Sync true k = .ok frame ∧ ∃ value : QValue, value.bytes = frame.drop 8 ∧
      deserializeIpcFrame numberedTexts .Strict .Lossless frame = .ok (.Sync, .QValue value) := by
  intro k frame
  have hframe : generateJ6IpcMsg .Sync true k = .ok frame := by decide
  obtain ⟨-, body, hbody, hdecode⟩ := deserializeIpcFrame_generate numberedTexts .Strict .Sync true k frame hframe
  obtain rfl : frame.drop 8 = body := Except.ok.inj (((by decide :
    k.serialize = .ok (frame.drop 8)).symm).trans hbody)
  obtain ⟨value, hvalue⟩ := QValue.fromBytes_isOk.mpr ⟨⟨_, (by decide : QValue.validate (frame.drop 8) =
    .ok ⟨0, 2, false, 1⟩)⟩, by decide⟩
  exact ⟨hframe, value, hdecode value hvalue⟩

end Xqdb.Connector
