import Xqdb.Compression.Expansion
import Xqdb.Connector.QStream
import Xqdb.Types

/-! Framing of `connector.rs`: the header of a frame and its 40-bit length field, the bounds
a declared length is held to before anything is allocated for it, a frame that lies in
memory and a frame that arrives on a socket. The socket path checks the length prefix of a
compressed body before it reads the rest, and grows its buffer in steps; both paths end in
`prepare_ipc_body`. -/

namespace Xqdb.Connector

open Compression

def ipcHeaderLength : Nat := 8

def minSerializedValueLength : Nat := 2

def maxIpcLengthField : Nat := 2 ^ 40 - 1

def maxIpcDecompressionRatio : Nat := 121

def initialBodyReservation : Nat := 32 * 1024 * 1024

def bodyReservationFactor : Nat := 8

def maxRetainedBufferBytes : Nat := 256 * 1024 * 1024

/-- The high byte and the low word of the length field. -/
def ipcLengthHeader (totalLength : Nat) : Exec (UInt8 × Nat) :=
  if totalLength > maxIpcLengthField then
    Exec.err (.Err s!"IPC message length {totalLength} exceeds the {maxIpcLengthField}-byte q header length field")
  else .ok (UInt8.ofNat (totalLength / 2 ^ 32), totalLength % 2 ^ 32)

def checkedBodyLength (totalLength : Nat) (description : String) : Exec Nat := do
  let totalLength ← Exec.okOr (if totalLength ≤ usizeMax then some totalLength else none)
    (.Err s!"{description} length cannot be represented on this platform")
  let bodyLength ← Exec.okOr (checkedSub totalLength ipcHeaderLength)
    (.Err s!"{description} length {totalLength} is shorter than the {ipcHeaderLength}-byte header")
  if bodyLength < minSerializedValueLength then
    Exec.err (.Err s!"{description} body length {bodyLength} is too short to contain a serialized q value")
  else .ok bodyLength

def checkedDecompressedBodyLength (declaredTotalLength compressedPayloadLength : Nat) : Exec Nat := do
  let bodyLength ← checkedBodyLength declaredTotalLength "Decompressed IPC message"
  let maximumBodyLength := min (compressedPayloadLength * maxIpcDecompressionRatio) usizeMax
  if bodyLength > maximumBodyLength then
    Exec.err (.DeserializationErr s!"Decompressed IPC message length {declaredTotalLength} is unreachable from {compressedPayloadLength} compressed bytes, which expand to at most {maximumBodyLength} bytes")
  else .ok bodyLength

/-- The declared length in front of a compressed body, and the width of this prefix. -/
def compressedMessageLength (body : Bytes) (mode : UInt8) : Exec (Nat × Nat) :=
  if mode = 1 then do
    let bytes ← Exec.okOr (getRange body 0 4)
      (.Err s!"Compressed IPC body is {body.length} bytes; compression mode 1 requires a 4-byte decompressed-length prefix")
    .ok (LittleEndian.decode bytes, 4)
  else if mode = 2 then do
    let bytes ← Exec.okOr (getRange body 0 8)
      (.Err s!"Compressed IPC body is {body.length} bytes; compression mode 2 requires an 8-byte decompressed-length prefix")
    .ok (LittleEndian.decode bytes, 8)
  else Exec.err (.Err s!"Unsupported IPC compression mode {mode}")

structure ParsedIpcHeader where
  messageKind : UInt8
  compressionMode : UInt8
  totalLength : Nat
  deriving DecidableEq, Repr

def messageType (kind : UInt8) : Exec MsgType :=
  if kind = 0 then .ok .Async
  else if kind = 1 then .ok .Sync
  else if kind = 2 then .ok .Response
  else Exec.err (.DeserializationErr s!"Unsupported IPC message type {kind}")

def parseIpcHeader (header : Bytes) : Exec ParsedIpcHeader :=
  match header with
  | [order, kind, mode, high, a, b, c, d] =>
    if order = 0 then Exec.err .NotSupportedBigEndianErr
    else if order ≠ 1 then
      Exec.err (.DeserializationErr s!"Unsupported IPC byte-order marker {order}")
    else do
      let _ ← messageType kind
      if mode > 2 then
        Exec.err (.DeserializationErr s!"Unsupported IPC compression mode {mode}")
      else do
        let totalLength ← Exec.okOr
          (checkedAdd (high.toNat * 2 ^ 32) (LittleEndian.decode [a, b, c, d]))
          (.DeserializationErr "IPC length overflowed")
        let _ ← checkedBodyLength totalLength "IPC message"
        .ok ⟨kind, mode, totalLength⟩
  | header => Exec.err (.DeserializationErr
      s!"IPC header must be exactly {ipcHeaderLength} bytes, got {header.length}")

def enforceMessageBound (totalLength : Nat) (maximum : Option Nat) : Exec Unit :=
  match maximum with
  | none => .ok ()
  | some maximum =>
    if totalLength > maximum then
      Exec.err (.Err s!"IPC message's uncompressed length {totalLength} exceeds configured maximum {maximum}")
    else .ok ()

def enforceCompressedPhysicalBound (physicalTotalLength logicalTotalLength prefixLength : Nat) :
    Exec Unit := do
  let decodedBodyLength ← checkedBodyLength logicalTotalLength "Decompressed IPC message"
  let overflowed := XqdbError.DeserializationErr "Compressed IPC structural length bound overflowed"
  let rounded ← Exec.okOr (checkedAdd decodedBodyLength 7) overflowed
  let flagBytes := rounded / 8
  let maximumTotalLength ← Exec.okOr
    (((checkedAdd ipcHeaderLength prefixLength).bind (checkedAdd · decodedBodyLength)).bind
      (checkedAdd · flagBytes)) overflowed
  if physicalTotalLength > maximumTotalLength then
    Exec.err (.DeserializationErr s!"Compressed IPC frame length {physicalTotalLength} exceeds maximum structurally valid length {maximumTotalLength} for declared uncompressed length {logicalTotalLength}")
  else .ok ()

/-- The body of a frame: its bytes, and whether they are a fresh allocation. -/
inductive PreparedBody where
  | borrowed (bytes : Bytes)
  | owned (bytes : Bytes)
  deriving DecidableEq, Repr

def PreparedBody.bytes : PreparedBody → Bytes
  | borrowed bytes => bytes
  | owned bytes => bytes

def prepareIpcBody (header : ParsedIpcHeader) (body : Bytes) (maxMessageBytes : Option Nat) :
    Exec (MsgType × PreparedBody) := do
  let expectedBodyLength ← checkedBodyLength header.totalLength "IPC message"
  if body.length ≠ expectedBodyLength then
    Exec.err (.DeserializationErr s!"IPC frame length mismatch: header declares {expectedBodyLength} body bytes, got {body.length}")
  else if header.compressionMode = 0 then do
    enforceMessageBound header.totalLength maxMessageBytes
    let kind ← messageType header.messageKind
    .ok (kind, .borrowed body)
  else do
    let declared ← compressedMessageLength body header.compressionMode
    enforceMessageBound declared.1 maxMessageBytes
    enforceCompressedPhysicalBound header.totalLength declared.1 declared.2
    let decompressedBodyLength ←
      checkedDecompressedBodyLength declared.1 (body.length - declared.2)
    let decompressed ← decompress body (List.replicate decompressedBodyLength 0) declared.2
    let kind ← messageType header.messageKind
    .ok (kind, .owned decompressed)

/-! ## Nothing here panics -/

theorem checkedBodyLength_noPanic (totalLength : Nat) (description : String) :
    NoPanic (checkedBodyLength totalLength description) := by
  refine (noPanic_okOr _ _).bind fun _ _ => (noPanic_okOr _ _).bind fun _ _ => ?_
  split
  · exact noPanic_err _
  · exact noPanic_ok _

theorem checkedDecompressedBodyLength_noPanic (declared payload : Nat) :
    NoPanic (checkedDecompressedBodyLength declared payload) := by
  refine (checkedBodyLength_noPanic _ _).bind fun _ _ => ?_
  dsimp only
  split
  · exact noPanic_err _
  · exact noPanic_ok _

theorem compressedMessageLength_noPanic (body : Bytes) (mode : UInt8) :
    NoPanic (compressedMessageLength body mode) := by
  unfold compressedMessageLength
  split
  · exact (noPanic_okOr _ _).bind fun _ _ => noPanic_ok _
  split
  · exact (noPanic_okOr _ _).bind fun _ _ => noPanic_ok _
  · exact noPanic_err _

theorem messageType_noPanic (kind : UInt8) : NoPanic (messageType kind) := by
  unfold messageType
  split
  · exact noPanic_ok _
  split
  · exact noPanic_ok _
  split
  · exact noPanic_ok _
  · exact noPanic_err _

theorem enforceMessageBound_noPanic (length : Nat) (maximum : Option Nat) :
    NoPanic (enforceMessageBound length maximum) := by
  unfold enforceMessageBound
  split
  · exact noPanic_ok _
  · split
    · exact noPanic_err _
    · exact noPanic_ok _

theorem enforceCompressedPhysicalBound_noPanic (physical logical width : Nat) :
    NoPanic (enforceCompressedPhysicalBound physical logical width) := by
  refine (checkedBodyLength_noPanic _ _).bind fun _ _ => ?_
  refine (noPanic_okOr _ _).bind fun _ _ => (noPanic_okOr _ _).bind fun _ _ => ?_
  split
  · exact noPanic_err _
  · exact noPanic_ok _

theorem parseIpcHeader_noPanic (header : Bytes) : NoPanic (parseIpcHeader header) := by
  unfold parseIpcHeader
  split
  · split
    · exact noPanic_err _
    split
    · exact noPanic_err _
    refine (messageType_noPanic _).bind fun _ _ => ?_
    split
    · exact noPanic_err _
    refine (noPanic_okOr _ _).bind fun _ _ => (checkedBodyLength_noPanic _ _).bind fun _ _ => ?_
    exact noPanic_ok _
  · exact noPanic_err _

/-! ## The bounds and the decompressor -/

theorem checkedBodyLength_eq_ok {totalLength bodyLength : Nat} {description : String} :
    checkedBodyLength totalLength description = .ok bodyLength ↔
      totalLength ≤ usizeMax ∧ totalLength = bodyLength + 8 ∧ 2 ≤ bodyLength := by
  unfold checkedBodyLength ipcHeaderLength minSerializedValueLength checkedSub
  by_cases hfits : totalLength ≤ usizeMax
  · rw [if_pos hfits, Exec.okOr_some, Exec.ok_bind]
    by_cases hheader : 8 ≤ totalLength
    · rw [if_pos hheader, Exec.okOr_some, Exec.ok_bind]
      split
      · simp only [Exec.err_ne_ok, false_iff]
        omega
      · simp only [Except.ok.injEq]
        omega
    · rw [if_neg hheader, Exec.okOr_none, Exec.err_bind]
      simp only [Exec.err_ne_ok, false_iff]
      omega
  · rw [if_neg hfits, Exec.okOr_none, Exec.err_bind]
    simp only [Exec.err_ne_ok, false_iff]
    omega

theorem checkedDecompressedBodyLength_eq_ok {declared payload bodyLength : Nat} :
    checkedDecompressedBodyLength declared payload = .ok bodyLength ↔
      declared ≤ usizeMax ∧ declared = bodyLength + 8 ∧ 2 ≤ bodyLength ∧ bodyLength ≤ payload * 121 := by
  unfold checkedDecompressedBodyLength maxIpcDecompressionRatio
  rw [Exec.bind_eq_ok]
  constructor
  · rintro ⟨length, hlength, hrest⟩
    obtain ⟨hfits, hdeclared, hleast⟩ := checkedBodyLength_eq_ok.mp hlength
    dsimp only at hrest
    split at hrest
    · exact absurd hrest (Exec.err_ne_ok _ _)
    · cases hrest
      omega
  · rintro ⟨hfits, hdeclared, hleast, hmost⟩
    exact ⟨bodyLength, checkedBodyLength_eq_ok.mpr ⟨hfits, hdeclared, hleast⟩,
      if_neg (by omega)⟩

theorem enforceCompressedPhysicalBound_eq_ok {physical logical width : Nat}
    (hlogical : logical + logical / 8 + width + 16 ≤ usizeMax) :
    enforceCompressedPhysicalBound physical logical width = .ok () ↔
      10 ≤ logical ∧ physical ≤ 8 + width + (logical - 8) + (logical - 8 + 7) / 8 := by
  unfold enforceCompressedPhysicalBound ipcHeaderLength
  rw [Exec.bind_eq_ok]
  have hadd : ∀ a b, a + b ≤ usizeMax → checkedAdd a b = some (a + b) := fun a b hle =>
    checkedAdd_eq_some.mpr ⟨rfl, hle⟩
  constructor
  · rintro ⟨length, hlength, hrest⟩
    obtain ⟨-, hdeclared, hleast⟩ := checkedBodyLength_eq_ok.mp hlength
    simp only [hadd length 7 (by omega), hadd 8 width (by omega), Exec.okOr_some, Exec.ok_bind,
      Option.bind_some, hadd (8 + width) length (by omega),
      hadd (8 + width + length) ((length + 7) / 8) (by omega)] at hrest
    split at hrest
    · exact absurd hrest (Exec.err_ne_ok _ _)
    · omega
  · rintro ⟨hleast, hmost⟩
    obtain ⟨length, rfl⟩ : ∃ length, logical = length + 8 := ⟨logical - 8, by omega⟩
    refine ⟨length, checkedBodyLength_eq_ok.mpr ⟨by omega, rfl, by omega⟩, ?_⟩
    simp only [hadd length 7 (by omega), hadd 8 width (by omega), Exec.okOr_some, Exec.ok_bind,
      Option.bind_some, hadd (8 + width) length (by omega),
      hadd (8 + width + length) ((length + 7) / 8) (by omega)]
    exact if_neg (by omega)

/-- The connector and the decompressor read the same prefix. -/
theorem compressedMessageLength_eq_ok {body : Bytes} {mode : UInt8} {declared width : Nat} :
    compressedMessageLength body mode = .ok (declared, width) ↔
      (mode = 1 ∧ width = 4 ∨ mode = 2 ∧ width = 8) ∧
        decompressedTotalLength body width = .ok declared := by
  unfold compressedMessageLength decompressedTotalLength
  by_cases hone : mode = 1
  · subst hone
    rw [if_pos rfl, Exec.bind_eq_ok]
    constructor
    · rintro ⟨bytes, hbytes, hok⟩
      cases hok
      exact ⟨.inl ⟨rfl, rfl⟩, by rw [if_pos rfl, Exec.okOr_eq_ok.mp hbytes]; rfl⟩
    · rintro ⟨⟨-, rfl⟩ | ⟨hmode, -⟩, hdeclared⟩
      · rw [if_pos rfl] at hdeclared
        obtain ⟨bytes, hbytes, hok⟩ := Exec.bind_eq_ok.mp hdeclared
        cases hok
        exact ⟨bytes, Exec.okOr_eq_ok.mpr (Exec.okOr_eq_ok.mp hbytes), rfl⟩
      · exact absurd hmode (by decide)
  · rw [if_neg hone]
    by_cases htwo : mode = 2
    · subst htwo
      rw [if_pos rfl, Exec.bind_eq_ok]
      constructor
      · rintro ⟨bytes, hbytes, hok⟩
        cases hok
        exact ⟨.inr ⟨rfl, rfl⟩,
          by rw [if_neg (by decide), if_pos rfl, Exec.okOr_eq_ok.mp hbytes]; rfl⟩
      · rintro ⟨⟨hmode, -⟩ | ⟨-, rfl⟩, hdeclared⟩
        · exact absurd hmode (by decide)
        · rw [if_neg (by decide), if_pos rfl] at hdeclared
          obtain ⟨bytes, hbytes, hok⟩ := Exec.bind_eq_ok.mp hdeclared
          cases hok
          exact ⟨bytes, Exec.okOr_eq_ok.mpr (Exec.okOr_eq_ok.mp hbytes), rfl⟩
    · rw [if_neg htwo]
      simp [hone, htwo]

/-- **No decompressible frame is refused by the bounds** that stand in front of the
decompressor: whatever `decompress` accepts into a destination of at least two bytes, the
ratio bound and the structural bound accept. -/
theorem bounds_admit_decompressible (body deVec out : Bytes) (mode : UInt8) (declared width : Nat)
    (hbody : body.length ≤ isizeMax) (hdeVec : deVec.length ≤ isizeMax)
    (hdeclared : compressedMessageLength body mode = .ok (declared, width))
    (hleast : ipcHeaderLength + minSerializedValueLength ≤ declared)
    (hok : decompress body deVec width = .ok out) :
    checkedDecompressedBodyLength declared (body.length - width) = .ok (declared - 8) ∧
      enforceCompressedPhysicalBound (ipcHeaderLength + body.length) declared width = .ok () := by
  unfold ipcHeaderLength minSerializedValueLength at *
  have hsize : isizeMax + isizeMax / 8 + 40 ≤ usizeMax := by decide
  obtain ⟨hwidth, hstart, hlead, hphysical, hratio⟩ :=
    decompress_lengths (by omega) (by omega) hok
  obtain ⟨-, hsame⟩ := compressedMessageLength_eq_ok.mp hdeclared
  obtain rfl : declared = deVec.length + 8 := Except.ok.inj (hsame.symm.trans hlead)
  constructor
  · rw [checkedDecompressedBodyLength_eq_ok]
    omega
  · rw [enforceCompressedPhysicalBound_eq_ok (by omega)]
    omega

theorem bounds_admit_run :
    let body : Bytes := [15, 0, 0, 0, 4, 97, 98, 3, 3]
    decompress body (List.replicate 7 0) 4 = .ok [97, 98, 97, 98, 97, 98, 97] ∧
      checkedDecompressedBodyLength 15 5 = .ok 7 ∧ enforceCompressedPhysicalBound 17 15 4 = .ok () := by
  intro body
  have hok : decompress body (List.replicate 7 0) 4 = .ok [97, 98, 97, 98, 97, 98, 97] := by decide
  exact ⟨hok, bounds_admit_decompressible body (List.replicate 7 0) _ 1 15 4 (by decide) (by decide)
    (by decide) (by decide) hok⟩

/-! ## Headers -/

theorem messageType_eq_ok {kind : UInt8} {type : MsgType} :
    messageType kind = .ok type ↔ kind = type.toByte := by
  unfold messageType
  by_cases hzero : kind = 0
  · subst hzero
    cases type <;> simp [MsgType.toByte]
  by_cases hone : kind = 1
  · subst hone
    cases type <;> simp [MsgType.toByte]
  by_cases htwo : kind = 2
  · subst htwo
    cases type <;> simp [MsgType.toByte]
  · rw [if_neg hzero, if_neg hone, if_neg htwo]
    cases type <;> simp [MsgType.toByte, hzero, hone, htwo]

/-- The headers that are accepted, and what they say. -/
theorem parseIpcHeader_eq_ok {order kind mode high a b c d : UInt8} {header : ParsedIpcHeader} :
    parseIpcHeader [order, kind, mode, high, a, b, c, d] = .ok header ↔
      order = 1 ∧ (∃ type : MsgType, kind = type.toByte) ∧ mode ≤ 2 ∧
        10 ≤ LittleEndian.decode [a, b, c, d] + 2 ^ 32 * high.toNat ∧
        header = ⟨kind, mode, LittleEndian.decode [a, b, c, d] + 2 ^ 32 * high.toNat⟩ := by
  have hdecode := LittleEndian.decode_lt [a, b, c, d]
  simp only [List.length_cons, List.length_nil] at hdecode
  have hhigh := high.toNat_lt
  have husize : (2 : Nat) ^ 41 < usizeMax := by decide
  have hadd : checkedAdd (high.toNat * 2 ^ 32) (LittleEndian.decode [a, b, c, d]) =
      some (LittleEndian.decode [a, b, c, d] + 2 ^ 32 * high.toNat) :=
    checkedAdd_eq_some.mpr ⟨by omega, by omega⟩
  simp only [parseIpcHeader, hadd]
  by_cases hzero : order = 0
  · subst hzero
    simp
  by_cases hone : order = 1
  · subst hone
    rw [if_neg hzero, if_neg (by simp), Exec.bind_eq_ok]
    constructor
    · rintro ⟨type, htype, hrest⟩
      refine ⟨rfl, ⟨type, messageType_eq_ok.mp htype⟩, ?_⟩
      split at hrest
      · exact absurd hrest (Exec.err_ne_ok _ _)
      · next hmode =>
        rw [Exec.okOr_some, Exec.ok_bind] at hrest
        obtain ⟨body, hbody, hok⟩ := Exec.bind_eq_ok.mp hrest
        cases hok
        obtain ⟨-, hlength, hleast⟩ := checkedBodyLength_eq_ok.mp hbody
        exact ⟨UInt8.not_lt.mp hmode, by omega, rfl⟩
    · rintro ⟨-, ⟨type, htype⟩, hmode, hleast, rfl⟩
      refine ⟨type, messageType_eq_ok.mpr htype, ?_⟩
      rw [if_neg (UInt8.not_lt.mpr hmode), Exec.okOr_some, Exec.ok_bind, Exec.bind_eq_ok]
      exact ⟨LittleEndian.decode [a, b, c, d] + 2 ^ 32 * high.toNat - 8,
        checkedBodyLength_eq_ok.mpr ⟨by omega, by omega, by omega⟩, rfl⟩
  · rw [if_neg hzero, if_pos hone]
    simp [hone]

/-- A frame that is as long as it says. -/
def CompleteFrame (frame : Bytes) : Prop :=
  ipcHeaderLength ≤ frame.length ∧ lengthField frame = frame.length

theorem cons_of_length {l : Bytes} {n : Nat} (h : n + 1 ≤ l.length) :
    ∃ b rest, l = b :: rest ∧ n ≤ rest.length := by
  cases l with
  | nil => simp at h
  | cons b rest => exact ⟨b, rest, rfl, by simpa using h⟩

theorem take_header {frame : Bytes} (h : 8 ≤ frame.length) :
    ∃ order kind mode high a b c d rest,
      frame = order :: kind :: mode :: high :: a :: b :: c :: d :: rest := by
  obtain ⟨order, rest₀, rfl, h₀⟩ := cons_of_length h
  obtain ⟨kind, rest₁, rfl, h₁⟩ := cons_of_length h₀
  obtain ⟨mode, rest₂, rfl, h₂⟩ := cons_of_length h₁
  obtain ⟨high, rest₃, rfl, h₃⟩ := cons_of_length h₂
  obtain ⟨a, rest₄, rfl, h₄⟩ := cons_of_length h₃
  obtain ⟨b, rest₅, rfl, h₅⟩ := cons_of_length h₄
  obtain ⟨c, rest₆, rfl, h₆⟩ := cons_of_length h₅
  obtain ⟨d, rest, rfl, -⟩ := cons_of_length h₆
  exact ⟨order, kind, mode, high, a, b, c, d, rest, rfl⟩

/-- What an accepted header says about its frame. -/
theorem parsedHeader {frame : Bytes} {header : ParsedIpcHeader} (hframe : CompleteFrame frame)
    (h : parseIpcHeader (frame.take 8) = .ok header) :
    header.totalLength = frame.length ∧ header.compressionMode = byteAt frame 2 ∧
      header.compressionMode ≤ 2 ∧ (∃ type : MsgType, header.messageKind = type.toByte) ∧
      10 ≤ frame.length ∧ frame.length < 2 ^ 40 := by
  obtain ⟨hlong, hlength⟩ := hframe
  obtain ⟨order, kind, mode, high, a, b, c, d, rest, rfl⟩ := take_header hlong
  obtain ⟨-, htype, hmode, hleast, rfl⟩ := parseIpcHeader_eq_ok.mp h
  have hfield : lengthField (order :: kind :: mode :: high :: a :: b :: c :: d :: rest) =
      LittleEndian.decode [a, b, c, d] + 2 ^ 32 * high.toNat := by
    simp [lengthField, byteAt]
  have hdecode := LittleEndian.decode_lt [a, b, c, d]
  have hhigh := high.toNat_lt
  simp only [List.length_cons, List.length_nil] at hdecode
  rw [hfield] at hlength
  refine ⟨hlength, rfl, hmode, htype, by omega, by omega⟩

/-! ## Bodies -/

/-- The length of a message that is not compressed, as its frame declares it. -/
def uncompressedLength (frame : Bytes) : Nat :=
  if byteAt frame 2 = 0 then lengthField frame
  else LittleEndian.decode ((frame.drop 8).take (prefixWidth (byteAt frame 2)))

theorem enforceMessageBound_eq_ok {length : Nat} {maximum : Option Nat} :
    enforceMessageBound length maximum = .ok () ↔ ∀ m, maximum = some m → length ≤ m := by
  cases maximum with
  | none => simp [enforceMessageBound]
  | some m =>
    simp only [enforceMessageBound, Option.some.injEq, forall_eq']
    split
    · simp only [Exec.err_ne_ok, false_iff]
      omega
    · simp only [true_iff]
      omega

/-- Everything that makes a body acceptable. -/
theorem prepareIpcBody_eq_ok {header : ParsedIpcHeader} {body : Bytes} {maximum : Option Nat}
    {kind : MsgType} {prepared : PreparedBody} :
    prepareIpcBody header body maximum = .ok (kind, prepared) ↔
      checkedBodyLength header.totalLength "IPC message" = .ok body.length ∧
      messageType header.messageKind = .ok kind ∧
      (header.compressionMode = 0 ∧ enforceMessageBound header.totalLength maximum = .ok () ∧
        prepared = .borrowed body ∨
      header.compressionMode ≠ 0 ∧ ∃ declared width length decompressed,
        compressedMessageLength body header.compressionMode = .ok (declared, width) ∧
        enforceMessageBound declared maximum = .ok () ∧
        enforceCompressedPhysicalBound header.totalLength declared width = .ok () ∧
        checkedDecompressedBodyLength declared (body.length - width) = .ok length ∧
        decompress body (List.replicate length 0) width = .ok decompressed ∧
        prepared = .owned decompressed) := by
  unfold prepareIpcBody
  rw [Exec.bind_eq_ok]
  constructor
  · rintro ⟨expected, hexpected, h⟩
    split at h
    · exact absurd h (Exec.err_ne_ok _ _)
    next hlength =>
    obtain rfl : body.length = expected := not_not.mp hlength
    refine ⟨hexpected, ?_⟩
    split at h
    · next hmode =>
      obtain ⟨⟨⟩, hbound, h⟩ := Exec.bind_eq_ok.mp h
      obtain ⟨type, htype, h⟩ := Exec.bind_eq_ok.mp h
      cases h
      exact ⟨htype, .inl ⟨hmode, hbound, rfl⟩⟩
    · next hmode =>
      obtain ⟨declared, hdeclared, h⟩ := Exec.bind_eq_ok.mp h
      obtain ⟨⟨⟩, hbound, h⟩ := Exec.bind_eq_ok.mp h
      obtain ⟨⟨⟩, hphysical, h⟩ := Exec.bind_eq_ok.mp h
      obtain ⟨length, hlen, h⟩ := Exec.bind_eq_ok.mp h
      obtain ⟨decompressed, hdecompressed, h⟩ := Exec.bind_eq_ok.mp h
      obtain ⟨type, htype, h⟩ := Exec.bind_eq_ok.mp h
      cases h
      exact ⟨htype, .inr ⟨hmode, declared.1, declared.2, length, decompressed, hdeclared, hbound,
        hphysical, hlen, hdecompressed, rfl⟩⟩
  · rintro ⟨hexpected, htype, h⟩
    refine ⟨body.length, hexpected, ?_⟩
    rw [if_neg (by simp)]
    rcases h with ⟨hmode, hbound, rfl⟩ |
      ⟨hmode, declared, width, length, decompressed, hdeclared, hbound, hphysical, hlen, hdecompressed,
        rfl⟩
    · rw [if_pos hmode, hbound, Exec.ok_bind, htype, Exec.ok_bind]
    · rw [if_neg hmode, hdeclared, Exec.ok_bind, hbound, Exec.ok_bind, hphysical, Exec.ok_bind, hlen,
        Exec.ok_bind, hdecompressed, Exec.ok_bind, htype, Exec.ok_bind]

end Xqdb.Connector
