import Xqdb.Connector.RequestFrames
import Xqdb.Lib.Outcome
import Xqdb.NormalForm

/-! A peer that speaks through `generate_j6_ipc_msg`: every message of the crate's own encoder,
compressed or not and cut into reads in whatever way, is what `execute` and `receive` of
`connector.rs` return at the other end, and what `execute` writes is what the peer reads. -/

namespace Xqdb.Connector

open Compression (compress compress_cases compressedFrame prefixMode prefixWidth pack decompress_packed)
open Incoming (content)

/-! ## One frame from end to end -/

section Frames

variable {msgType : MsgType} {body frame : Bytes} {maximum : Option Nat}

/-- A body that is accepted without a bound is accepted under every bound that it keeps. -/
theorem prepareIpcBody_bound {header : ParsedIpcHeader} {prepared : PreparedBody} (hsize : body.length ≤ usizeMax)
    (h : prepareIpcBody header body none = .ok (msgType, prepared))
    (hbound : ∀ m, maximum = some m → 8 + prepared.bytes.length ≤ m) :
    prepareIpcBody header body maximum = .ok (msgType, prepared) := by
  obtain ⟨hlength, htype, ⟨hzero, -, rfl⟩ |
    ⟨hzero, declared, width, length, out, hlead, -, hphysical, hdeclared, hrun, rfl⟩⟩ := prepareIpcBody_eq_ok.mp h
  · refine prepareIpcBody_eq_ok.mpr ⟨hlength, htype, .inl ⟨hzero, enforceMessageBound_eq_ok.mpr ?_, rfl⟩⟩
    obtain ⟨-, htotal, -⟩ := checkedBodyLength_eq_ok.mp hlength
    intro m hm
    have hle := hbound m hm
    simp only [PreparedBody.bytes] at hle
    omega
  · refine prepareIpcBody_eq_ok.mpr ⟨hlength, htype, .inr ⟨hzero, declared, width, length, out, hlead,
      enforceMessageBound_eq_ok.mpr ?_, hphysical, hdeclared, hrun, rfl⟩⟩
    obtain ⟨hfits, htotal, -⟩ := checkedDecompressedBodyLength_eq_ok.mp hdeclared
    have hout : out.length = length := by
      rcases @Compression.decompress_expands body (List.replicate length 0) width hsize
        (by rw [List.length_replicate]; omega) with ⟨out', hok, -, -, hlength'⟩ | ⟨⟨e, herr⟩, -⟩
      · obtain rfl := Except.ok.inj (hok.symm.trans hrun)
        rw [hlength', List.length_replicate]
      · rw [herr] at hrun
        cases hrun
    intro m hm
    have hle := hbound m hm
    simp only [PreparedBody.bytes] at hle
    omega

/-- A frame that was laid out, and compressed or not, is complete and holds its body. -/
theorem prepareFrame_laid (hleast : 2 ≤ body.length) (hsmall : 8 + body.length < 2 ^ 40)
    (hbound : ∀ m, maximum = some m → 8 + body.length ≤ m)
    (hframe : frame = layFrame 1 msgType.toByte 0 body ∨ compress (layFrame 1 msgType.toByte 0 body) = .ok frame) :
    CompleteFrame frame ∧ ∃ prepared, prepareFrame frame maximum = .ok (msgType, prepared) ∧
      prepared.bytes = body := by
  have husize : (2 : Nat) ^ 40 < usizeMax := by decide
  -- whatever the mode, the header is read back and the payload is what was laid out
  have hlaid {mode : UInt8} {payload : Bytes} {prepared : PreparedBody} (hmode : mode ≤ 2) (hpayload : 2 ≤ payload.length)
      (hshort : 8 + payload.length < 2 ^ 40) (hbytes : prepared.bytes = body)
      (hprepared : prepareIpcBody ⟨msgType.toByte, mode, 8 + payload.length⟩ payload none = .ok (msgType, prepared)) :
      CompleteFrame (layFrame 1 msgType.toByte mode payload) ∧ ∃ prepared,
        prepareFrame (layFrame 1 msgType.toByte mode payload) maximum = .ok (msgType, prepared) ∧
          prepared.bytes = body := by
    refine ⟨⟨?_, lengthField_layFrame _ _ _ _ hshort⟩, prepared, ?_, hbytes⟩
    · rw [layFrame_length, ipcHeaderLength]
      omega
    · rw [prepareFrame, ipcHeaderLength, parseIpcHeader_layFrame msgType mode payload hmode hpayload hshort,
        Exec.ok_bind, drop_layFrame]
      exact prepareIpcBody_bound (by omega) hprepared (by rwa [hbytes])
  have hplain := hlaid (by decide : (0 : UInt8) ≤ 2) hleast hsmall (rfl : (PreparedBody.borrowed body).bytes = body)
    (prepareIpcBody_eq_ok.mpr ⟨checkedBodyLength_eq_ok.mpr ⟨by simp only; omega, Nat.add_comm _ _, hleast⟩,
      messageType_eq_ok.mpr rfl, .inl ⟨rfl, rfl, rfl⟩⟩)
  rcases hframe with rfl | hcompressed
  · exact hplain
  have hlength := layFrame_length 1 msgType.toByte 0 body
  rcases compress_cases (layFrame 1 msgType.toByte 0 body) (by omega) with hsame | ⟨order, kind, tail, gs, g,
    e, hcons, hlong, hrun, hfits, hfull, hne, hg, hall, hend⟩
  · obtain rfl : frame = layFrame 1 msgType.toByte 0 body := Except.ok.inj (hcompressed.symm.trans hsame)
    exact hplain
  obtain ⟨rfl, rfl⟩ : order = 1 ∧ kind = msgType.toByte := by
    simp only [layFrame, List.cons_append, List.cons.injEq] at hcons
    exact ⟨hcons.1.symm, hcons.2.1.symm⟩
  rw [hlength] at hrun hfits hlong
  obtain ⟨hmode, hwidth⟩ := prefixMode_width (8 + body.length) hsmall
  obtain rfl := Except.ok.inj (hrun.symm.trans hcompressed)
  have hpacked := decompress_packed (layFrame 1 msgType.toByte 0 body) (List.replicate body.length 0)
    (prefixWidth (prefixMode (8 + body.length))) gs g e (by omega) (by omega)
    (by rw [hlength, List.length_replicate]; omega) (by rw [hlength]; omega)
    (by rw [hlength]; omega) hfull hne hg hall hend
  rw [hlength, drop_layFrame] at hpacked
  have hsize : (LittleEndian.encode (prefixWidth (prefixMode (8 + body.length))) (8 + body.length) ++
      pack (gs ++ [g])).length = prefixWidth (prefixMode (8 + body.length)) + (pack (gs ++ [g])).length := by
    rw [List.length_append, LittleEndian.encode_length]
  rw [compressedFrame_eq_layFrame]
  refine hlaid hmode (by omega) (by omega) (rfl : (PreparedBody.owned body).bytes = body)
    (prepareIpcBody_decompresses ?_ (by omega) hsmall hleast hpacked)
  rcases hwidth with ⟨hm, hw, -⟩ | ⟨hm, hw, -⟩
  · exact .inl ⟨hm, hw⟩
  · exact .inr ⟨hm, hw⟩

/-- What is serialized has a type byte and something behind it. -/
theorem two_le_serialize {k : K} (h : k.serialize = .ok body) : 2 ≤ body.length := by
  obtain ⟨-, happended⟩ := K.serialize_eq_ok.mp h
  obtain ⟨wire, hwf, rfl, -⟩ := K.appended_isValue k happended
  exact QValue.Wire.two_le_encode hwf

/-- A frame as a whole: its header, its body, and the value in the body. -/
theorem deserializeIpcFrame_prepared (categories : CategoricalMapping) (encoding : SymbolEncoding) (mode : ValueMode)
    {prepared : PreparedBody} (hframe : CompleteFrame frame) (h : prepareFrame frame none = .ok (msgType, prepared)) :
    deserializeIpcFrame categories encoding mode frame =
      (decodeValueBody categories encoding mode prepared.bytes).map (msgType, ·) := by
  have husize : (2 : Nat) ^ 40 < usizeMax := by decide
  obtain ⟨header, hheader, hbody⟩ := Exec.bind_eq_ok.mp h
  obtain ⟨htotal, -, -, -, -, hsmall⟩ := parsedHeader hframe hheader
  have hbytes : getRange frame 0 ipcHeaderLength = some (frame.take ipcHeaderLength) :=
    getRange_eq_some.mpr ⟨Nat.zero_le _, hframe.1, rfl⟩
  rw [deserializeIpcFrame, hbytes, Exec.okOr_some, Exec.ok_bind, hheader, Exec.ok_bind, if_pos (by omega), Exec.okOr_some,
    Exec.ok_bind, if_neg (by omega), hbody, Exec.ok_bind]
  cases decodeValueBody categories encoding mode prepared.bytes with
  | error e => rfl
  | ok value => rfl

theorem deserializeIpcFrame_generated (categories : CategoricalMapping) (encoding : SymbolEncoding) (mode : ValueMode)
    {k : K} {compressed : Bool} (h : generateJ6IpcMsg msgType compressed k = .ok frame) :
    ∃ body, k.serialize = .ok body ∧ deserializeIpcFrame categories encoding mode frame =
      (decodeValueBody categories encoding mode body).map (msgType, ·) := by
  obtain ⟨body, hbody, hsmall, hshape⟩ := generateJ6IpcMsg_eq_ok h
  obtain ⟨hcomplete, prepared, hprepared, rfl⟩ := @prepareFrame_laid msgType body frame none (two_le_serialize hbody) hsmall
    (by simp) hshape
  exact ⟨_, hbody, deserializeIpcFrame_prepared categories encoding mode hcomplete hprepared⟩

/-- Whether a value is sent, and as what, is a matter of its encoding. -/
theorem generateJ6IpcMsg_iff {msgType : MsgType} {enableCompression : Bool} {k : K} {frame : Bytes} :
    generateJ6IpcMsg msgType enableCompression k = .ok frame ↔
      ∃ body, k.serialize = .ok body ∧ 8 + body.length < 2 ^ 40 ∧
        (if enableCompression then compress (layFrame 1 msgType.toByte 0 body)
        else .ok (layFrame 1 msgType.toByte 0 body)) = .ok frame := by
  have hlaid {body : Bytes} (hbody : k.serialize = .ok body) (hsmall : 8 + body.length < 2 ^ 40) :
      generateJ6IpcMsg msgType enableCompression k =
        if enableCompression then compress (layFrame 1 msgType.toByte 0 body)
        else .ok (layFrame 1 msgType.toByte 0 body) := by
    obtain ⟨⟨n, hn, -⟩, happended⟩ := K.serialize_eq_ok.mp hbody
    obtain rfl : body.length = n := by
      obtain ⟨bytes, hbytes, hlength⟩ | ⟨herr, -⟩ := K.j6LenWithDepth_exact k hn
      · obtain rfl := Except.ok.inj (happended.symm.trans hbytes)
        exact hlength
      · cases happended.symm.trans herr
    have hfield := checkedJ6IpcTotalLength_eq_ok.mpr ⟨hsmall, rfl⟩
    have hlow : LittleEndian.encode 4 ((8 + body.length) % 2 ^ 32) = LittleEndian.encode 4 (8 + body.length) :=
      LittleEndian.encode_mod 4 _
    rw [generateJ6IpcMsg, hn, Exec.ok_bind, hfield, Exec.ok_bind, K.serializeInto, happended, Exec.ok_bind, Exec.ok_bind]
    simp only [hlow]
    rw [if_neg]
    · rfl
    · rw [ne_eq, not_not]
      exact layFrame_length 1 msgType.toByte 0 body
  constructor
  · intro h
    obtain ⟨body, hbody, hsmall, -⟩ := generateJ6IpcMsg_eq_ok h
    exact ⟨body, hbody, hsmall, (hlaid hbody hsmall).symm.trans h⟩
  · rintro ⟨body, hbody, hsmall, h⟩
    exact (hlaid hbody hsmall).trans h

theorem generateJ6IpcMsg_congr {msgType : MsgType} {enableCompression : Bool} {k k' : K} {frame : Bytes}
    (h : k.serialize = k'.serialize) :
    generateJ6IpcMsg msgType enableCompression k = .ok frame ↔ generateJ6IpcMsg msgType enableCompression k' = .ok frame := by
  rw [generateJ6IpcMsg_iff, generateJ6IpcMsg_iff, h]

end Frames

/-! ## What the peer says -/

/-- A value that the peer sends. -/
structure Message where
  value : K
  compressed : Bool

/-- The peer's frame of a message; its length on the wire keeps the client's bound. -/
structure Message.Framed (config : Config) (kind : MsgType) (message : Message) (frame : Bytes) : Prop where
  generated : generateJ6IpcMsg kind message.compressed message.value = .ok frame
  bounded : ∀ m, config.settings.maxMessageBytes = some m → ∀ n, message.value.j6Len = .ok n → 8 + n ≤ m

/-- What the value `k` of the peer comes to for the client: what its encoding decodes to, and for plain
values and for the lossless mode what that is. -/
structure Understood (runtime : Runtime) (config : Config) (k : K) (value : Except XqdbError K) : Prop where
  decoded : ∃ body, k.serialize = .ok body ∧ ∀ v, value = .ok v ↔
    decodeValueBody runtime.categories config.symbolEncoding config.settings.valueMode body = .ok v
  native : config.settings.valueMode = .Native → config.symbolEncoding = .Strict → k.IsPlain → k.KeysDistinct →
    k.nesting ≤ maxValueDepth →
    (∀ v, k.viewNorm = some v → value = .ok v) ∧ (k.viewNorm = none → ∃ e, value = .error e)
  lossless : config.settings.valueMode = .Lossless →
    (k.wireDepth ≤ maxValueDepth → ∃ q : QValue, value = .ok (.QValue q) ∧ k.serialize = .ok q.bytes) ∧
    (maxValueDepth < k.wireDepth → ∃ e, value = .error e)

section Values

variable {runtime : Runtime} {config : Config} {kind : MsgType} {message : Message} {frame : Bytes}

theorem Message.Framed.prepared (h : message.Framed config kind frame) :
    CompleteFrame frame ∧ ∃ body prepared, message.value.serialize = .ok body ∧
      prepareFrame frame config.settings.maxMessageBytes = .ok (kind, prepared) ∧ prepared.bytes = body := by
  obtain ⟨body, hbody, hsmall, hshape⟩ := generateJ6IpcMsg_eq_ok h.generated
  have hbound : ∀ m, config.settings.maxMessageBytes = some m → 8 + body.length ≤ m := by
    obtain ⟨⟨n, hn, -⟩, happended⟩ := K.serialize_eq_ok.mp hbody
    have hlength : body.length = n := by
      obtain ⟨bytes, hbytes, hlength⟩ | ⟨herr, -⟩ := K.j6LenWithDepth_exact message.value hn
      · obtain rfl := Except.ok.inj (happended.symm.trans hbytes)
        exact hlength
      · cases happended.symm.trans herr
    intro m hm
    rw [hlength]
    exact h.bounded m hm n hn
  obtain ⟨hcomplete, prepared, hprepared, hbytes⟩ := prepareFrame_laid (two_le_serialize hbody) hsmall hbound hshape
  exact ⟨hcomplete, body, prepared, hbody, hprepared, hbytes⟩

theorem Message.Framed.sends (h : message.Framed config kind frame) : Sends config frame kind := by
  obtain ⟨hcomplete, -, prepared, -, hprepared, -⟩ := h.prepared
  exact ⟨hcomplete, prepared, hprepared⟩

theorem mapError_eq_err {value : Except XqdbError K} {e : XqdbError} (h : value.mapError Failure.error = Exec.err e) :
    ∃ e, value = .error e := by
  cases value with
  | ok found => cases h
  | error e => exact ⟨e, rfl⟩

/-- Whatever the frame is decoded to, on the way or as a whole, is what the encoder was given. -/
theorem Decodes.understood {value : Except XqdbError K} (h : Decodes runtime config frame kind value)
    (hframed : message.Framed config kind frame) : Understood runtime config message.value value := by
  obtain ⟨-, body, prepared, hbody, hprepared, rfl⟩ := hframed.prepared
  obtain ⟨prepared', hprepared', hvalue⟩ := h
  obtain rfl : prepared = prepared' := by
    have := Except.ok.inj (hprepared.symm.trans hprepared')
    exact (Prod.mk.inj this).2
  -- a value that decodes as a whole is the value, and an error stays some error
  have hok {k : K} (hk : decodeValueBody runtime.categories config.symbolEncoding config.settings.valueMode
      prepared.bytes = .ok k) : value = .ok k := by
    rcases hvalue with hsame | ⟨-, -, e, herr⟩
    · exact Outcome.mapError_eq_ok.mp (hsame.trans hk)
    · rw [hk] at herr
      cases herr
  have herr {e : XqdbError} (he : decodeValueBody runtime.categories config.symbolEncoding config.settings.valueMode
      prepared.bytes = Exec.err e) : ∃ e, value = .error e := by
    rcases hvalue with hsame | ⟨-, hfailed, -⟩
    · exact mapError_eq_err (hsame.trans he)
    · exact hfailed
  refine ⟨⟨prepared.bytes, hbody, ?_⟩, ?_, ?_⟩
  · intro v
    refine ⟨?_, hok⟩
    rintro rfl
    rcases hvalue with hsame | ⟨-, ⟨e, hfailed⟩, -⟩
    · exact hsame.symm
    · cases hfailed
  · intro hmode hstrict hplain hkeys hnesting
    have hrun := @K.deserialize_yields runtime.categories message.value prepared.bytes hplain hkeys hnesting hbody
    rw [hmode, hstrict] at hok herr
    simp only [decodeValueBody] at hok herr
    constructor
    · intro v hv
      rw [hv] at hrun
      exact hok (by rw [hrun]; rfl)
    · intro hnone
      rw [hnone] at hrun
      obtain ⟨e, he⟩ := hrun
      exact herr (by rw [he]; rfl)
  · intro hmode
    rw [hmode] at hok herr
    simp only [decodeValueBody] at hok herr
    constructor
    · intro hdepth
      obtain ⟨q, hq⟩ := (K.fromBytes_of_serialize hbody).mpr hdepth
      refine ⟨q, hok (by rw [hq, Exec.ok_bind]), ?_⟩
      rw [QValue.fromBytes_eq_ok.mp hq, hbody]
    · intro hdepth
      rcases outcome_cases (QValue.fromBytes_noPanic prepared.bytes) with ⟨q, hq⟩ | ⟨e, he⟩
      · exact absurd ((K.fromBytes_of_serialize hbody).mp ⟨q, hq⟩) (Nat.not_le.mpr hdepth)
      · exact herr (by rw [he, Exec.err_bind])

end Values

/-! ## A dialogue -/

/-- One request, and what the peer sends up to its response. -/
structure Turn where
  outside : Outside
  expr : List Char
  args : List K
  notifications : List Message
  response : Message

/-- A request that `execute` gets out. -/
structure Turn.Asks (config : Config) (turn : Turn) : Prop where
  arguments : ¬ turn.args.length > 8
  payload : ∃ payload, requestPayload config .Sync turn.expr turn.args = .ok payload
  writing : turn.outside.writing = none
  aborted : turn.outside.aborted = false

/-- The bytes of the peer for a turn: its notifications, and its response behind them. -/
def Turn.Arrives (config : Config) (turn : Turn) (bytes : Bytes) : Prop :=
  ∃ frames response, List.Forall₂ (Message.Framed config .Async) turn.notifications frames ∧
    turn.response.Framed config .Response response ∧ bytes = frames.flatten ++ response

/-- What the peer reads of a request: the text of the expression and the values of the arguments. -/
def Turn.ReadBy (turn : Turn) (payload : Bytes) : Prop :=
  CompleteFrame payload ∧ ∃ prepared parts, prepareFrame payload none = .ok (.Sync, prepared) ∧
    prepared.bytes = requestBody (trim turn.expr) parts ∧
    List.Forall₂ (fun arg part => K.serialize arg = .ok part) turn.args parts

/-- The writes of a connection. -/
def written (log : List Exchange) : List Bytes :=
  log.filterMap fun
    | .wrote bytes => some bytes
    | .took _ => none

section Runs

variable (runtime : Runtime) (config : Config)

/-- The requests of a dialogue, one behind the other. -/
def talk : List Turn → Connector → List (Exec K) × Connector
  | [], c => ([], c)
  | turn :: turns, c =>
    let answered := execute runtime config turn.outside turn.expr turn.args c
    let others := talk turns answered.2
    (answered.1 :: others.1, others.2)

/-- `receive`, again and again. -/
def listen : List Outside → Connector → List (Exec K) × Connector
  | [], c => ([], c)
  | outside :: outsides, c =>
    let received := receive runtime config outside c
    let others := listen outsides received.2
    (received.1 :: others.1, others.2)

variable {runtime config}

theorem two_le_requestBody (expr : List Char) (parts : List Bytes) : 2 ≤ (requestBody expr parts).length := by
  rw [requestBody]
  split
  · simp [textVector]
  · simp

theorem readBy_of_payload {turn : Turn} {payload : Bytes}
    (h : requestPayload config .Sync turn.expr turn.args = .ok payload) : turn.ReadBy payload := by
  rw [requestPayload, Exec.bind_eq_ok] at h
  obtain ⟨frame, hframe, h⟩ := h
  obtain ⟨parts, hparts, rfl, hsmall, -⟩ := requestFrame_body hframe
  rw [layFrame_length] at hsmall
  have hshape : payload = layFrame 1 MsgType.Sync.toByte 0 (requestBody (trim turn.expr) parts) ∨
      compress (layFrame 1 MsgType.Sync.toByte 0 (requestBody (trim turn.expr) parts)) = .ok payload := by
    split at h
    · exact .inr h
    · exact .inl (Except.ok.inj h).symm
  obtain ⟨hcomplete, prepared, hprepared, hbytes⟩ := @prepareFrame_laid .Sync _ payload none
    (two_le_requestBody _ _) hsmall (by intro m hm; cases hm) hshape
  exact ⟨hcomplete, prepared, parts, hprepared, hbytes, hparts⟩

theorem sends_of_framed {messages : List Message} {frames : List Bytes} {kind : MsgType}
    (h : List.Forall₂ (Message.Framed config kind) messages frames) : ∀ frame ∈ frames, Sends config frame kind := by
  induction h with
  | nil => simp
  | cons hframed _ ih => exact List.forall_mem_cons.mpr ⟨hframed.sends, ih⟩

theorem understood_of_framed {messages : List Message} {frames : List Bytes} {values : List (Except XqdbError K)}
    {kind : MsgType} (h : List.Forall₂ (Message.Framed config kind) messages frames)
    (hvalues : List.Forall₂ (fun frame value => Decodes runtime config frame kind value) frames values) :
    List.Forall₂ (fun message => Understood runtime config message.value) messages values := by
  induction h generalizing values with
  | nil =>
    cases hvalues
    exact .nil
  | cons hframed _ ih =>
    cases hvalues with
    | cons hdecodes hrest => exact .cons (hdecodes.understood hframed) (ih hrest)

/-- One turn: its notifications are queued and its response is returned. -/
theorem execute_turn {turn : Turn} {c : Connector} {connection : Connection} {bytes more : Bytes}
    (hversion : ¬ config.version > 6) (hasks : turn.Asks config) (harrives : turn.Arrives config bytes)
    (hstream : c.stream = some connection) (hahead : content connection.stream = bytes ++ more)
    (hroom : c.pendingNotifications.length + turn.notifications.length ≤ config.settings.maxPendingNotifications) :
    ∃ value noted payload log rest buffer passed, Understood runtime config turn.response.value value ∧
      List.Forall₂ (fun message => Understood runtime config message.value) turn.notifications noted ∧
      turn.ReadBy payload ∧ written log = [payload] ∧ content rest = more ∧
      execute runtime config turn.outside turn.expr turn.args c = (value.mapError Failure.error,
        ⟨some ⟨connection.arriving, rest, connection.log ++ log⟩, c.pendingNotifications ++ noted, buffer, passed,
          c.delivered⟩) := by
  obtain ⟨frames, response, hframes, hresponse, rfl⟩ := harrives
  obtain ⟨payload, hpayload⟩ := hasks.payload
  have hsends := sends_of_framed hframes
  rw [List.append_assoc] at hahead
  obtain ⟨values, rest, buffer, fuel, hvalues, hrest, hloop⟩ := @execute_ahead runtime config c c connection turn.outside
    turn.expr turn.args payload (response ++ more) frames (connectInner_connected hstream turn.outside) hstream hversion
    hasks.arguments hpayload hasks.writing hasks.aborted hsends hahead (by rw [← hframes.length_eq]; exact hroom)
  obtain ⟨ipc, rest', buffer', hread, hrest', hnext⟩ := @readNextFrame_ahead runtime config
    { connection.wrote payload with stream := rest, log := (connection.wrote payload).log ++ frames.map .took }
    (queuedAll { c with stream := some (connection.wrote payload) } (connection.wrote payload) frames values rest buffer)
    response more .Response rfl hversion hresponse.sends (by decide) hrest
  obtain ⟨value, buffer'', hdecodes, hanswer⟩ := executeLoop_answers fuel hread hnext
  refine ⟨value, values, payload, [.wrote payload] ++ frames.map .took ++ [.took response], rest', buffer'',
    c.passed ++ frames, hdecodes.understood hresponse, understood_of_framed hframes hvalues, readBy_of_payload hpayload,
    ?_, hrest', ?_⟩
  · simp [written, List.filterMap_append, List.filterMap_map]
  · rw [hloop, hanswer]
    simp [afterFrame, queuedAll, Connection.wrote, List.append_assoc]

theorem written_append (first second : List Exchange) : written (first ++ second) = written first ++ written second := by
  simp [written, List.filterMap_append]

/-- The turns of a dialogue, by induction: each leaves the connection where the next one starts. -/
theorem talk_turns (hversion : ¬ config.version > 6) (turns : List Turn) :
    ∀ (arriving : List Bytes) (c : Connector) (connection : Connection) (more : Bytes),
      (∀ turn ∈ turns, turn.Asks config) → List.Forall₂ (Turn.Arrives config) turns arriving →
      c.stream = some connection → content connection.stream = arriving.flatten ++ more →
      c.pendingNotifications.length + (turns.flatMap Turn.notifications).length ≤
        config.settings.maxPendingNotifications →
      ∃ values noted log rest buffer passed,
        List.Forall₂ (fun turn => Understood runtime config turn.response.value) turns values ∧
        List.Forall₂ (fun message => Understood runtime config message.value) (turns.flatMap Turn.notifications) noted ∧
        List.Forall₂ Turn.ReadBy turns (written log) ∧ content rest = more ∧
        talk runtime config turns c = (values.map (·.mapError Failure.error),
          ⟨some ⟨connection.arriving, rest, connection.log ++ log⟩, c.pendingNotifications ++ noted, buffer, passed,
            c.delivered⟩) := by
  induction turns with
  | nil =>
    intro arriving c connection more _ harrives hstream hahead _
    cases harrives
    refine ⟨[], [], [], connection.stream, c.receiveBuffer, c.passed, .nil, .nil, .nil, hahead, ?_⟩
    obtain ⟨stream, pending, buffer, passed, delivered⟩ := c
    cases hstream
    simp [talk]
  | cons turn turns ih =>
    intro arriving c connection more hasks harrives hstream hahead hroom
    obtain ⟨hask, hasks⟩ := List.forall_mem_cons.mp hasks
    rw [List.flatMap_cons, List.length_append] at hroom
    cases harrives with
    | @cons _ bytes _ others harrive harrives =>
      rw [List.flatten_cons, List.append_assoc] at hahead
      obtain ⟨value, noted, payload, log, rest, buffer, passed, hvalue, hnoted, hpayload, hlog, hrest, hexecute⟩ :=
        execute_turn hversion hask harrive hstream hahead (by omega)
      have hcount := hnoted.length_eq
      obtain ⟨values, noted', log', rest', buffer', passed', hvalues, hnoted', hpayloads, hrest', htalk⟩ :=
        ih others (execute runtime config turn.outside turn.expr turn.args c).2 _ more hasks harrives
          (by rw [hexecute]) hrest (by rw [hexecute]; simp only [List.length_append]; omega)
      refine ⟨value :: values, noted ++ noted', log ++ log', rest', buffer', passed', .cons hvalue hvalues, ?_, ?_,
        hrest', ?_⟩
      · rw [List.flatMap_cons]
        exact List.rel_append hnoted hnoted'
      · rw [written_append, hlog]
        exact .cons hpayload hpayloads
      · rw [talk, htalk, hexecute]
        simp only [List.map_cons, List.append_assoc]

/-- What waits in the queue is returned in its order, and nothing is read for it. -/
theorem listen_pending (pending : List (Except XqdbError K)) :
    ∀ (outsides : List Outside) (c : Connector), c.pendingNotifications = pending → outsides.length = pending.length →
      listen runtime config outsides c = (pending.map (·.mapError Failure.error), { c with
        pendingNotifications := []
        delivered := c.delivered ++ pending }) := by
  induction pending with
  | nil =>
    intro outsides c hpending hlength
    obtain rfl := List.length_eq_zero_iff.mp hlength
    obtain ⟨stream, _, buffer, passed, delivered⟩ := c
    cases hpending
    simp [listen]
  | cons notification pending ih =>
    intro outsides c hpending hlength
    cases outsides with
    | nil => simp at hlength
    | cons outside outsides =>
      have hreceive : receive runtime config outside c = (notification.mapError .error, { c with
          pendingNotifications := pending
          delivered := c.delivered ++ [notification] }) := by
        rw [receive, hpending]
      rw [listen, hreceive, ih outsides _ rfl (Nat.succ.inj hlength)]
      simp only [List.map_cons, List.append_assoc, List.singleton_append]

end Runs

/-- **A dialogue is understood on both sides**, however many turns it has, however the socket cuts
the bytes and whichever messages are compressed. Each `execute` returns what its response was
encoded from: the normal form of the value, or the lossless value of exactly its bytes, and an
error alone where there is no such value; every other value is returned as its encoding decodes, or
an error where it does not; one response that cannot be read spoils no other. What
came before the responses waits in its order and is what `receive` returns next. The peer reads
the requests one by one, each the text of its expression and its arguments. -/
theorem dialogue_understood (runtime : Runtime) (config : Config) (turns : List Turn) (arriving : List Bytes)
    (c : Connector) (connection : Connection) (more : Bytes) (hversion : ¬ config.version > 6)
    (hasks : ∀ turn ∈ turns, turn.Asks config) (harrives : List.Forall₂ (Turn.Arrives config) turns arriving)
    (hstream : c.stream = some connection) (hahead : content connection.stream = arriving.flatten ++ more)
    (hroom : c.pendingNotifications.length + (turns.flatMap Turn.notifications).length ≤
      config.settings.maxPendingNotifications) :
    let behind := talk runtime config turns c
    ∃ values noted log rest, behind.1 = values.map (·.mapError Failure.error) ∧
      List.Forall₂ (fun turn => Understood runtime config turn.response.value) turns values ∧
      behind.2.stream = some ⟨connection.arriving, rest, connection.log ++ log⟩ ∧ content rest = more ∧
      List.Forall₂ Turn.ReadBy turns (written log) ∧
      behind.2.pendingNotifications = c.pendingNotifications ++ noted ∧
      List.Forall₂ (fun message => Understood runtime config message.value) (turns.flatMap Turn.notifications) noted ∧
      ∀ outsides, outsides.length = (c.pendingNotifications ++ noted).length →
        let heard := listen runtime config outsides behind.2
        heard.1 = (c.pendingNotifications ++ noted).map (·.mapError Failure.error) ∧
          heard.2.stream = behind.2.stream ∧ heard.2.pendingNotifications = [] := by
  intro behind
  obtain ⟨values, noted, log, rest, buffer, passed, hvalues, hnoted, hpayloads, hrest, htalk⟩ :=
    @talk_turns runtime config hversion turns arriving c connection more hasks harrives hstream hahead hroom
  have hbehind : behind = _ := htalk
  refine ⟨values, noted, log, rest, by rw [hbehind], hvalues, by rw [hbehind], hrest, hpayloads, by rw [hbehind], hnoted,
    ?_⟩
  intro outsides hlength
  have hlisten := @listen_pending runtime config (c.pendingNotifications ++ noted) outsides behind.2 (by rw [hbehind])
    hlength
  exact ⟨by rw [hlisten], by rw [hlisten], by rw [hlisten]⟩

set_option maxRecDepth 4000 in
/-- A notification comes before the response, and the socket cuts both in two. -/
theorem dialogue_understood_seven :
    let config : Config := ⟨[], [], 6, true, .Strict, ⟨.Native, .Auto, 10000000, none, 1024⟩⟩
    let outside : Outside := ⟨.ok [], none, none, none, false⟩
    let runtime := Runtime.ofAllocator numberedTexts ⟨fun n => n, fun _ => Nat.le_refl _⟩
    let stream : QStream :=
      [.data 1 [0, 0, 0, 10, 0, 0, 0, 0xFC, 9], .data 1 [2, 0, 0, 10, 0, 0, 0, 0xFC, 7]]
    let c : Connector := { new with stream := some ⟨stream, stream, []⟩ }
    let turns : List Turn := [⟨outside, ['1'], [], [⟨.U8 9, true⟩], ⟨.U8 7, false⟩⟩]
    (talk runtime config turns c).1 = [.ok (.U8 7)] ∧
      (listen runtime config [outside] (talk runtime config turns c).2).1 = [.ok (.U8 9)] := by
  intro config outside runtime stream c turns
  have hu8 (n : UInt8) (value : Except XqdbError K) (h : Understood runtime config (.U8 n) value) : value = .ok (.U8 n) :=
    (h.native rfl rfl trivial trivial (Nat.zero_le _)).1 _ rfl
  have hasks : ∀ turn ∈ turns, turn.Asks config := by
    simp only [turns, List.mem_singleton, forall_eq]
    exact ⟨by decide, ⟨_, rfl⟩, rfl, rfl⟩
  have harrives : List.Forall₂ (Turn.Arrives config) turns
      [[1, 0, 0, 0, 10, 0, 0, 0, 0xFC, 9, 1, 2, 0, 0, 10, 0, 0, 0, 0xFC, 7]] := by
    have hnone : config.settings.maxMessageBytes = none := rfl
    refine .cons ⟨[[1, 0, 0, 0, 10, 0, 0, 0, 0xFC, 9]], [1, 2, 0, 0, 10, 0, 0, 0, 0xFC, 7], ?_, ?_, rfl⟩ .nil
    · exact .cons ⟨rfl, by simp [hnone]⟩ .nil
    · exact ⟨rfl, by simp [hnone]⟩
  obtain ⟨values, noted, log, rest, hfirst, hvalues, -, -, -, hqueue, hnoted, hlisten⟩ :=
    dialogue_understood runtime config turns _ c _ [] (by decide) hasks harrives rfl rfl (by decide)
  obtain ⟨value, others, hvalue, hnil, rfl⟩ := List.forall₂_cons_left_iff.mp hvalues
  obtain ⟨note, more, hnote, hnil', rfl⟩ := List.forall₂_cons_left_iff.mp hnoted
  obtain rfl := List.forall₂_nil_left_iff.mp hnil
  obtain rfl := List.forall₂_nil_left_iff.mp hnil'
  obtain rfl := hu8 7 _ hvalue
  obtain rfl := hu8 9 _ hnote
  exact ⟨hfirst, (hlisten [outside] rfl).1⟩

end Xqdb.Connector
