import Xqdb.Connector.Requests

/-! Behind every operation a connector is disconnected or stands between two frames, in both
directions. -/

namespace Xqdb.Connector

open Compression (byteAt lengthField)
open Incoming (content)

/-! ## One frame -/

theorem takenBytes_eq {stream rest : QStream} {frame : Bytes} (h : content stream = frame ++ content rest) :
    takenBytes stream rest = frame := by
  have hlength := congrArg List.length h
  rw [List.length_append] at hlength
  rw [takenBytes, h, List.take_left']
  rw [List.length_append]
  omega

section Reading

variable {runtime : Runtime} {config : Config} {c : Connector} {connection : Connection}

/-- The connector behind the read of a frame. -/
def afterFrame (c : Connector) (connection : Connection) (frame : Bytes) (rest : QStream) (buffer : Buffer) :
    Connector :=
  { c with
    stream := some { connection with stream := rest, log := connection.log ++ [.took frame] }
    receiveBuffer := buffer }

/-- Two complete frames at the same place are the same. -/
theorem CompleteFrame.eq_of_append {frame other more rest : Bytes} (hframe : CompleteFrame frame)
    (hother : CompleteFrame other) (h : frame ++ more = other ++ rest) : frame = other := by
  have hlong : 8 ≤ frame.length := hframe.1
  have hlong' : 8 ≤ other.length := hother.1
  have hheader : frame.take 8 = other.take 8 := by
    have := congrArg (List.take 8) h
    rwa [List.take_append_of_le_length hlong, List.take_append_of_le_length hlong'] at this
  obtain ⟨order, kind, mode, high, a, b, c, d, tail, rfl⟩ := take_header hlong
  obtain ⟨order', kind', mode', high', a', b', c', d', tail', rfl⟩ := take_header hlong'
  have hfield : lengthField (order :: kind :: mode :: high :: a :: b :: c :: d :: tail) =
      lengthField (order' :: kind' :: mode' :: high' :: a' :: b' :: c' :: d' :: tail') := by
    simp only [List.take_succ_cons, List.take_zero, List.cons.injEq] at hheader
    obtain ⟨rfl, rfl, rfl, rfl, rfl, rfl, rfl, rfl, -⟩ := hheader
    simp [lengthField, byteAt]
  exact (List.append_inj h (by rw [← hframe.2, ← hother.2, hfield])).1

/-- A frame that was accepted from the stream of a connection. -/
structure FrameRead (runtime : Runtime) (config : Config) (connection : Connection) (frame : Bytes)
    (kind : MsgType) (ipc : IpcBody) (rest : QStream) (buffer : Buffer) : Prop where
  complete : CompleteFrame frame
  content : content connection.stream = frame ++ content rest
  accepted : ∃ prepared, prepareFrame frame config.settings.maxMessageBytes = .ok (kind, prepared) ∧
    Accepted runtime (pipelineEncoding config) (frame.drop ipcHeaderLength) prepared buffer ipc

variable (runtime config) in
/-- Why no frame was read. -/
def FrameFailure (e : XqdbError) : Prop :=
  e = unsupportedRequestError ∨ ∃ stream buffer, readIpcBody runtime config.settings.maxMessageBytes
    (pipelineEncoding config) stream buffer = Exec.err e

theorem readNextFrame_cases (hstream : c.stream = some connection) (hversion : ¬config.version > 6) :
    (∃ frame kind ipc rest buffer, FrameRead runtime config connection frame kind ipc rest buffer ∧
      kind ≠ .Sync ∧
      readNextFrame runtime config c = (.ok (kind, ipc), afterFrame c connection frame rest buffer)) ∨
    (∃ e, FrameFailure runtime config e ∧
      readNextFrame runtime config c = (Exec.err e, disconnectAfterProtocolError c)) ∧
      ∀ frame more kind prepared, content connection.stream = frame ++ more → CompleteFrame frame →
        prepareFrame frame config.settings.maxMessageBytes = .ok (kind, prepared) → kind = .Sync := by
  unfold readNextFrame
  rw [if_neg hversion]
  simp only [hstream]
  rcases @readIpcBody_outcome runtime config.settings.maxMessageBytes connection.stream c.receiveBuffer
    (pipelineEncoding config) with ⟨frame, kind, prepared, ipc, rest, buffer, hcomplete, hcontent, hprepared,
      hread, haccepted⟩ | ⟨⟨e, hread⟩, hnot⟩
  · simp only [hread]
    by_cases hsync : kind = .Sync
    · rw [if_pos hsync]
      refine .inr ⟨⟨_, .inl rfl, rfl⟩, ?_⟩
      intro other more kind' prepared' hother hwhole hkind
      obtain rfl := hcomplete.eq_of_append hwhole (hcontent.symm.trans hother)
      rw [hprepared] at hkind
      cases hkind
      exact hsync
    · rw [if_neg hsync]
      refine .inl ⟨frame, kind, ipc, rest, buffer, ⟨hcomplete, hcontent, prepared, hprepared, haccepted⟩, hsync, ?_⟩
      rw [takenBytes_eq hcontent]
      rfl
  · simp only [hread, Exec.err]
    refine .inr ⟨⟨e, .inr ⟨_, _, hread⟩, rfl⟩, ?_⟩
    intro other more kind prepared hother hwhole hkind
    exact absurd hkind (hnot other more (kind, prepared) hother hwhole)

/-- Without a connection nothing is read. -/
theorem readNextFrame_refused (h : c.stream = none ∨ config.version > 6) :
    readNextFrame runtime config c = (Exec.err .NotConnectedErr, c) := by
  unfold readNextFrame
  rcases h with h | h
  · simp only [h, ite_self]
  · rw [if_pos h]

@[simp] theorem decodeFrameBody_stream (body : IpcBody) (c : Connector) :
    (decodeFrameBody runtime config body c).2.stream = c.stream := rfl

/-- How a frame is read, connected or not. -/
theorem readNextFrame_total (c : Connector) :
    (∃ connection frame kind ipc rest buffer, c.stream = some connection ∧
      FrameRead runtime config connection frame kind ipc rest buffer ∧ kind ≠ .Sync ∧
      readNextFrame runtime config c = (.ok (kind, ipc), afterFrame c connection frame rest buffer)) ∨
    (∃ e, readNextFrame runtime config c = (Exec.err e, disconnectAfterProtocolError c)) ∨
    (readNextFrame runtime config c = (Exec.err .NotConnectedErr, c)) := by
  by_cases hversion : config.version > 6
  · exact .inr (.inr (readNextFrame_refused (.inr hversion)))
  cases hstream : c.stream with
  | none => exact .inr (.inr (readNextFrame_refused (.inl hstream)))
  | some connection =>
    rcases readNextFrame_cases hstream hversion with ⟨frame, kind, ipc, rest, buffer, hread⟩ | herr
    · exact .inl ⟨connection, frame, kind, ipc, rest, buffer, rfl, hread⟩
    · obtain ⟨⟨e, -, herr⟩, -⟩ := herr
      exact .inr (.inl ⟨e, herr⟩)

end Reading

/-! ## Between two frames -/

def Exchange.taken? : Exchange → Option Bytes
  | .took bytes => some bytes
  | .wrote _ => none

def Exchange.written? : Exchange → Option Bytes
  | .wrote bytes => some bytes
  | .took _ => none

/-- What was read are whole frames and the first bytes that arrived; what was written are
whole frames. -/
structure Connection.InSync (connection : Connection) : Prop where
  boundary : content connection.arriving =
    (connection.log.filterMap Exchange.taken?).flatten ++ content connection.stream
  taken : ∀ frame ∈ connection.log.filterMap Exchange.taken?, CompleteFrame frame
  written : ∀ frame ∈ connection.log.filterMap Exchange.written?, CompleteFrame frame

def InSync (c : Connector) : Prop := ∀ connection, c.stream = some connection → connection.InSync

theorem inSync_disconnected {c : Connector} (h : c.stream = none) : InSync c := by
  intro connection hsome
  rw [h] at hsome
  cases hsome

theorem Connection.InSync.start (stream : QStream) : Connection.InSync ⟨stream, stream, []⟩ := by
  constructor <;> simp

theorem Connection.InSync.write {connection : Connection} (h : connection.InSync) {frame : Bytes}
    (hframe : CompleteFrame frame) :
    Connection.InSync { connection with log := connection.log ++ [.wrote frame] } := by
  refine ⟨?_, ?_, ?_⟩
  · simpa [List.filterMap_append, List.filterMap_cons, Exchange.taken?] using h.boundary
  · simpa [List.filterMap_append, List.filterMap_cons, Exchange.taken?] using h.taken
  · intro other hother
    simp only [List.filterMap_append, List.mem_append, List.filterMap_cons, Exchange.written?,
      List.filterMap_nil, List.mem_singleton] at hother
    rcases hother with hother | rfl
    · exact h.written other hother
    · exact hframe

theorem Connection.InSync.read {connection : Connection} (h : connection.InSync) {frame : Bytes} {rest : QStream}
    (hframe : CompleteFrame frame) (hcontent : content connection.stream = frame ++ content rest) :
    Connection.InSync { connection with stream := rest, log := connection.log ++ [.took frame] } := by
  refine ⟨?_, ?_, ?_⟩
  · have hboundary := h.boundary
    rw [hcontent] at hboundary
    simpa [List.filterMap_append, List.filterMap_cons, Exchange.taken?, List.append_assoc] using hboundary
  · intro other hother
    simp only [List.filterMap_append, List.mem_append, List.filterMap_cons, Exchange.taken?,
      List.filterMap_nil, List.mem_singleton] at hother
    rcases hother with hother | rfl
    · exact h.taken other hother
    · exact hframe
  · simpa [List.filterMap_append, List.filterMap_cons, Exchange.written?] using h.written

section Operations

variable {runtime : Runtime} {config : Config}

theorem afterFrame_inSync {c : Connector} {connection : Connection} {frame : Bytes} {kind : MsgType} {ipc : IpcBody}
    {rest : QStream} {buffer : Buffer} (h : InSync c) (hstream : c.stream = some connection)
    (hread : FrameRead runtime config connection frame kind ipc rest buffer) :
    InSync (afterFrame c connection frame rest buffer) := by
  intro other hother
  obtain rfl := Option.some.inj hother
  exact (h connection hstream).read hread.complete hread.content

theorem connectInner_inSync {c : Connector} (h : InSync c) (outside : Outside) :
    InSync (connectInner config outside c).2 := by
  unfold connectInner
  split
  · exact h
  split
  · exact h
  split
  · exact inSync_disconnected rfl
  · intro connection hsome
    obtain rfl := Option.some.inj hsome
    exact .start _

/-- What becomes of a request. -/
theorem sendInner_cases (outside : Outside) (msgType : MsgType) (expr : List Char) (args : List K) (c : Connector) :
    (∃ connection payload, c.stream = some connection ∧ requestPayload config msgType expr args = .ok payload ∧
      outside.writing = none ∧ sendInner config outside msgType expr args c =
        (.ok (), { c with stream := some { connection with log := connection.log ++ [.wrote payload] } })) ∨
    (∃ e, outside.writing ≠ none ∧
      sendInner config outside msgType expr args c = (.error e, disconnectAfterProtocolError c)) ∨
    ∃ e, sendInner config outside msgType expr args c = (.error e, c) := by
  unfold sendInner
  split
  · exact .inr (.inr ⟨_, rfl⟩)
  next connection hstream =>
  split
  · exact .inr (.inr ⟨_, rfl⟩)
  split
  · exact .inr (.inr ⟨_, rfl⟩)
  split
  · exact .inr (.inr ⟨_, rfl⟩)
  next payload hpayload =>
  split
  · next hwriting => exact .inl ⟨connection, payload, hstream, hpayload, hwriting, rfl⟩
  · next count e hwriting => exact .inr (.inl ⟨_, by simp [hwriting], rfl⟩)

theorem sendInner_inSync {c : Connector} (h : InSync c) (outside : Outside) (msgType : MsgType) (expr : List Char)
    (args : List K) : InSync (sendInner config outside msgType expr args c).2 := by
  rcases @sendInner_cases config outside msgType expr args c with
    ⟨connection, payload, hstream, hpayload, -, hsend⟩ | ⟨e, -, hsend⟩ | ⟨e, hsend⟩
  · rw [hsend]
    intro other hother
    obtain rfl := Option.some.inj hother
    exact (h connection hstream).write (requestPayload_complete hpayload).1
  · rw [hsend]
    exact inSync_disconnected rfl
  · rw [hsend]
    exact h

theorem finishOperation_inSync {α : Type} {done : Exec α × Connector} (h : InSync done.2) (outside : Outside) :
    InSync (finishOperation outside done).2 := by
  unfold finishOperation
  split
  · exact h
  split
  · exact inSync_disconnected rfl
  · exact h

/-- The loop of `execute`, round by round. -/
theorem executeLoop_inSync (fuel : Nat) :
    ∀ c : Connector, InSync c → InSync (executeLoop runtime config fuel c).2 := by
  induction fuel with
  | zero =>
    intro c h
    exact h
  | succ fuel ih =>
    intro c h
    rw [executeLoop]
    rcases @readNextFrame_total runtime config c with
      ⟨connection, frame, kind, ipc, rest, buffer, hstream, hread, hkind, hnext⟩ | ⟨e, hnext⟩ | hnext
    · have hafter := afterFrame_inSync h hstream hread
      rw [hnext]
      cases kind with
      | Sync => exact absurd rfl hkind
      | Response => exact hafter
      | Async =>
        dsimp only
        split
        · exact inSync_disconnected rfl
        · split
          · next hdecode =>
            have hsame := congrArg Prod.snd hdecode
            rw [← hsame]
            exact hafter
          · next hdecode =>
            apply ih
            have hsame := congrArg Prod.snd hdecode
            dsimp only at hsame
            rw [← hsame]
            exact hafter
          · next hdecode =>
            apply ih
            have hsame := congrArg Prod.snd hdecode
            dsimp only at hsame
            rw [← hsame]
            exact hafter
    · rw [hnext]
      exact inSync_disconnected rfl
    · rw [hnext]
      exact h

theorem receiveInner_inSync {c : Connector} (h : InSync c) : InSync (receiveInner runtime config c).2 := by
  unfold receiveInner
  rcases @readNextFrame_total runtime config c with
    ⟨connection, frame, kind, ipc, rest, buffer, hstream, hread, -, hnext⟩ | ⟨e, hnext⟩ | hnext
  · have hafter := afterFrame_inSync h hstream hread
    rw [hnext]
    exact hafter
  · rw [hnext]
    exact inSync_disconnected rfl
  · rw [hnext]
    exact h

theorem executeInner_inSync {c : Connector} (h : InSync c) (outside : Outside) (expr : List Char) (args : List K) :
    InSync (executeInner runtime config outside expr args c).2 := by
  have hconnect := @connectInner_inSync config c h outside
  unfold executeInner
  split
  · next hsame =>
    rw [hsame] at hconnect
    exact hconnect
  · next connected hsame =>
    rw [hsame] at hconnect
    have hsend := @sendInner_inSync config connected hconnect outside .Sync expr args
    split
    · next hsent =>
      rw [hsent] at hsend
      exact hsend
    · next hsent =>
      rw [hsent] at hsend
      exact executeLoop_inSync _ _ hsend

theorem perform_inSync {c : Connector} (h : InSync c) (outside : Outside) (operation : Operation) :
    InSync (perform runtime config outside operation c) := by
  unfold perform
  cases operation with
  | connect => exact finishOperation_inSync (connectInner_inSync h outside) outside
  | send msgType expr args => exact finishOperation_inSync (sendInner_inSync h outside msgType expr args) outside
  | receive =>
    dsimp only
    unfold receive
    split
    · exact h
    · exact finishOperation_inSync (receiveInner_inSync h) outside
  | execute expr args => exact finishOperation_inSync (executeInner_inSync h outside expr args) outside
  | executeAsync expr args =>
    apply finishOperation_inSync
    have hconnect := @connectInner_inSync config c h outside
    split
    · next hsame =>
      rw [hsame] at hconnect
      exact hconnect
    · next connected hsame =>
      rw [hsame] at hconnect
      exact sendInner_inSync hconnect outside .Async expr args
  | shutdown =>
    dsimp only
    unfold shutdown
    split
    · exact h
    split
    · exact inSync_disconnected rfl
    · exact inSync_disconnected rfl

theorem performAll_inSync (operations : List (Outside × Operation)) :
    ∀ c : Connector, InSync c → InSync (performAll runtime config c operations) := by
  induction operations with
  | nil =>
    intro c h
    exact h
  | cons step operations ih =>
    intro c h
    exact ih _ (perform_inSync h step.1 step.2)

/-- A request that is refused before it is written. -/
def Refused (config : Config) (msgType : MsgType) (expr : List Char) (args : List K) : Prop :=
  config.version > 6 ∨ 8 < args.length ∨ ∃ e, requestPayload config msgType expr args = .error e

theorem sendInner_refused {msgType : MsgType} {expr : List Char} {args : List K}
    (h : Refused config msgType expr args) (outside : Outside) (c : Connector) :
    ∃ e, sendInner config outside msgType expr args c = (.error e, c) := by
  unfold sendInner
  split
  · exact ⟨_, rfl⟩
  split
  · exact ⟨_, rfl⟩
  next hversion =>
  split
  · exact ⟨_, rfl⟩
  next hargs =>
  obtain ⟨e, h⟩ := (h.resolve_left hversion).resolve_left hargs
  rw [h]
  exact ⟨e, rfl⟩

theorem finishOperation_kept {α : Type} {outside : Outside} (h : outside.aborted = false)
    (done : Exec α × Connector) : finishOperation outside done = done := by
  unfold finishOperation
  split
  · rfl
  · rw [h]
    rfl

theorem connectInner_connected {c : Connector} {connection : Connection} (h : c.stream = some connection)
    (outside : Outside) : connectInner config outside c = (.ok (), c) := by
  simp [connectInner, h]

end Operations

end Xqdb.Connector
