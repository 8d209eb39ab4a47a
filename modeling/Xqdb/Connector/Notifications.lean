import Xqdb.Connector.Synchronised

/-! The notifications that `execute` reads past on its way to the response wait in a bounded
queue until `receive` returns them. -/

namespace Xqdb.Connector

open Incoming (content)
open Pipeline (tableType)

section Values

variable {runtime : Runtime} {config : Config}

theorem decodeValueBody_noPanic (categories : CategoricalMapping) (encoding : SymbolEncoding) (mode : ValueMode)
    (body : Bytes) : NoPanic (decodeValueBody categories encoding mode body) := by
  cases mode with
  | Native =>
    unfold decodeValueBody
    cases deserialize categories encoding body with
    | ok value => exact noPanic_ok _
    | error e => exact noPanic_err e
  | Lossless => exact (QValue.fromBytes_noPanic body).bind fun _ _ => noPanic_ok _

variable (runtime config) in
/-- The value of a frame, decoded from the whole of it; a table may have been decoded while
it arrived, and then only the text of an error can differ. -/
def Decodes (frame : Bytes) (kind : MsgType) (value : Except XqdbError K) : Prop :=
  ∃ prepared, prepareFrame frame config.settings.maxMessageBytes = .ok (kind, prepared) ∧
    (value.mapError Failure.error = decodeValueBody runtime.categories config.symbolEncoding
        config.settings.valueMode prepared.bytes ∨
      prepared.bytes.head? = some tableType ∧ (∃ e, value = .error e) ∧
        ∃ e, decodeValueBody runtime.categories config.symbolEncoding config.settings.valueMode prepared.bytes =
          Exec.err e)

/-- Every outcome that is no panic is the outcome of a `Result`. -/
theorem result_of_noPanic {run : Exec K} (h : NoPanic run) :
    ∃ value : Except XqdbError K, run = value.mapError Failure.error := by
  rcases outcome_cases h with ⟨value, hvalue⟩ | ⟨e, he⟩
  · exact ⟨.ok value, hvalue⟩
  · exact ⟨.error e, he⟩

theorem bodyValue_decodes {connection : Connection} {frame : Bytes} {kind : MsgType} {ipc : IpcBody} {rest : QStream}
    {buffer : Buffer} (h : FrameRead runtime config connection frame kind ipc rest buffer) :
    ∃ value : Except XqdbError K, bodyValue runtime config buffer ipc = value.mapError Failure.error ∧
      Decodes runtime config frame kind value := by
  obtain ⟨prepared, hprepared, haccepted⟩ := h.accepted
  cases haccepted with
  | whole hbytes =>
    obtain ⟨header, -, hbody⟩ := Exec.bind_eq_ok.mp hprepared
    have hvalue : bodyValue runtime config buffer (.ofPrepared prepared) =
        decodeValueBody runtime.categories config.symbolEncoding config.settings.valueMode prepared.bytes := by
      have hsame := ofPrepared_bytes hbody hbytes
      cases prepared with
      | borrowed bytes =>
        simp only [IpcBody.ofPrepared, IpcBody.bytes, Option.some.injEq] at hsame
        simp only [bodyValue, IpcBody.ofPrepared, hsame]
      | owned bytes => rfl
    obtain ⟨value, hresult⟩ := result_of_noPanic (decodeValueBody_noPanic runtime.categories config.symbolEncoding
      config.settings.valueMode prepared.bytes)
    exact ⟨value, hvalue.trans hresult, prepared, hprepared, .inl hresult.symm⟩
  | @decoded encoding result hpipeline hborrowed hfirst hresult =>
    obtain ⟨hmode, rfl⟩ : config.settings.valueMode = .Native ∧ config.symbolEncoding = encoding := by
      unfold pipelineEncoding at hpipeline
      split at hpipeline
      · exact ⟨by assumption, Option.some.inj hpipeline⟩
      · cases hpipeline
    subst hborrowed
    refine ⟨result, rfl, _, hprepared, ?_⟩
    simp only [hmode, decodeValueBody, PreparedBody.bytes]
    rcases hresult with ⟨k, rfl, hk⟩ | ⟨⟨e, rfl⟩, e', he'⟩
    · rw [hk]
      exact .inl rfl
    · rw [he']
      exact .inr ⟨hfirst, ⟨e, rfl⟩, e', rfl⟩

end Values

/-! ## The loop of `execute` -/

section Loop

variable {runtime : Runtime} {config : Config} {connection : Connection} {c : Connector}

variable (config) in
/-- A complete frame that framing accepts, of a given type. -/
structure Sends (frame : Bytes) (kind : MsgType) : Prop where
  complete : CompleteFrame frame
  accepted : ∃ prepared, prepareFrame frame config.settings.maxMessageBytes = .ok (kind, prepared)

/-- The connector behind a notification that was queued. -/
def queued (c : Connector) (connection : Connection) (frame : Bytes) (value : Except XqdbError K) (rest : QStream)
    (buffer : Buffer) : Connector :=
  { afterFrame c connection frame rest buffer with
    pendingNotifications := c.pendingNotifications ++ [value]
    passed := c.passed ++ [frame] }

/-- A frame that is ahead is the one that is read. -/
theorem readNextFrame_ahead {frame more : Bytes} {kind : MsgType} (hstream : c.stream = some connection)
    (hversion : ¬config.version > 6) (hsends : Sends config frame kind) (hkind : kind ≠ .Sync)
    (hahead : content connection.stream = frame ++ more) :
    ∃ ipc rest buffer, FrameRead runtime config connection frame kind ipc rest buffer ∧ content rest = more ∧
      readNextFrame runtime config c = (.ok (kind, ipc), afterFrame c connection frame rest buffer) := by
  obtain ⟨prepared, hprepared⟩ := hsends.accepted
  rcases @readNextFrame_cases runtime config c connection hstream hversion with
    ⟨other, kind', ipc, rest, buffer, hread, -, hnext⟩ | ⟨-, hnot⟩
  · obtain rfl := hread.complete.eq_of_append hsends.complete (hread.content.symm.trans hahead)
    obtain ⟨prepared', hprepared', -⟩ := hread.accepted
    rw [hprepared] at hprepared'
    cases hprepared'
    exact ⟨ipc, rest, buffer, hread, List.append_cancel_left (hread.content.symm.trans hahead), hnext⟩
  · exact absurd (hnot frame more kind prepared hahead hsends.complete hprepared) hkind

/-- One round over a notification for which there is room. -/
theorem executeLoop_queues (fuel : Nat) {frame : Bytes} {ipc : IpcBody} {rest : QStream} {buffer : Buffer}
    (hread : FrameRead runtime config connection frame .Async ipc rest buffer)
    (hnext : readNextFrame runtime config c = (.ok (.Async, ipc), afterFrame c connection frame rest buffer))
    (hroom : c.pendingNotifications.length < config.settings.maxPendingNotifications) :
    ∃ value buffer', Decodes runtime config frame .Async value ∧
      executeLoop runtime config (fuel + 1) c =
        executeLoop runtime config fuel (queued c connection frame value rest buffer') := by
  obtain ⟨value, hvalue, hdecodes⟩ := bodyValue_decodes hread
  have hlast : lastTaken (afterFrame c connection frame rest buffer) = frame := by
    simp [lastTaken, afterFrame]
  refine ⟨value, (decodeFrameBody runtime config ipc (afterFrame c connection frame rest buffer)).2.receiveBuffer,
    hdecodes, ?_⟩
  rw [executeLoop, hnext]
  dsimp only
  rw [if_neg (by simp only [afterFrame]; omega)]
  simp only [decodeFrameBody, afterFrame, hvalue]
  simp only [afterFrame] at hlast
  cases value with
  | ok k =>
    simp only [Except.mapError, hlast]
    rfl
  | error e =>
    simp only [Except.mapError, hlast]
    rfl

/-- A full queue: the notification that overflows it is lost with the connection. -/
theorem executeLoop_overflows (fuel : Nat) {frame : Bytes} {ipc : IpcBody} {rest : QStream} {buffer : Buffer}
    (hnext : readNextFrame runtime config c = (.ok (.Async, ipc), afterFrame c connection frame rest buffer))
    (hfull : config.settings.maxPendingNotifications ≤ c.pendingNotifications.length) :
    executeLoop runtime config (fuel + 1) c = (Exec.err (overflowError config), disconnectAfterProtocolError c) := by
  rw [executeLoop, hnext]
  dsimp only
  rw [if_pos (by simp only [afterFrame]; exact hfull)]
  rfl

/-- The response ends the loop, whatever its value. -/
theorem executeLoop_answers (fuel : Nat) {frame : Bytes} {ipc : IpcBody} {rest : QStream} {buffer : Buffer}
    (hread : FrameRead runtime config connection frame .Response ipc rest buffer)
    (hnext : readNextFrame runtime config c = (.ok (.Response, ipc), afterFrame c connection frame rest buffer)) :
    ∃ value buffer', Decodes runtime config frame .Response value ∧
      executeLoop runtime config (fuel + 1) c =
        (value.mapError Failure.error, afterFrame c connection frame rest buffer') := by
  obtain ⟨value, hvalue, hdecodes⟩ := bodyValue_decodes hread
  refine ⟨value, (decodeFrameBody runtime config ipc (afterFrame c connection frame rest buffer)).2.receiveBuffer,
    hdecodes, ?_⟩
  rw [executeLoop, hnext]
  simp only [decodeFrameBody, afterFrame, hvalue]

/-- The connector behind a round of notifications that were queued. -/
def queuedAll (c : Connector) (connection : Connection) (frames : List Bytes) (values : List (Except XqdbError K))
    (rest : QStream) (buffer : Buffer) : Connector :=
  { c with
    stream := some { connection with stream := rest, log := connection.log ++ frames.map .took }
    pendingNotifications := c.pendingNotifications ++ values
    receiveBuffer := buffer
    passed := c.passed ++ frames }

theorem queuedAll_nil (hstream : c.stream = some connection) :
    queuedAll c connection [] [] connection.stream c.receiveBuffer = c := by
  obtain ⟨stream, pending, buffer, passed, delivered⟩ := c
  cases hstream
  simp [queuedAll]

theorem queuedAll_cons (frame : Bytes) (frames : List Bytes) (value : Except XqdbError K)
    (values : List (Except XqdbError K)) (rest rest' : QStream) (buffer buffer' : Buffer) :
    queuedAll (queued c connection frame value rest buffer)
      { connection with stream := rest, log := connection.log ++ [.took frame] } frames values rest' buffer' =
      queuedAll c connection (frame :: frames) (value :: values) rest' buffer' := by
  simp [queuedAll, queued, afterFrame]

/-- The loop over notifications for which there is room. -/
theorem executeLoop_ahead (hversion : ¬config.version > 6) (frames : List Bytes) :
    ∀ (fuel : Nat) (c : Connector) (connection : Connection) (more : Bytes), c.stream = some connection →
      (∀ frame ∈ frames, Sends config frame .Async) → content connection.stream = frames.flatten ++ more →
      c.pendingNotifications.length + frames.length ≤ config.settings.maxPendingNotifications →
      ∃ values rest buffer, List.Forall₂ (fun frame value => Decodes runtime config frame .Async value) frames values ∧
        content rest = more ∧ executeLoop runtime config (fuel + frames.length) c =
          executeLoop runtime config fuel (queuedAll c connection frames values rest buffer) := by
  induction frames with
  | nil =>
    intro fuel c connection more hstream _ hahead _
    refine ⟨[], connection.stream, c.receiveBuffer, .nil, hahead, ?_⟩
    rw [queuedAll_nil hstream]
    rfl
  | cons frame frames ih =>
    intro fuel c connection more hstream hsends hahead hroom
    rw [List.flatten_cons, List.append_assoc] at hahead
    rw [List.length_cons] at hroom
    obtain ⟨ipc, rest, buffer, hread, hrest, hnext⟩ := readNextFrame_ahead hstream hversion
      (hsends frame List.mem_cons_self) (by decide) hahead
    obtain ⟨value, buffer', hdecodes, hloop⟩ := executeLoop_queues (fuel + frames.length) hread hnext (by omega)
    obtain ⟨values, rest', buffer'', hvalues, hrest', hloop'⟩ := ih fuel (queued c connection frame value rest buffer')
      { connection with stream := rest, log := connection.log ++ [.took frame] } more rfl
      (fun other hother => hsends other (List.mem_cons_of_mem _ hother)) hrest
      (by simp only [queued, List.length_append, List.length_singleton]; omega)
    refine ⟨value :: values, rest', buffer'', .cons hdecodes hvalues, hrest', ?_⟩
    rw [queuedAll_cons] at hloop'
    rw [List.length_cons, ← Nat.add_assoc, hloop, hloop']

theorem length_le_flatten {frames : List Bytes} (h : ∀ frame ∈ frames, CompleteFrame frame) :
    frames.length ≤ frames.flatten.length := by
  induction frames with
  | nil => simp
  | cons frame frames ih =>
    have hlong : 8 ≤ frame.length := (h frame List.mem_cons_self).1
    have hrest := ih (fun other hother => h other (List.mem_cons_of_mem _ hother))
    simp only [List.flatten_cons, List.length_cons, List.length_append]
    omega

/-- What a loop of `execute` can come to on any stream: some notifications were queued, and
then a response was read or the connection was dropped. -/
theorem executeLoop_outcome (hversion : ¬config.version > 6) (fuel : Nat) :
    ∀ (c : Connector) (connection : Connection), c.stream = some connection →
      (content connection.stream).length < fuel →
      c.pendingNotifications.length ≤ config.settings.maxPendingNotifications →
      ∃ frames values, List.Forall₂ (fun frame value => Decodes runtime config frame .Async value) frames values ∧
        (c.pendingNotifications ++ values).length ≤ config.settings.maxPendingNotifications ∧
        ((∃ rest buffer response value rest' buffer', Decodes runtime config response .Response value ∧
          executeLoop runtime config fuel c = (value.mapError Failure.error,
            afterFrame (queuedAll c connection frames values rest buffer)
              { connection with stream := rest, log := connection.log ++ frames.map .took } response rest' buffer')) ∨
        ∃ rest buffer e, (e = overflowError config ∨ FrameFailure runtime config e) ∧
          executeLoop runtime config fuel c = (Exec.err e, disconnectAfterProtocolError (queuedAll c connection frames values rest buffer))) := by
  induction fuel with
  | zero =>
    intro c connection _ hfuel
    exact absurd hfuel (Nat.not_lt_zero _)
  | succ fuel ih =>
    intro c connection hstream hfuel hbound
    have hnone := queuedAll_nil hstream
    rcases @readNextFrame_cases runtime config c connection hstream hversion with
      ⟨frame, kind, ipc, rest, buffer, hread, hkind, hnext⟩ | ⟨⟨e, hwhy, hnext⟩, -⟩
    · cases kind with
      | Sync => exact absurd rfl hkind
      | Response =>
        obtain ⟨value, buffer', hdecodes, hloop⟩ := executeLoop_answers fuel hread hnext
        refine ⟨[], [], .nil, by simpa using hbound, .inl ⟨connection.stream, c.receiveBuffer, frame, value, rest,
          buffer', hdecodes, ?_⟩⟩
        rw [hloop, hnone]
        simp
      | Async =>
        by_cases hroom : c.pendingNotifications.length < config.settings.maxPendingNotifications
        · obtain ⟨value, buffer', hdecodes, hloop⟩ := executeLoop_queues fuel hread hnext hroom
          have hshorter : (content rest).length < fuel := by
            have hlength := congrArg List.length hread.content
            have hlong : 8 ≤ frame.length := hread.complete.1
            rw [List.length_append] at hlength
            omega
          obtain ⟨frames, values, hvalues, hbound', hends⟩ := ih (queued c connection frame value rest buffer')
            { connection with stream := rest, log := connection.log ++ [.took frame] } rfl hshorter
            (by simp only [queued, List.length_append, List.length_singleton]; omega)
          refine ⟨frame :: frames, value :: values, .cons hdecodes hvalues, ?_, ?_⟩
          · simpa [queued] using hbound'
          · rw [hloop]
            simp only [queuedAll_cons] at hends
            simpa [List.append_assoc] using hends
        · have hloop := @executeLoop_overflows runtime config connection c fuel frame ipc rest buffer hnext (by omega)
          refine ⟨[], [], .nil, by simpa using hbound, .inr ⟨connection.stream, c.receiveBuffer,
            overflowError config, .inl rfl, ?_⟩⟩
          rw [hloop, hnone]
    · refine ⟨[], [], .nil, by simpa using hbound, .inr ⟨connection.stream, c.receiveBuffer, e, .inr hwhy, ?_⟩⟩
      rw [executeLoop, hnext, hnone]
      rfl

end Loop

/-! ## Every run -/

section Runs

variable {runtime : Runtime} {config : Config}

variable (runtime config) in
/-- What `receive` has returned from the queue and what waits there are the values of the
frames that `execute` has read past, in their order. -/
structure Delivery (c : Connector) : Prop where
  values : ∃ values, List.Forall₂ (fun frame value => Decodes runtime config frame .Async value) c.passed values ∧
    values = c.delivered ++ c.pendingNotifications
  bound : c.pendingNotifications.length ≤ config.settings.maxPendingNotifications

/-- The connection has no part in it. -/
theorem Delivery.congr {c c' : Connector} (h : Delivery runtime config c)
    (hpending : c'.pendingNotifications = c.pendingNotifications) (hpassed : c'.passed = c.passed)
    (hdelivered : c'.delivered = c.delivered) : Delivery runtime config c' := by
  refine ⟨?_, ?_⟩
  · rw [hpassed, hdelivered, hpending]
    exact h.values
  · rw [hpending]
    exact h.bound

theorem Delivery.finish {α : Type} {done : Exec α × Connector} (h : Delivery runtime config done.2)
    (outside : Outside) : Delivery runtime config (finishOperation outside done).2 := by
  unfold finishOperation
  split
  · exact h
  split
  · exact h.congr rfl rfl rfl
  · exact h

theorem Delivery.queuedAll {c : Connector} (h : Delivery runtime config c)
    {frames : List Bytes} {values : List (Except XqdbError K)}
    (hvalues : List.Forall₂ (fun frame value => Decodes runtime config frame .Async value) frames values)
    (hbound : (c.pendingNotifications ++ values).length ≤ config.settings.maxPendingNotifications)
    (connection : Connection) (rest : QStream) (buffer : Buffer) :
    Delivery runtime config (Connector.queuedAll c connection frames values rest buffer) := by
  obtain ⟨before, hbefore, rfl⟩ := h.values
  refine ⟨⟨_, List.rel_append hbefore hvalues, ?_⟩, hbound⟩
  simp [Connector.queuedAll]

theorem connectInner_queue (outside : Outside) (c : Connector) :
    (connectInner config outside c).2.pendingNotifications = c.pendingNotifications ∧
      (connectInner config outside c).2.passed = c.passed ∧
      (connectInner config outside c).2.delivered = c.delivered := by
  unfold connectInner
  split
  · exact ⟨rfl, rfl, rfl⟩
  split
  · exact ⟨rfl, rfl, rfl⟩
  split
  · exact ⟨rfl, rfl, rfl⟩
  · exact ⟨rfl, rfl, rfl⟩

theorem sendInner_queue (outside : Outside) (msgType : MsgType) (expr : List Char) (args : List K) (c : Connector) :
    (sendInner config outside msgType expr args c).2.pendingNotifications = c.pendingNotifications ∧
      (sendInner config outside msgType expr args c).2.passed = c.passed ∧
      (sendInner config outside msgType expr args c).2.delivered = c.delivered := by
  rcases @sendInner_cases config outside msgType expr args c with
    ⟨connection, payload, -, -, -, hsend⟩ | ⟨e, -, hsend⟩ | ⟨e, hsend⟩
  · rw [hsend]
    exact ⟨rfl, rfl, rfl⟩
  · rw [hsend]
    exact ⟨rfl, rfl, rfl⟩
  · rw [hsend]
    exact ⟨rfl, rfl, rfl⟩

theorem connectInner_delivery {c : Connector} (h : Delivery runtime config c) (outside : Outside) :
    Delivery runtime config (connectInner config outside c).2 := by
  obtain ⟨hpending, hpassed, hdelivered⟩ := @connectInner_queue config outside c
  exact h.congr hpending hpassed hdelivered

theorem sendInner_delivery {c : Connector} (h : Delivery runtime config c) (outside : Outside) (msgType : MsgType)
    (expr : List Char) (args : List K) : Delivery runtime config (sendInner config outside msgType expr args c).2 := by
  obtain ⟨hpending, hpassed, hdelivered⟩ := @sendInner_queue config outside msgType expr args c
  exact h.congr hpending hpassed hdelivered

/-- A request that went out had a connection and a version to go with. -/
theorem sendInner_ok {outside : Outside} {msgType : MsgType} {expr : List Char} {args : List K} {c c' : Connector}
    (h : sendInner config outside msgType expr args c = (.ok (), c')) :
    ¬config.version > 6 ∧ ∃ connection payload, c.stream = some connection ∧
      requestPayload config msgType expr args = .ok payload ∧
      c' = { c with stream := some { connection with log := connection.log ++ [.wrote payload] } } := by
  have hversion : ¬config.version > 6 := by
    intro hversion
    unfold sendInner at h
    split at h
    · cases h
    · rw [if_pos hversion] at h
      cases h
  refine ⟨hversion, ?_⟩
  rcases @sendInner_cases config outside msgType expr args c with
    ⟨connection, payload, hstream, hpayload, -, hsend⟩ | ⟨e, -, hsend⟩ | ⟨e, hsend⟩
  · rw [hsend] at h
    cases h
    exact ⟨connection, payload, hstream, hpayload, rfl⟩
  · rw [hsend] at h
    cases h
  · rw [hsend] at h
    cases h

theorem executeInner_delivery {c : Connector} (h : Delivery runtime config c) (outside : Outside) (expr : List Char)
    (args : List K) : Delivery runtime config (executeInner runtime config outside expr args c).2 := by
  have hconnect := connectInner_delivery h outside
  unfold executeInner
  split
  · next hsame =>
    rw [hsame] at hconnect
    exact hconnect
  · next connected hsame =>
    rw [hsame] at hconnect
    have hsend := sendInner_delivery hconnect outside .Sync expr args
    split
    · next hsent =>
      rw [hsent] at hsend
      exact hsend
    · next sent hsent =>
      rw [hsent] at hsend
      obtain ⟨hversion, connection, payload, -, -, rfl⟩ := sendInner_ok hsent
      obtain ⟨frames, values, hvalues, hbound, ⟨rest, buffer, response, value, rest', buffer', -, hloop⟩ |
        ⟨rest, buffer, e, -, hloop⟩⟩ := @executeLoop_outcome runtime config hversion _ _ _ rfl
          (Nat.lt_succ_self _) hsend.bound
      · have hqueued := hsend.queuedAll hvalues hbound connection rest buffer
        rw [executeFuel, hloop]
        exact hqueued.congr rfl rfl rfl
      · have hqueued := hsend.queuedAll hvalues hbound connection rest buffer
        rw [executeFuel, hloop]
        exact hqueued.congr rfl rfl rfl

theorem receive_delivery {c : Connector} (h : Delivery runtime config c) (outside : Outside) :
    Delivery runtime config (receive runtime config outside c).2 := by
  unfold receive
  split
  · next notification pending hpending =>
    -- the first of the queue moves from what waits to what was returned
    obtain ⟨values, hvalues, hall⟩ := h.values
    have hbound := h.bound
    rw [hpending] at hall hbound
    refine ⟨⟨values, hvalues, ?_⟩, ?_⟩
    · simp [hall]
    · simp only [List.length_cons] at hbound
      simp only
      omega
  · apply Delivery.finish
    unfold receiveInner
    rcases @readNextFrame_total runtime config c with
      ⟨connection, frame, kind, ipc, rest, buffer, -, -, -, hnext⟩ | ⟨e, hnext⟩ | hnext
    · rw [hnext]
      exact h.congr rfl rfl rfl
    · rw [hnext]
      exact h.congr rfl rfl rfl
    · rw [hnext]
      exact h

theorem perform_delivery {c : Connector} (h : Delivery runtime config c) (outside : Outside) (operation : Operation) :
    Delivery runtime config (perform runtime config outside operation c) := by
  unfold perform
  cases operation with
  | connect => exact (connectInner_delivery h outside).finish outside
  | send msgType expr args => exact (sendInner_delivery h outside msgType expr args).finish outside
  | receive => exact receive_delivery h outside
  | execute expr args => exact (executeInner_delivery h outside expr args).finish outside
  | executeAsync expr args =>
    apply Delivery.finish
    have hconnect := connectInner_delivery h outside
    split
    · next hsame =>
      rw [hsame] at hconnect
      exact hconnect
    · next connected hsame =>
      rw [hsame] at hconnect
      exact sendInner_delivery hconnect outside .Async expr args
  | shutdown =>
    dsimp only
    unfold shutdown
    split
    · exact h
    split
    · exact h.congr rfl rfl rfl
    · exact h.congr rfl rfl rfl

theorem performAll_delivery (operations : List (Outside × Operation)) :
    ∀ c : Connector, Delivery runtime config c → Delivery runtime config (performAll runtime config c operations) := by
  induction operations with
  | nil =>
    intro c h
    exact h
  | cons step operations ih =>
    intro c h
    exact ih _ (perform_delivery h step.1 step.2)

theorem new_delivery : Delivery runtime config new := by
  refine ⟨⟨[], .nil, rfl⟩, ?_⟩
  simp [new]

/-- A request that is written: `execute` comes to its loop, over the connection that it has or makes. -/
theorem execute_connected {c connected : Connector} {connection : Connection} {outside : Outside} {expr : List Char}
    {args : List K} {payload : Bytes} (hconnect : connectInner config outside c = (.ok (), connected))
    (hstream : connected.stream = some connection) (hversion : ¬config.version > 6)
    (hargs : ¬args.length > 8) (hpayload : requestPayload config .Sync expr args = .ok payload)
    (hwriting : outside.writing = none) (haborted : outside.aborted = false) :
    execute runtime config outside expr args c =
      executeLoop runtime config ((content connection.stream).length + 1)
        { connected with stream := some { connection with log := connection.log ++ [.wrote payload] } } := by
  rw [execute, finishOperation_kept haborted, executeInner, hconnect]
  simp only [sendInner, hstream, if_neg hversion, if_neg hargs, hpayload, hwriting]
  rfl

/-- The connection of a request that was written. -/
def Connection.wrote (connection : Connection) (payload : Bytes) : Connection :=
  { connection with log := connection.log ++ [.wrote payload] }

/-- `execute` past the notifications for which there is room. -/
theorem execute_ahead {c connected : Connector} {connection : Connection} {outside : Outside} {expr : List Char}
    {args : List K} {payload more : Bytes} {frames : List Bytes}
    (hconnect : connectInner config outside c = (.ok (), connected))
    (hstream : connected.stream = some connection) (hversion : ¬config.version > 6)
    (hargs : ¬args.length > 8) (hpayload : requestPayload config .Sync expr args = .ok payload)
    (hwriting : outside.writing = none) (haborted : outside.aborted = false)
    (hsends : ∀ frame ∈ frames, Sends config frame .Async) (hahead : content connection.stream = frames.flatten ++ more)
    (hroom : connected.pendingNotifications.length + frames.length ≤ config.settings.maxPendingNotifications) :
    ∃ values rest buffer fuel, List.Forall₂ (fun frame value => Decodes runtime config frame .Async value) frames values ∧
      content rest = more ∧ execute runtime config outside expr args c = executeLoop runtime config (fuel + 1)
        (queuedAll { connected with stream := some (connection.wrote payload) } (connection.wrote payload) frames values
          rest buffer) := by
  have hexecute := @execute_connected runtime config c connected connection outside expr args payload hconnect hstream
    hversion hargs hpayload hwriting haborted
  have hlength := length_le_flatten (fun frame hframe => (hsends frame hframe).complete)
  have htotal := congrArg List.length hahead
  rw [List.length_append] at htotal
  obtain ⟨values, rest, buffer, hvalues, hrest, hloop⟩ := @executeLoop_ahead runtime config hversion frames
    ((content connection.stream).length - frames.length + 1)
    { connected with stream := some (connection.wrote payload) } _ more rfl hsends hahead hroom
  have hfuel : (content connection.stream).length + 1 =
      (content connection.stream).length - frames.length + 1 + frames.length := by omega
  refine ⟨values, rest, buffer, (content connection.stream).length - frames.length, hvalues, hrest, ?_⟩
  rw [hexecute, hfuel]
  exact hloop

end Runs

/-- **Notification delivery**, behind every sequence of operations. What `receive` has
returned from the queue and what still waits there are the values of the notification
frames that `execute` has read past, each once and in their order; `receive` returns the
first of them and leaves the connection alone; and the queue keeps its bound. `execute`
returns the value of the first response it meets where the queue has room for the
notifications before it; where it has none, the connection is dropped, and only the
notification that overflows is missing from the queue. -/
theorem notifications_delivered (runtime : Runtime) (config : Config) (operations : List (Outside × Operation)) :
    let c := performAll runtime config new operations
    (∃ values, List.Forall₂ (fun frame value => Decodes runtime config frame .Async value) c.passed values ∧
      values = c.delivered ++ c.pendingNotifications) ∧
    c.pendingNotifications.length ≤ config.settings.maxPendingNotifications ∧
    (∀ outside notification pending, c.pendingNotifications = notification :: pending →
      receive runtime config outside c = (notification.mapError .error, { c with
        pendingNotifications := pending
        delivered := c.delivered ++ [notification] })) ∧
    ∀ (connection : Connection) (outside : Outside) (expr : List Char) (args : List K) (payload : Bytes),
      c.stream = some connection → ¬config.version > 6 → ¬args.length > 8 →
      requestPayload config .Sync expr args = .ok payload → outside.writing = none → outside.aborted = false →
      ∀ frames more, (∀ frame ∈ frames, Sends config frame .Async) →
        content connection.stream = frames.flatten ++ more →
        (∀ response after, Sends config response .Response → more = response ++ after →
          c.pendingNotifications.length + frames.length ≤ config.settings.maxPendingNotifications →
          ∃ values value rest buffer,
            List.Forall₂ (fun frame value => Decodes runtime config frame .Async value) frames values ∧
            Decodes runtime config response .Response value ∧ content rest = after ∧
            execute runtime config outside expr args c = (value.mapError .error,
              ⟨some ⟨connection.arriving, rest,
                  connection.log ++ [.wrote payload] ++ frames.map .took ++ [.took response]⟩,
                c.pendingNotifications ++ values, buffer, c.passed ++ frames, c.delivered⟩)) ∧
        (config.settings.maxPendingNotifications < c.pendingNotifications.length + frames.length →
          let kept := frames.take (config.settings.maxPendingNotifications - c.pendingNotifications.length)
          ∃ values, List.Forall₂ (fun frame value => Decodes runtime config frame .Async value) kept values ∧
            execute runtime config outside expr args c = (Exec.err (overflowError config),
              ⟨none, c.pendingNotifications ++ values, .empty, c.passed ++ kept, c.delivered⟩)) := by
  intro c
  have hdelivery : Delivery runtime config c := performAll_delivery operations _ new_delivery
  refine ⟨hdelivery.values, hdelivery.bound, ?_, ?_⟩
  · intro outside notification pending hpending
    unfold receive
    rw [hpending]
  intro connection outside expr args payload hstream hversion hargs hpayload hwriting haborted frames more hsends hahead
  have hconnect := @connectInner_connected config c connection hstream outside
  refine ⟨?_, ?_⟩
  · rintro response after hresponse rfl hroom
    obtain ⟨values, rest, buffer, fuel, hvalues, hrest, hloop⟩ := @execute_ahead runtime config c c connection outside expr
      args payload (response ++ after) frames hconnect hstream hversion hargs hpayload hwriting haborted hsends hahead hroom
    obtain ⟨ipc, rest', buffer', hread, hrest', hnext⟩ := @readNextFrame_ahead runtime config
      { connection.wrote payload with stream := rest, log := (connection.wrote payload).log ++ frames.map .took }
      (queuedAll { c with stream := some (connection.wrote payload) } (connection.wrote payload) frames values rest buffer)
      response after .Response rfl hversion hresponse (by decide) hrest
    obtain ⟨value, buffer'', hdecodes, hanswer⟩ := executeLoop_answers fuel hread hnext
    refine ⟨values, value, rest', buffer'', hvalues, hdecodes, hrest', ?_⟩
    rw [hloop, hanswer]
    rfl
  · intro hfull kept
    have hbound := hdelivery.bound
    obtain ⟨excess, others, hsplit⟩ : ∃ excess others,
        frames.drop (config.settings.maxPendingNotifications - c.pendingNotifications.length) = excess :: others := by
      apply List.exists_cons_of_ne_nil
      rw [Ne, List.drop_eq_nil_iff]
      omega
    have hframes : frames = kept ++ excess :: others := by
      rw [← hsplit, List.take_append_drop]
    have hkept : kept.length = config.settings.maxPendingNotifications - c.pendingNotifications.length := by
      rw [List.length_take]
      omega
    have hparts : content connection.stream = kept.flatten ++ (excess ++ (others.flatten ++ more)) := by
      rw [hahead, hframes]
      simp [List.append_assoc]
    obtain ⟨values, rest, buffer, fuel, hvalues, hrest, hloop⟩ := @execute_ahead runtime config c c connection outside expr
      args payload _ kept hconnect hstream hversion hargs hpayload hwriting haborted
      (fun frame hframe => hsends frame (List.mem_of_mem_take hframe)) hparts (by omega)
    obtain ⟨ipc, rest', buffer', -, -, hnext⟩ := @readNextFrame_ahead runtime config
      { connection.wrote payload with stream := rest, log := (connection.wrote payload).log ++ kept.map .took }
      (queuedAll { c with stream := some (connection.wrote payload) } (connection.wrote payload) kept values rest buffer)
      excess _ .Async rfl hversion (hsends excess (by rw [hframes]; simp)) (by decide) hrest
    have hvaluesLength := hvalues.length_eq
    have hoverflow := executeLoop_overflows fuel hnext (by simp only [queuedAll, List.length_append]; omega)
    refine ⟨values, hvalues, ?_⟩
    rw [hloop, hoverflow]
    rfl

end Xqdb.Connector
