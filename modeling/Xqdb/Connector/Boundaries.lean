import Xqdb.Connector.Notifications

/-! When a connection is kept and when it is dropped, for each operation that writes or reads. A
request that is refused before it is written changes nothing, half a frame in either direction
drops the connection, and a frame that was read to its end keeps it. -/

namespace Xqdb.Connector

open Incoming (content)

/-! ## What stands ahead -/

section Ahead

variable (config : Config)

/-- No frame stands here that a connector takes: it is cut short, its header, its compression or its
size is refused, or it is a request. -/
def NoFrameAhead (bytes : Bytes) : Prop :=
  ∀ frame more kind, bytes = frame ++ more → Sends config frame kind → kind = .Sync

/-- `execute` has room for these notifications before it comes to `more`. -/
structure ReadsPast (c : Connector) (connection : Connection) (notifications : List Bytes) (more : Bytes) : Prop where
  sends : ∀ frame ∈ notifications, Sends config frame .Async
  ahead : content connection.stream = notifications.flatten ++ more
  room : c.pendingNotifications.length + notifications.length ≤ config.settings.maxPendingNotifications

/-- What can stand behind notifications when there is room for `room` more. -/
inductive Meets (room : Nat) (more : Bytes) : Prop where
  | response (frame rest : Bytes) (sends : Sends config frame .Response) (ahead : more = frame ++ rest)
  | excess (frame rest : Bytes) (sends : Sends config frame .Async) (ahead : more = frame ++ rest) (full : room = 0)
  | nothing (none : NoFrameAhead config more)

variable {config}

theorem exists_notifications (room : Nat) (bytes : Bytes) :
    ∃ (notifications : List Bytes) (more : Bytes), (∀ frame ∈ notifications, Sends config frame .Async) ∧
      bytes = notifications.flatten ++ more ∧ notifications.length ≤ room ∧
      Meets config (room - notifications.length) more := by
  induction room generalizing bytes with
  | zero =>
    refine ⟨[], bytes, by simp, rfl, Nat.le_refl _, ?_⟩
    by_cases hnone : NoFrameAhead config bytes
    · exact .nothing hnone
    · simp only [NoFrameAhead, not_forall] at hnone
      obtain ⟨frame, more, kind, hahead, hsends, hkind⟩ := hnone
      cases kind with
      | Async => exact .excess frame more hsends hahead rfl
      | Sync => exact absurd rfl hkind
      | Response => exact .response frame more hsends hahead
  | succ room ih =>
    by_cases hnone : NoFrameAhead config bytes
    · exact ⟨[], bytes, by simp, rfl, Nat.zero_le _, .nothing hnone⟩
    · simp only [NoFrameAhead, not_forall] at hnone
      obtain ⟨frame, more, kind, hahead, hsends, hkind⟩ := hnone
      cases kind with
      | Sync => exact absurd rfl hkind
      | Response => exact ⟨[], bytes, by simp, rfl, Nat.zero_le _, .response frame more hsends hahead⟩
      | Async =>
        obtain ⟨notifications, rest, hall, rfl, hlength, hmeets⟩ := ih more
        refine ⟨frame :: notifications, rest, ?_, ?_, by simpa using hlength, ?_⟩
        · exact List.forall_mem_cons.mpr ⟨hsends, hall⟩
        · rw [hahead, List.flatten_cons, List.append_assoc]
        · rwa [List.length_cons, Nat.add_sub_add_right]

theorem readNextFrame_lost {runtime : Runtime} {c : Connector} {connection : Connection}
    (hstream : c.stream = some connection) (hversion : ¬config.version > 6)
    (hnone : NoFrameAhead config (content connection.stream)) :
    ∃ e, readNextFrame runtime config c = (Exec.err e, disconnectAfterProtocolError c) := by
  rcases @readNextFrame_cases runtime config c connection hstream hversion with
    ⟨frame, kind, ipc, rest, buffer, hread, hkind, -⟩ | ⟨⟨e, -, hlost⟩, -⟩
  · obtain ⟨prepared, hprepared, -⟩ := hread.accepted
    exact absurd (hnone frame _ kind hread.content ⟨hread.complete, prepared, hprepared⟩) hkind
  · exact ⟨e, hlost⟩

end Ahead

/-! ## What each operation leaves -/

section Operations

variable (runtime : Runtime) (config : Config) (outside : Outside)

/-- An operation that fails and drops the connection. -/
def Drops {α : Type} (done : Exec α × Connector) : Prop := (∃ e, done.1 = .error e) ∧ done.2.stream = none

/-- What `send` and `execute_async` leave of a connection. -/
structure SendLeaves (msgType : MsgType) (expr : List Char) (args : List K) (c : Connector) (connection : Connection)
    (done : Exec Unit × Connector) : Prop where
  refused : Refused config msgType expr args → ∃ e, done = (.error e, c)
  broken : ¬Refused config msgType expr args → outside.writing ≠ none → Drops done
  written : ¬Refused config msgType expr args → outside.writing = none → ∃ payload,
    requestPayload config msgType expr args = .ok payload ∧ CompleteFrame payload ∧
      done = (.ok (), { c with stream := some (connection.wrote payload) })

/-- What `execute` leaves of a connection. The last field says that the others leave nothing out. -/
structure ExecuteLeaves (expr : List Char) (args : List K) (c : Connector) (connection : Connection)
    (done : Exec K × Connector) : Prop where
  refused : Refused config .Sync expr args → ∃ e, done = (.error e, c)
  broken : ¬Refused config .Sync expr args → outside.writing ≠ none → Drops done
  answered : ¬Refused config .Sync expr args → outside.writing = none → ∀ notifications response more,
    ReadsPast config c connection notifications (response ++ more) → Sends config response .Response →
    ∃ payload rest, requestPayload config .Sync expr args = .ok payload ∧ content rest = more ∧
      done.2.stream = some ⟨connection.arriving, rest,
        connection.log ++ [.wrote payload] ++ notifications.map .took ++ [.took response]⟩
  lost : ¬Refused config .Sync expr args → outside.writing = none → ∀ notifications more,
    ReadsPast config c connection notifications more → NoFrameAhead config more → Drops done
  overflowed : ¬Refused config .Sync expr args → outside.writing = none → ∀ notifications excess more,
    ReadsPast config c connection notifications (excess ++ more) → Sends config excess .Async →
    c.pendingNotifications.length + notifications.length = config.settings.maxPendingNotifications → Drops done
  exhaustive : ∃ notifications more, ReadsPast config c connection notifications more ∧
    Meets config (config.settings.maxPendingNotifications - (c.pendingNotifications.length + notifications.length)) more

/-- What `receive` leaves of a connection. -/
structure ReceiveLeaves (c : Connector) (connection : Connection) (done : Exec K × Connector) : Prop where
  queued : c.pendingNotifications ≠ [] → done.2.stream = some connection
  refused : c.pendingNotifications = [] → config.version > 6 → ∃ e, done = (.error e, c)
  lost : c.pendingNotifications = [] → ¬config.version > 6 → NoFrameAhead config (content connection.stream) →
    Drops done
  unread : c.pendingNotifications = [] → ¬config.version > 6 → (∃ e, readIpcBody runtime
    config.settings.maxMessageBytes (pipelineEncoding config) connection.stream c.receiveBuffer = .error e) → Drops done
  kept : c.pendingNotifications = [] → ¬config.version > 6 → ∀ frame more kind, Sends config frame kind → kind ≠ .Sync →
    content connection.stream = frame ++ more → ∃ rest, content rest = more ∧
      done.2.stream = some { connection with stream := rest, log := connection.log ++ [.took frame] }

variable {runtime config outside} {c connected : Connector} {connection : Connection}

theorem not_refused {msgType : MsgType} {expr : List Char} {args : List K} (h : ¬Refused config msgType expr args) :
    ¬config.version > 6 ∧ ¬args.length > 8 ∧ ∃ payload, requestPayload config msgType expr args = .ok payload := by
  refine ⟨fun hversion => h (.inl hversion), fun hlong => h (.inr (.inl hlong)), ?_⟩
  cases hpayload : requestPayload config msgType expr args with
  | ok payload => exact ⟨payload, rfl⟩
  | error e => exact absurd (.inr (.inr ⟨e, hpayload⟩)) h

theorem sendInner_leaves (hstream : c.stream = some connection) (msgType : MsgType) (expr : List Char)
    (args : List K) :
    SendLeaves config outside msgType expr args c connection (sendInner config outside msgType expr args c) := by
  refine ⟨fun hrefused => sendInner_refused hrefused outside c, ?_, ?_⟩
  · intro hsent hwriting
    obtain ⟨hversion, hargs, payload, hpayload⟩ := not_refused hsent
    obtain ⟨⟨count, e⟩, hwriting⟩ := Option.ne_none_iff_exists'.mp hwriting
    simp only [sendInner, hstream, if_neg hversion, if_neg hargs, hpayload, hwriting]
    exact ⟨⟨_, rfl⟩, rfl⟩
  · intro hsent hwriting
    obtain ⟨hversion, hargs, payload, hpayload⟩ := not_refused hsent
    refine ⟨payload, hpayload, (requestPayload_complete hpayload).1, ?_⟩
    simp only [sendInner, hstream, if_neg hversion, if_neg hargs, hpayload, hwriting]
    rfl

theorem receive_leaves (hstream : c.stream = some connection) (haborted : outside.aborted = false) :
    ReceiveLeaves runtime config c connection (receive runtime config outside c) := by
  have hreceive (hpending : c.pendingNotifications = []) :
      receive runtime config outside c = receiveInner runtime config c := by
    unfold receive
    rw [hpending]
    exact finishOperation_kept haborted _
  refine ⟨?_, ?_, ?_, ?_, ?_⟩
  · intro hpending
    obtain ⟨notification, pending, hpending⟩ := List.exists_cons_of_ne_nil hpending
    unfold receive
    rw [hpending]
    exact hstream
  · intro hpending hversion
    rw [hreceive hpending, receiveInner, readNextFrame_refused (.inr hversion)]
    exact ⟨_, rfl⟩
  · intro hpending hversion hnone
    obtain ⟨e, hlost⟩ := @readNextFrame_lost config runtime c connection hstream hversion hnone
    rw [hreceive hpending, receiveInner, hlost]
    exact ⟨⟨_, rfl⟩, rfl⟩
  · rintro hpending hversion ⟨e, hunread⟩
    obtain ⟨e, rfl⟩ : ∃ e', e = .error e' := by
      rcases @readIpcBody_outcome runtime config.settings.maxMessageBytes connection.stream c.receiveBuffer
        (pipelineEncoding config) with ⟨_, _, _, _, _, _, -, -, -, hread, -⟩ | ⟨⟨e', hread⟩, -⟩
      · rw [hunread] at hread
        cases hread
      · rw [hunread] at hread
        exact ⟨e', Except.error.inj hread⟩
    rw [hreceive hpending]
    unfold receiveInner readNextFrame
    rw [if_neg hversion]
    simp only [hstream, hunread]
    exact ⟨⟨_, rfl⟩, rfl⟩
  · intro hpending hversion frame more kind hsends hkind hahead
    obtain ⟨ipc, rest, buffer, -, hrest, hnext⟩ := @readNextFrame_ahead runtime config connection c frame more kind
      hstream hversion hsends hkind hahead
    rw [hreceive hpending, receiveInner, hnext]
    exact ⟨rest, hrest, rfl⟩

/-- `execute` over the connection that it has or makes. -/
theorem execute_leaves (hconnect : connectInner config outside c = (.ok (), connected))
    (hstream : connected.stream = some connection) (haborted : outside.aborted = false)
    (hbound : connected.pendingNotifications.length ≤ config.settings.maxPendingNotifications)
    (expr : List Char) (args : List K) :
    ExecuteLeaves config outside expr args connected connection (execute runtime config outside expr args c) := by
  have hsend := @sendInner_leaves config outside connected connection hstream .Sync expr args
  have hahead {notifications : List Bytes} {more payload : Bytes} (hsent : ¬Refused config .Sync expr args)
      (hpayload : requestPayload config .Sync expr args = .ok payload) (hwriting : outside.writing = none)
      (hpast : ReadsPast config connected connection notifications more) :=
    @execute_ahead runtime config c connected connection outside expr args payload more notifications hconnect hstream
      (not_refused hsent).1 (not_refused hsent).2.1 hpayload hwriting haborted hpast.sends hpast.ahead hpast.room
  refine ⟨?_, ?_, ?_, ?_, ?_, ?_⟩
  · intro hrefused
    obtain ⟨e, hrefused⟩ := hsend.refused hrefused
    rw [execute, finishOperation_kept haborted, executeInner, hconnect]
    simp only [hrefused]
    exact ⟨e, rfl⟩
  · intro hsent hwriting
    obtain ⟨⟨e, herror⟩, hdropped⟩ := hsend.broken hsent hwriting
    rw [execute, finishOperation_kept haborted, executeInner, hconnect]
    cases hbroken : sendInner config outside .Sync expr args connected with
    | mk result left =>
      rw [hbroken] at herror hdropped
      obtain rfl := herror
      simp only [hbroken]
      exact ⟨⟨e, rfl⟩, hdropped⟩
  · intro hsent hwriting notifications response more hpast hresponse
    obtain ⟨hversion, -, payload, hpayload⟩ := not_refused hsent
    obtain ⟨values, rest, buffer, fuel, -, hrest, hloop⟩ := hahead hsent hpayload hwriting hpast
    obtain ⟨ipc, rest', buffer', hread, hrest', hnext⟩ := @readNextFrame_ahead runtime config
      { connection.wrote payload with stream := rest, log := (connection.wrote payload).log ++ notifications.map .took }
      (queuedAll { connected with stream := some (connection.wrote payload) } (connection.wrote payload) notifications
        values rest buffer)
      response more .Response rfl hversion hresponse (by decide) hrest
    obtain ⟨value, buffer'', -, hanswer⟩ := executeLoop_answers fuel hread hnext
    refine ⟨payload, rest', hpayload, hrest', ?_⟩
    rw [hloop, hanswer]
    rfl
  · intro hsent hwriting notifications more hpast hnone
    obtain ⟨hversion, -, payload, hpayload⟩ := not_refused hsent
    obtain ⟨values, rest, buffer, fuel, -, hrest, hloop⟩ := hahead hsent hpayload hwriting hpast
    obtain ⟨e, hlost⟩ := @readNextFrame_lost config runtime
      (queuedAll { connected with stream := some (connection.wrote payload) } (connection.wrote payload) notifications
        values rest buffer) _ rfl hversion (by rw [hrest]; exact hnone)
    rw [hloop, executeLoop, hlost]
    exact ⟨⟨_, rfl⟩, rfl⟩
  · intro hsent hwriting notifications excess more hpast hexcess hfull
    obtain ⟨hversion, -, payload, hpayload⟩ := not_refused hsent
    obtain ⟨values, rest, buffer, fuel, hvalues, hrest, hloop⟩ := hahead hsent hpayload hwriting hpast
    obtain ⟨ipc, rest', buffer', -, -, hnext⟩ := @readNextFrame_ahead runtime config
      { connection.wrote payload with stream := rest, log := (connection.wrote payload).log ++ notifications.map .took }
      (queuedAll { connected with stream := some (connection.wrote payload) } (connection.wrote payload) notifications
        values rest buffer)
      excess more .Async rfl hversion hexcess (by decide) hrest
    have hlength := hvalues.length_eq
    have hoverflow := executeLoop_overflows fuel hnext (by simp only [queuedAll, List.length_append]; omega)
    rw [hloop, hoverflow]
    exact ⟨⟨_, rfl⟩, rfl⟩
  · obtain ⟨notifications, more, hsends, hsplit, hlength, hmeets⟩ := @exists_notifications config
      (config.settings.maxPendingNotifications - connected.pendingNotifications.length) (content connection.stream)
    refine ⟨notifications, more, ⟨hsends, hsplit, by omega⟩, ?_⟩
    rwa [← Nat.sub_sub]

/-- A handshake that fails leaves no connection behind. -/
theorem connectInner_failed {e : Failure} (h : connectInner config outside c = (.error e, connected)) :
    connected.stream = none := by
  unfold connectInner at h
  split at h
  · cases h
  next hnone =>
  have hnone : c.stream = none := by simpa using hnone
  split at h
  · cases h
    exact hnone
  split at h
  · cases h
    rfl
  · cases h

theorem connectInner_stream (h : connectInner config outside c = (.ok (), connected)) :
    ∃ connection, connected.stream = some connection := by
  unfold connectInner at h
  split at h
  · next hsome =>
    cases h
    exact Option.isSome_iff_exists.mp hsome
  split at h
  · cases h
  split at h
  · cases h
  · cases h
    exact ⟨_, rfl⟩

end Operations

/-- **Stream synchronisation.** Behind every sequence of operations, whatever the socket reports, the
connector is disconnected or stands at the boundary of two frames and has written whole frames only.
Whatever comes next: a handshake that fails leaves no connection; a request that is refused before it
is written changes nothing, and half a written one drops the connection; so does a frame that cannot
be read, for `receive` and, behind any notifications, for `execute`; a frame that was read to its end
keeps it, whatever its value decodes to. -/
theorem stream_synchronised (runtime : Runtime) (config : Config) (operations : List (Outside × Operation)) :
    let c := performAll runtime config new operations
    InSync c ∧ ∀ outside : Outside, outside.aborted = false →
      (∀ connection, c.stream = some connection →
        ReceiveLeaves runtime config c connection (receive runtime config outside c) ∧
        ∀ msgType expr args, SendLeaves config outside msgType expr args c connection
          (send config outside msgType expr args c)) ∧
      (∀ connected, connectInner config outside c = (.ok (), connected) → ∃ connection,
        connected.stream = some connection ∧ ∀ expr args,
          ExecuteLeaves config outside expr args connected connection (execute runtime config outside expr args c) ∧
          SendLeaves config outside .Async expr args connected connection (executeAsync config outside expr args c)) ∧
      ∀ e left, connectInner config outside c = (.error e, left) → Drops (connect config outside c) ∧
        ∀ expr args, Drops (execute runtime config outside expr args c) ∧
          Drops (executeAsync config outside expr args c) := by
  intro c
  have hdelivery : Delivery runtime config c := performAll_delivery operations _ new_delivery
  refine ⟨performAll_inSync operations _ (inSync_disconnected rfl), ?_⟩
  intro outside haborted
  refine ⟨?_, ?_, ?_⟩
  · intro connection hstream
    refine ⟨receive_leaves hstream haborted, ?_⟩
    intro msgType expr args
    rw [send, finishOperation_kept haborted]
    exact sendInner_leaves hstream msgType expr args
  · intro connected hconnect
    obtain ⟨connection, hstream⟩ := connectInner_stream hconnect
    refine ⟨connection, hstream, ?_⟩
    intro expr args
    have hbound : connected.pendingNotifications.length ≤ config.settings.maxPendingNotifications := by
      have hqueue := (@connectInner_queue config outside c).1
      rw [hconnect] at hqueue
      rw [hqueue]
      exact hdelivery.bound
    refine ⟨execute_leaves hconnect hstream haborted hbound expr args, ?_⟩
    rw [executeAsync, finishOperation_kept haborted, hconnect]
    exact sendInner_leaves hstream .Async expr args
  · intro e left hconnect
    have hleft := connectInner_failed hconnect
    rw [connect, finishOperation_kept haborted, hconnect]
    refine ⟨⟨⟨e, rfl⟩, hleft⟩, ?_⟩
    intro expr args
    rw [execute, executeAsync, finishOperation_kept haborted, finishOperation_kept haborted, executeInner, hconnect]
    exact ⟨⟨⟨e, rfl⟩, hleft⟩, ⟨⟨e, rfl⟩, hleft⟩⟩

/-- A notification arrives, and of the response only the header: `execute` drops the connection. -/
theorem stream_synchronised_cut :
    let config : Config := ⟨[], [], 6, true, .Strict, ⟨.Native, .Auto, 10000000, none, 1024⟩⟩
    let socket : QStream :=
      [.data 3 [], .data 1 [0, 0, 0, 10, 0, 0, 0, 0xFC, 9], .data 1 [2, 0, 0, 10, 0, 0, 0]]
    let outside : Outside := ⟨.ok socket, none, none, none, false⟩
    let runtime := Runtime.ofAllocator numberedTexts ⟨fun n => n, fun _ => Nat.le_refl _⟩
    let c := performAll runtime config new [(outside, .connect)]
    c.stream.isSome ∧ Drops (execute runtime config outside ['1'] [] c) := by
  intro config socket outside runtime c
  have hsent : ¬Refused config .Sync ['1'] [] := by
    rintro (hversion | hargs | ⟨e, hpayload⟩)
    · exact absurd hversion (by decide)
    · exact absurd hargs (by decide)
    · cases hpayload
  have hnotification : Sends config [1, 0, 0, 0, 10, 0, 0, 0, 0xFC, 9] .Async :=
    ⟨⟨by decide, by decide⟩, .borrowed [0xFC, 9], by decide⟩
  have hcut : NoFrameAhead config [1, 2, 0, 0, 10, 0, 0, 0] := by
    intro frame more kind hahead hsends
    have hlong : 8 ≤ frame.length := hsends.complete.1
    have hlength := congrArg List.length hahead
    simp only [List.length_append, List.length_cons, List.length_nil] at hlength
    obtain rfl := List.length_eq_zero_iff.mp (by omega : more.length = 0)
    rw [List.append_nil] at hahead
    rw [← hahead] at hsends
    exact absurd hsends.complete.2 (by decide)
  obtain ⟨connection, hstream, hleaves⟩ :=
    ((stream_synchronised runtime config [(outside, .connect)]).2 outside rfl).2.1 c rfl
  obtain rfl : connection = ⟨socket.tail, socket.tail, []⟩ := (Option.some.inj hstream).symm
  have hpending : c.pendingNotifications = [] := rfl
  refine ⟨rfl, (hleaves ['1'] []).1.lost hsent rfl [[1, 0, 0, 0, 10, 0, 0, 0, 0xFC, 9]]
    [1, 2, 0, 0, 10, 0, 0, 0] ⟨?_, rfl, ?_⟩ hcut⟩
  · simpa using hnotification
  · rw [hpending]
    decide

end Xqdb.Connector
