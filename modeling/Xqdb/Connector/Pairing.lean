import Xqdb.Connector.Notifications

/-! A server that answers the synchronous requests of a connection one by one, in their order
and not before they are made: the `n`-th response on the connection answers its `n`-th
request. Every `execute` then returns the response to its own request, and `receive` no
response at all. -/

namespace Xqdb.Connector

open Compression (byteAt)
open Incoming (content)

def Exchange.isRequest : Exchange → Bool
  | .wrote bytes => byteAt bytes 1 == MsgType.toByte .Sync
  | .took _ => false

def Exchange.isResponse : Exchange → Bool
  | .took bytes => byteAt bytes 1 == MsgType.toByte .Response
  | .wrote _ => false

/-- How many synchronous requests were made. -/
def requests (log : List Exchange) : Nat := log.countP Exchange.isRequest

/-- How many responses were read. -/
def responses (log : List Exchange) : Nat := log.countP Exchange.isResponse

/-- No request is answered before it is made, and none twice. -/
def Causal (log : List Exchange) : Prop := ∀ earlier later, log = earlier ++ later → responses earlier ≤ requests earlier

/-- The server keeps to it on the connection that is open. -/
def Honest (c : Connector) : Prop := ∀ connection, c.stream = some connection → Causal connection.log

/-- `send`, which leaves its response unread, is left out. -/
def Operation.isPaired : Operation → Bool
  | .send _ _ _ => false
  | _ => true

/-- A connector in conversation with such a server. -/
inductive Conversation (runtime : Runtime) (config : Config) : Connector → Prop
  | new : Conversation runtime config .new
  | step {c : Connector} {outside : Outside} {operation : Operation} (conversation : Conversation runtime config c)
    (hpaired : operation.isPaired = true) (honest : Honest (perform runtime config outside operation c)) :
    Conversation runtime config (perform runtime config outside operation c)

/-! ## Types on the wire -/

theorem prepareFrame_kind {frame : Bytes} {maximum : Option Nat} {kind : MsgType} {prepared : PreparedBody}
    (h : prepareFrame frame maximum = .ok (kind, prepared)) : byteAt frame 1 = kind.toByte := by
  obtain ⟨header, hparse, hbody⟩ := Exec.bind_eq_ok.mp h
  have hkind := messageType_eq_ok.mp (prepareIpcBody_eq_ok.mp hbody).2.1
  by_cases hlong : 8 ≤ frame.length
  · obtain ⟨order, kind', mode, high, a, b, c, d, rest, rfl⟩ := take_header hlong
    obtain ⟨-, -, -, -, rfl⟩ := parseIpcHeader_eq_ok.mp hparse
    exact hkind
  · have hshort : (frame.take ipcHeaderLength).length ≠ 8 := by
      rw [List.length_take, ipcHeaderLength]
      omega
    unfold parseIpcHeader at hparse
    split at hparse
    · next heq =>
      rw [heq] at hshort
      exact absurd rfl hshort
    · cases hparse

theorem Decodes.isResponse {runtime : Runtime} {config : Config} {frame : Bytes} {kind : MsgType}
    {value : Except XqdbError K} (h : Decodes runtime config frame kind value) :
    (Exchange.took frame).isResponse = decide (kind = .Response) := by
  obtain ⟨prepared, hprepared, -⟩ := h
  rw [Exchange.isResponse, prepareFrame_kind hprepared]
  cases kind <;> rfl

theorem requests_append (log more : List Exchange) : requests (log ++ more) = requests log + requests more :=
  List.countP_append

theorem responses_append (log more : List Exchange) : responses (log ++ more) = responses log + responses more :=
  List.countP_append

theorem requests_took (frames : List Bytes) : requests (frames.map .took) = 0 := by
  induction frames with
  | nil => rfl
  | cons frame frames ih => simp [requests, Exchange.isRequest]

theorem requests_wrote {config : Config} {msgType : MsgType} {expr : List Char} {args : List K} {payload : Bytes}
    (h : requestPayload config msgType expr args = .ok payload) :
    requests [.wrote payload] = if msgType = .Sync then 1 else 0 := by
  have hkind := (requestPayload_complete h).2
  simp only [requests, List.countP_cons, List.countP_nil, Exchange.isRequest, hkind]
  cases msgType <;> rfl

section Frames

variable {runtime : Runtime} {config : Config}

theorem responses_took {frame : Bytes} {kind : MsgType} {value : Except XqdbError K}
    (h : Decodes runtime config frame kind value) :
    responses [.took frame] = if kind = .Response then 1 else 0 := by
  simp only [responses, List.countP_cons, List.countP_nil, h.isResponse]
  cases kind <;> rfl

theorem responses_notifications {frames : List Bytes} {values : List (Except XqdbError K)}
    (h : List.Forall₂ (fun frame value => Decodes runtime config frame .Async value) frames values) :
    responses (frames.map .took) = 0 := by
  induction h with
  | nil => rfl
  | cons hdecodes _ ih =>
    have hone := responses_took hdecodes
    rw [List.map_cons, ← List.singleton_append, responses_append, hone, ih]
    rfl

/-! ## Between two operations -/

/-- Every request of the open connection has been answered and its response read. -/
def Settled (c : Connector) : Prop :=
  ∀ connection, c.stream = some connection → responses connection.log = requests connection.log

theorem Settled.disconnected {c : Connector} (h : c.stream = none) : Settled c := by
  intro connection hsome
  rw [h] at hsome
  cases hsome

theorem Settled.finish {α : Type} {done : Exec α × Connector} (h : Settled done.2) (outside : Outside) :
    Settled (finishOperation outside done).2 := by
  unfold finishOperation
  split
  · exact h
  split
  · exact .disconnected rfl
  · exact h

theorem Settled.connect {c : Connector} (h : Settled c) (outside : Outside) :
    Settled (connectInner config outside c).2 := by
  unfold connectInner
  split
  · exact h
  split
  · exact h
  split
  · exact .disconnected rfl
  · intro connection hsome
    obtain rfl := Option.some.inj hsome
    rfl

/-- Why `execute` has no response to return. -/
inductive Unanswered (runtime : Runtime) (config : Config) (outside : Outside) (expr : List Char) (args : List K) :
    Failure → Prop
  | connecting {e : XqdbError} (h : outside.socket = .error e) : Unanswered runtime config outside expr args (.error e)
  | authenticating {e : Failure} {socket : QStream} (h : auth config outside socket = .error e) :
    Unanswered runtime config outside expr args e
  | refused {e : Failure} {c : Connector} (h : sendInner config outside .Sync expr args c = (.error e, c)) :
    Unanswered runtime config outside expr args e
  | writing {failure : Nat × IoFailure} (h : outside.writing = some failure) :
    Unanswered runtime config outside expr args (.error failure.2.toError)
  | overflow : Unanswered runtime config outside expr args (.error (overflowError config))
  | framing {e : XqdbError} (h : FrameFailure runtime config e) : Unanswered runtime config outside expr args (.error e)
  | aborted : Unanswered runtime config outside expr args (.error operationAbortedError)

/-- The response to the request that was made, and nothing but notifications between them. -/
structure Answered (runtime : Runtime) (config : Config) (expr : List Char) (args : List K)
    (done : Exec K × Connector) (arriving rest : QStream) (log : List Exchange) (payload : Bytes)
    (frames : List Bytes) (response : Bytes) (value : Except XqdbError K) : Prop where
  stream : done.2.stream =
    some ⟨arriving, rest, log ++ [.wrote payload] ++ frames.map .took ++ [.took response]⟩
  request : requestPayload config .Sync expr args = .ok payload
  between : responses (frames.map .took) = 0
  before : responses log = requests log
  result : done.1 = value.mapError .error
  response : Decodes runtime config response .Response value

/-- Nothing has passed over the connection that is left. -/
def Untouched (c c' : Connector) : Prop :=
  ∀ connection, c'.stream = some connection → c.stream = some connection ∨ connection.log = []

theorem Untouched.settled {c c' : Connector} (h : Untouched c c') (hsettled : Settled c) : Settled c' := by
  intro connection hsome
  rcases h connection hsome with hold | hnil
  · exact hsettled connection hold
  · rw [hnil]
    rfl

theorem connectInner_untouched (outside : Outside) (c : Connector) :
    Untouched c (connectInner config outside c).2 := by
  unfold connectInner
  split
  · exact fun connection hsome => .inl hsome
  split
  · exact fun connection hsome => .inl hsome
  split
  · intro connection hsome
    cases hsome
  · intro connection hsome
    obtain rfl := Option.some.inj hsome
    exact .inr rfl

theorem connectInner_err {outside : Outside} {c c' : Connector} {e : Failure} (expr : List Char) (args : List K)
    (h : connectInner config outside c = (.error e, c')) : Unanswered runtime config outside expr args e := by
  unfold connectInner at h
  split at h
  · cases h
  split at h
  · next hsocket =>
    cases h
    exact .connecting hsocket
  split at h
  · next hauth =>
    cases h
    exact .authenticating hauth
  · cases h

theorem sendInner_err {outside : Outside} {expr : List Char} {args : List K} {c c' : Connector} {e : Failure}
    (h : sendInner config outside .Sync expr args c = (.error e, c')) :
    Unanswered runtime config outside expr args e ∧ (c' = c ∨ c'.stream = none) := by
  have hrefused (hsame : c' = c) : Unanswered runtime config outside expr args e := by
    rw [hsame] at h
    exact .refused h
  unfold sendInner at h
  split at h
  · cases h
    exact ⟨hrefused rfl, .inl rfl⟩
  split at h
  · cases h
    exact ⟨hrefused rfl, .inl rfl⟩
  split at h
  · cases h
    exact ⟨hrefused rfl, .inl rfl⟩
  split at h
  · cases h
    exact ⟨hrefused rfl, .inl rfl⟩
  split at h
  · cases h
  · next hwriting =>
    cases h
    exact ⟨.writing hwriting, .inr rfl⟩

/-- The response to its own request, or an error that is no response's. -/
theorem executeInner_outcome {c : Connector} (hbound : c.pendingNotifications.length ≤
    config.settings.maxPendingNotifications) (hsettled : Settled c) (outside : Outside) (expr : List Char)
    (args : List K) :
    (∃ arriving rest log payload frames response value, Answered runtime config expr args
      (executeInner runtime config outside expr args c) arriving rest log payload frames response value) ∨
    ∃ e, (executeInner runtime config outside expr args c).1 = .error e ∧
      Unanswered runtime config outside expr args e ∧
      Untouched c (executeInner runtime config outside expr args c).2 := by
  have hconnect := @connectInner_untouched config outside c
  have hqueue := @connectInner_queue config outside c
  unfold executeInner
  split
  · next e c₁ hsame =>
    rw [hsame] at hconnect
    exact .inr ⟨e, rfl, connectInner_err expr args hsame, hconnect⟩
  · next c₁ hsame =>
    rw [hsame] at hconnect hqueue
    split
    · next e c₂ hsent =>
      obtain ⟨hwhy, hstream⟩ := sendInner_err hsent
      refine .inr ⟨e, rfl, hwhy, ?_⟩
      rcases hstream with rfl | hnone
      · exact hconnect
      · intro connection hsome
        rw [hnone] at hsome
        cases hsome
    · next c₂ hsent =>
      obtain ⟨hversion, connection, payload, hstream, hpayload, rfl⟩ := sendInner_ok hsent
      have hpending : c₁.pendingNotifications = c.pendingNotifications := hqueue.1
      rw [← hpending] at hbound
      obtain ⟨frames, values, hvalues, -, ⟨rest, buffer, response, value, rest', buffer', hdecodes, hloop⟩ |
        ⟨rest, buffer, e, hwhy, hloop⟩⟩ := @executeLoop_outcome runtime config hversion _
          { c₁ with stream := some { connection with log := connection.log ++ [.wrote payload] } } _ rfl
          (Nat.lt_succ_self _) hbound
      · rw [executeFuel, hloop]
        exact .inl ⟨connection.arriving, rest', connection.log, payload, frames, response, value, rfl, hpayload,
          responses_notifications hvalues, hconnect.settled hsettled connection hstream, rfl, hdecodes⟩
      · rw [executeFuel, hloop]
        refine .inr ⟨.error e, rfl, ?_, ?_⟩
        · rcases hwhy with rfl | hwhy
          · exact .overflow
          · exact .framing hwhy
        · intro other hsome
          cases hsome

theorem execute_outcome {c : Connector} (hbound : c.pendingNotifications.length ≤
    config.settings.maxPendingNotifications) (hsettled : Settled c) (outside : Outside) (expr : List Char)
    (args : List K) :
    (∃ arriving rest log payload frames response value, Answered runtime config expr args
      (execute runtime config outside expr args c) arriving rest log payload frames response value) ∨
    ∃ e, (execute runtime config outside expr args c).1 = .error e ∧
      Unanswered runtime config outside expr args e ∧
      Untouched c (execute runtime config outside expr args c).2 := by
  have hinner := @executeInner_outcome runtime config c hbound hsettled outside expr args
  unfold execute finishOperation
  split
  · exact hinner
  split
  · refine .inr ⟨.error operationAbortedError, rfl, .aborted, ?_⟩
    intro connection hsome
    cases hsome
  · exact hinner

theorem Answered.settled {expr : List Char} {args : List K} {done : Exec K × Connector} {arriving rest : QStream}
    {log : List Exchange} {payload : Bytes} {frames : List Bytes} {response : Bytes} {value : Except XqdbError K}
    (h : Answered runtime config expr args done arriving rest log payload frames response value) :
    Settled done.2 := by
  intro connection hsome
  obtain rfl := Option.some.inj (h.stream.symm.trans hsome)
  simp only [requests_append, responses_append, requests_took, h.between, h.before, requests_wrote h.request,
    responses_took h.response, if_true]
  rfl

/-- A frame that `receive` reads from the socket. -/
theorem receiveInner_outcome (c : Connector) :
    (∃ connection frame kind value rest buffer, c.stream = some connection ∧ kind ≠ .Sync ∧
      Decodes runtime config frame kind value ∧
      receiveInner runtime config c = (value.mapError .error, afterFrame c connection frame rest buffer)) ∨
    ∃ e, (receiveInner runtime config c).1 = .error e ∧ ((receiveInner runtime config c).2 = c ∨
      (receiveInner runtime config c).2.stream = none) := by
  unfold receiveInner
  rcases @readNextFrame_total runtime config c with
    ⟨connection, frame, kind, ipc, rest, buffer, hstream, hread, hkind, hnext⟩ | ⟨e, hnext⟩ | hnext
  · obtain ⟨value, hvalue, hdecodes⟩ := bodyValue_decodes hread
    rw [hnext]
    refine .inl ⟨connection, frame, kind, value, rest,
      (decodeFrameBody runtime config ipc (afterFrame c connection frame rest buffer)).2.receiveBuffer, hstream, hkind,
      hdecodes, ?_⟩
    simp only [decodeFrameBody, afterFrame, hvalue]
  · rw [hnext]
    exact .inr ⟨.error e, rfl, .inr rfl⟩
  · rw [hnext]
    exact .inr ⟨_, rfl, .inl rfl⟩

/-- Where every request has been answered, a response would answer no request. -/
theorem Settled.async {c : Connector} (hsettled : Settled c) {connection : Connection} {frame : Bytes} {kind : MsgType}
    {value : Except XqdbError K} (hstream : c.stream = some connection) (hkind : kind ≠ .Sync)
    (hdecodes : Decodes runtime config frame kind value) (hcausal : Causal (connection.log ++ [.took frame])) :
    kind = .Async := by
  cases kind with
  | Async => rfl
  | Sync => exact absurd rfl hkind
  | Response =>
    have hcount := hcausal _ [] (List.append_nil _).symm
    have hbefore := hsettled connection hstream
    have hnone : requests [.took frame] = 0 := rfl
    rw [responses_append, requests_append, responses_took hdecodes, if_pos rfl, hnone] at hcount
    omega

/-- What `receive` returns: a notification from the queue or from the socket, or an error
behind which the connection is as it was or gone. -/
inductive Received (runtime : Runtime) (config : Config) (c : Connector) (done : Exec K × Connector) : Prop
  | queued {frame : Bytes} {value : Except XqdbError K} (hdecodes : Decodes runtime config frame .Async value)
    (hresult : done.1 = value.mapError .error) (hstream : done.2.stream = c.stream)
  | read {connection : Connection} {frame : Bytes} {value : Except XqdbError K} {rest : QStream}
    (hdecodes : Decodes runtime config frame .Async value) (hresult : done.1 = value.mapError .error)
    (hbefore : c.stream = some connection)
    (hafter : done.2.stream = some ⟨connection.arriving, rest, connection.log ++ [.took frame]⟩)
  | failed {e : Failure} (hresult : done.1 = .error e) (hstream : done.2.stream = c.stream ∨ done.2.stream = none)

theorem exists_frame {frames : List Bytes} {values : List (Except XqdbError K)} {value : Except XqdbError K}
    (h : List.Forall₂ (fun frame value => Decodes runtime config frame .Async value) frames values)
    (hmem : value ∈ values) : ∃ frame, Decodes runtime config frame .Async value := by
  induction h with
  | nil => simp at hmem
  | @cons frame other frames values hdecodes _ ih =>
    rcases List.mem_cons.mp hmem with rfl | hmem
    · exact ⟨frame, hdecodes⟩
    · exact ih hmem

theorem receive_outcome {c : Connector} (hdelivery : Delivery runtime config c) (hsettled : Settled c)
    (outside : Outside) (honest : Honest (receive runtime config outside c).2) :
    Received runtime config c (receive runtime config outside c) := by
  unfold receive at honest ⊢
  split
  · next notification pending hpending =>
    obtain ⟨values, hvalues, hall⟩ := hdelivery.values
    have hmem : notification ∈ values := by
      rw [hall, hpending]
      simp
    obtain ⟨frame, hdecodes⟩ := exists_frame hvalues hmem
    exact .queued hdecodes rfl rfl
  · next hpending =>
    simp only [hpending] at honest
    have hinner := @receiveInner_outcome runtime config c
    unfold finishOperation at honest ⊢
    split
    · next hpanic =>
      rcases hinner with ⟨connection, frame, kind, value, rest, buffer, -, -, -, hrun⟩ | ⟨e, hresult, hrest⟩
      · rw [hrun] at hpanic
        cases value <;> cases hpanic
      · rcases hrest with hsame | hnone
        · exact .failed hresult (.inl (by rw [hsame]))
        · exact .failed hresult (.inr hnone)
    · split
      · exact .failed rfl (.inr rfl)
      · next hnot haborted =>
        simp only [haborted] at honest
        rcases hinner with ⟨connection, frame, kind, value, rest, buffer, hstream, hkind, hdecodes, hrun⟩ |
          ⟨e, hresult, hrest⟩
        · rw [hrun] at honest ⊢
          have hcausal : Causal (connection.log ++ [.took frame]) := by
            cases value with
            | ok k => exact honest _ rfl
            | error e => exact honest _ rfl
          obtain rfl := hsettled.async hstream hkind hdecodes hcausal
          exact .read hdecodes rfl hstream rfl
        · rcases hrest with hsame | hnone
          · exact .failed hresult (.inl (by rw [hsame]))
          · exact .failed hresult (.inr hnone)

theorem Received.settled {c : Connector} {done : Exec K × Connector} (h : Received runtime config c done)
    (hsettled : Settled c) : Settled done.2 := by
  cases h with
  | queued hdecodes hresult hstream =>
    intro connection hsome
    exact hsettled connection (hstream.symm.trans hsome)
  | @read connection frame value rest hdecodes hresult hbefore hafter =>
    intro other hsome
    obtain rfl := Option.some.inj (hafter.symm.trans hsome)
    have hcount := hsettled connection hbefore
    have hnone : requests [.took frame] = 0 := rfl
    simp only [responses_append, requests_append, responses_took hdecodes, hnone, hcount]
    rfl
  | failed hresult hstream =>
    intro connection hsome
    rcases hstream with hsame | hnone
    · exact hsettled connection (hsame.symm.trans hsome)
    · rw [hnone] at hsome
      cases hsome

/-- Asynchronous requests wait for no response. -/
theorem sendInner_settled {c : Connector} (h : Settled c) (outside : Outside) (expr : List Char) (args : List K) :
    Settled (sendInner config outside .Async expr args c).2 := by
  rcases @sendInner_cases config outside .Async expr args c with
    ⟨connection, payload, hstream, hpayload, -, hsend⟩ | ⟨e, -, hsend⟩ | ⟨e, hsend⟩
  · rw [hsend]
    intro other hother
    obtain rfl := Option.some.inj hother
    have hcount := h connection hstream
    have hnone := requests_wrote hpayload
    simp only [responses_append, requests_append, hnone, hcount]
    rfl
  · rw [hsend]
    exact .disconnected rfl
  · rw [hsend]
    exact h

/-- What holds between the operations of a conversation. -/
theorem Conversation.settled {c : Connector} (conversation : Conversation runtime config c) :
    Settled c ∧ Delivery runtime config c := by
  induction conversation with
  | new => exact ⟨.disconnected rfl, new_delivery⟩
  | @step c outside operation _ hpaired honest ih =>
    obtain ⟨hsettled, hdelivery⟩ := ih
    refine ⟨?_, perform_delivery hdelivery outside operation⟩
    cases operation with
    | connect => exact (hsettled.connect outside).finish outside
    | send msgType expr args => cases hpaired
    | receive => exact (receive_outcome hdelivery hsettled outside honest).settled hsettled
    | execute expr args =>
      rcases @execute_outcome runtime config c hdelivery.bound hsettled outside expr args with
        ⟨arriving, rest, log, payload, frames, response, value, hanswered⟩ | ⟨e, -, -, huntouched⟩
      · exact hanswered.settled
      · exact huntouched.settled hsettled
    | executeAsync expr args =>
      apply Settled.finish
      have hconnect := @Settled.connect config c hsettled outside
      split
      · next hsame =>
        rw [hsame] at hconnect
        exact hconnect
      · next connected hsame =>
        rw [hsame] at hconnect
        exact sendInner_settled hconnect outside expr args
    | shutdown =>
      simp only [perform]
      unfold shutdown
      split
      · exact hsettled
      split
      · exact .disconnected rfl
      · exact .disconnected rfl

end Frames

/-- **Request and response are paired** in every conversation, across failures at any byte,
aborts, overflows, undecodable responses and new connections. `execute` returns the value
of a response, which is then the next on the connection behind as many responses as there
were requests before its own, so the response to its own request; or it returns an error
that is no response's, and nothing has passed over the connection that is left. `receive`
returns the value of a notification. -/
theorem responses_paired (runtime : Runtime) (config : Config) (c : Connector)
    (conversation : Conversation runtime config c) (outside : Outside) :
    (∀ expr args,
      (∃ arriving rest log payload frames response value, Answered runtime config expr args
        (execute runtime config outside expr args c) arriving rest log payload frames response value) ∨
      ∃ e, (execute runtime config outside expr args c).1 = .error e ∧
        Unanswered runtime config outside expr args e ∧
        Untouched c (execute runtime config outside expr args c).2) ∧
    (Honest (receive runtime config outside c).2 → Received runtime config c (receive runtime config outside c)) := by
  obtain ⟨hsettled, hdelivery⟩ := conversation.settled
  refine ⟨?_, ?_⟩
  · intro expr args
    exact execute_outcome hdelivery.bound hsettled outside expr args
  · intro honest
    exact receive_outcome hdelivery hsettled outside honest

set_option maxRecDepth 4000 in
/-- A notification stands between the request and its response. -/
theorem responses_paired_seven :
    let config : Config := ⟨[], [], 6, true, .Strict, ⟨.Native, .Auto, 10000000, none, 1024⟩⟩
    let socket : QStream :=
      [.data 3 [1, 0, 0, 0, 10, 0, 0, 0, 0xFC, 9], .data 1 [2, 0, 0, 10, 0, 0, 0, 0xFC, 7]]
    let outside : Outside := ⟨.ok socket, none, none, none, false⟩
    let runtime := Runtime.ofAllocator numberedTexts ⟨fun n => n, fun _ => Nat.le_refl _⟩
    let c := perform runtime config outside .connect new
    Conversation runtime config c ∧ (execute runtime config outside ['1'] [] c).1 = .ok (.U8 7) ∧
      ∃ arriving rest log payload frames response value, Answered runtime config ['1'] []
        (execute runtime config outside ['1'] [] c) arriving rest log payload frames response value := by
  intro config socket outside runtime c
  have hvalue : (execute runtime config outside ['1'] [] c).1 = .ok (.U8 7) := by
    unfold c runtime outside socket config
    rfl
  have hconversation : Conversation runtime config c := by
    refine .step .new rfl ?_
    intro connection hsome earlier later hlog
    obtain rfl := Option.some.inj hsome
    obtain ⟨rfl, -⟩ := List.append_eq_nil_iff.mp hlog.symm
    exact Nat.le_refl _
  refine ⟨hconversation, hvalue, ?_⟩
  rcases (responses_paired runtime config c hconversation outside).1 ['1'] [] with hanswered | ⟨e, herr, -⟩
  · exact hanswered
  · rw [hvalue] at herr
    cases herr

end Xqdb.Connector
