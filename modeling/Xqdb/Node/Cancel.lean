import Xqdb.Connector.Abort

/-! `cancel` of the Node connector against its worker (`worker.rs`).

`cancel` adds one to the cancel generation and then aborts the connector's active operation.
The worker runs the commands of its queue one after another: `connect` compares the
generation with the one it loaded at its start, around every attempt and during the waits
between them; `sync`, `asyn` and `receive` run one operation of the connector, and
`disconnect` shuts it down. A command that was cancelled leaves no connection: `connect`, `sync`
and `asyn` make one, `receive` does not. -/

namespace Xqdb.Node.Cancel

open Xqdb.Connector

inductive Command where
  | connect (retries : Nat)
  | sync
  | asyn
  | receive
  | disconnect
  deriving DecidableEq, Repr

/-- What an operation of the connector returned, as far as `connect` looks at it. -/
inductive Returned where
  | ok
  | err (retryable : Bool)
  | aborted
  deriving DecidableEq, Repr

/-- The abort is an `IOError` of kind `Interrupted`. -/
def isRetryableConnect : Returned → Bool
  | .err retryable => retryable
  | _ => false

structure Attempt where
  retries : Nat
  expected : Nat
  attempt : Nat
  deriving DecidableEq, Repr

/-- Where the worker stands in a command. The operation of `connecting` and `operating` has
begun where the connector's thread is not idle; `connects` says whether it connects where there is
no connection. -/
inductive Phase where
  | loading (retries : Nat)
  | checking (attempt : Attempt)
  | connecting (attempt : Attempt)
  | connected (attempt : Attempt) (result : Returned)
  | waiting (attempt : Attempt)
  | operating (connects : Bool)
  | closing
  deriving DecidableEq, Repr

def Command.start : Command → Phase
  | .connect retries => .loading retries
  | .sync => .operating true
  | .asyn => .operating true
  | .receive => .operating false
  | .disconnect => .closing

/-- The phase is in front of an operation or in it. -/
def Phase.operates : Phase → Bool
  | .connecting _ => true
  | .operating _ => true
  | _ => false

/-- `unconnected` is `NotConnectedErr`, with the command whose cancellation has taken the connection
away. -/
inductive Outcome where
  | succeeded
  | failed
  | cancelled
  | unconnected (cause : Option Nat)
  deriving DecidableEq, Repr

inductive Progress where
  | called
  | bumped
  | taken
  deriving DecidableEq, Repr

/-- `calls` holds the command that was executing when `cancel` was called, for each call, and
`progress` how far the call has come. The rest is history: the command each operation
belongs to, the calls that bumped the generation since the current `connect` loaded it, the
commands each call has hit, how the commands ended, how many were submitted when each call was
made, and the cancelled command that left no connection, until there is one or it is closed. -/
structure World where
  connector : Abort.World
  generation : Nat
  submitted : List Command
  started : Nat
  current : Option (Nat × Phase)
  calls : List (Option Nat)
  progress : List Progress
  ops : List Nat
  since : List Nat
  hits : List (Nat × Nat)
  outcomes : List (Nat × Outcome)
  queuedAt : List Nat
  severed : Option Nat
  deriving DecidableEq, Repr

def World.start : World := ⟨.start, 0, [], 0, none, [], [], [], [], [], [], [], none⟩

namespace World

def finish (w : World) (c : Nat) (outcome : Outcome) : World :=
  { w with
    current := none
    outcomes := w.outcomes ++ [(c, outcome)]
    severed := if w.connector.tcp.isSome then none else if outcome = .cancelled then some c else w.severed }

/-- The generation is not the one that `connect` has loaded: every call that bumped it since
has hit the command. -/
def cancelled (w : World) (c : Nat) : World :=
  { w.finish c .cancelled with hits := w.hits ++ w.since.map (·, c) }

def shutdown (w : World) : World := { w with connector := { w.connector with tcp := none } }

end World

def returned (ok aborted retryable : Bool) : Returned :=
  if aborted then .aborted else if ok then .ok else .err retryable

def outcome (ok aborted : Bool) : Outcome :=
  if aborted then .cancelled else if ok then .succeeded else .failed

/-- How an operation ends its command: one that does not connect fails where it has found no socket. -/
def World.ending (w : World) (op : Nat) (connects ok aborted : Bool) : Outcome :=
  if aborted = false ∧ connects = false ∧ op ∉ w.connector.used.map Prod.fst then .unconnected w.severed
  else outcome ok aborted

/-- The steps of the worker. -/
inductive WorkerStep : World → World → Prop
  | recv {w : World} {command : Command} (hcurrent : w.current = none)
    (hnext : w.submitted[w.started]? = some command) :
    WorkerStep w { w with current := some (w.started, command.start), started := w.started + 1 }
  | load {w : World} {c retries : Nat} (hcurrent : w.current = some (c, .loading retries)) :
    WorkerStep w { w with current := some (c, .checking ⟨retries, w.generation, 0⟩), since := [] }
  | proceed {w : World} {c : Nat} {a : Attempt} (hcurrent : w.current = some (c, .checking a))
    (hgeneration : w.generation = a.expected) :
    WorkerStep w { w with current := some (c, .connecting a) }
  | stopBefore {w : World} {c : Nat} {a : Attempt} (hcurrent : w.current = some (c, .checking a))
    (hgeneration : w.generation ≠ a.expected) : WorkerStep w (w.cancelled c)
  | begin {w : World} {c : Nat} {phase : Phase} {connector : Abort.World}
    (hcurrent : w.current = some (c, phase)) (hphase : phase.operates = true)
    (hidle : w.connector.thread = .idle) (hstep : Abort.Step w.connector connector)
    (hbegun : connector.thread ≠ .idle) :
    WorkerStep w { w with connector := connector, ops := w.ops ++ [c] }
  | operate {w : World} {connector : Abort.World} (hbusy : w.connector.thread ≠ .idle)
    (hstep : Abort.Step w.connector connector) (hbusy' : connector.thread ≠ .idle)
    -- `receive` opens no socket
    (hopens : connector.sockets = w.connector.sockets ∨ ∀ c, w.current ≠ some (c, .operating false)) :
    WorkerStep w { w with connector := connector }
  | connectReturns {w : World} {c op : Nat} {a : Attempt} {ok aborted : Bool} {connector : Abort.World}
    (retryable : Bool) (hcurrent : w.current = some (c, .connecting a))
    (hthread : w.connector.thread = .dropped op ok aborted) (hstep : Abort.Step w.connector connector) :
    WorkerStep w { w with
      connector := connector
      current := some (c, .connected a (returned ok aborted retryable)) }
  | operationReturns {w : World} {c op : Nat} {connects ok aborted : Bool} {connector : Abort.World}
    -- the value may fail to convert
    (converted : Bool) (hcurrent : w.current = some (c, .operating connects))
    (hthread : w.connector.thread = .dropped op ok aborted) (hstep : Abort.Step w.connector connector) :
    WorkerStep w ({ w with connector := connector }.finish c (w.ending op connects (ok && converted) aborted))
  | withoutOperation {w : World} {c : Nat} {connects : Bool} (ok : Bool)
    (hcurrent : w.current = some (c, .operating connects))
    -- an argument that does not convert, or a notification from the queue
    (hidle : w.connector.thread = .idle) : WorkerStep w (w.finish c (outcome ok false))
  | stopAfter {w : World} {c : Nat} {a : Attempt} {result : Returned}
    (hcurrent : w.current = some (c, .connected a result)) (hgeneration : w.generation ≠ a.expected) :
    WorkerStep w (w.shutdown.cancelled c)
  | succeed {w : World} {c : Nat} {a : Attempt} (hcurrent : w.current = some (c, .connected a .ok))
    (hgeneration : w.generation = a.expected) : WorkerStep w (w.finish c .succeeded)
  | retry {w : World} {c : Nat} {a : Attempt} {result : Returned}
    (hcurrent : w.current = some (c, .connected a result)) (hgeneration : w.generation = a.expected)
    (hattempt : a.attempt < a.retries) (hretryable : isRetryableConnect result = true) :
    WorkerStep w { w with current := some (c, .waiting a) }
  | giveUp {w : World} {c : Nat} {a : Attempt} {result : Returned}
    (hcurrent : w.current = some (c, .connected a result)) (hgeneration : w.generation = a.expected)
    (herror : result ≠ .ok) (hretry : ¬(a.attempt < a.retries ∧ isRetryableConnect result = true)) :
    WorkerStep w (w.finish c (if result = .aborted then .cancelled else .failed))
  | stopWaiting {w : World} {c : Nat} {a : Attempt} (hcurrent : w.current = some (c, .waiting a))
    (hgeneration : w.generation ≠ a.expected) : WorkerStep w (w.cancelled c)
  | again {w : World} {c : Nat} {a : Attempt} (hcurrent : w.current = some (c, .waiting a))
    (hgeneration : w.generation = a.expected) :
    WorkerStep w { w with current := some (c, .checking { a with attempt := a.attempt + 1 }) }
  | close {w : World} {c : Nat} (ok : Bool) (hcurrent : w.current = some (c, .closing)) :
    WorkerStep w { w.shutdown.finish c (outcome ok false) with severed := none }

/-- The steps of the `k`-th call of `cancel`. -/
inductive CancelStep (k : Nat) : World → World → Prop
  | bump {w : World} (hprogress : w.progress[k]? = some .called) :
    CancelStep k w { w with
      generation := (w.generation + 1) % 2 ^ 64
      progress := w.progress.set k .bumped
      since := w.since ++ [k] }
  | take {w : World} {op c : Nat} {operation : Abort.AbortOperation} (hprogress : w.progress[k]? = some .bumped)
    (howner : w.connector.owner = some op) (hactive : w.connector.state.take.1 = some operation)
    (hop : w.ops[op]? = some c) :
    CancelStep k w { w with
      connector := w.connector.aborted op operation
      progress := w.progress.set k .taken
      hits := w.hits ++ [(k, c)] }
  | takeNothing {w : World} (hprogress : w.progress[k]? = some .bumped)
    (hactive : w.connector.state.take.1 = none) :
    CancelStep k w { w with
      connector := { w.connector with state := w.connector.state.take.2 }
      progress := w.progress.set k .taken }

inductive Step : World → World → Prop
  | submit {w : World} (command : Command) : Step w { w with submitted := w.submitted ++ [command] }
  | worker {w w' : World} (step : WorkerStep w w') : Step w w'
  | call {w : World} :
    Step w { w with
      calls := w.calls ++ [w.current.map (·.1)]
      progress := w.progress ++ [.called]
      queuedAt := w.queuedAt ++ [w.submitted.length] }
  | cancel {w w' : World} (k : Nat) (step : CancelStep k w w') : Step w w'
  -- the socket that a call has taken is shut down
  | land {w : World} {op : Nat} {socket : Abort.Socket} (hflying : (op, socket) ∈ w.connector.flying) :
    Step w { w with connector := { w.connector with
      flying := w.connector.flying.erase (op, socket)
      landed := w.connector.landed ++ [(op, socket)] } }

inductive Reachable : World → Prop
  | start : Reachable .start
  | step {w w' : World} (reached : Reachable w) (step : Step w w') : Reachable w'

/-- No call of `cancel` is between its start and the moment it takes the active operation. -/
def World.calm (w : World) : Prop := ∀ (k : Nat) (p : Progress), w.progress[k]? = some p → p = .taken

/-- The command is a `receive` that was already submitted when a call hit another one, and that one
has left no connection. -/
def World.stranded (w : World) : Prop :=
  ∃ c cause k n, w.current = some (c, .operating false) ∧ w.severed = some cause ∧ (k, cause) ∈ w.hits ∧
    w.queuedAt[k]? = some n ∧ c < n

/-- A run in which commands begin in calm states only, and operations for no stranded command. -/
inductive Orderly : World → Prop
  | start : Orderly .start
  | step {w w' : World} (run : Orderly w) (step : Step w w') (hbegin : w'.started ≠ w.started → w.calm)
    (hreceive : w'.ops ≠ w.ops → ¬w.stranded) : Orderly w'

/-- A call hits only the command that was executing when it was made, and so at most one; a
command that fails with the cancellation error was hit, and so was one whose operation lost
its entry or its socket, which no later operation uses; a command that was queued when the call was
made does not fail for want of the connection that the command it hit has lost; and a call made
while nothing was executing hits nothing and leaves the connector alone. -/
structure OnlyActive (w : World) : Prop where
  active : ∀ k c, (k, c) ∈ w.hits → w.calls[k]? = some (some c)
  once : ∀ k c c', (k, c) ∈ w.hits → (k, c') ∈ w.hits → c = c'
  cancelled : ∀ c, (c, .cancelled) ∈ w.outcomes → ∃ k, (k, c) ∈ w.hits
  taken : ∀ op stream, (op, stream) ∈ w.connector.taken → ∃ k c, w.ops[op]? = some c ∧ (k, c) ∈ w.hits
  sockets : ∀ op socket, (op, socket) ∈ w.connector.flying ++ w.connector.landed →
    (∃ k c, w.ops[op]? = some c ∧ (k, c) ∈ w.hits) ∧ ∀ user, (user, socket) ∈ w.connector.used → user ≤ op
  unaffected : ∀ c cause k n, (c, .unconnected (some cause)) ∈ w.outcomes → (k, cause) ∈ w.hits →
    w.queuedAt[k]? = some n → n ≤ c
  idle : ∀ k, w.calls[k]? = some none →
    (∀ c, (k, c) ∉ w.hits) ∧ ∀ w', CancelStep k w w' → w'.connector = w.connector

/-! ## The invariant -/

def Phase.expected? : Phase → Option Nat
  | .checking a => some a.expected
  | .connecting a => some a.expected
  | .connected a _ => some a.expected
  | .waiting a => some a.expected
  | _ => none

/-- A call that has not taken the active operation was made during the current command, and
so was every call that bumped the generation since `connect` loaded it. -/
structure Inv (w : World) : Prop where
  connector : Abort.Reachable w.connector
  bounded : w.generation < 2 ^ 64
  begun : w.ops.length = w.connector.begun
  owned : ∀ op, w.connector.thread.op? = some op →
    ∃ c phase, w.current = some (c, phase) ∧ phase.operates = true ∧ w.ops[op]? = some c
  known : w.progress.length = w.calls.length
  pending : ∀ (k : Nat) (p : Progress) c phase, w.progress[k]? = some p → p ≠ .taken →
    w.current = some (c, phase) → w.calls[k]? = some (some c)
  since : ∀ c phase expected, w.current = some (c, phase) → phase.expected? = some expected →
    expected < 2 ^ 64 ∧ w.generation = (expected + w.since.length) % 2 ^ 64 ∧
      ∀ k ∈ w.since, w.calls[k]? = some (some c)
  hits : ∀ k c, (k, c) ∈ w.hits → w.calls[k]? = some (some c)
  taken : ∀ op stream, (op, stream) ∈ w.connector.taken → ∃ k c, w.ops[op]? = some c ∧ (k, c) ∈ w.hits
  aborted : ∀ c a, w.current = some (c, .connected a .aborted) → ∃ k, (k, c) ∈ w.hits
  cancelled : ∀ c, (c, .cancelled) ∈ w.outcomes → ∃ k, (k, c) ∈ w.hits

theorem Inv.of_start : Inv .start := by
  refine ⟨.start, ?_, ?_, ?_, ?_, ?_, ?_, ?_, ?_, ?_, ?_⟩ <;>
    simp [World.start, Abort.World.start, Abort.Thread.op?]

/-- The command moves on to another phase. -/
theorem Inv.phase {w : World} (h : Inv w) {c : Nat} {phase phase' : Phase}
    (hcurrent : w.current = some (c, phase)) (hidle : w.connector.thread.op? = none)
    (hexpected : ∀ expected, phase'.expected? = some expected → phase.expected? = some expected)
    (haborted : ∀ a, phase' = .connected a .aborted → ∃ k, (k, c) ∈ w.hits) :
    Inv { w with current := some (c, phase') } := by
  refine ⟨h.connector, h.bounded, h.begun, ?_, h.known, ?_, ?_, h.hits, h.taken, ?_, h.cancelled⟩
  · intro op hop
    exact absurd (hidle.symm.trans hop) (by simp)
  · intro k progress n p hprogress hne hn
    obtain ⟨rfl, -⟩ : c = n ∧ phase' = p := by simpa using hn
    exact h.pending k progress c phase hprogress hne hcurrent
  · intro n p expected hn hp
    obtain ⟨rfl, rfl⟩ : c = n ∧ phase' = p := by simpa using hn
    exact h.since c phase expected hcurrent (hexpected expected hp)
  · intro n a hn
    obtain ⟨rfl, hphase⟩ : c = n ∧ phase' = .connected a .aborted := by simpa using hn
    exact haborted a hphase

/-- A command ends outside every operation. -/
theorem Inv.finish {w : World} (h : Inv w) {c : Nat} {outcome : Outcome} (hidle : w.connector.thread.op? = none)
    (houtcome : outcome = .cancelled → ∃ k, (k, c) ∈ w.hits) : Inv (w.finish c outcome) := by
  refine ⟨h.connector, h.bounded, h.begun, ?_, h.known, ?_, ?_, h.hits, h.taken, ?_, ?_⟩
  · intro op hop
    exact absurd (hidle.symm.trans hop) (by simp)
  · intro k progress n p _ _ hn
    cases hn
  · intro n p expected hn
    cases hn
  · intro n a hn
    cases hn
  · intro n hn
    rcases List.mem_append.mp hn with hold | hnew
    · exact h.cancelled n hold
    · obtain ⟨rfl, rfl⟩ : n = c ∧ .cancelled = outcome := by simpa using hnew
      exact houtcome rfl

/-- More calls are known to have hit the current command. -/
theorem Inv.hit {w : World} (h : Inv w) {new : List (Nat × Nat)}
    (hnew : ∀ k c, (k, c) ∈ new → w.calls[k]? = some (some c)) : Inv { w with hits := w.hits ++ new } := by
  have hmore (c : Nat) (hold : ∃ k, (k, c) ∈ w.hits) : ∃ k, (k, c) ∈ w.hits ++ new := by
    obtain ⟨k, hk⟩ := hold
    exact ⟨k, List.mem_append_left _ hk⟩
  refine ⟨h.connector, h.bounded, h.begun, h.owned, h.known, h.pending, h.since, ?_, ?_, ?_, ?_⟩
  · intro k c hk
    rcases List.mem_append.mp hk with hk | hk
    · exact h.hits k c hk
    · exact hnew k c hk
  · intro op stream hop
    obtain ⟨k, c, hc, hk⟩ := h.taken op stream hop
    exact ⟨k, c, hc, List.mem_append_left _ hk⟩
  · intro c a hc
    exact hmore c (h.aborted c a hc)
  · intro c hc
    exact hmore c (h.cancelled c hc)

/-- `connect` finds another generation than it has loaded. -/
theorem Inv.stop {w : World} (h : Inv w) {c expected : Nat} {phase : Phase}
    (hcurrent : w.current = some (c, phase)) (hphase : phase.expected? = some expected)
    (hidle : w.connector.thread.op? = none) (hgeneration : w.generation ≠ expected) : Inv (w.cancelled c) := by
  obtain ⟨hlt, heq, hsince⟩ := h.since c phase expected hcurrent hphase
  -- equal generations would mean that nobody has bumped it
  have hsome : ∃ k, k ∈ w.since := by
    apply List.exists_mem_of_ne_nil
    intro hnil
    rw [hnil, List.length_nil, Nat.add_zero, Nat.mod_eq_of_lt hlt] at heq
    exact hgeneration heq
  obtain ⟨k, hk⟩ := hsome
  have hhit : Inv { w with hits := w.hits ++ w.since.map (·, c) } := by
    apply h.hit
    intro j n hj
    obtain ⟨i, hi, heq⟩ := List.mem_map.mp hj
    cases heq
    exact hsince j hi
  exact hhit.finish hidle (fun _ => ⟨k, List.mem_append_right _ (List.mem_map.mpr ⟨k, hk, rfl⟩)⟩)

/-- A step of the connector that begins no operation. -/
theorem Inv.operate {w : World} (h : Inv w) {connector : Abort.World} (hstep : Abort.Step w.connector connector)
    (hop : ∀ op, connector.thread.op? = some op → w.connector.thread.op? = some op)
    (hbegun : connector.begun = w.connector.begun) : Inv { w with connector := connector } := by
  refine ⟨.step h.connector hstep, h.bounded, ?_, ?_, h.known, h.pending, h.since, h.hits, ?_, h.aborted,
    h.cancelled⟩
  · exact h.begun.trans hbegun.symm
  · intro op hsome
    exact h.owned op (hop op hsome)
  · intro op stream hmem
    rw [hstep.taken_eq] at hmem
    exact h.taken op stream hmem

/-- An operation that returns, aborted or not. -/
theorem Inv.settle {w : World} (h : Inv w) {c op : Nat} {phase : Phase} {ok aborted : Bool} {connector : Abort.World}
    (hcurrent : w.current = some (c, phase)) (hthread : w.connector.thread = .dropped op ok aborted)
    (hstep : Abort.Step w.connector connector) :
    Inv { w with connector := connector } ∧ connector.thread = .idle ∧
      (aborted = true → ∃ k, (k, c) ∈ w.hits) := by
  have hop : w.connector.thread.op? = some op := by rw [hthread]; rfl
  have hidle : connector.thread = .idle ∧ connector.begun = w.connector.begun := by
    cases hstep <;> simp_all
  refine ⟨h.operate hstep ?_ hidle.2, hidle.1, ?_⟩
  · intro n hn
    rw [hidle.1] at hn
    cases hn
  · rintro rfl
    obtain ⟨stream, hstream⟩ := h.connector.lost.outside op (by rw [hthread]; rfl)
    obtain ⟨k, n, hn, hk⟩ := h.taken op stream hstream
    obtain ⟨n', p, hn', -, hops⟩ := h.owned op hop
    obtain ⟨rfl, -⟩ : c = n' ∧ phase = p := by simpa [hcurrent] using hn'
    obtain rfl : c = n := Option.some.inj (hops.symm.trans hn)
    exact ⟨k, hk⟩

theorem Inv.shutdown {w : World} (h : Inv w) (hidle : w.connector.thread = .idle) : Inv w.shutdown := by
  apply h.operate (.shutdown hidle)
  · intro op hop
    exact hop
  · rfl

/-- Outside the phases with an operation the connector rests. -/
theorem Inv.idle {w : World} (h : Inv w) {c : Nat} {phase : Phase} (hcurrent : w.current = some (c, phase))
    (hphase : phase.operates = false) : w.connector.thread.op? = none := by
  cases hop : w.connector.thread.op? with
  | none => rfl
  | some op =>
    obtain ⟨n, p, hn, hp, -⟩ := h.owned op hop
    obtain ⟨rfl, rfl⟩ : c = n ∧ phase = p := by simpa [hcurrent] using hn
    exact absurd (hphase.symm.trans hp) (by simp)

theorem idle_of_op {thread : Abort.Thread} (h : thread.op? = none) : thread = .idle := by
  cases thread <;> simp_all [Abort.Thread.op?]

theorem outcome_cancelled {ok aborted : Bool} (h : outcome ok aborted = .cancelled) : aborted = true := by
  unfold outcome at h
  cases aborted with
  | true => rfl
  | false => cases ok <;> simp at h

theorem ending_cancelled {w : World} {op : Nat} {connects ok aborted : Bool}
    (h : w.ending op connects ok aborted = .cancelled) : aborted = true := by
  unfold World.ending at h
  split at h
  · cases h
  · exact outcome_cancelled h

theorem ending_unconnected {w : World} {op : Nat} {connects ok aborted : Bool} {cause : Option Nat}
    (h : w.ending op connects ok aborted = .unconnected cause) : connects = false ∧ cause = w.severed := by
  unfold World.ending at h
  split at h
  · next hnone => exact ⟨hnone.2.1, (Outcome.unconnected.inj h).symm⟩
  · unfold outcome at h
    cases aborted <;> cases ok <;> cases h

theorem WorkerStep.inv {w w' : World} (step : WorkerStep w w') (h : Inv w)
    (hbegin : w'.started ≠ w.started → w.calm) : Inv w' := by
  cases step with
  | @recv command hcurrent hnext =>
    have hcalm : w.calm := hbegin (by simp)
    refine ⟨h.connector, h.bounded, h.begun, ?_, h.known, ?_, ?_, h.hits, h.taken, ?_, h.cancelled⟩
    · intro op hop
      obtain ⟨c, phase, hc, -⟩ := h.owned op hop
      exact absurd (hcurrent.symm.trans hc) (by simp)
    · intro k p c phase hp hne _
      exact absurd (hcalm k p hp) hne
    · intro c phase expected hc hexpected
      obtain ⟨-, rfl⟩ : w.started = c ∧ command.start = phase := by simpa using hc
      cases command <;> cases hexpected
    · intro c a hc
      obtain ⟨-, hphase⟩ : w.started = c ∧ command.start = .connected a .aborted := by simpa using hc
      cases command <;> cases hphase
  | @load c retries hcurrent =>
    have hidle := h.idle hcurrent rfl
    refine ⟨h.connector, h.bounded, h.begun, ?_, h.known, ?_, ?_, h.hits, h.taken, by simp, h.cancelled⟩
    · intro op hop
      exact absurd (hidle.symm.trans hop) (by simp)
    · intro k p n phase hp hne hn
      obtain ⟨rfl, -⟩ : c = n ∧ _ = phase := by simpa using hn
      exact h.pending k p c _ hp hne hcurrent
    · intro n phase expected hn hexpected
      obtain ⟨rfl, rfl⟩ : c = n ∧ _ = phase := by simpa using hn
      obtain rfl : w.generation = expected := Option.some.inj hexpected
      refine ⟨h.bounded, ?_, by simp⟩
      exact (Nat.mod_eq_of_lt h.bounded).symm
  | @proceed c a hcurrent hgeneration =>
    exact h.phase hcurrent (h.idle hcurrent rfl) (fun _ he => he) (by simp)
  | stopBefore hcurrent hgeneration => exact h.stop hcurrent rfl (h.idle hcurrent rfl) hgeneration
  | @begin c phase connector hcurrent hphase hidle hstep hbegun =>
    have hcases : connector.thread.op? = some w.connector.begun ∧ connector.begun = w.connector.begun + 1 := by
      rcases hstep.op_cases with ⟨-, hop, hnext⟩ | ⟨hop | hop, -⟩
      · exact ⟨hop, hnext⟩
      · rw [hidle] at hop
        exact absurd (idle_of_op hop) hbegun
      · exact absurd hop hbegun
    refine ⟨.step h.connector hstep, h.bounded, ?_, ?_, h.known, h.pending, h.since, h.hits, ?_, h.aborted,
      h.cancelled⟩
    · simp [h.begun, hcases.2]
    · intro op hop
      obtain rfl := Option.some.inj (hcases.1.symm.trans hop)
      refine ⟨c, phase, hcurrent, hphase, ?_⟩
      rw [← h.begun]
      simp
    · intro op stream hmem
      rw [hstep.taken_eq] at hmem
      obtain ⟨k, n, hn, hk⟩ := h.taken op stream hmem
      exact ⟨k, n, (List.getElem?_append_left (List.getElem?_eq_some_iff.mp hn).1).trans hn, hk⟩
  | @operate connector hbusy hstep hbusy' =>
    rcases hstep.op_cases with ⟨hidle, -⟩ | ⟨hop | hop, hbegun⟩
    · exact absurd hidle hbusy
    · exact h.operate hstep (fun op hsome => hop.symm.trans hsome) hbegun
    · exact absurd hop hbusy'
  | @connectReturns c op a ok aborted connector retryable hcurrent hthread hstep =>
    obtain ⟨hsettled, hidle, haborted⟩ := h.settle hcurrent hthread hstep
    apply hsettled.phase hcurrent
    · rw [hidle]
      rfl
    · intro expected hexpected
      exact hexpected
    · intro b hb
      apply haborted
      cases aborted with
      | true => rfl
      | false => cases ok <;> simp [returned] at hb
  | @operationReturns c op connects ok aborted connector converted hcurrent hthread hstep =>
    obtain ⟨hsettled, hidle, haborted⟩ := h.settle hcurrent hthread hstep
    apply hsettled.finish
    · rw [hidle]
      rfl
    · intro hcancelled
      exact haborted (ending_cancelled hcancelled)
  | @withoutOperation c connects ok hcurrent hidle =>
    apply h.finish
    · rw [hidle]
      rfl
    · intro hcancelled
      exact absurd (outcome_cancelled hcancelled) (by simp)
  | stopAfter hcurrent hgeneration =>
    have hidle := h.idle hcurrent rfl
    exact (h.shutdown (idle_of_op hidle)).stop hcurrent rfl hidle hgeneration
  | succeed hcurrent => exact h.finish (h.idle hcurrent rfl) (by simp)
  | retry hcurrent => exact h.phase hcurrent (h.idle hcurrent rfl) (fun _ he => he) (by simp)
  | @giveUp c a result hcurrent hgeneration herror hretry =>
    apply h.finish (h.idle hcurrent rfl)
    intro hcancelled
    by_cases haborted : result = .aborted
    · rw [haborted] at hcurrent
      exact h.aborted c a hcurrent
    · rw [if_neg haborted] at hcancelled
      cases hcancelled
  | stopWaiting hcurrent hgeneration => exact h.stop hcurrent rfl (h.idle hcurrent rfl) hgeneration
  | again hcurrent => exact h.phase hcurrent (h.idle hcurrent rfl) (fun _ he => he) (by simp)
  | @close c ok hcurrent =>
    have hidle := h.idle hcurrent rfl
    have hclosed := @Inv.finish _ (h.shutdown (idle_of_op hidle)) c (outcome ok false) hidle
      (fun hcancelled => absurd (outcome_cancelled hcancelled) (by simp))
    exact ⟨hclosed.connector, hclosed.bounded, hclosed.begun, hclosed.owned, hclosed.known, hclosed.pending,
      hclosed.since, hclosed.hits, hclosed.taken, hclosed.aborted, hclosed.cancelled⟩

/-- The command in whose operation a call finds the entry was executing when it was made. -/
theorem Inv.hits_current {w : World} (h : Inv w) {k op : Nat} (hprogress : w.progress[k]? = some .bumped)
    (howner : w.connector.owner = some op) :
    ∃ c, w.ops[op]? = some c ∧ w.calls[k]? = some (some c) := by
  obtain ⟨id, stream, hinside, -⟩ := h.connector.inv.entry op howner
  obtain ⟨c, phase, hcurrent, -, hops⟩ := h.owned op (Abort.Thread.op?_of_inside hinside).1
  exact ⟨c, hops, h.pending k .bumped c phase hprogress (by simp) hcurrent⟩

/-- The step of a call keeps the invariant of the calls that have not come to their end. -/
theorem Inv.pending_set {w : World} (h : Inv w) {k : Nat} {old new : Progress} (hold : w.progress[k]? = some old)
    (hne : old ≠ .taken) (j : Nat) (p : Progress) (c : Nat) (phase : Phase)
    (hp : (w.progress.set k new)[j]? = some p) (hnot : p ≠ .taken) (hcurrent : w.current = some (c, phase)) :
    w.calls[j]? = some (some c) := by
  by_cases heq : k = j
  · subst heq
    exact h.pending k old c phase hold hne hcurrent
  · rw [List.getElem?_set_ne heq] at hp
    exact h.pending j p c phase hp hnot hcurrent

theorem take_nothing {state : Abort.AbortState} (h : state.take.1 = none) : state.take.2 = state := by
  have hnone : state.activeOperation = none := h
  simp [Abort.AbortState.take, ← hnone]

theorem CancelStep.inv {w w' : World} {k : Nat} (step : CancelStep k w w') (h : Inv w) : Inv w' := by
  cases step with
  | bump hprogress =>
    refine ⟨h.connector, Nat.mod_lt _ (by decide), h.begun, h.owned, ?_, ?_, ?_, h.hits, h.taken, h.aborted,
      h.cancelled⟩
    · simp [h.known]
    · exact h.pending_set hprogress (by simp)
    · intro c phase expected hcurrent hexpected
      obtain ⟨hlt, hgeneration, hsince⟩ := h.since c phase expected hcurrent hexpected
      refine ⟨hlt, ?_, ?_⟩
      · simp only [hgeneration, List.length_append, List.length_singleton]
        omega
      · intro j hj
        rcases List.mem_append.mp hj with hj | hj
        · exact hsince j hj
        · obtain rfl := List.mem_singleton.mp hj
          exact h.pending j .called c phase hprogress (by simp) hcurrent
  | @take op c operation hprogress howner hactive hop =>
    obtain ⟨n, hn, hcall⟩ := h.hits_current hprogress howner
    obtain rfl : c = n := Option.some.inj (hop.symm.trans hn)
    have hmore : Inv { w with hits := w.hits ++ [(k, c)] } := by
      apply h.hit
      intro j m hj
      obtain ⟨rfl, rfl⟩ : j = k ∧ m = c := by simpa using hj
      exact hcall
    refine ⟨.abort h.connector (.take howner hactive), h.bounded, h.begun, h.owned, ?_, ?_, h.since, hmore.hits,
      ?_, hmore.aborted, hmore.cancelled⟩
    · simp [h.known]
    · exact h.pending_set hprogress (by simp)
    · intro n stream hmem
      rcases List.mem_append.mp hmem with hold | hnew
      · exact hmore.taken n stream hold
      · obtain ⟨rfl, -⟩ : n = op ∧ stream = operation.stream := by simpa using hnew
        exact ⟨k, c, hop, List.mem_append_right _ (List.mem_singleton.mpr rfl)⟩
  | takeNothing hprogress hactive =>
    refine ⟨.abort h.connector (.takeNothing hactive), h.bounded, h.begun, h.owned, ?_, ?_, h.since, h.hits, h.taken,
      h.aborted, h.cancelled⟩
    · simp [h.known]
    · exact h.pending_set hprogress (by simp)

theorem Step.inv {w w' : World} (step : Step w w') (h : Inv w)
    (hbegin : w'.started ≠ w.started → w.calm) : Inv w' := by
  cases step with
  | submit command =>
    exact ⟨h.connector, h.bounded, h.begun, h.owned, h.known, h.pending, h.since, h.hits, h.taken, h.aborted,
      h.cancelled⟩
  | worker step => exact step.inv h hbegin
  | call =>
    have hkeep (k : Nat) (executing : Option Nat) (hk : w.calls[k]? = some executing) :
        (w.calls ++ [w.current.map (·.1)])[k]? = some executing :=
      (List.getElem?_append_left (List.getElem?_eq_some_iff.mp hk).1).trans hk
    refine ⟨h.connector, h.bounded, h.begun, h.owned, ?_, ?_, ?_, ?_, h.taken, h.aborted, h.cancelled⟩
    · simp [h.known]
    · intro k p c phase hp hne hcurrent
      by_cases hlt : k < w.progress.length
      · rw [List.getElem?_append_left hlt] at hp
        exact hkeep k _ (h.pending k p c phase hp hne hcurrent)
      · obtain rfl : k = w.progress.length := by
          have := (List.getElem?_eq_some_iff.mp hp).1
          simp only [List.length_append, List.length_singleton] at this
          omega
        have hnow : w.current = some (c, phase) := hcurrent
        simp [h.known, hnow]
    · intro c phase expected hcurrent hexpected
      obtain ⟨hlt, hgeneration, hsince⟩ := h.since c phase expected hcurrent hexpected
      exact ⟨hlt, hgeneration, fun k hk => hkeep k _ (hsince k hk)⟩
    · intro k c hk
      exact hkeep k _ (h.hits k c hk)
  | cancel k step => exact step.inv h
  | land hflying =>
    exact ⟨.abort h.connector (.land hflying), h.bounded, h.begun, h.owned, h.known, h.pending, h.since, h.hits,
      h.taken, h.aborted, h.cancelled⟩

/-! ## Commands in the queue -/

/-- A command that has ended is not taken up again, the one that left no connection was cancelled, and
no operation is under way for a stranded command. -/
structure Served (w : World) : Prop where
  made : w.queuedAt.length = w.calls.length
  counted : ∀ c phase, w.current = some (c, phase) → c < w.started
  ended : ∀ c outcome, (c, outcome) ∈ w.outcomes → c < w.started ∧ ∀ phase, w.current ≠ some (c, phase)
  severed : ∀ cause, w.severed = some cause → (cause, .cancelled) ∈ w.outcomes
  blamed : ∀ c cause, (c, .unconnected (some cause)) ∈ w.outcomes → (cause, .cancelled) ∈ w.outcomes
  operates : w.connector.thread.op? ≠ none → ¬w.stranded
  unaffected : ∀ c cause k n, (c, .unconnected (some cause)) ∈ w.outcomes → (k, cause) ∈ w.hits →
    w.queuedAt[k]? = some n → n ≤ c

theorem Served.of_start : Served .start := by
  refine ⟨?_, ?_, ?_, ?_, ?_, ?_, ?_⟩ <;> simp [World.start, Abort.World.start, Abort.Thread.op?]

/-- More hits on the current command strand no other. -/
theorem Served.stranded {w w' : World} (h : Served w) (hsevered : w'.severed = w.severed)
    (hqueued : w'.queuedAt = w.queuedAt)
    (hcurrent : ∀ c, w'.current = some (c, .operating false) → w.current = some (c, .operating false))
    (hhits : ∀ k c, (k, c) ∈ w'.hits → (k, c) ∈ w.hits ∨ ∃ phase, w.current = some (c, phase))
    (hstranded : w'.stranded) : w.stranded := by
  obtain ⟨c, cause, k, n, hc, hcause, hk, hn, hlt⟩ := hstranded
  rw [hsevered] at hcause
  rw [hqueued] at hn
  refine ⟨c, cause, k, n, hcurrent c hc, hcause, ?_, hn, hlt⟩
  rcases hhits k cause hk with hk | ⟨phase, hphase⟩
  · exact hk
  · exact absurd hphase ((h.ended cause .cancelled (h.severed cause hcause)).2 phase)

/-- A step inside a command, or outside all of them. -/
theorem Served.move {w w' : World} (h : Served w) (hcalls : w'.calls = w.calls) (hstarted : w'.started = w.started)
    (houtcomes : w'.outcomes = w.outcomes) (hsevered : w'.severed = w.severed) (hqueued : w'.queuedAt = w.queuedAt)
    (hcurrent : ∀ c phase, w'.current = some (c, phase) → ∃ old, w.current = some (c, old))
    (hhits : ∀ k c, (k, c) ∈ w'.hits → (k, c) ∈ w.hits ∨ ∃ phase, w.current = some (c, phase))
    (hoperates : w'.connector.thread.op? ≠ none → ¬w'.stranded) : Served w' := by
  refine ⟨?_, ?_, ?_, ?_, ?_, hoperates, ?_⟩
  · rw [hqueued, hcalls]
    exact h.made
  · intro c phase hc
    obtain ⟨old, hold⟩ := hcurrent c phase hc
    rw [hstarted]
    exact h.counted c old hold
  · intro c outcome hc
    rw [houtcomes] at hc
    obtain ⟨hlt, hnot⟩ := h.ended c outcome hc
    rw [hstarted]
    refine ⟨hlt, ?_⟩
    intro phase hphase
    obtain ⟨old, hold⟩ := hcurrent c phase hphase
    exact hnot old hold
  · rw [hsevered, houtcomes]
    exact h.severed
  · rw [houtcomes]
    exact h.blamed
  · intro c cause k n hc hk hn
    rw [houtcomes] at hc
    rw [hqueued] at hn
    rcases hhits k cause hk with hk | ⟨phase, hphase⟩
    · exact h.unaffected c cause k n hc hk hn
    · exact absurd hphase ((h.ended cause .cancelled (h.blamed c cause hc)).2 phase)

/-- The current command ends, and is not stranded if it has found no connection. -/
theorem Served.finish {w : World} (h : Served w) {c : Nat} {phase : Phase} {outcome : Outcome}
    (hcurrent : w.current = some (c, phase)) (hidle : w.connector.thread.op? = none)
    (hstranded : ∀ cause, outcome = .unconnected (some cause) → phase = .operating false ∧ w.severed = some cause ∧
      ¬w.stranded) : Served (w.finish c outcome) := by
  have hcounted := h.counted c phase hcurrent
  have hmem (n : Nat) (o : Outcome) (ho : (n, o) ∈ (w.finish c outcome).outcomes) :
      (n, o) ∈ w.outcomes ∨ n = c ∧ o = outcome := by
    simpa [World.finish] using ho
  have hold (n : Nat) (o : Outcome) (ho : (n, o) ∈ w.outcomes) : (n, o) ∈ (w.finish c outcome).outcomes :=
    List.mem_append_left _ ho
  refine ⟨h.made, ?_, ?_, ?_, ?_, ?_, ?_⟩
  · intro n p hn
    cases hn
  · intro n o ho
    refine ⟨?_, fun p hp => by cases hp⟩
    rcases hmem n o ho with ho | ⟨rfl, -⟩
    · exact (h.ended n o ho).1
    · exact hcounted
  · intro cause hcause
    simp only [World.finish] at hcause
    split at hcause
    · cases hcause
    split at hcause
    · next hcancelled =>
      obtain rfl := Option.some.inj hcause
      exact List.mem_append_right _ (by simp [hcancelled])
    · exact hold _ _ (h.severed cause hcause)
  · intro n cause hn
    rcases hmem n _ hn with hn | ⟨rfl, houtcome⟩
    · exact hold _ _ (h.blamed n cause hn)
    · exact hold _ _ (h.severed cause (hstranded cause houtcome.symm).2.1)
  · intro hop
    exact absurd hidle hop
  · intro n cause k m hn hk hm
    rcases hmem n _ hn with hn | ⟨rfl, houtcome⟩
    · exact h.unaffected n cause k m hn hk hm
    · obtain ⟨rfl, hcause, hnot⟩ := hstranded cause houtcome.symm
      by_contra hlt
      exact hnot ⟨n, cause, k, m, hcurrent, hcause, hk, hm, Nat.lt_of_not_le hlt⟩

/-- The current command ends by the generation, which its calls have bumped. -/
theorem Served.cancelled {w : World} (h : Served w) {c : Nat} {phase : Phase} (hcurrent : w.current = some (c, phase))
    (hidle : w.connector.thread.op? = none) : Served (w.cancelled c) := by
  have hhits : Served { w with hits := w.hits ++ w.since.map (·, c) } := by
    refine h.move rfl rfl rfl rfl rfl (fun n p hn => ⟨p, hn⟩) ?_ ?_
    · intro k n hk
      rcases List.mem_append.mp hk with hk | hk
      · exact .inl hk
      · obtain ⟨i, -, heq⟩ := List.mem_map.mp hk
        cases heq
        exact .inr ⟨phase, hcurrent⟩
    · intro hop
      exact absurd hidle hop
  exact @Served.finish _ hhits c phase .cancelled hcurrent hidle (by simp)

/-- The command moves on to a phase that is not an operation of its own. -/
theorem Served.phase {w : World} (h : Served w) {c : Nat} {phase phase' : Phase}
    (hcurrent : w.current = some (c, phase)) (hphase : ∀ connects, phase' ≠ .operating connects) : Served { w with current := some (c, phase') } := by
  refine h.move rfl rfl rfl rfl rfl ?_ ?_ ?_
  · intro n p hn
    obtain ⟨rfl, -⟩ : c = n ∧ phase' = p := by simpa using hn
    exact ⟨phase, hcurrent⟩
  · exact fun k n hk => .inl hk
  · rintro - ⟨n, cause, k, m, hn, -⟩
    obtain ⟨-, rfl⟩ : c = n ∧ phase' = .operating false := by simpa using hn
    exact hphase false rfl

/-- A step of the connector alone. -/
theorem Served.operate {w : World} (h : Served w) {connector : Abort.World}
    (hoperates : connector.thread.op? ≠ none → w.connector.thread.op? ≠ none ∨ ¬w.stranded) :
    Served { w with connector := connector } := by
  refine h.move rfl rfl rfl rfl rfl (fun c phase hc => ⟨phase, hc⟩) (fun k c hk => .inl hk) ?_
  intro hop
  rcases hoperates hop with hop | hnot
  · exact h.operates hop
  · exact hnot

theorem WorkerStep.served {w w' : World} (step : WorkerStep w w') (hinv : Inv w) (h : Served w)
    (hreceive : w'.ops ≠ w.ops → ¬w.stranded) : Served w' := by
  cases step with
  | @recv command hcurrent hnext =>
    have hidle : w.connector.thread.op? = none := by
      cases hop : w.connector.thread.op? with
      | none => rfl
      | some op =>
        obtain ⟨c, phase, hc, -⟩ := hinv.owned op hop
        exact absurd (hcurrent.symm.trans hc) (by simp)
    refine ⟨h.made, ?_, ?_, h.severed, h.blamed, fun hop => absurd hidle hop, h.unaffected⟩
    · intro c phase hc
      obtain ⟨rfl, -⟩ : w.started = c ∧ command.start = phase := by simpa using hc
      exact Nat.lt_succ_self _
    · intro c outcome hc
      have hlt := (h.ended c outcome hc).1
      refine ⟨Nat.lt_succ_of_lt hlt, ?_⟩
      intro phase hphase
      obtain ⟨rfl, -⟩ : w.started = c ∧ command.start = phase := by simpa using hphase
      exact Nat.lt_irrefl _ hlt
  | @load c retries hcurrent =>
    have hloaded := @Served.phase _ h c _ (.checking ⟨retries, w.generation, 0⟩) hcurrent (by simp)
    exact hloaded.move rfl rfl rfl rfl rfl (fun n p hn => ⟨p, hn⟩) (fun k n hk => .inl hk) hloaded.operates
  | proceed hcurrent => exact h.phase hcurrent (by simp)
  | stopBefore hcurrent => exact h.cancelled hcurrent (hinv.idle hcurrent rfl)
  | begin hcurrent hphase hidle hstep hbegun =>
    exact h.move rfl rfl rfl rfl rfl (fun n p hn => ⟨p, hn⟩) (fun k n hk => .inl hk) fun _ => hreceive (by simp)
  | operate hbusy hstep => exact h.operate fun _ => .inl fun hop => hbusy (idle_of_op hop)
  | @connectReturns c op a ok aborted connector retryable hcurrent hthread hstep =>
    obtain ⟨-, hidle, -⟩ := hinv.settle hcurrent hthread hstep
    have hreturned := @Served.operate _ h connector fun hop => absurd hop (by simp [hidle, Abort.Thread.op?])
    exact hreturned.phase hcurrent (by simp)
  | @operationReturns c op connects ok aborted connector converted hcurrent hthread hstep =>
    obtain ⟨-, hidle, -⟩ := hinv.settle hcurrent hthread hstep
    have hreturned := @Served.operate _ h connector fun hop => absurd hop (by simp [hidle, Abort.Thread.op?])
    refine hreturned.finish hcurrent (by rw [hidle]; rfl) ?_
    intro cause hcause
    obtain ⟨rfl, hsevered⟩ := ending_unconnected hcause
    exact ⟨rfl, hsevered.symm, h.operates (by simp [hthread, Abort.Thread.op?])⟩
  | @withoutOperation c connects ok hcurrent hidle =>
    refine h.finish hcurrent (by rw [hidle]; rfl) ?_
    intro cause hcause
    cases ok <;> cases hcause
  | stopAfter hcurrent =>
    have hidle := hinv.idle hcurrent rfl
    have hclosed : Served w.shutdown := h.operate .inl
    exact hclosed.cancelled hcurrent hidle
  | succeed hcurrent => exact h.finish hcurrent (hinv.idle hcurrent rfl) (by simp)
  | retry hcurrent => exact h.phase hcurrent (by simp)
  | @giveUp c a result hcurrent =>
    refine h.finish hcurrent (hinv.idle hcurrent rfl) ?_
    intro cause hcause
    split at hcause <;> cases hcause
  | stopWaiting hcurrent => exact h.cancelled hcurrent (hinv.idle hcurrent rfl)
  | again hcurrent => exact h.phase hcurrent (by simp)
  | @close c ok hcurrent =>
    have hidle := hinv.idle hcurrent rfl
    have hshut : Served w.shutdown := h.operate .inl
    have hclosed := @Served.finish _ hshut c _ (outcome ok false) hcurrent hidle
      (fun cause hcause => by cases ok <;> cases hcause)
    exact ⟨hclosed.made, hclosed.counted, hclosed.ended, by simp, hclosed.blamed, fun hop => absurd hidle hop,
      hclosed.unaffected⟩

theorem CancelStep.served {w w' : World} {k : Nat} (step : CancelStep k w w') (hinv : Inv w) (h : Served w) :
    Served w' := by
  have hmove {w' : World} (hcalls : w'.calls = w.calls) (hsevered : w'.severed = w.severed)
      (hqueued : w'.queuedAt = w.queuedAt) (hstarted : w'.started = w.started) (houtcomes : w'.outcomes = w.outcomes)
      (hcurrent : w'.current = w.current) (hthread : w'.connector.thread = w.connector.thread)
      (hhits : ∀ k c, (k, c) ∈ w'.hits → (k, c) ∈ w.hits ∨ ∃ phase, w.current = some (c, phase)) : Served w' := by
    refine h.move hcalls hstarted houtcomes hsevered hqueued (fun c p hc => ⟨p, hcurrent ▸ hc⟩) hhits ?_
    intro hop hstranded
    rw [hthread] at hop
    exact h.operates hop (h.stranded hsevered hqueued (fun c hc => hcurrent ▸ hc) hhits hstranded)
  cases step with
  | bump => exact hmove rfl rfl rfl rfl rfl rfl rfl fun k c hk => .inl hk
  | @take op c operation hprogress howner hactive hop =>
    refine hmove rfl rfl rfl rfl rfl rfl rfl ?_
    intro j n hj
    rcases List.mem_append.mp hj with hj | hj
    · exact .inl hj
    · obtain ⟨-, rfl⟩ : j = k ∧ n = c := by simpa using hj
      obtain ⟨id, stream, hinside, -⟩ := hinv.connector.inv.entry op howner
      obtain ⟨m, phase, hm, -, hops⟩ := hinv.owned op (Abort.Thread.op?_of_inside hinside).1
      obtain rfl : n = m := Option.some.inj (hop.symm.trans hops)
      exact .inr ⟨phase, hm⟩
  | takeNothing => exact hmove rfl rfl rfl rfl rfl rfl rfl fun k c hk => .inl hk

theorem Step.served {w w' : World} (step : Step w w') (hinv : Inv w) (h : Served w)
    (hreceive : w'.ops ≠ w.ops → ¬w.stranded) : Served w' := by
  cases step with
  | submit command => exact ⟨h.made, h.counted, h.ended, h.severed, h.blamed, h.operates, h.unaffected⟩
  | worker step => exact step.served hinv h hreceive
  | call =>
    -- nothing was hit by the new call
    have hold (k c n : Nat) (hk : (k, c) ∈ w.hits)
        (hn : (w.queuedAt ++ [w.submitted.length])[k]? = some n) : w.queuedAt[k]? = some n := by
      have hlt := (List.getElem?_eq_some_iff.mp (hinv.hits k c hk)).1
      rwa [List.getElem?_append_left (by rw [h.made]; exact hlt)] at hn
    refine ⟨by simp [h.made], h.counted, h.ended, h.severed, h.blamed, ?_, ?_⟩
    · rintro hop ⟨c, cause, k, n, hc, hcause, hk, hn, hlt⟩
      exact h.operates hop ⟨c, cause, k, n, hc, hcause, hk, hold k cause n hk hn, hlt⟩
    · intro c cause k n hc hk hn
      exact h.unaffected c cause k n hc hk (hold k cause n hk hn)
  | cancel k step => exact step.served hinv h
  | land hflying => exact h.operate .inl

theorem Orderly.inv {w : World} (run : Orderly w) : Inv w ∧ Served w := by
  induction run with
  | start => exact ⟨Inv.of_start, Served.of_start⟩
  | step _ step hbegin hreceive ih => exact ⟨step.inv ih.1 hbegin, step.served ih.1 ih.2 hreceive⟩

/-- In every run in which no command begins between the start of a call of `cancel` and its
taking of the active operation, and in which no `receive` that was queued at a call goes to the socket
while the connection is missing that the command it hit has lost, a call hits only the command that
was executing, and leaves the others alone. -/
theorem cancel_hits_only_active (w : World) (run : Orderly w) : OnlyActive w := by
  obtain ⟨h, hserved⟩ := run.inv
  refine ⟨h.hits, ?_, h.cancelled, h.taken, ?_, hserved.unaffected, ?_⟩
  · intro k c c' hc hc'
    have := (h.hits k c hc).symm.trans (h.hits k c' hc')
    exact Option.some.inj (Option.some.inj this)
  · intro op socket hmem
    have htaken := h.connector.inv.flown op socket hmem
    refine ⟨h.taken op _ htaken, ?_⟩
    intro user huse
    exact h.connector.inv.earlier op user socket htaken huse
  · intro k hidle
    refine ⟨?_, ?_⟩
    · intro c hc
      exact absurd (hidle.symm.trans (h.hits k c hc)) (by simp)
    · intro w' step
      cases step with
      | bump => rfl
      | take hprogress howner hactive hop =>
        obtain ⟨n, -, hcall⟩ := h.hits_current hprogress howner
        exact absurd (hidle.symm.trans hcall) (by simp)
      | takeNothing hprogress hactive =>
        simp only [take_nothing hactive]

/-- A step in which neither a command nor an operation begins. -/
theorem Orderly.quiet {w w' : World} (run : Orderly w) (step : Step w w') (hstarted : w'.started = w.started)
    (hops : w'.ops = w.ops) : Orderly w' :=
  .step run step (fun h => absurd hstarted h) fun h => absurd hops h

theorem Orderly.reachable {w : World} (run : Orderly w) : Reachable w := by
  induction run with
  | start => exact .start
  | step _ step _ _ ih => exact .step ih step

/-- A call during a `sync` that is about to connect, with a `receive` behind it: the new socket of the
`sync` is refused and it fails. -/
theorem cancelledSync_run :
    Orderly ⟨⟨⟨none, 1⟩, none, none, 1, .idle, 1, [(0, none)], [], [], [(0, 0)], [(0, false, none)]⟩, 1,
      [.sync, .receive], 1, none, [some 0], [.taken], [0], [0], [(0, 0)], [(0, .cancelled)], [2], some 0⟩ := by
  have h₁ : Orderly ⟨.start, 0, [.sync, .receive], 1, some (0, .operating true), [], [], [], [], [], [], [], none⟩ :=
    .step (.quiet (.quiet .start (.submit .sync) rfl rfl) (.submit .receive) rfl rfl)
      (.worker (@WorkerStep.recv _ .sync rfl rfl)) (fun _ k p hp => absurd hp (by simp [World.start]))
      fun h => absurd rfl h
  have h₂ : Orderly ⟨⟨⟨some ⟨0, none⟩, 1⟩, some 0, none, 0, .entered 0 0, 1, [], [], [], [], []⟩, 0, [.sync, .receive], 1,
      some (0, .operating true), [], [], [0], [], [], [], [], none⟩ :=
    .step h₁ (.worker (@WorkerStep.begin _ 0 (.operating true) _ rfl rfl rfl (.begin rfl) (by simp)))
      (fun h => absurd rfl h) fun _ ⟨_, _, _, _, _, hcause, _⟩ => by cases hcause
  have h₃ : Orderly ⟨⟨⟨some ⟨0, none⟩, 1⟩, some 0, none, 0, .entered 0 0, 1, [], [], [], [], []⟩, 1, [.sync, .receive], 1,
      some (0, .operating true), [some 0], [.bumped], [0], [0], [], [], [2], none⟩ :=
    .quiet (.quiet h₂ .call rfl rfl) (.cancel 0 (.bump rfl)) rfl rfl
  have h₄ : Orderly ⟨⟨⟨none, 1⟩, none, none, 0, .entered 0 0, 1, [(0, none)], [], [], [], []⟩, 1, [.sync, .receive], 1,
      some (0, .operating true), [some 0], [.taken], [0], [0], [(0, 0)], [], [2], none⟩ :=
    .quiet h₃ (.cancel 0 (@CancelStep.take 0 _ 0 0 ⟨0, none⟩ rfl rfl rfl rfl)) rfl rfl
  have h₅ : Orderly ⟨⟨⟨none, 1⟩, none, none, 1, .established 0 0 0, 1, [(0, none)], [], [], [], []⟩, 1,
      [.sync, .receive], 1, some (0, .operating true), [some 0], [.taken], [0], [0], [(0, 0)], [], [2], none⟩ :=
    .quiet (.quiet h₄ (.worker (.operate (by simp) (@Abort.Step.enter _ 0 0 rfl rfl) (by simp) (.inl rfl))) rfl rfl)
      (.worker (.operate (by simp) (@Abort.Step.establish _ 0 0 rfl rfl) (by simp) (.inr (by simp)))) rfl rfl
  have h₆ : Orderly ⟨⟨⟨none, 1⟩, none, none, 1, .finished 0 0 false true, 1, [(0, none)], [], [], [(0, 0)], []⟩, 1,
      [.sync, .receive], 1, some (0, .operating true), [some 0], [.taken], [0], [0], [(0, 0)], [], [2], none⟩ :=
    .quiet (.quiet h₅ (.worker (.operate (by simp) (@Abort.Step.attachRefused _ 0 0 0 rfl rfl) (by simp) (.inl rfl)))
      rfl rfl) (.worker (.operate (by simp) (@Abort.Step.finish _ 0 0 false rfl) (by simp) (.inl rfl))) rfl rfl
  have h₇ : Orderly ⟨⟨⟨none, 1⟩, none, none, 1, .dropped 0 false true, 1, [(0, none)], [], [], [(0, 0)], []⟩, 1,
      [.sync, .receive], 1, some (0, .operating true), [some 0], [.taken], [0], [0], [(0, 0)], [], [2], none⟩ :=
    .quiet h₆ (.worker (.operate (by simp) (@Abort.Step.dropGuard _ 0 0 false true rfl) (by simp) (.inl rfl))) rfl rfl
  exact .quiet h₇ (.worker (@WorkerStep.operationReturns _ 0 0 true false true _ true rfl rfl
    (@Abort.Step.settle _ 0 false true rfl))) rfl rfl

theorem cancel_hits_only_active_sync :
    ∃ w : World, Orderly w ∧ w.hits = [(0, 0)] ∧ w.outcomes = [(0, .cancelled)] ∧ OnlyActive w :=
  ⟨_, cancelledSync_run, rfl, rfl, cancel_hits_only_active _ cancelledSync_run⟩

/-- A call made while a `sync` waits in the queue and nothing is executing: the worker takes
the `sync` up between the two steps of the call, and the call aborts it. And a `receive` behind a
`sync` that a call has hit: it finds no connection. -/
theorem cancel_hits_queued :
    (∃ w, Reachable w ∧ w.calls = [none] ∧ w.hits = [(0, 0)] ∧ ¬OnlyActive w) ∧
    ∃ w, Reachable w ∧ w.calls = [some 0] ∧ w.hits = [(0, 0)] ∧ w.queuedAt = [2] ∧
      w.outcomes = [(0, .cancelled), (1, .unconnected (some 0))] ∧ ¬OnlyActive w := by
  constructor
  · have h₁ : Reachable ⟨.start, 1, [.sync], 0, none, [none], [.bumped], [], [0], [], [], [1], none⟩ :=
      .step (.step (.step .start (.submit .sync)) .call) (.cancel 0 (.bump rfl))
    have h₂ : Reachable ⟨.start, 1, [.sync], 1, some (0, .operating true), [none], [.bumped], [], [0], [], [], [1], none⟩ :=
      .step h₁ (.worker (@WorkerStep.recv _ .sync rfl rfl))
    have h₃ : Reachable ⟨⟨⟨some ⟨0, none⟩, 1⟩, some 0, none, 0, .entered 0 0, 1, [], [], [], [], []⟩, 1, [.sync], 1,
        some (0, .operating true), [none], [.bumped], [0], [0], [], [], [1], none⟩ :=
      .step h₂ (.worker (@WorkerStep.begin _ 0 (.operating true) _ rfl rfl rfl (.begin rfl) (by simp)))
    have h₄ : Reachable ⟨⟨⟨none, 1⟩, none, none, 0, .entered 0 0, 1, [(0, none)], [], [], [], []⟩, 1, [.sync], 1,
        some (0, .operating true), [none], [.taken], [0], [0], [(0, 0)], [], [1], none⟩ :=
      .step h₃ (.cancel 0 (@CancelStep.take 0 _ 0 0 ⟨0, none⟩ rfl rfl rfl rfl))
    refine ⟨_, h₄, rfl, rfl, ?_⟩
    intro h
    have hcall := h.active 0 0 (List.mem_singleton.mpr rfl)
    cases hcall
  · have h₁ := cancelledSync_run.reachable.step (.worker (@WorkerStep.recv _ .receive rfl rfl))
    have h₂ := h₁.step (.worker (@WorkerStep.begin _ 1 (.operating false) _ rfl rfl rfl (.begin rfl) (by simp)))
    have h₃ := h₂.step (.worker (.operate (by simp) (@Abort.Step.enter _ 1 1 rfl rfl) (by simp) (.inl rfl)))
    have h₄ := h₃.step (.worker (.operate (by simp) (@Abort.Step.leave _ 1 1 false rfl) (by simp) (.inl rfl)))
    have h₅ := h₄.step (.worker (.operate (by simp) (@Abort.Step.finish _ 1 1 false rfl) (by simp) (.inl rfl)))
    have h₆ := h₅.step (.worker (.operate (by simp) (@Abort.Step.dropGuard _ 1 1 false false rfl) (by simp) (.inl rfl)))
    have h₇ := h₆.step (.worker (@WorkerStep.operationReturns _ 1 1 false false false _ true rfl rfl
      (@Abort.Step.settle _ 1 false false rfl)))
    refine ⟨_, h₇, rfl, rfl, rfl, rfl, ?_⟩
    intro h
    have hlate := h.unaffected 1 0 0 2 (by decide) (List.mem_singleton.mpr rfl) rfl
    exact absurd hlate (by decide)

end Xqdb.Node.Cancel
