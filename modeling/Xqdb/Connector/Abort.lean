import Mathlib.Tactic.Common
import Mathlib.Algebra.Group.Nat.Defs

/-! Aborting a connector's operation from another thread: `AbortState`, `ActiveIoGuard` and
`ConnectorAbortHandle` of `connector.rs`.

The connector runs one operation after another. `abort` takes the entry of the operation
that is active out of the shared state and shuts the socket of this entry down afterwards,
outside the lock, at any later moment. Every step below is one critical section, one use of
a socket, or one change of the connector's own fields. -/

namespace Xqdb.Connector.Abort

abbrev Socket := Nat

structure AbortOperation where
  id : Nat
  stream : Option Socket
  deriving DecidableEq, Repr

structure AbortState where
  activeOperation : Option AbortOperation
  nextOperationId : Nat
  deriving DecidableEq, Repr

namespace AbortState

/-- The entry is the guard's own. -/
def owns (state : AbortState) (id : Nat) : Bool :=
  match state.activeOperation with
  | some operation => operation.id == id
  | none => false

/-- The identifier the guard gets. It is a `u64` that wraps. -/
def beginOperation (state : AbortState) : Nat × AbortState :=
  (state.nextOperationId,
    ⟨some ⟨state.nextOperationId, none⟩, (state.nextOperationId + 1) % 2 ^ 64⟩)

/-- The caller shuts the socket down where this says `false`. -/
def attachStream (state : AbortState) (id : Nat) (stream : Socket) : Bool × AbortState :=
  if state.owns id then (true, { state with activeOperation := some ⟨id, some stream⟩ })
  else (false, state)

/-- Whether the operation was aborted. -/
def finish (state : AbortState) (id : Nat) : Bool × AbortState :=
  if state.owns id then (false, { state with activeOperation := none }) else (true, state)

/-- `Drop for ActiveIoGuard`. -/
def dropGuard (state : AbortState) (id : Nat) : AbortState :=
  if state.owns id then { state with activeOperation := none } else state

/-- What `abort` takes under the lock. -/
def take (state : AbortState) : Option AbortOperation × AbortState :=
  (state.activeOperation, { state with activeOperation := none })

end AbortState

/-- The connector's thread, with the number of the operation and the identifier of its guard:
between operations, behind `begin_operation`, in the inner function, in `connect_inner` with
a new socket before and after it is attached, in front of `finish_operation`, and inside it
with the guard alive and dropped. -/
inductive Thread where
  | idle
  | entered (op id : Nat)
  | working (op id : Nat)
  | established (op id : Nat) (socket : Socket)
  | handshaking (op id : Nat) (socket : Socket)
  | returning (op id : Nat) (ok : Bool)
  | finished (op id : Nat) (ok aborted : Bool)
  | dropped (op : Nat) (ok aborted : Bool)
  deriving DecidableEq, Repr

/-- `owner` is the operation whose entry is active; the other fields from `begun` on are the
history: how many operations have begun, the entries that were taken, which of their sockets
are still to be shut down and which were, the sockets each operation used, and for each
operation that returned whether it succeeded and what it left connected. -/
structure World where
  state : AbortState
  owner : Option Nat
  tcp : Option Socket
  sockets : Nat
  thread : Thread
  begun : Nat
  taken : List (Nat × Option Socket)
  flying : List (Nat × Socket)
  landed : List (Nat × Socket)
  used : List (Nat × Socket)
  results : List (Nat × Bool × Option Socket)
  deriving DecidableEq, Repr

def World.start : World := ⟨⟨none, 0⟩, none, none, 0, .idle, 0, [], [], [], [], []⟩

/-- The steps of the connector's thread. -/
inductive Step : World → World → Prop
  | begin {w : World} (hthread : w.thread = .idle) :
    Step w { w with
      state := w.state.beginOperation.2
      owner := some w.begun
      thread := .entered w.begun w.state.beginOperation.1
      begun := w.begun + 1 }
  | attach {w : World} {op id : Nat} {socket : Socket} (hthread : w.thread = .entered op id)
    (htcp : w.tcp = some socket) :
    -- where the entry is gone the socket is shut down, and the operation goes on with it
    Step w { w with
      state := (w.state.attachStream id socket).2
      thread := .working op id
      used := w.used ++ [(op, socket)] }
  | enter {w : World} {op id : Nat} (hthread : w.thread = .entered op id) (htcp : w.tcp = none) :
    Step w { w with thread := .working op id }
  | use {w : World} {op id : Nat} {socket : Socket} (hthread : w.thread = .working op id)
    (htcp : w.tcp = some socket) : Step w { w with used := w.used ++ [(op, socket)] }
  | disconnect {w : World} {op id : Nat} (hthread : w.thread = .working op id) :
    Step w { w with tcp := none }
  | establish {w : World} {op id : Nat} (hthread : w.thread = .working op id) (htcp : w.tcp = none) :
    Step w { w with
      thread := .established op id w.sockets
      sockets := w.sockets + 1 }
  | attachNew {w : World} {op id : Nat} {socket : Socket} (hthread : w.thread = .established op id socket)
    (hattached : (w.state.attachStream id socket).1 = true) :
    Step w { w with
      state := (w.state.attachStream id socket).2
      thread := .handshaking op id socket
      used := w.used ++ [(op, socket)] }
  | attachRefused {w : World} {op id : Nat} {socket : Socket}
    (hthread : w.thread = .established op id socket)
    (hattached : (w.state.attachStream id socket).1 = false) :
    Step w { w with
      thread := .returning op id false
      used := w.used ++ [(op, socket)] }
  | handshake {w : World} {op id : Nat} {socket : Socket} (hthread : w.thread = .handshaking op id socket) :
    Step w { w with used := w.used ++ [(op, socket)] }
  | install {w : World} {op id : Nat} {socket : Socket} (hthread : w.thread = .handshaking op id socket) :
    Step w { w with thread := .working op id, tcp := some socket }
  | handshakeFails {w : World} {op id : Nat} {socket : Socket}
    (hthread : w.thread = .handshaking op id socket) :
    Step w { w with thread := .returning op id false, tcp := none }
  | leave {w : World} {op id : Nat} (ok : Bool) (hthread : w.thread = .working op id) :
    Step w { w with thread := .returning op id ok }
  | finish {w : World} {op id : Nat} {ok : Bool} (hthread : w.thread = .returning op id ok) :
    Step w { w with
      state := (w.state.finish id).2
      owner := if (w.state.finish id).1 then w.owner else none
      thread := .finished op id ok (w.state.finish id).1 }
  | dropGuard {w : World} {op id : Nat} {ok aborted : Bool} (hthread : w.thread = .finished op id ok aborted) :
    Step w { w with
      state := w.state.dropGuard id
      owner := if w.state.owns id then none else w.owner
      thread := .dropped op ok aborted }
  | settle {w : World} {op : Nat} {ok aborted : Bool} (hthread : w.thread = .dropped op ok aborted) :
    Step w { w with
      thread := .idle
      tcp := if aborted then none else w.tcp
      results := w.results ++ [(op, ok && !aborted, if aborted then none else w.tcp)] }
  | shutdown {w : World} (hthread : w.thread = .idle) : Step w { w with tcp := none }

/-- What `abort` does with what it found. -/
def World.aborted (w : World) (op : Nat) (operation : AbortOperation) : World :=
  { w with
    state := w.state.take.2
    owner := none
    taken := w.taken ++ [(op, operation.stream)]
    flying := w.flying ++ operation.stream.toList.map (op, ·) }

/-- The steps of the threads that abort. -/
inductive AbortStep : World → World → Prop
  | take {w : World} {op : Nat} {operation : AbortOperation} (howner : w.owner = some op)
    (hactive : w.state.take.1 = some operation) : AbortStep w (w.aborted op operation)
  | takeNothing {w : World} (hactive : w.state.take.1 = none) :
    AbortStep w { w with state := w.state.take.2 }
  | land {w : World} {op : Nat} {socket : Socket} (hflying : (op, socket) ∈ w.flying) :
    AbortStep w { w with
      flying := w.flying.erase (op, socket)
      landed := w.landed ++ [(op, socket)] }

/-- Any interleaving of aborts with the operations of one connector. -/
inductive Reachable : World → Prop
  | start : Reachable .start
  | step {w w' : World} (reached : Reachable w) (step : Step w w') : Reachable w'
  | abort {w w' : World} (reached : Reachable w) (step : AbortStep w w') : Reachable w'

/-! ## The invariant -/

namespace Thread

/-- The operation that has begun and not returned. -/
def op? : Thread → Option Nat
  | .idle => none
  | .entered op _ => some op
  | .working op _ => some op
  | .established op _ _ => some op
  | .handshaking op _ _ => some op
  | .returning op _ _ => some op
  | .finished op _ _ _ => some op
  | .dropped op _ _ => some op

/-- The operation and its guard, in front of `finish`. -/
def inside : Thread → Option (Nat × Nat)
  | .entered op id => some (op, id)
  | .working op id => some (op, id)
  | .established op id _ => some (op, id)
  | .handshaking op id _ => some (op, id)
  | .returning op id _ => some (op, id)
  | _ => none

/-- The socket that `connect_inner` has not installed yet. -/
def socket? : Thread → Option Socket
  | .established _ _ socket => some socket
  | .handshaking _ _ socket => some socket
  | _ => none

/-- `finish` has found the entry in its place. -/
def unharmed : Thread → Bool
  | .finished _ _ _ aborted => !aborted
  | .dropped _ _ aborted => !aborted
  | _ => false

theorem op?_of_inside {thread : Thread} {op id : Nat} (h : thread.inside = some (op, id)) :
    thread.op? = some op ∧ thread.unharmed = false := by
  cases thread <;> simp_all [inside, op?, unharmed]

end Thread

/-- The active entry belongs to the operation in progress, an operation whose entry was taken
will notice, and a socket that was taken with an entry is in no later operation's hands. -/
structure Inv (w : World) : Prop where
  entry : ∀ op, w.owner = some op → ∃ id stream, w.thread.inside = some (op, id) ∧
    w.state.activeOperation = some ⟨id, stream⟩
  noEntry : w.owner = none → w.state.activeOperation = none
  current : ∀ op, w.thread.op? = some op → op + 1 = w.begun
  noticed : ∀ op stream, (op, stream) ∈ w.taken →
    op < w.begun ∧ (w.thread.op? = some op → w.owner = none ∧ w.thread.unharmed = false)
  known : ∀ socket, (w.tcp = some socket ∨ w.thread.socket? = some socket ∨
    (∃ op, (op, socket) ∈ w.used) ∨ (∃ op, (op, some socket) ∈ w.taken) ∨
    ∃ id, w.state.activeOperation = some ⟨id, some socket⟩) → socket < w.sockets
  past : ∀ op socket, (op, socket) ∈ w.used → op < w.begun
  gone : ∀ op socket, (op, some socket) ∈ w.taken → w.thread.op? ≠ some op →
    w.tcp ≠ some socket ∧ w.thread.socket? ≠ some socket
  earlier : ∀ op user socket, (op, some socket) ∈ w.taken → (user, socket) ∈ w.used → user ≤ op
  flown : ∀ op socket, (op, socket) ∈ w.flying ++ w.landed → (op, some socket) ∈ w.taken
  returned : ∀ op ok tcp, (op, ok, tcp) ∈ w.results → op < w.begun ∧ w.thread.op? ≠ some op ∧
    ((∃ stream, (op, stream) ∈ w.taken) → ok = false ∧ tcp = none)

theorem Inv.of_start : Inv .start := by
  constructor <;> simp [World.start, Thread.op?, Thread.socket?]

/-- A step inside an operation that leaves the shared state alone: sockets come from the
connector, from `connect_inner` or are new. -/
theorem Inv.inner {w w' : World} (h : Inv w) {op id : Nat} (hin : w.thread.inside = some (op, id))
    (hin' : w'.thread.inside = some (op, id)) (hstate : w'.state = w.state) (howner : w'.owner = w.owner)
    (hbegun : w'.begun = w.begun) (htaken : w'.taken = w.taken)
    (hflying : w'.flying = w.flying) (hlanded : w'.landed = w.landed) (hresults : w'.results = w.results)
    (hsockets : w.sockets ≤ w'.sockets)
    (htcp : ∀ socket, w'.tcp = some socket → w.tcp = some socket ∨ w.thread.socket? = some socket)
    (hsocket : ∀ socket, w'.thread.socket? = some socket → w.thread.socket? = some socket ∨
      (w.sockets ≤ socket ∧ socket < w'.sockets))
    (hused : ∀ user socket, (user, socket) ∈ w'.used → (user, socket) ∈ w.used ∨
      (user = op ∧ (w.tcp = some socket ∨ w.thread.socket? = some socket))) : Inv w' := by
  obtain ⟨hop, -⟩ := Thread.op?_of_inside hin
  obtain ⟨hop', hunharmed⟩ := Thread.op?_of_inside hin'
  refine ⟨?_, ?_, ?_, ?_, ?_, ?_, ?_, ?_, ?_, ?_⟩
  · intro n hn
    rw [howner] at hn
    obtain ⟨id', stream, hinside, hactive⟩ := h.entry n hn
    rw [hstate, hin', ← hin]
    exact ⟨id', stream, hinside, hactive⟩
  · rw [howner, hstate]
    exact h.noEntry
  · intro n hn
    rw [hbegun]
    exact h.current n (by rw [hop, ← hop', hn])
  · intro n stream hmem
    rw [htaken] at hmem
    obtain ⟨hlt, hnoticed⟩ := h.noticed n stream hmem
    rw [hbegun, howner]
    exact ⟨hlt, fun hn => ⟨(hnoticed (by rw [hop, ← hop', hn])).1, hunharmed⟩⟩
  · intro socket hsome
    rw [htaken, hstate] at hsome
    have hold (hknown) : socket < w'.sockets := Nat.lt_of_lt_of_le (h.known socket hknown) hsockets
    rcases hsome with hsome | hsome | ⟨user, hsome⟩ | hsome | hsome
    · rcases htcp socket hsome with hsome | hsome
      · exact hold (.inl hsome)
      · exact hold (.inr (.inl hsome))
    · rcases hsocket socket hsome with hsome | ⟨-, hnew⟩
      · exact hold (.inr (.inl hsome))
      · exact hnew
    · rcases hused user socket hsome with hsome | ⟨-, hsome | hsome⟩
      · exact hold (.inr (.inr (.inl ⟨user, hsome⟩)))
      · exact hold (.inl hsome)
      · exact hold (.inr (.inl hsome))
    · exact hold (.inr (.inr (.inr (.inl hsome))))
    · exact hold (.inr (.inr (.inr (.inr hsome))))
  · intro user socket hmem
    rw [hbegun]
    rcases hused user socket hmem with hmem | ⟨rfl, -⟩
    · exact h.past user socket hmem
    · have := h.current user hop
      omega
  · intro n socket hmem hne
    rw [htaken] at hmem
    obtain ⟨hnotTcp, hnotSocket⟩ := h.gone n socket hmem (by rwa [hop, ← hop'])
    constructor
    · intro hsome
      rcases htcp socket hsome with hsome | hsome
      · exact hnotTcp hsome
      · exact hnotSocket hsome
    · intro hsome
      rcases hsocket socket hsome with hsome | ⟨hnew, -⟩
      · exact hnotSocket hsome
      · exact absurd (h.known socket (.inr (.inr (.inr (.inl ⟨n, hmem⟩))))) (Nat.not_lt.mpr hnew)
  · intro n user socket hmem huse
    rw [htaken] at hmem
    rcases hused user socket huse with huse | ⟨rfl, hsome⟩
    · exact h.earlier n user socket hmem huse
    · -- the socket is this operation's, so the entry that held it was this operation's
      by_contra hlt
      have hne : w.thread.op? ≠ some n := by
        rw [hop]
        intro heq
        obtain rfl := Option.some.inj heq
        exact hlt (Nat.le_refl _)
      obtain ⟨hnotTcp, hnotSocket⟩ := h.gone n socket hmem hne
      rcases hsome with hsome | hsome
      · exact hnotTcp hsome
      · exact hnotSocket hsome
  · rw [hflying, hlanded, htaken]
    exact h.flown
  · rw [hresults, hbegun, htaken, hop', ← hop]
    exact h.returned

/-- Attaching a socket to the entry changes the entry only, where it is there. -/
theorem Inv.attached {w : World} (h : Inv w) {op id : Nat} {socket : Socket}
    (hin : w.thread.inside = some (op, id)) (hknown : socket < w.sockets) :
    Inv { w with state := (w.state.attachStream id socket).2 } := by
  by_cases howner : w.owner = none
  · have hstate : (w.state.attachStream id socket).2 = w.state := by
      simp [AbortState.attachStream, AbortState.owns, h.noEntry howner]
    rw [hstate]
    exact h
  · obtain ⟨n, howner⟩ := Option.ne_none_iff_exists'.mp howner
    obtain ⟨id', stream, hinside, hactive⟩ := h.entry n howner
    obtain ⟨rfl, rfl⟩ : op = n ∧ id = id' := by simpa [hin] using hinside
    have hstate : (w.state.attachStream id socket).2 =
        { w.state with activeOperation := some ⟨id, some socket⟩ } := by
      simp [AbortState.attachStream, AbortState.owns, hactive]
    rw [hstate]
    refine ⟨?_, ?_, h.current, h.noticed, ?_, h.past, h.gone, h.earlier, h.flown, h.returned⟩
    · intro m hm
      obtain rfl : op = m := Option.some.inj (howner.symm.trans hm)
      exact ⟨id, some socket, hin, rfl⟩
    · intro hm
      exact absurd (howner.symm.trans hm) (by simp)
    · intro other hother
      rcases hother with hother | hother | hother | hother | ⟨id', hother⟩
      · exact h.known other (.inl hother)
      · exact h.known other (.inr (.inl hother))
      · exact h.known other (.inr (.inr (.inl hother)))
      · exact h.known other (.inr (.inr (.inr (.inl hother))))
      · simp only [Option.some.injEq, AbortOperation.mk.injEq] at hother
        rw [← hother.2]
        exact hknown

/-- Outside an operation there is no entry. -/
theorem Inv.no_owner {w : World} (h : Inv w) (hin : w.thread.inside = none) : w.owner = none := by
  cases howner : w.owner with
  | none => rfl
  | some op =>
    obtain ⟨id, stream, hinside, -⟩ := h.entry op howner
    exact absurd (hin.symm.trans hinside) (by simp)

/-- `finish` finds the entry exactly where nobody has taken it. -/
theorem Inv.finish_eq {w : World} (h : Inv w) {op id : Nat} (hin : w.thread.inside = some (op, id)) :
    (w.owner = none ∧ w.state.finish id = (true, w.state)) ∨
      (w.owner = some op ∧ w.state.finish id = (false, { w.state with activeOperation := none })) := by
  cases howner : w.owner with
  | none =>
    left
    simp [AbortState.finish, AbortState.owns, h.noEntry howner]
  | some n =>
    right
    obtain ⟨id', stream, hinside, hactive⟩ := h.entry n howner
    obtain ⟨rfl, rfl⟩ : op = n ∧ id = id' := by simpa [hin] using hinside
    simp [AbortState.finish, AbortState.owns, hactive]

/-- One more use of a socket. -/
theorem mem_used {w : World} {op user : Nat} {socket other : Socket}
    (hmem : (user, other) ∈ w.used ++ [(op, socket)]) (hheld : w.tcp = some socket ∨ w.thread.socket? = some socket) :
    (user, other) ∈ w.used ∨ (user = op ∧ (w.tcp = some other ∨ w.thread.socket? = some other)) := by
  simp only [List.mem_append, List.mem_singleton, Prod.mk.injEq] at hmem
  rcases hmem with hmem | ⟨rfl, rfl⟩
  · exact .inl hmem
  · exact .inr ⟨rfl, hheld⟩

/-- A new operation has a number of its own, and a socket that was taken is not connected. -/
theorem Inv.begun {w : World} (h : Inv w) (hthread : w.thread = .idle) :
    Inv { w with
      state := w.state.beginOperation.2
      owner := some w.begun
      thread := .entered w.begun w.state.beginOperation.1
      begun := w.begun + 1 } := by
  have hop : w.thread.op? = none := by rw [hthread]; rfl
  refine ⟨?_, ?_, ?_, ?_, ?_, ?_, ?_, h.earlier, h.flown, ?_⟩
  · intro op hop
    obtain rfl := Option.some.inj hop
    exact ⟨_, none, rfl, rfl⟩
  · intro hnone
    cases hnone
  · intro op hop
    obtain rfl := Option.some.inj hop
    rfl
  · intro op stream hmem
    obtain ⟨hlt, -⟩ := h.noticed op stream hmem
    refine ⟨Nat.lt_succ_of_lt hlt, ?_⟩
    intro heq
    obtain rfl := Option.some.inj heq
    exact absurd hlt (Nat.lt_irrefl _)
  · intro socket hsome
    rcases hsome with hsome | hsome | hsome | hsome | ⟨id, hsome⟩
    · exact h.known socket (.inl hsome)
    · cases hsome
    · exact h.known socket (.inr (.inr (.inl hsome)))
    · exact h.known socket (.inr (.inr (.inr (.inl hsome))))
    · cases hsome
  · intro user socket hmem
    exact Nat.lt_succ_of_lt (h.past user socket hmem)
  · intro op socket hmem hne
    exact ⟨(h.gone op socket hmem (by simp [hop])).1, by simp [Thread.socket?]⟩
  · intro op ok tcp hmem
    obtain ⟨hlt, -, hnoticed⟩ := h.returned op ok tcp hmem
    refine ⟨Nat.lt_succ_of_lt hlt, ?_, hnoticed⟩
    intro heq
    obtain rfl := Option.some.inj heq
    exact absurd hlt (Nat.lt_irrefl _)

/-- The steps of `finish_operation` that leave no entry behind, where an operation whose entry
was taken knows it. -/
theorem Inv.concluded {w : World} (h : Inv w) {op : Nat} (hop : w.thread.op? = some op)
    {state : AbortState} {owner : Option Nat} {thread : Thread} (hactive : state.activeOperation = none)
    (howner : owner = none) (hop' : thread.op? = some op) (hsocket : thread.socket? = none)
    (hunharmed : ∀ stream, (op, stream) ∈ w.taken → thread.unharmed = false) :
    Inv { w with state := state, owner := owner, thread := thread } := by
  refine ⟨?_, fun _ => hactive, ?_, ?_, ?_, h.past, ?_, h.earlier, h.flown, ?_⟩
  · intro n hn
    exact absurd (howner.symm.trans hn) (by simp)
  · intro n hn
    exact h.current n (hop.trans (hop'.symm.trans hn))
  · intro n stream hmem
    refine ⟨(h.noticed n stream hmem).1, ?_⟩
    intro hn
    obtain rfl := Option.some.inj (hop'.symm.trans hn)
    exact ⟨howner, hunharmed stream hmem⟩
  · intro socket hsome
    rcases hsome with hsome | hsome | hsome | hsome | ⟨_, hsome⟩
    · exact h.known socket (.inl hsome)
    · exact absurd (hsocket.symm.trans hsome) (by simp)
    · exact h.known socket (.inr (.inr (.inl hsome)))
    · exact h.known socket (.inr (.inr (.inr (.inl hsome))))
    · exact absurd (hactive.symm.trans hsome) (by simp)
  · intro n socket hmem hne
    exact ⟨(h.gone n socket hmem (by rwa [hop, ← hop'])).1, by simp [hsocket]⟩
  · intro n ok tcp hmem
    obtain ⟨hlt, hne, hnoticed⟩ := h.returned n ok tcp hmem
    rw [hop, ← hop'] at hne
    exact ⟨hlt, hne, hnoticed⟩

/-- An operation whose entry was taken returns an error and leaves nothing connected. -/
theorem Inv.settled {w : World} (h : Inv w) {op : Nat} {ok aborted : Bool}
    (hthread : w.thread = .dropped op ok aborted) :
    Inv { w with
      thread := .idle
      tcp := if aborted then none else w.tcp
      results := w.results ++ [(op, ok && !aborted, if aborted then none else w.tcp)] } := by
  have hop : w.thread.op? = some op := by rw [hthread]; rfl
  have hnone := h.no_owner (by rw [hthread]; rfl)
  have haborted (stream : Option Socket) (hmem : (op, stream) ∈ w.taken) : aborted = true := by
    have := ((h.noticed op stream hmem).2 hop).2
    rw [hthread, Thread.unharmed] at this
    simpa using this
  have htcp (socket : Socket) (hsome : (if aborted then none else w.tcp) = some socket) :
      aborted = false ∧ w.tcp = some socket := by
    cases aborted with
    | true => cases hsome
    | false => exact ⟨rfl, hsome⟩
  refine ⟨?_, h.noEntry, by simp [Thread.op?], ?_, ?_, h.past, ?_, h.earlier, h.flown, ?_⟩
  · intro n hn
    exact absurd (hnone.symm.trans hn) (by simp)
  · intro n stream hmem
    exact ⟨(h.noticed n stream hmem).1, by simp [Thread.op?]⟩
  · intro socket hsome
    rcases hsome with hsome | hsome | hsome | hsome | hsome
    · exact h.known socket (.inl (htcp socket hsome).2)
    · cases hsome
    · exact h.known socket (.inr (.inr (.inl hsome)))
    · exact h.known socket (.inr (.inr (.inr (.inl hsome))))
    · exact h.known socket (.inr (.inr (.inr (.inr hsome))))
  · intro n socket hmem _
    refine ⟨?_, by simp [Thread.socket?]⟩
    intro hsome
    obtain ⟨hfalse, hsome⟩ := htcp socket hsome
    by_cases heq : op = n
    · subst heq
      exact absurd (hfalse.symm.trans (haborted _ hmem)) (by simp)
    · exact (h.gone n socket hmem (by simp [hop, heq])).1 hsome
  · intro n ok' tcp hmem
    rcases List.mem_append.mp hmem with hold | hnew
    · obtain ⟨hlt, -, hnoticed⟩ := h.returned n ok' tcp hold
      exact ⟨hlt, by simp [Thread.op?], hnoticed⟩
    · simp only [List.mem_singleton, Prod.mk.injEq] at hnew
      obtain ⟨rfl, rfl, rfl⟩ := hnew
      have := h.current n hop
      refine ⟨by simp only; omega, by simp [Thread.op?], ?_⟩
      rintro ⟨stream, htaken⟩
      rw [haborted stream htaken]
      simp

theorem Step.inv {w w' : World} (step : Step w w') (h : Inv w) : Inv w' := by
  cases step with
  | begin hthread => exact h.begun hthread
  | @attach op id socket hthread htcp =>
    have hin : w.thread.inside = some (op, id) := by rw [hthread]; rfl
    have hafter := h.attached hin (h.known socket (.inl htcp))
    exact hafter.inner hin rfl rfl rfl rfl rfl rfl rfl rfl (Nat.le_refl _) (fun _ hsome => .inl hsome)
      (by simp [Thread.socket?]) (fun _ _ hmem => mem_used hmem (.inl htcp))
  | @enter op id hthread htcp =>
    exact h.inner (by rw [hthread]; rfl) rfl rfl rfl rfl rfl rfl rfl rfl (Nat.le_refl _)
      (fun _ hsome => .inl hsome) (by simp [Thread.socket?]) (fun _ _ hmem => .inl hmem)
  | @use op id socket hthread htcp =>
    exact h.inner (by rw [hthread]; rfl) (by rw [hthread]; rfl) rfl rfl rfl rfl rfl rfl rfl (Nat.le_refl _)
      (fun _ hsome => .inl hsome) (fun _ hsome => .inl hsome) (fun _ _ hmem => mem_used hmem (.inl htcp))
  | @disconnect op id hthread =>
    exact h.inner (by rw [hthread]; rfl) (by rw [hthread]; rfl) rfl rfl rfl rfl rfl rfl rfl (Nat.le_refl _)
      (by simp) (fun _ hsome => .inl hsome) (fun _ _ hmem => .inl hmem)
  | @establish op id hthread htcp =>
    refine h.inner (by rw [hthread]; rfl) rfl rfl rfl rfl rfl rfl rfl rfl (Nat.le_succ _)
      (fun _ hsome => .inl hsome) ?_ (fun _ _ hmem => .inl hmem)
    intro socket hsome
    obtain rfl := Option.some.inj hsome
    exact .inr ⟨Nat.le_refl _, Nat.lt_succ_self _⟩
  | @attachNew op id socket hthread hattached =>
    have hin : w.thread.inside = some (op, id) := by rw [hthread]; rfl
    have hsocket : w.thread.socket? = some socket := by rw [hthread]; rfl
    have hafter := h.attached hin (h.known socket (.inr (.inl hsocket)))
    refine hafter.inner hin rfl rfl rfl rfl rfl rfl rfl rfl (Nat.le_refl _) (fun _ hsome => .inl hsome) ?_
      (fun _ _ hmem => mem_used hmem (.inr hsocket))
    intro other hother
    obtain rfl := Option.some.inj hother
    exact .inl hsocket
  | @attachRefused op id socket hthread hattached =>
    have hsocket : w.thread.socket? = some socket := by rw [hthread]; rfl
    exact h.inner (by rw [hthread]; rfl) rfl rfl rfl rfl rfl rfl rfl rfl (Nat.le_refl _)
      (fun _ hsome => .inl hsome) (by simp [Thread.socket?]) (fun _ _ hmem => mem_used hmem (.inr hsocket))
  | @handshake op id socket hthread =>
    have hsocket : w.thread.socket? = some socket := by rw [hthread]; rfl
    exact h.inner (by rw [hthread]; rfl) (by rw [hthread]; rfl) rfl rfl rfl rfl rfl rfl rfl (Nat.le_refl _)
      (fun _ hsome => .inl hsome) (fun _ hsome => .inl hsome) (fun _ _ hmem => mem_used hmem (.inr hsocket))
  | @install op id socket hthread =>
    have hsocket : w.thread.socket? = some socket := by rw [hthread]; rfl
    refine h.inner (by rw [hthread]; rfl) rfl rfl rfl rfl rfl rfl rfl rfl (Nat.le_refl _) ?_
      (by simp [Thread.socket?]) (fun _ _ hmem => .inl hmem)
    intro other hother
    obtain rfl := Option.some.inj hother
    exact .inr hsocket
  | @handshakeFails op id socket hthread =>
    exact h.inner (by rw [hthread]; rfl) rfl rfl rfl rfl rfl rfl rfl rfl (Nat.le_refl _) (by simp)
      (by simp [Thread.socket?]) (fun _ _ hmem => .inl hmem)
  | @leave op id ok hthread =>
    exact h.inner (by rw [hthread]; rfl) rfl rfl rfl rfl rfl rfl rfl rfl (Nat.le_refl _)
      (fun _ hsome => .inl hsome) (by simp [Thread.socket?]) (fun _ _ hmem => .inl hmem)
  | @finish op id ok hthread =>
    have hin : w.thread.inside = some (op, id) := by rw [hthread]; rfl
    have hop : w.thread.op? = some op := by rw [hthread]; rfl
    rcases h.finish_eq hin with ⟨hnone, hfinish⟩ | ⟨hsome, hfinish⟩
    · -- the entry was taken, and the guard finds it gone
      rw [hfinish]
      exact h.concluded hop (h.noEntry hnone) hnone rfl rfl (fun _ _ => rfl)
    · rw [hfinish]
      refine h.concluded hop rfl rfl rfl rfl ?_
      intro stream hmem
      exact absurd (((h.noticed op stream hmem).2 hop).1.symm.trans hsome) (by simp)
  | @dropGuard op id ok aborted hthread =>
    have hop : w.thread.op? = some op := by rw [hthread]; rfl
    have hnone := h.no_owner (by rw [hthread]; rfl)
    have howns : w.state.owns id = false := by simp [AbortState.owns, h.noEntry hnone]
    have hstate : w.state.dropGuard id = w.state := by simp [AbortState.dropGuard, howns]
    rw [hstate, howns]
    refine h.concluded hop (h.noEntry hnone) hnone rfl rfl ?_
    intro stream hmem
    have := ((h.noticed op stream hmem).2 hop).2
    rwa [hthread] at this
  | settle hthread => exact h.settled hthread
  | shutdown hthread =>
    refine ⟨h.entry, h.noEntry, h.current, h.noticed, ?_, h.past, ?_, h.earlier, h.flown, h.returned⟩
    · intro socket hsome
      rcases hsome with hsome | hsome
      · cases hsome
      · exact h.known socket (.inr hsome)
    · intro n socket hmem hne
      exact ⟨by simp, (h.gone n socket hmem hne).2⟩

theorem AbortStep.inv {w w' : World} (step : AbortStep w w') (h : Inv w) : Inv w' := by
  cases step with
  | @take op operation howner hactive =>
    obtain ⟨id, stream, hinside, hentry⟩ := h.entry op howner
    obtain ⟨hop, hunharmed⟩ := Thread.op?_of_inside hinside
    have hcurrent := h.current op hop
    obtain rfl : operation = ⟨id, stream⟩ := Option.some.inj (hactive.symm.trans hentry)
    have hmem (n : Nat) (s : Option Socket) (hn : (n, s) ∈ w.taken ++ [(op, stream)]) :
        (n, s) ∈ w.taken ∨ (n = op ∧ s = stream) := by
      simpa using hn
    refine ⟨?_, fun _ => rfl, h.current, ?_, ?_, h.past, ?_, ?_, ?_, ?_⟩
    · intro n hn
      cases hn
    · intro n s hn
      rcases hmem n s hn with hold | ⟨rfl, rfl⟩
      · exact ⟨(h.noticed n s hold).1, fun heq => ⟨rfl, ((h.noticed n s hold).2 heq).2⟩⟩
      · exact ⟨by simp only [World.aborted]; omega, fun _ => ⟨rfl, hunharmed⟩⟩
    · intro socket hsome
      rcases hsome with hsome | hsome | hsome | ⟨n, hsome⟩ | ⟨_, hsome⟩
      · exact h.known socket (.inl hsome)
      · exact h.known socket (.inr (.inl hsome))
      · exact h.known socket (.inr (.inr (.inl hsome)))
      · rcases hmem n _ hsome with hold | ⟨-, rfl⟩
        · exact h.known socket (.inr (.inr (.inr (.inl ⟨n, hold⟩))))
        · exact h.known socket (.inr (.inr (.inr (.inr ⟨id, hentry⟩))))
      · cases hsome
    · intro n socket hn hne
      rcases hmem n _ hn with hold | ⟨rfl, -⟩
      · exact h.gone n socket hold hne
      · exact absurd hop hne
    · intro n user socket hn huse
      rcases hmem n _ hn with hold | ⟨rfl, -⟩
      · exact h.earlier n user socket hold huse
      · have := h.past user socket huse
        omega
    · intro n socket hn
      simp only [World.aborted, List.mem_append, List.mem_map, Option.mem_toList] at hn ⊢
      rcases hn with (hflying | ⟨taken, htaken, heq⟩) | hlanded
      · exact .inl (h.flown n socket (List.mem_append_left _ hflying))
      · cases heq
        exact .inr (by simp [htaken])
      · exact .inl (h.flown n socket (List.mem_append_right _ hlanded))
    · intro n ok tcp hn
      obtain ⟨hlt, hne, hnoticed⟩ := h.returned n ok tcp hn
      refine ⟨hlt, hne, ?_⟩
      rintro ⟨s, hs⟩
      rcases hmem n s hs with hold | ⟨rfl, -⟩
      · exact hnoticed ⟨s, hold⟩
      · exact absurd hop hne
  | takeNothing hactive =>
    have hstate : w.state.take.2 = w.state := by
      have hnone : w.state.activeOperation = none := hactive
      simp [AbortState.take, ← hnone]
    rw [hstate]
    exact h
  | @land op socket hflying =>
    refine ⟨h.entry, h.noEntry, h.current, h.noticed, h.known, h.past, h.gone, h.earlier, ?_, h.returned⟩
    intro n other hmem
    simp only [List.mem_append, List.mem_singleton, Prod.mk.injEq] at hmem
    rcases hmem with hmem | hmem | ⟨rfl, rfl⟩
    · exact h.flown n other (List.mem_append_left _ (List.mem_of_mem_erase hmem))
    · exact h.flown n other (List.mem_append_right _ hmem)
    · exact h.flown n other (List.mem_append_left _ hflying)

theorem Reachable.inv {w : World} (reached : Reachable w) : Inv w := by
  induction reached with
  | start => exact Inv.of_start
  | step _ step ih => exact step.inv ih
  | abort _ step ih => exact step.inv ih

/-- The operation whose `finish` has found the entry gone. -/
def Thread.aborted? : Thread → Option Nat
  | .finished op _ _ true => some op
  | .dropped op _ true => some op
  | _ => none

/-- An operation that finds its entry gone has lost it to an abort. -/
structure Lost (w : World) : Prop where
  inside : ∀ op id, w.thread.inside = some (op, id) → w.owner = none → ∃ stream, (op, stream) ∈ w.taken
  outside : ∀ op, w.thread.aborted? = some op → ∃ stream, (op, stream) ∈ w.taken

theorem Lost.of_start : Lost .start := by
  constructor <;> simp [World.start, Thread.inside, Thread.aborted?]

/-- A step inside an operation. -/
theorem Lost.inner {w w' : World} (h : Lost w) {op id : Nat} (hin : w.thread.inside = some (op, id))
    (hin' : w'.thread.inside = some (op, id)) (hout' : w'.thread.aborted? = none)
    (howner : w'.owner = w.owner) (htaken : w'.taken = w.taken) : Lost w' := by
  refine ⟨?_, ?_⟩
  · intro n id' hn hnone
    rw [hin', ← hin] at hn
    rw [howner] at hnone
    rw [htaken]
    exact h.inside n id' hn hnone
  · intro n hn
    rw [hout'] at hn
    cases hn

theorem Step.lost {w w' : World} (step : Step w w') (h : Inv w) (hlost : Lost w) : Lost w' := by
  cases step with
  | begin => constructor <;> simp [Thread.aborted?]
  | attach hthread => exact hlost.inner (by rw [hthread]; rfl) rfl rfl rfl rfl
  | enter hthread => exact hlost.inner (by rw [hthread]; rfl) rfl rfl rfl rfl
  | use hthread => exact hlost.inner (by rw [hthread]; rfl) (by rw [hthread]; rfl) (by rw [hthread]; rfl) rfl rfl
  | disconnect hthread =>
    exact hlost.inner (by rw [hthread]; rfl) (by rw [hthread]; rfl) (by rw [hthread]; rfl) rfl rfl
  | establish hthread => exact hlost.inner (by rw [hthread]; rfl) rfl rfl rfl rfl
  | attachNew hthread => exact hlost.inner (by rw [hthread]; rfl) rfl rfl rfl rfl
  | attachRefused hthread => exact hlost.inner (by rw [hthread]; rfl) rfl rfl rfl rfl
  | handshake hthread =>
    exact hlost.inner (by rw [hthread]; rfl) (by rw [hthread]; rfl) (by rw [hthread]; rfl) rfl rfl
  | install hthread => exact hlost.inner (by rw [hthread]; rfl) rfl rfl rfl rfl
  | handshakeFails hthread => exact hlost.inner (by rw [hthread]; rfl) rfl rfl rfl rfl
  | leave ok hthread => exact hlost.inner (by rw [hthread]; rfl) rfl rfl rfl rfl
  | @finish op id ok hthread =>
    have hin : w.thread.inside = some (op, id) := by rw [hthread]; rfl
    refine ⟨by simp [Thread.inside], ?_⟩
    intro n hn
    rcases h.finish_eq hin with ⟨hnone, hfinish⟩ | ⟨-, hfinish⟩
    · rw [hfinish] at hn
      obtain rfl := Option.some.inj hn
      exact hlost.inside op id hin hnone
    · rw [hfinish] at hn
      cases hn
  | @dropGuard op id ok aborted hthread =>
    refine ⟨by simp [Thread.inside], ?_⟩
    intro n hn
    cases aborted with
    | false => cases hn
    | true => exact hlost.outside n (by rw [hthread]; exact hn)
  | settle => constructor <;> simp [Thread.inside, Thread.aborted?]
  | shutdown hthread => exact ⟨hlost.inside, hlost.outside⟩

theorem AbortStep.lost {w w' : World} (step : AbortStep w w') (h : Inv w) (hlost : Lost w) : Lost w' := by
  cases step with
  | @take op operation howner hactive =>
    obtain ⟨id, stream, hinside, -⟩ := h.entry op howner
    refine ⟨?_, ?_⟩
    · intro n id' hn _
      obtain ⟨rfl, -⟩ : op = n ∧ id = id' := by
        have hn' : w.thread.inside = some (n, id') := hn
        simpa [hinside] using hn'
      exact ⟨operation.stream, List.mem_append_right _ (List.mem_singleton.mpr rfl)⟩
    · intro n hn
      obtain ⟨s, hs⟩ := hlost.outside n hn
      exact ⟨s, List.mem_append_left _ hs⟩
  | takeNothing => exact ⟨hlost.inside, hlost.outside⟩
  | land => exact ⟨hlost.inside, hlost.outside⟩

theorem Reachable.lost {w : World} (reached : Reachable w) : Lost w := by
  induction reached with
  | start => exact Lost.of_start
  | step reached step ih => exact step.lost reached.inv ih
  | abort reached step ih => exact step.lost reached.inv ih

theorem Step.taken_eq {w w' : World} (step : Step w w') : w'.taken = w.taken := by
  cases step <;> rfl

/-- Operations run one after another. -/
theorem Step.op_cases {w w' : World} (step : Step w w') :
    (w.thread = .idle ∧ w'.thread.op? = some w.begun ∧ w'.begun = w.begun + 1) ∨
    ((w'.thread.op? = w.thread.op? ∨ w'.thread = .idle) ∧ w'.begun = w.begun) := by
  cases step with
  | begin hthread => exact .inl ⟨hthread, rfl, rfl⟩
  | attach hthread => exact .inr ⟨.inl (by rw [hthread]; rfl), rfl⟩
  | enter hthread => exact .inr ⟨.inl (by rw [hthread]; rfl), rfl⟩
  | use hthread => exact .inr ⟨.inl rfl, rfl⟩
  | disconnect hthread => exact .inr ⟨.inl rfl, rfl⟩
  | establish hthread => exact .inr ⟨.inl (by rw [hthread]; rfl), rfl⟩
  | attachNew hthread => exact .inr ⟨.inl (by rw [hthread]; rfl), rfl⟩
  | attachRefused hthread => exact .inr ⟨.inl (by rw [hthread]; rfl), rfl⟩
  | handshake hthread => exact .inr ⟨.inl rfl, rfl⟩
  | install hthread => exact .inr ⟨.inl (by rw [hthread]; rfl), rfl⟩
  | handshakeFails hthread => exact .inr ⟨.inl (by rw [hthread]; rfl), rfl⟩
  | leave ok hthread => exact .inr ⟨.inl (by rw [hthread]; rfl), rfl⟩
  | finish hthread => exact .inr ⟨.inl (by rw [hthread]; rfl), rfl⟩
  | dropGuard hthread => exact .inr ⟨.inl (by rw [hthread]; rfl), rfl⟩
  | settle => exact .inr ⟨.inr rfl, rfl⟩
  | shutdown => exact .inr ⟨.inl rfl, rfl⟩

/-- Only the operation's own `finish` clears its entry. -/
theorem Step.keeps_entry {w w' : World} (step : Step w w') (h : Inv w) {op : Nat} (howner : w.owner = some op) :
    w'.owner = some op ∨ ∃ id ok, w.thread = .returning op id ok := by
  cases step with
  | begin hthread =>
    have hnone := h.no_owner (by rw [hthread]; rfl)
    exact absurd (howner.symm.trans hnone) (by simp)
  | @finish n id ok hthread =>
    obtain ⟨id', stream, hinside, -⟩ := h.entry op howner
    obtain ⟨rfl, -⟩ : n = op ∧ id = id' := by simpa [hthread, Thread.inside] using hinside
    exact .inr ⟨id, ok, hthread⟩
  | dropGuard hthread =>
    have hnone := h.no_owner (by rw [hthread]; rfl)
    exact absurd (howner.symm.trans hnone) (by simp)
  | attach => exact .inl howner
  | enter => exact .inl howner
  | use => exact .inl howner
  | disconnect => exact .inl howner
  | establish => exact .inl howner
  | attachNew => exact .inl howner
  | attachRefused => exact .inl howner
  | handshake => exact .inl howner
  | install => exact .inl howner
  | handshakeFails => exact .inl howner
  | leave => exact .inl howner
  | settle => exact .inl howner
  | shutdown => exact .inl howner

/-- **Abort safety**, in every interleaving of aborts with a connector's operations: `owner`
says whose entry is active; an abort that finds none changes nothing; an operation whose
entry was taken returns an error and leaves the connector disconnected; a socket that an
abort takes from one operation, and shuts down whenever it likes, is used by no later
operation; and no step of the connector clears an entry but the `finish` of its operation. -/
theorem abort_safety (w : World) (reached : Reachable w) :
    w.owner.isSome = w.state.activeOperation.isSome ∧
    (w.state.take.1 = none → { w with state := w.state.take.2 } = w) ∧
    (∀ op ok tcp, (op, ok, tcp) ∈ w.results → (∃ stream, (op, stream) ∈ w.taken) →
      ok = false ∧ tcp = none) ∧
    (∀ op socket, (op, socket) ∈ w.flying ++ w.landed → ∀ user, (user, socket) ∈ w.used → user ≤ op) ∧
    (∀ w', Step w w' → ∀ op, w.owner = some op → w'.owner = some op ∨
      ∃ id ok, w.thread = .returning op id ok) := by
  have h := reached.inv
  refine ⟨?_, ?_, fun op ok tcp hmem => (h.returned op ok tcp hmem).2.2, ?_,
    fun w' step op howner => step.keeps_entry h howner⟩
  · cases howner : w.owner with
    | none => rw [h.noEntry howner]; rfl
    | some op =>
      obtain ⟨id, stream, -, hactive⟩ := h.entry op howner
      rw [hactive]
      rfl
  · intro hactive
    have hnone : w.state.activeOperation = none := hactive
    have hstate : w.state.take.2 = w.state := by simp [AbortState.take, ← hnone]
    rw [hstate]
  · intro op socket hmem user huse
    exact h.earlier op user socket (h.flown op socket hmem) huse

/-- A connection, then an operation that is aborted behind its last read: the socket is shut
down after it has returned. -/
theorem abort_safety_late :
    ∃ w : World, Reachable w ∧ w.results = [(0, true, some 0), (1, false, none)] ∧ w.landed = [(1, 0)] ∧
      w.used = [(0, 0), (1, 0), (1, 0)] ∧ ∀ user, (user, 0) ∈ w.used → user ≤ 1 := by
  have h₁ : Reachable ⟨⟨some ⟨0, none⟩, 1⟩, some 0, none, 0, .working 0 0, 1, [], [], [], [], []⟩ :=
    .step (.step .start (.begin rfl)) (.enter rfl rfl)
  have h₂ : Reachable ⟨⟨some ⟨0, some 0⟩, 1⟩, some 0, some 0, 1, .working 0 0, 1, [], [], [], [(0, 0)], []⟩ :=
    .step (.step (.step h₁ (.establish rfl rfl)) (.attachNew rfl rfl)) (.install rfl)
  have h₃ : Reachable ⟨⟨none, 1⟩, none, some 0, 1, .finished 0 0 true false, 1, [], [], [], [(0, 0)], []⟩ :=
    .step (.step h₂ (.leave true rfl)) (@Step.finish _ 0 0 true rfl)
  have h₄ : Reachable ⟨⟨none, 1⟩, none, some 0, 1, .idle, 1, [], [], [], [(0, 0)], [(0, true, some 0)]⟩ :=
    .step (.step h₃ (@Step.dropGuard _ 0 0 true false rfl)) (@Step.settle _ 0 true false rfl)
  have h₅ : Reachable ⟨⟨some ⟨1, some 0⟩, 2⟩, some 1, some 0, 1, .working 1 1, 2, [], [], [],
      [(0, 0), (1, 0)], [(0, true, some 0)]⟩ :=
    .step (.step h₄ (.begin rfl)) (@Step.attach _ 1 1 0 rfl rfl)
  have h₆ : Reachable ⟨⟨none, 2⟩, none, some 0, 1, .returning 1 1 true, 2, [(1, some 0)], [(1, 0)], [],
      [(0, 0), (1, 0), (1, 0)], [(0, true, some 0)]⟩ :=
    .abort (.step (.step h₅ (@Step.use _ 1 1 0 rfl rfl)) (@Step.leave _ 1 1 true rfl))
      (@AbortStep.take _ 1 ⟨1, some 0⟩ rfl rfl)
  have h₇ : Reachable ⟨⟨none, 2⟩, none, some 0, 1, .finished 1 1 true true, 2, [(1, some 0)], [(1, 0)], [],
      [(0, 0), (1, 0), (1, 0)], [(0, true, some 0)]⟩ :=
    .step h₆ (@Step.finish _ 1 1 true rfl)
  have h₈ : Reachable ⟨⟨none, 2⟩, none, none, 1, .idle, 2, [(1, some 0)], [(1, 0)], [],
      [(0, 0), (1, 0), (1, 0)], [(0, true, some 0), (1, false, none)]⟩ :=
    .step (.step h₇ (@Step.dropGuard _ 1 1 true true rfl)) (@Step.settle _ 1 true true rfl)
  have h₉ : Reachable ⟨⟨none, 2⟩, none, none, 1, .idle, 2, [(1, some 0)], [], [(1, 0)],
      [(0, 0), (1, 0), (1, 0)], [(0, true, some 0), (1, false, none)]⟩ :=
    .abort h₈ (@AbortStep.land _ 1 0 (List.mem_singleton.mpr rfl))
  refine ⟨_, h₉, rfl, rfl, rfl, ?_⟩
  obtain ⟨-, -, -, hearlier, -⟩ := abort_safety _ h₉
  exact hearlier 1 0 (by simp)

end Xqdb.Connector.Abort
