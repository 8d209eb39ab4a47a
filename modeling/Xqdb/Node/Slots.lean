import Xqdb.Lib.Cells
import Mathlib.Data.List.Nodup
import Mathlib.Data.List.Pairwise

/-! The command slots of `worker.rs`. `reserve` puts a placeholder for a slot into the channel;
a command is committed to the slot later, or the slot is withdrawn; the worker takes the
placeholders in order and waits on each slot.

Both threads move in steps of one lock or one atomic access each. The worker's `wait` takes
the state out of the slot and its placeholder seals the slot again only when it is dropped,
so for a moment the slot looks as if nothing had happened to it: this is `sealing` below. -/

namespace Xqdb.Node.Slots

/-- A command with its reply: its number, and the slot it was made for. -/
structure Command where
  id : Nat
  slot : Nat
  deriving DecidableEq, Repr

/-! ## `CommandSlot` -/

/-- `None`, `Some(None)` and `Some(Some(command))`. -/
abbrev SlotState := Option (Option Command)

namespace SlotState

def commit (state : SlotState) (command : Command) : Except Command SlotState :=
  if state.isSome then .error command else .ok (some (some command))

def cancel (state : SlotState) : SlotState := if state.isNone then some none else state

/-- The command that fails, and the state that is left. -/
def fail : SlotState → Option Command × SlotState
  | some (some command) => (some command, none)
  | _ => (none, some none)

/-- The loop of `wait` ends once there is a state, or the worker is to stop. -/
def ready (state : SlotState) (stopping : Bool) : Bool := state.isSome || stopping

end SlotState

/-! ## The two threads -/

inductive Message where
  | pending (slot : Nat)
  | stop
  deriving DecidableEq, Repr

/-- Where the one `QueuedPermit` of a slot is: it holds its reservation, a call has taken the
reservation out and borrows the permit, the reservation is gone, the permit is gone. -/
inductive Permit where
  | held
  | prepared
  | spent
  | dropped
  deriving DecidableEq, Repr

/-- The JavaScript thread: between calls (or inside calls that have prepared a permit), in
`reserve` before and after the placeholder is sent, in `Drop for NativeConnector`. -/
inductive Js where
  | idle
  | reserving (slot : Nat)
  | sent (slot : Nat)
  | closing
  | closingSender
  | closed
  deriving DecidableEq, Repr

/-- The worker thread: the loop of `run_worker_loop`, then `fail_pending` at its end and once
more in `run_worker`, then the receiver is dropped with what is left in it. -/
inductive Worker where
  | top
  | recv
  | waiting (slot : Nat)
  | sealing (slot : Nat)
  | got (command : Command)
  | running (command : Command)
  | leaving (again : Bool)
  | draining (again : Bool)
  | failing (again : Bool) (slot : Nat)
  | resealing (again : Bool) (slot : Nat)
  | disconnecting
  | discarding (messages : List Message)
  | done
  deriving DecidableEq, Repr

def maxQueueCapacity : Nat := 1024

/-- The last six fields are the history: the numbers given to commands, and which commands
were committed, refused, executed, failed and replied to, and which slots were released or
cancelled, in order. -/
structure World where
  stopping : Bool
  channel : List Message
  sender : Bool
  receiver : Bool
  slots : List SlotState
  permits : List Permit
  js : Js
  worker : Worker
  commands : Nat
  committed : List Command
  refused : List Command
  executed : List Command
  failed : List Command
  replied : List Command
  withdrawn : List Nat
  deriving DecidableEq, Repr

def World.start : World :=
  ⟨false, [], true, true, [], [], .idle, .top, 0, [], [], [], [], [], []⟩

namespace World

/-- A slot changes its state. -/
def setSlot (w : World) (slot : Nat) (state : SlotState) : World :=
  { w with slots := w.slots.set slot state }

/-- A placeholder fails its slot: the command in it, if any, is answered. -/
def failSlot (w : World) (slot : Nat) (state : SlotState) : World :=
  { w with
    slots := w.slots.set slot state.fail.2
    failed := w.failed ++ state.fail.1.toList
    replied := w.replied ++ state.fail.1.toList }

/-- `slot.cancel()`, by whoever holds or held the permit. -/
def withdraw (w : World) (slot : Nat) (state : SlotState) (permit : Permit) : World :=
  { w with
    slots := w.slots.set slot state.cancel
    permits := w.permits.set slot permit
    withdrawn := w.withdrawn ++ [slot] }

end World

/-- How a permit can be given up: a prepared one is dropped without commit, or its promise
cannot be created; `release`; the permit is collected. -/
inductive Gives : Permit → Permit → Prop
  | abandon : Gives .prepared .spent
  | release : Gives .held .spent
  | releaseAgain : Gives .spent .spent
  | drop : Gives .held .dropped
  | dropSpent : Gives .spent .dropped

/-- The steps of the JavaScript thread. -/
inductive JsStep : World → World → Prop
  | reserve {w : World} (hjs : w.js = .idle) (hrunning : w.stopping = false) :
    JsStep w { w with
      js := .reserving w.slots.length
      slots := w.slots ++ [none]
      permits := w.permits ++ [.held] }
  | send {w : World} {slot : Nat} (hjs : w.js = .reserving slot) (halive : w.receiver = true)
    (hroom : w.channel.length < maxQueueCapacity) :
    JsStep w { w with js := .sent slot, channel := w.channel ++ [.pending slot] }
  | sendFails {w : World} {slot : Nat} {state : SlotState} (hjs : w.js = .reserving slot)
    (hrefused : w.receiver = false ∨ maxQueueCapacity ≤ w.channel.length)
    (hstate : w.slots[slot]? = some state) :
    -- the placeholder comes back in the error and is dropped, then the permit is
    JsStep w { (w.failSlot slot state).withdraw slot state.fail.2 .dropped with js := .idle }
  | handOut {w : World} {slot : Nat} (hjs : w.js = .sent slot) (hrunning : w.stopping = false) :
    JsStep w { w with js := .idle }
  | withhold {w : World} {slot : Nat} {state : SlotState} (hjs : w.js = .sent slot)
    (hstopping : w.stopping = true) (hstate : w.slots[slot]? = some state) :
    -- the permit is not handed out; its own drop cancels the slot once more
    JsStep w { w.withdraw slot state .spent with js := .idle }
  | prepare {w : World} {slot : Nat} (hjs : w.js = .idle) (hpermit : w.permits[slot]? = some .held) :
    JsStep w { w with permits := w.permits.set slot .prepared }
  | commit {w : World} {slot : Nat} {state state' : SlotState} (hjs : w.js = .idle)
    (hpermit : w.permits[slot]? = some .prepared) (hstate : w.slots[slot]? = some state)
    (hcommit : state.commit ⟨w.commands, slot⟩ = .ok state') :
    JsStep w { w.setSlot slot state' with
      permits := w.permits.set slot .spent
      commands := w.commands + 1
      committed := w.committed ++ [⟨w.commands, slot⟩] }
  | refused {w : World} {slot : Nat} {state : SlotState} {command : Command} (hjs : w.js = .idle)
    (hpermit : w.permits[slot]? = some .prepared) (hstate : w.slots[slot]? = some state)
    (hcommit : state.commit ⟨w.commands, slot⟩ = .error command) :
    JsStep w { w with
      permits := w.permits.set slot .spent
      commands := w.commands + 1
      refused := w.refused ++ [command]
      replied := w.replied ++ [command] }
  | give {w : World} {slot : Nat} {state : SlotState} {permit permit' : Permit} (hjs : w.js = .idle)
    (hpermit : w.permits[slot]? = some permit) (hgives : Gives permit permit')
    (hstate : w.slots[slot]? = some state) : JsStep w (w.withdraw slot state permit')
  | close {w : World} (hjs : w.js = .idle) : JsStep w { w with js := .closing, stopping := true }
  | sendStop {w : World} (hjs : w.js = .closing) (halive : w.receiver = true)
    (hroom : w.channel.length < maxQueueCapacity) :
    JsStep w { w with js := .closingSender, channel := w.channel ++ [.stop] }
  | stopFails {w : World} (hjs : w.js = .closing)
    (hrefused : w.receiver = false ∨ maxQueueCapacity ≤ w.channel.length) :
    JsStep w { w with js := .closingSender }
  | dropSender {w : World} (hjs : w.js = .closingSender) :
    JsStep w { w with js := .closed, sender := false }
  | collect {w : World} {slot : Nat} {state : SlotState} {permit : Permit} (hjs : w.js = .closed)
    (hpermit : w.permits[slot]? = some permit) (hgives : Gives permit .dropped)
    (hstate : w.slots[slot]? = some state) : JsStep w (w.withdraw slot state .dropped)

/-- The steps of the worker. -/
inductive WorkerStep : World → World → Prop
  | enter {w : World} (hworker : w.worker = .top) (hrunning : w.stopping = false) :
    WorkerStep w { w with worker := .recv }
  | leave {w : World} (hworker : w.worker = .top) (hstopping : w.stopping = true) :
    WorkerStep w { w with worker := .leaving false }
  | receive {w : World} {slot : Nat} {rest : List Message} (hworker : w.worker = .recv)
    (hchannel : w.channel = .pending slot :: rest) :
    WorkerStep w { w with worker := .waiting slot, channel := rest }
  | receiveStop {w : World} {rest : List Message} (hworker : w.worker = .recv)
    (hchannel : w.channel = .stop :: rest) :
    WorkerStep w { w with worker := .leaving false, channel := rest }
  | hangUp {w : World} (hworker : w.worker = .recv) (hchannel : w.channel = []) (hsender : w.sender = false) :
    WorkerStep w { w with worker := .leaving false }
  | wake {w : World} {slot : Nat} {state : SlotState} {command : Command} (hworker : w.worker = .waiting slot)
    (hstate : w.slots[slot]? = some state) (htaken : state.join = some command) :
    WorkerStep w { w.setSlot slot none with worker := .got command }
  | wakeEmpty {w : World} {slot : Nat} {state : SlotState} (hworker : w.worker = .waiting slot)
    (hstate : w.slots[slot]? = some state) (hready : state.ready w.stopping = true)
    (htaken : state.join = none) :
    WorkerStep w { w.setSlot slot none with worker := .sealing slot }
  | sealSlot {w : World} {slot : Nat} {state : SlotState} (hworker : w.worker = .sealing slot)
    (hstate : w.slots[slot]? = some state) : WorkerStep w { w.failSlot slot state with worker := .top }
  | run {w : World} {command : Command} (hworker : w.worker = .got command) (hrunning : w.stopping = false) :
    WorkerStep w { w with worker := .running command, executed := w.executed ++ [command] }
  | failCommand {w : World} {command : Command} (hworker : w.worker = .got command)
    (hstopping : w.stopping = true) :
    WorkerStep w { w with
      worker := .leaving false
      failed := w.failed ++ [command]
      replied := w.replied ++ [command] }
  | complete {w : World} {command : Command} (keep : Bool) (hworker : w.worker = .running command) :
    -- `complete_operation` replies, also where the operation panicked
    WorkerStep w { w with
      worker := if keep then .top else .leaving false
      replied := w.replied ++ [command] }
  | stop {w : World} {again : Bool} (hworker : w.worker = .leaving again) :
    WorkerStep w { w with worker := .draining again, stopping := true }
  | drain {w : World} {again : Bool} {slot : Nat} {rest : List Message} (hworker : w.worker = .draining again)
    (hchannel : w.channel = .pending slot :: rest) :
    WorkerStep w { w with worker := .failing again slot, channel := rest }
  | drainStop {w : World} {again : Bool} {rest : List Message} (hworker : w.worker = .draining again)
    (hchannel : w.channel = .stop :: rest) : WorkerStep w { w with channel := rest }
  | fail {w : World} {again : Bool} {slot : Nat} {state : SlotState} (hworker : w.worker = .failing again slot)
    (hstate : w.slots[slot]? = some state) :
    WorkerStep w { w.failSlot slot state with worker := .resealing again slot }
  | reseal {w : World} {again : Bool} {slot : Nat} {state : SlotState}
    (hworker : w.worker = .resealing again slot) (hstate : w.slots[slot]? = some state) :
    WorkerStep w { w.failSlot slot state with worker := .draining again }
  | drained {w : World} {again : Bool} (hworker : w.worker = .draining again) (hchannel : w.channel = []) :
    WorkerStep w { w with worker := if again then .disconnecting else .leaving true }
  | disconnect {w : World} (hworker : w.worker = .disconnecting) :
    WorkerStep w { w with worker := .discarding w.channel, channel := [], receiver := false }
  | discard {w : World} {slot : Nat} {rest : List Message} {state : SlotState}
    (hworker : w.worker = .discarding (.pending slot :: rest)) (hstate : w.slots[slot]? = some state) :
    WorkerStep w { w.failSlot slot state with worker := .discarding rest }
  | discardStop {w : World} {rest : List Message} (hworker : w.worker = .discarding (.stop :: rest)) :
    WorkerStep w { w with worker := .discarding rest }
  | finish {w : World} (hworker : w.worker = .discarding []) : WorkerStep w { w with worker := .done }

/-- Any interleaving of the two threads. -/
inductive Reachable : World → Prop
  | start : Reachable .start
  | js {w w' : World} (reached : Reachable w) (step : JsStep w w') : Reachable w'
  | worker {w w' : World} (reached : Reachable w) (step : WorkerStep w w') : Reachable w'

/-! ## Placeholders -/

def Message.slot? : Message → Option Nat
  | .pending slot => some slot
  | .stop => none

/-- The slots of some placeholders. -/
def slotsOf (messages : List Message) : List Nat := messages.filterMap Message.slot?

@[simp] theorem slotsOf_nil : slotsOf [] = [] := rfl

@[simp] theorem slotsOf_pending (slot : Nat) (rest : List Message) :
    slotsOf (.pending slot :: rest) = slot :: slotsOf rest := rfl

@[simp] theorem slotsOf_stop (rest : List Message) : slotsOf (.stop :: rest) = slotsOf rest := rfl

@[simp] theorem slotsOf_append (a b : List Message) : slotsOf (a ++ b) = slotsOf a ++ slotsOf b :=
  List.filterMap_append

namespace Worker

/-- The placeholders the worker has taken out of the channel and not dropped. -/
def held : Worker → List Nat
  | .waiting slot => [slot]
  | .sealing slot => [slot]
  | .failing _ slot => [slot]
  | .resealing _ slot => [slot]
  | .discarding messages => slotsOf messages
  | _ => []

/-- The command in the worker's hands that is neither failed nor started. -/
def hand : Worker → Option Command
  | .got command => some command
  | _ => none

/-- The command that is being executed. -/
def active : Worker → Option Command
  | .running command => some command
  | _ => none

end Worker

/-- The placeholder `reserve` has made and not sent. -/
def Js.held : Js → List Nat
  | .reserving slot => [slot]
  | _ => []

namespace World

/-- Every placeholder that has not been dropped, the oldest first. -/
def held (w : World) : List Nat := w.worker.held ++ slotsOf w.channel ++ w.js.held

/-- The slots of the executed commands, of the command in hand and of the placeholders. -/
def line (w : World) : List Nat :=
  w.executed.map Command.slot ++ (w.worker.hand.toList.map Command.slot ++ w.held)

/-- The permit of the slot still has its reservation, or a call that took it is under way. -/
def Open (w : World) (slot : Nat) : Prop :=
  w.permits[slot]? = some .held ∨ w.permits[slot]? = some .prepared

/-- The committed commands that still lie in their slots. -/
def waiting (w : World) : Multiset Command := Cells.content Option.join w.slots

end World

/-- Every committed command is in one place, and every one that has left the worker's hands
has its reply. -/
structure Accounted (w : World) : Prop where
  commands : w.waiting + (w.worker.hand.toList + (w.executed + w.failed : Multiset Command)) =
    (w.committed : Multiset Command)
  replies : (w.replied : Multiset Command) + w.worker.active.toList =
    (w.refused + (w.executed + w.failed) : Multiset Command)
  numbered : ((w.refused ++ w.committed).map Command.id).Nodup
  fresh : ∀ command ∈ w.refused ++ w.committed, command.id < w.commands

/-- The placeholders are in the order of reservation, and a command lies in a slot only while
the placeholder of this slot is there. -/
structure Ordered (w : World) : Prop where
  increasing : w.line.Pairwise (· < ·)
  known : ∀ slot ∈ w.line, slot < w.slots.length
  filled : ∀ slot command, w.slots[slot]? = some (some (some command)) →
    command.slot = slot ∧ slot ∈ w.held
  hungUp : w.receiver = false → w.channel = []
  ending : w.receiver = true → ∀ messages, w.worker ≠ .discarding messages ∧ w.worker ≠ .done

/-- A permit that can still be committed stands for a slot that was never withdrawn and
never committed to, and whose placeholder is there as long as the slot is empty. -/
structure Permitted (w : World) : Prop where
  length_eq : w.permits.length = w.slots.length
  fresh : ∀ slot, w.Open slot → slot ∉ w.withdrawn ∧ ∀ command ∈ w.committed, command.slot ≠ slot
  made : ∀ command ∈ w.committed, command.slot < w.slots.length
  bounded : ∀ slot ∈ w.withdrawn, slot < w.slots.length
  untouched : ∀ slot, w.js = .reserving slot → w.slots[slot]? = some none ∧ w.permits[slot]? = some .held
  empty : ∀ slot, w.worker = .waiting slot ∨ slot ∈ slotsOf w.channel → w.slots[slot]? = some none →
    w.Open slot
  attended : ∀ slot, w.Open slot → w.slots[slot]? = some none → slot ∈ w.held

/-! ## Commands and replies -/

namespace SlotState

theorem cancel_join (state : SlotState) : state.cancel.join = state.join := by
  cases state <;> rfl

theorem fail_fst (state : SlotState) : state.fail.1 = state.join := by
  rcases state with _ | _ | _ <;> rfl

theorem fail_snd_join (state : SlotState) : state.fail.2.join = none := by
  rcases state with _ | _ | _ <;> rfl

theorem commit_eq_ok {state state' : SlotState} {command : Command} (h : state.commit command = .ok state') :
    state = none ∧ state' = some (some command) := by
  unfold commit at h
  split at h
  · cases h
  · next hnone =>
    cases h
    exact ⟨by simpa using hnone, rfl⟩

theorem commit_eq_error {state : SlotState} {command command' : Command}
    (h : state.commit command = .error command') : command' = command ∧ state ≠ none := by
  unfold commit at h
  split at h
  · next hsome =>
    cases h
    refine ⟨rfl, ?_⟩
    rintro rfl
    cases hsome
  · cases h

end SlotState

section Content

variable {slots : List SlotState} {slot : Nat} {state : SlotState}

theorem content_cancel (h : slots[slot]? = some state) :
    Cells.content Option.join (slots.set slot state.cancel) = Cells.content Option.join slots := by
  have hset := Cells.content_set Option.join state.cancel h
  rw [SlotState.cancel_join] at hset
  exact add_right_cancel hset

theorem content_fail (h : slots[slot]? = some state) :
    Cells.content Option.join (slots.set slot state.fail.2) + state.fail.1.toList =
      Cells.content Option.join slots := by
  have hset := Cells.content_set Option.join state.fail.2 h
  rw [SlotState.fail_snd_join, Cells.single_none, add_zero, ← SlotState.fail_fst] at hset
  rw [← hset]
  cases state.fail.1 <;> rfl

theorem content_take (h : slots[slot]? = some state) :
    Cells.content Option.join (slots.set slot none) + state.join.toList =
      Cells.content Option.join slots := by
  have hset := Cells.content_set Option.join none h
  rw [Option.join_none, Cells.single_none, add_zero] at hset
  rw [← hset]
  cases state.join <;> rfl

theorem content_commit {command : Command} (h : slots[slot]? = some none) :
    Cells.content Option.join (slots.set slot (some (some command))) =
      Cells.content Option.join slots + {command} := by
  have hset := Cells.content_set Option.join (some (some command)) h
  rw [Option.join_none, Cells.single_none, add_zero] at hset
  exact hset

end Content

/-- A placeholder that is dropped settles the command of its slot. -/
theorem Accounted.failSlot {w : World} (h : Accounted w) {slot : Nat} {state : SlotState}
    (hstate : w.slots[slot]? = some state) : Accounted (w.failSlot slot state) := by
  refine ⟨?_, ?_, h.numbered, h.fresh⟩
  · have hcommands := h.commands
    rw [World.waiting, ← content_fail hstate] at hcommands
    simp only [World.waiting, World.failSlot, ← Multiset.coe_add]
    rw [← hcommands]
    ac_rfl
  · have hreplies := h.replies
    simp only [World.failSlot, ← Multiset.coe_add] at hreplies ⊢
    rw [add_right_comm, hreplies]
    ac_rfl

theorem Accounted.withdraw {w : World} (h : Accounted w) {slot : Nat} {state : SlotState}
    (hstate : w.slots[slot]? = some state) (permit : Permit) : Accounted (w.withdraw slot state permit) := by
  refine ⟨?_, h.replies, h.numbered, h.fresh⟩
  have hsame : (w.withdraw slot state permit).waiting = w.waiting := content_cancel hstate
  rw [hsame]
  exact h.commands

/-- A command with the next number is a new one. -/
theorem Accounted.push {w : World} (h : Accounted w) (slot : Nat) :
    ((w.refused ++ w.committed ++ [(⟨w.commands, slot⟩ : Command)]).map Command.id).Nodup ∧
      ∀ command ∈ w.refused ++ w.committed ++ [(⟨w.commands, slot⟩ : Command)], command.id < w.commands + 1 := by
  constructor
  · rw [List.map_append, List.nodup_append]
    refine ⟨h.numbered, by simp, ?_⟩
    intro a ha b hb
    obtain ⟨command, hcommand, rfl⟩ := List.mem_map.mp ha
    obtain rfl : b = w.commands := by simpa using hb
    have := h.fresh command hcommand
    omega
  · intro command hcommand
    rcases List.mem_append.mp hcommand with hold | hnew
    · have := h.fresh command hold
      omega
    · rw [List.mem_singleton.mp hnew]
      exact Nat.lt_succ_self _

theorem JsStep.accounted {w w' : World} (step : JsStep w w') (h : Accounted w) : Accounted w' := by
  cases step with
  | reserve =>
    refine ⟨?_, h.replies, h.numbered, h.fresh⟩
    have hcommands := h.commands
    simp only [World.waiting] at hcommands ⊢
    rwa [Cells.content_push, Option.join_none, Cells.single_none, add_zero]
  | send => exact ⟨h.commands, h.replies, h.numbered, h.fresh⟩
  | @sendFails slot state hjs hrefused hstate =>
    have hlt : slot < w.slots.length := (List.getElem?_eq_some_iff.mp hstate).1
    have hself : (w.failSlot slot state).slots[slot]? = some state.fail.2 := List.getElem?_set_self hlt
    have hafter := (h.failSlot hstate).withdraw hself .dropped
    exact ⟨hafter.commands, hafter.replies, hafter.numbered, hafter.fresh⟩
  | handOut => exact ⟨h.commands, h.replies, h.numbered, h.fresh⟩
  | withhold hjs hstopping hstate =>
    have hafter := h.withdraw hstate .spent
    exact ⟨hafter.commands, hafter.replies, hafter.numbered, hafter.fresh⟩
  | prepare => exact ⟨h.commands, h.replies, h.numbered, h.fresh⟩
  | @commit slot state state' hjs hpermit hstate hcommit =>
    obtain ⟨rfl, rfl⟩ := SlotState.commit_eq_ok hcommit
    obtain ⟨hnodup, hfresh⟩ := h.push slot
    rw [List.append_assoc] at hnodup hfresh
    refine ⟨?_, h.replies, hnodup, hfresh⟩
    have hcommands := h.commands
    simp only [World.waiting, World.setSlot] at hcommands ⊢
    rw [content_commit hstate, ← Multiset.coe_add, ← hcommands, Multiset.coe_singleton]
    ac_rfl
  | @refused slot state command hjs hpermit hstate hcommit =>
    obtain ⟨rfl, -⟩ := SlotState.commit_eq_error hcommit
    obtain ⟨hnodup, hfresh⟩ := h.push slot
    have hperm : (w.refused ++ [(⟨w.commands, slot⟩ : Command)] ++ w.committed).Perm
        (w.refused ++ w.committed ++ [(⟨w.commands, slot⟩ : Command)]) := by
      rw [List.append_assoc, List.append_assoc]
      exact List.Perm.append_left _ List.perm_append_comm
    refine ⟨h.commands, ?_, ?_, ?_⟩
    · have hreplies := h.replies
      simp only [← Multiset.coe_add] at hreplies ⊢
      rw [add_right_comm, hreplies]
      ac_rfl
    · exact (hperm.map Command.id).nodup_iff.mpr hnodup
    · intro command hcommand
      exact hfresh command (hperm.mem_iff.mp hcommand)
  | give hjs hpermit hgives hstate => exact h.withdraw hstate _
  | close => exact ⟨h.commands, h.replies, h.numbered, h.fresh⟩
  | sendStop => exact ⟨h.commands, h.replies, h.numbered, h.fresh⟩
  | stopFails => exact ⟨h.commands, h.replies, h.numbered, h.fresh⟩
  | dropSender => exact ⟨h.commands, h.replies, h.numbered, h.fresh⟩
  | collect hjs hpermit hgives hstate => exact h.withdraw hstate _

/-- A step of the worker that touches neither commands nor replies. -/
theorem Accounted.moved {w : World} (h : Accounted w) (worker : Worker) (channel : List Message)
    (stopping receiver : Bool) (hhand : worker.hand = w.worker.hand)
    (hactive : worker.active = w.worker.active) :
    Accounted { w with worker := worker, channel := channel, stopping := stopping, receiver := receiver } := by
  refine ⟨?_, ?_, h.numbered, h.fresh⟩
  · have hcommands := h.commands
    rwa [← hhand] at hcommands
  · have hreplies := h.replies
    rwa [← hactive] at hreplies

/-- Dropping a placeholder, with the worker's next place. -/
theorem Accounted.failedSlot {w : World} (h : Accounted w) {slot : Nat} {state : SlotState}
    (hstate : w.slots[slot]? = some state) (worker : Worker) (hhand : worker.hand = w.worker.hand)
    (hactive : worker.active = w.worker.active) :
    Accounted { w.failSlot slot state with worker := worker } :=
  (h.failSlot hstate).moved worker _ _ _ hhand hactive

theorem WorkerStep.accounted {w w' : World} (step : WorkerStep w w') (h : Accounted w) : Accounted w' := by
  have hcommands := h.commands
  have hreplies := h.replies
  cases step with
  | enter hworker => exact h.moved _ _ _ _ (by rw [hworker]; rfl) (by rw [hworker]; rfl)
  | leave hworker => exact h.moved _ _ _ _ (by rw [hworker]; rfl) (by rw [hworker]; rfl)
  | receive hworker => exact h.moved _ _ _ _ (by rw [hworker]; rfl) (by rw [hworker]; rfl)
  | receiveStop hworker => exact h.moved _ _ _ _ (by rw [hworker]; rfl) (by rw [hworker]; rfl)
  | hangUp hworker => exact h.moved _ _ _ _ (by rw [hworker]; rfl) (by rw [hworker]; rfl)
  | @wake slot state command hworker hstate htaken =>
    rw [hworker] at hcommands hreplies
    refine ⟨?_, hreplies, h.numbered, h.fresh⟩
    rw [World.waiting, ← content_take hstate, htaken] at hcommands
    simp only [World.waiting, World.setSlot]
    rw [← hcommands]
    simp only [Worker.hand, Option.toList_some, Option.toList_none]
    simp only [Multiset.coe_nil, zero_add]
    ac_rfl
  | @wakeEmpty slot state hworker hstate hready htaken =>
    rw [hworker] at hcommands hreplies
    refine ⟨?_, hreplies, h.numbered, h.fresh⟩
    rw [World.waiting, ← content_take hstate, htaken, Option.toList_none, Multiset.coe_nil, add_zero]
      at hcommands
    exact hcommands
  | sealSlot hworker hstate =>
    exact h.failedSlot hstate _ (by rw [hworker]; rfl) (by rw [hworker]; rfl)
  | @run command hworker hrunning =>
    rw [hworker] at hcommands hreplies
    simp only [Worker.hand, Worker.active, Option.toList_some, Option.toList_none, Multiset.coe_nil,
      add_zero] at hcommands hreplies
    refine ⟨?_, ?_, h.numbered, h.fresh⟩
    · simp only [World.waiting, Worker.hand, Option.toList_none, ← Multiset.coe_add, Multiset.coe_nil,
        zero_add] at hcommands ⊢
      rw [← hcommands]
      ac_rfl
    · simp only [Worker.active, Option.toList_some, ← Multiset.coe_add]
      rw [hreplies]
      ac_rfl
  | @failCommand command hworker hstopping =>
    rw [hworker] at hcommands hreplies
    simp only [Worker.hand, Worker.active, Option.toList_some, Option.toList_none, Multiset.coe_nil,
      add_zero] at hcommands hreplies
    refine ⟨?_, ?_, h.numbered, h.fresh⟩
    · simp only [World.waiting, Worker.hand, Option.toList_none, ← Multiset.coe_add, Multiset.coe_nil,
        zero_add] at hcommands ⊢
      rw [← hcommands]
      ac_rfl
    · simp only [Worker.active, Option.toList_none, ← Multiset.coe_add, Multiset.coe_nil, add_zero]
      rw [hreplies]
      ac_rfl
  | @complete command keep hworker =>
    rw [hworker] at hcommands hreplies
    simp only [Worker.active, Option.toList_some] at hreplies
    refine ⟨?_, ?_, h.numbered, h.fresh⟩
    · cases keep <;> exact hcommands
    · rw [← hreplies, ← Multiset.coe_add]
      cases keep <;> exact add_zero _
  | stop hworker => exact h.moved _ _ _ _ (by rw [hworker]; rfl) (by rw [hworker]; rfl)
  | drain hworker => exact h.moved _ _ _ _ (by rw [hworker]; rfl) (by rw [hworker]; rfl)
  | drainStop hworker => exact ⟨hcommands, hreplies, h.numbered, h.fresh⟩
  | fail hworker hstate =>
    exact h.failedSlot hstate _ (by rw [hworker]; rfl) (by rw [hworker]; rfl)
  | reseal hworker hstate =>
    exact h.failedSlot hstate _ (by rw [hworker]; rfl) (by rw [hworker]; rfl)
  | @drained again hworker hchannel =>
    refine h.moved _ _ _ _ ?_ ?_
    · rw [hworker]
      cases again <;> rfl
    · rw [hworker]
      cases again <;> rfl
  | disconnect hworker => exact h.moved _ _ _ _ (by rw [hworker]; rfl) (by rw [hworker]; rfl)
  | discard hworker hstate =>
    exact h.failedSlot hstate _ (by rw [hworker]; rfl) (by rw [hworker]; rfl)
  | discardStop hworker => exact h.moved _ _ _ _ (by rw [hworker]; rfl) (by rw [hworker]; rfl)
  | finish hworker => exact h.moved _ _ _ _ (by rw [hworker]; rfl) (by rw [hworker]; rfl)

/-! ## The order of the placeholders -/

theorem Ordered.worker_notMem {w : World} (h : Ordered w) {slot : Nat} (hworker : w.worker.held = [slot]) :
    slot ∉ slotsOf w.channel ++ w.js.held := by
  have hline := h.increasing
  simp only [World.line, World.held, hworker, List.singleton_append] at hline
  have htail := (List.pairwise_append.mp (List.pairwise_append.mp hline).2.1).2.1
  intro hmem
  exact absurd (List.rel_of_pairwise_cons htail hmem) (lt_irrefl _)

/-- A step that keeps the line, or takes something out of it. -/
theorem Ordered.step {w w' : World} (h : Ordered w) (hline : w'.line.Sublist w.line)
    (hlength : w'.slots.length = w.slots.length)
    (hfilled : ∀ slot command, w'.slots[slot]? = some (some (some command)) →
      command.slot = slot ∧ slot ∈ w'.held)
    (hhungUp : w'.receiver = false → w'.channel = [])
    (hending : w'.receiver = true → ∀ messages, w'.worker ≠ .discarding messages ∧ w'.worker ≠ .done) :
    Ordered w' :=
  ⟨h.increasing.sublist hline, fun slot hslot => hlength ▸ h.known slot (hline.subset hslot), hfilled,
    hhungUp, hending⟩

/-- A step after which the same placeholders are held. -/
theorem Ordered.kept {w w' : World} (h : Ordered w) (hheld : w'.held = w.held) (hslots : w'.slots = w.slots)
    (hdone : w'.executed.map Command.slot ++ w'.worker.hand.toList.map Command.slot =
      w.executed.map Command.slot ++ w.worker.hand.toList.map Command.slot)
    (hhungUp : w'.receiver = false → w'.channel = [])
    (hending : w'.receiver = true → ∀ messages, w'.worker ≠ .discarding messages ∧ w'.worker ≠ .done) :
    Ordered w' := by
  refine h.step ?_ (by rw [hslots]) ?_ hhungUp hending
  · rw [World.line, World.line, ← List.append_assoc, ← List.append_assoc, hdone, hheld]
  · rw [hheld, hslots]
    exact h.filled

theorem fail_snd_ne (state : SlotState) (command : Command) : state.fail.2 ≠ some (some command) := by
  rcases state with _ | _ | _ <;> simp [SlotState.fail]

theorem cancel_eq_filled {state : SlotState} {command : Command} (h : state.cancel = some (some command)) :
    state = some (some command) := by
  cases state with
  | none => cases h
  | some inner => exact h

/-- `cancel` leaves the line and the filled slots as they are. -/
theorem Ordered.withdraw {w : World} (h : Ordered w) {slot : Nat} {state : SlotState}
    (hstate : w.slots[slot]? = some state) (permit : Permit) : Ordered (w.withdraw slot state permit) := by
  refine h.step (List.Sublist.refl _) List.length_set ?_ h.hungUp h.ending
  intro other command hother
  rcases Cells.getElem?_set_cases hother with ⟨rfl, hcancel⟩ | ⟨-, hother⟩
  · rw [cancel_eq_filled hcancel.symm] at hstate
    exact h.filled other command hstate
  · exact h.filled other command hother

/-- The placeholder of a new slot goes behind all others. -/
theorem Ordered.reserved {w : World} (h : Ordered w) (hjs : w.js = .idle) :
    Ordered { w with
      js := .reserving w.slots.length
      slots := w.slots ++ [none]
      permits := w.permits ++ [.held] } := by
  have hheld : World.held { w with
      js := .reserving w.slots.length
      slots := w.slots ++ [none]
      permits := w.permits ++ [.held] } = w.held ++ [w.slots.length] := by
    simp [World.held, Js.held, hjs]
  have hline : World.line { w with
      js := .reserving w.slots.length
      slots := w.slots ++ [none]
      permits := w.permits ++ [.held] } = w.line ++ [w.slots.length] := by
    rw [World.line, hheld, World.line]
    simp
  refine ⟨?_, ?_, ?_, h.hungUp, h.ending⟩
  · rw [hline, List.pairwise_append]
    refine ⟨h.increasing, List.pairwise_singleton _ _, ?_⟩
    intro a ha b hb
    rw [List.mem_singleton.mp hb]
    exact h.known a ha
  · intro slot hslot
    rw [hline] at hslot
    simp only [List.length_append, List.length_singleton]
    rcases List.mem_append.mp hslot with hold | hnew
    · have := h.known slot hold
      omega
    · rw [List.mem_singleton.mp hnew]
      exact Nat.lt_succ_self _
  · intro slot command hslot
    rw [hheld]
    by_cases hlt : slot < w.slots.length
    · rw [List.getElem?_append_left hlt] at hslot
      obtain ⟨heq, hmem⟩ := h.filled slot command hslot
      exact ⟨heq, List.mem_append_left _ hmem⟩
    · rw [List.getElem?_append_right (by omega)] at hslot
      obtain ⟨_, hnone⟩ := List.getElem?_eq_some_iff.mp hslot
      simp at hnone

theorem JsStep.ordered {w w' : World} (step : JsStep w w') (h : Ordered w) (hp : Permitted w) :
    Ordered w' := by
  cases step with
  | reserve hjs hrunning => exact h.reserved hjs
  | @send slot hjs halive hroom =>
    refine h.kept ?_ rfl rfl (fun hdead => absurd (halive.symm.trans hdead) (by simp)) h.ending
    simp [World.held, Js.held, hjs]
  | @sendFails slot state hjs hrefused hstate =>
    have hnone : state = none := Option.some.inj (hstate.symm.trans (hp.untouched slot hjs).1)
    subst hnone
    have hheld : w.held = World.held { (w.failSlot slot none).withdraw slot (SlotState.fail none).2 .dropped
        with js := .idle } ++ [slot] := by
      simp [World.held, Js.held, hjs, World.withdraw, World.failSlot]
    refine h.step ?_ (by simp [World.withdraw, World.failSlot]) ?_ h.hungUp h.ending
    · rw [World.line, World.line, hheld]
      exact ((List.sublist_append_left _ _).append_left _).append_left _
    · intro other command hother
      rcases Cells.getElem?_set_cases hother with ⟨-, hcancel⟩ | ⟨hne, hother⟩
      · cases hcancel
      · rcases Cells.getElem?_set_cases hother with ⟨heq, -⟩ | ⟨-, hother⟩
        · exact absurd heq hne
        · obtain ⟨heq, hmem⟩ := h.filled other command hother
          rw [hheld] at hmem
          rcases List.mem_append.mp hmem with hmem | hmem
          · exact ⟨heq, hmem⟩
          · exact absurd (List.mem_singleton.mp hmem) hne
  | @handOut slot hjs hrunning =>
    exact h.kept (by simp [World.held, Js.held, hjs]) rfl rfl h.hungUp h.ending
  | @withhold slot state hjs hstopping hstate =>
    have hafter := h.withdraw hstate .spent
    refine hafter.kept ?_ rfl rfl hafter.hungUp hafter.ending
    simp [World.held, Js.held, hjs, World.withdraw]
  | prepare => exact ⟨h.increasing, h.known, h.filled, h.hungUp, h.ending⟩
  | @commit slot state state' hjs hpermit hstate hcommit =>
    obtain ⟨rfl, rfl⟩ := SlotState.commit_eq_ok hcommit
    refine h.step (List.Sublist.refl _) List.length_set ?_ h.hungUp h.ending
    intro other command hother
    rcases Cells.getElem?_set_cases hother with ⟨rfl, hnew⟩ | ⟨-, hother⟩
    · cases hnew
      exact ⟨rfl, hp.attended other (.inr hpermit) hstate⟩
    · exact h.filled other command hother
  | refused => exact ⟨h.increasing, h.known, h.filled, h.hungUp, h.ending⟩
  | give hjs hpermit hgives hstate => exact h.withdraw hstate _
  | close hjs =>
    exact h.kept (by simp [World.held, Js.held, hjs]) rfl rfl h.hungUp h.ending
  | sendStop hjs halive hroom =>
    refine h.kept ?_ rfl rfl (fun hdead => absurd (halive.symm.trans hdead) (by simp)) h.ending
    simp [World.held, Js.held, hjs]
  | stopFails hjs =>
    exact h.kept (by simp [World.held, Js.held, hjs]) rfl rfl h.hungUp h.ending
  | dropSender hjs =>
    exact h.kept (by simp [World.held, Js.held, hjs]) rfl rfl h.hungUp h.ending
  | collect hjs hpermit hgives hstate => exact h.withdraw hstate _

/-- A placeholder that fails its slot leaves no command in it, and may leave the line. -/
theorem Ordered.failedSlot {w : World} (h : Ordered w) {slot : Nat} {state : SlotState} (worker : Worker)
    (hheld : w.worker.held = worker.held ∨ w.worker.held = slot :: worker.held)
    (hhand : worker.hand = w.worker.hand)
    (hending : w.receiver = true → ∀ messages, worker ≠ .discarding messages ∧ worker ≠ .done) :
    Ordered { w.failSlot slot state with worker := worker } := by
  refine h.step ?_ List.length_set ?_ h.hungUp hending
  · simp only [World.line, World.held, World.failSlot, hhand]
    refine List.Sublist.append_left (List.Sublist.append_left ?_ _) _
    refine List.Sublist.append_right (List.Sublist.append_right ?_ _) _
    rcases hheld with heq | heq
    · rw [heq]
    · rw [heq]
      exact List.sublist_cons_self _ _
  · intro other command hother
    rcases Cells.getElem?_set_cases hother with ⟨-, hfailed⟩ | ⟨hne, hother⟩
    · exact absurd hfailed.symm (fail_snd_ne state command)
    · obtain ⟨heq, hmem⟩ := h.filled other command hother
      refine ⟨heq, ?_⟩
      simp only [World.held, World.failSlot, List.mem_append] at hmem ⊢
      rcases hheld with hsame | hmore
      · rwa [hsame] at hmem
      · rw [hmore, List.mem_cons] at hmem
        rcases hmem with ((hslot | hmem) | hmem) | hmem
        · exact absurd hslot hne
        · exact .inl (.inl hmem)
        · exact .inl (.inr hmem)
        · exact .inr hmem

theorem WorkerStep.ordered {w w' : World} (step : WorkerStep w w') (h : Ordered w) : Ordered w' := by
  cases step with
  | enter hworker =>
    refine h.kept ?_ rfl ?_ h.hungUp (fun _ => by simp)
    · simp [World.held, Worker.held, hworker]
    · simp [Worker.hand, hworker]
  | leave hworker =>
    refine h.kept ?_ rfl ?_ h.hungUp (fun _ => by simp)
    · simp [World.held, Worker.held, hworker]
    · simp [Worker.hand, hworker]
  | receive hworker hchannel =>
    refine h.kept ?_ rfl ?_ ?_ (fun _ => by simp)
    · simp [World.held, Worker.held, hworker, hchannel]
    · simp [Worker.hand, hworker]
    · intro hdead
      exact absurd (hchannel.symm.trans (h.hungUp hdead)) (by simp)
  | receiveStop hworker hchannel =>
    refine h.kept ?_ rfl ?_ ?_ (fun _ => by simp)
    · simp [World.held, Worker.held, hworker, hchannel]
    · simp [Worker.hand, hworker]
    · intro hdead
      exact absurd (hchannel.symm.trans (h.hungUp hdead)) (by simp)
  | hangUp hworker =>
    refine h.kept ?_ rfl ?_ h.hungUp (fun _ => by simp)
    · simp [World.held, Worker.held, hworker]
    · simp [Worker.hand, hworker]
  | @wake slot state command hworker hstate htaken =>
    obtain rfl : state = some (some command) := Option.join_eq_some_iff.mp htaken
    obtain ⟨rfl, -⟩ := h.filled slot command hstate
    refine h.step ?_ List.length_set ?_ h.hungUp (fun _ => by simp)
    · simp [World.line, World.held, World.setSlot, Worker.held, Worker.hand, hworker]
    · intro other command' hother
      rcases Cells.getElem?_set_cases hother with ⟨-, hnone⟩ | ⟨hne, hother⟩
      · cases hnone
      · obtain ⟨heq, hmem⟩ := h.filled other command' hother
        simp only [World.held, World.setSlot, Worker.held, hworker, List.mem_append, List.mem_singleton,
          List.not_mem_nil, false_or] at hmem ⊢
        rcases hmem with (hslot | hmem) | hmem
        · exact absurd hslot hne
        · exact ⟨heq, .inl hmem⟩
        · exact ⟨heq, .inr hmem⟩
  | @wakeEmpty slot state hworker hstate hready htaken =>
    have hheld : World.held { w.setSlot slot none with worker := .sealing slot } = w.held := by
      simp [World.held, World.setSlot, Worker.held, hworker]
    refine h.step ?_ List.length_set ?_ h.hungUp (fun _ => by simp)
    · rw [World.line, World.line, hheld]
      simp [World.setSlot, Worker.hand, hworker]
    · intro other command hother
      rw [hheld]
      rcases Cells.getElem?_set_cases hother with ⟨-, hnone⟩ | ⟨-, hother⟩
      · cases hnone
      · exact h.filled other command hother
  | sealSlot hworker hstate =>
    refine h.failedSlot _ (.inr ?_) ?_ (fun _ => by simp)
    · simp [Worker.held, hworker]
    · simp [Worker.hand, hworker]
  | run hworker =>
    refine h.kept ?_ rfl ?_ h.hungUp (fun _ => by simp)
    · simp [World.held, Worker.held, hworker]
    · simp [Worker.hand, hworker]
  | failCommand hworker =>
    refine h.step ?_ rfl ?_ h.hungUp (fun _ => by simp)
    · simp only [World.line, World.held, hworker, Worker.held, Worker.hand, Option.toList_some,
        Option.toList_none, List.map_nil, List.nil_append]
      exact List.Sublist.append_left (List.sublist_append_right _ _) _
    · intro other command hother
      obtain ⟨heq, hmem⟩ := h.filled other command hother
      simp only [World.held, hworker, Worker.held] at hmem ⊢
      exact ⟨heq, hmem⟩
  | @complete command keep hworker =>
    refine h.kept ?_ rfl ?_ h.hungUp ?_
    · cases keep <;> simp [World.held, Worker.held, hworker]
    · cases keep <;> simp [Worker.hand, hworker]
    · cases keep <;> simp
  | stop hworker =>
    refine h.kept ?_ rfl ?_ h.hungUp (fun _ => by simp)
    · simp [World.held, Worker.held, hworker]
    · simp [Worker.hand, hworker]
  | drain hworker hchannel =>
    refine h.kept ?_ rfl ?_ ?_ (fun _ => by simp)
    · simp [World.held, Worker.held, hworker, hchannel]
    · simp [Worker.hand, hworker]
    · intro hdead
      exact absurd (hchannel.symm.trans (h.hungUp hdead)) (by simp)
  | drainStop hworker hchannel =>
    refine h.kept ?_ rfl rfl ?_ h.ending
    · simp [World.held, hchannel]
    · intro hdead
      exact absurd (hchannel.symm.trans (h.hungUp hdead)) (by simp)
  | fail hworker hstate =>
    refine h.failedSlot _ (.inl ?_) ?_ (fun _ => by simp)
    · simp [Worker.held, hworker]
    · simp [Worker.hand, hworker]
  | reseal hworker hstate =>
    refine h.failedSlot _ (.inr ?_) ?_ (fun _ => by simp)
    · simp [Worker.held, hworker]
    · simp [Worker.hand, hworker]
  | @drained again hworker hchannel =>
    refine h.kept ?_ rfl ?_ h.hungUp ?_
    · cases again <;> simp [World.held, Worker.held, hworker]
    · cases again <;> simp [Worker.hand, hworker]
    · cases again <;> simp
  | disconnect hworker =>
    refine h.kept ?_ rfl ?_ (fun _ => rfl) (fun hlive => absurd hlive (by simp))
    · simp [World.held, Worker.held, hworker]
    · simp [Worker.hand, hworker]
  | discard hworker hstate =>
    have hdead : w.receiver ≠ true := fun hlive => (h.ending hlive _).1 hworker
    refine h.failedSlot _ (.inr ?_) ?_ (fun hlive => absurd hlive hdead)
    · simp [Worker.held, hworker]
    · simp [Worker.hand, hworker]
  | discardStop hworker =>
    have hdead : w.receiver ≠ true := fun hlive => (h.ending hlive _).1 hworker
    refine h.kept ?_ rfl ?_ h.hungUp (fun hlive => absurd hlive hdead)
    · simp [World.held, Worker.held, hworker]
    · simp [Worker.hand, hworker]
  | finish hworker =>
    have hdead : w.receiver ≠ true := fun hlive => (h.ending hlive _).1 hworker
    refine h.kept ?_ rfl ?_ h.hungUp (fun hlive => absurd hlive hdead)
    · simp [World.held, Worker.held, hworker]
    · simp [Worker.hand, hworker]

/-! ## Permits -/

theorem Accounted.mem_committed {w : World} (h : Accounted w) {slot : Nat} {command : Command}
    (hstate : w.slots[slot]? = some (some (some command))) : command ∈ w.committed := by
  have hwaiting : command ∈ w.waiting := Cells.mem_content_of_getElem? hstate rfl
  have hmem : command ∈ (w.committed : Multiset Command) := by
    rw [← h.commands]
    exact Multiset.mem_add.mpr (.inl hwaiting)
  exact hmem

theorem cancel_ne_none (state : SlotState) : state.cancel ≠ none := by
  cases state <;> simp [SlotState.cancel]

/-- Only a slot with a command in it looks empty after it has failed. -/
theorem fail_snd_eq_none {state : SlotState} (h : state.fail.2 = none) :
    ∃ command, state = some (some command) := by
  rcases state with _ | _ | command
  · cases h
  · cases h
  · exact ⟨command, rfl⟩

/-- A step that touches neither slots nor permits, and drops no placeholder. -/
theorem Permitted.kept {w w' : World} (h : Permitted w) (hslots : w'.slots = w.slots)
    (hpermits : w'.permits = w.permits) (hcommitted : w'.committed = w.committed)
    (hwithdrawn : w'.withdrawn = w.withdrawn) (hjs : ∀ slot, w'.js = .reserving slot → w.js = .reserving slot)
    (hplace : ∀ slot, w'.worker = .waiting slot ∨ slot ∈ slotsOf w'.channel →
      w.worker = .waiting slot ∨ slot ∈ slotsOf w.channel)
    (hheld : ∀ slot ∈ w.held, slot ∈ w'.held) : Permitted w' := by
  have hopen (slot : Nat) : w'.Open slot ↔ w.Open slot := by rw [World.Open, World.Open, hpermits]
  refine ⟨?_, ?_, ?_, ?_, ?_, ?_, ?_⟩
  · rw [hslots, hpermits]
    exact h.length_eq
  · intro slot hslot
    rw [hwithdrawn, hcommitted]
    exact h.fresh slot ((hopen slot).mp hslot)
  · rw [hslots, hcommitted]
    exact h.made
  · rw [hslots, hwithdrawn]
    exact h.bounded
  · intro slot hslot
    rw [hslots, hpermits]
    exact h.untouched slot (hjs slot hslot)
  · intro slot hslot hempty
    rw [hslots] at hempty
    exact (hopen slot).mpr (h.empty slot (hplace slot hslot) hempty)
  · intro slot hslot hempty
    rw [hslots] at hempty
    exact hheld slot (h.attended slot ((hopen slot).mp hslot) hempty)

/-- A step that ends one permit and leaves its slot with something in it. -/
theorem Permitted.closed {w w' : World} (h : Permitted w) {slot : Nat} {state : SlotState} {permit : Permit}
    (hlt : slot < w.slots.length) (hstate : state ≠ none) (hspent : permit = .spent ∨ permit = .dropped)
    (hslots : w'.slots = w.slots.set slot state) (hpermits : w'.permits = w.permits.set slot permit)
    (hcommitted : ∀ command ∈ w'.committed, command ∈ w.committed ∨ command.slot = slot)
    (hwithdrawn : ∀ other ∈ w'.withdrawn, other ∈ w.withdrawn ∨ other = slot)
    (hjs : ∀ other, w'.js ≠ .reserving other)
    (hplace : ∀ other, w'.worker = .waiting other ∨ other ∈ slotsOf w'.channel →
      w.worker = .waiting other ∨ other ∈ slotsOf w.channel)
    (hheld : ∀ other ∈ w.held, other ≠ slot → other ∈ w'.held) : Permitted w' := by
  have hopen (other : Nat) (hother : w'.Open other) : other ≠ slot ∧ w.Open other := by
    rw [World.Open, hpermits] at hother
    rcases hother with hother | hother
    · rcases Cells.getElem?_set_cases hother with ⟨-, hnew⟩ | ⟨hne, hother⟩
      · rcases hspent with rfl | rfl <;> cases hnew
      · exact ⟨hne, .inl hother⟩
    · rcases Cells.getElem?_set_cases hother with ⟨-, hnew⟩ | ⟨hne, hother⟩
      · rcases hspent with rfl | rfl <;> cases hnew
      · exact ⟨hne, .inr hother⟩
  have hnone (other : Nat) (hother : w'.slots[other]? = some none) :
      other ≠ slot ∧ w.slots[other]? = some none := by
    rw [hslots] at hother
    rcases Cells.getElem?_set_cases hother with ⟨-, hnew⟩ | ⟨hne, hother⟩
    · exact absurd hnew.symm hstate
    · exact ⟨hne, hother⟩
  refine ⟨?_, ?_, ?_, ?_, ?_, ?_, ?_⟩
  · rw [hslots, hpermits, List.length_set, List.length_set]
    exact h.length_eq
  · intro other hother
    obtain ⟨hne, hold⟩ := hopen other hother
    obtain ⟨hfresh, hnever⟩ := h.fresh other hold
    constructor
    · intro hmem
      rcases hwithdrawn other hmem with hmem | heq
      · exact hfresh hmem
      · exact hne heq
    · intro command hcommand heq
      rcases hcommitted command hcommand with hcommand | hslot
      · exact hnever command hcommand heq
      · exact hne (heq.symm.trans hslot)
  · intro command hcommand
    rw [hslots, List.length_set]
    rcases hcommitted command hcommand with hcommand | hslot
    · exact h.made command hcommand
    · rwa [hslot]
  · intro other hother
    rw [hslots, List.length_set]
    rcases hwithdrawn other hother with hother | rfl
    · exact h.bounded other hother
    · exact hlt
  · intro other hreserving
    exact absurd hreserving (hjs other)
  · intro other hother hempty
    obtain ⟨hne, hold⟩ := hnone other hempty
    rw [World.Open, hpermits, List.getElem?_set_ne (Ne.symm hne)]
    exact h.empty other (hplace other hother) hold
  · intro other hother hempty
    obtain ⟨hne, hold⟩ := hopen other hother
    exact hheld other (h.attended other hold (hnone other hempty).2) hne

theorem Permitted.withdraw {w : World} (h : Permitted w) {slot : Nat} {state : SlotState}
    (hstate : w.slots[slot]? = some state) {permit : Permit} (hspent : permit = .spent ∨ permit = .dropped)
    (hjs : ∀ other, w.js ≠ .reserving other) : Permitted (w.withdraw slot state permit) := by
  refine h.closed (List.getElem?_eq_some_iff.mp hstate).1 (cancel_ne_none state) hspent rfl rfl
    (fun _ hmem => .inl hmem) ?_ hjs (fun _ hplace => hplace) (fun _ hmem _ => hmem)
  intro other hother
  simpa [World.withdraw] using hother

/-- The permit of a new slot is held, and the slot is empty. -/
theorem Permitted.reserved {w : World} (h : Permitted w) (ho : Ordered w) (hjs : w.js = .idle) :
    Permitted { w with
      js := .reserving w.slots.length
      slots := w.slots ++ [none]
      permits := w.permits ++ [.held] } := by
  have hopen (slot : Nat) (hslot : World.Open { w with
        js := .reserving w.slots.length
        slots := w.slots ++ [none]
        permits := w.permits ++ [.held] } slot) :
      (slot < w.slots.length ∧ w.Open slot) ∨ slot = w.slots.length := by
    have hlt : slot < w.slots.length + 1 := by
      rcases hslot with hslot | hslot
      · have := (List.getElem?_eq_some_iff.mp hslot).1
        simpa [h.length_eq] using this
      · have := (List.getElem?_eq_some_iff.mp hslot).1
        simpa [h.length_eq] using this
    by_cases hold : slot < w.slots.length
    · refine .inl ⟨hold, ?_⟩
      rw [← h.length_eq] at hold
      simpa only [World.Open, List.getElem?_append_left hold] using hslot
    · exact .inr (by omega)
  refine ⟨?_, ?_, ?_, ?_, ?_, ?_, ?_⟩
  · simp [h.length_eq]
  · intro slot hslot
    rcases hopen slot hslot with ⟨-, hold⟩ | rfl
    · exact h.fresh slot hold
    · refine ⟨fun hmem => absurd (h.bounded _ hmem) (lt_irrefl _), ?_⟩
      intro command hcommand heq
      exact absurd (heq ▸ h.made command hcommand) (lt_irrefl _)
  · intro command hcommand
    have := h.made command hcommand
    simp only [List.length_append, List.length_singleton]
    omega
  · intro slot hslot
    have := h.bounded slot hslot
    simp only [List.length_append, List.length_singleton]
    omega
  · intro slot hslot
    obtain rfl : w.slots.length = slot := by simpa using hslot
    refine ⟨by simp, ?_⟩
    rw [← h.length_eq]
    simp
  · intro slot hslot hempty
    have hmem : slot ∈ w.line := by
      simp only [World.line, World.held, List.mem_append]
      rcases hslot with hworker | hchannel
      · have hworker' : w.worker = .waiting slot := hworker
        simp [hworker', Worker.held]
      · exact .inr (.inr (.inl (.inr hchannel)))
    have hlt := ho.known slot hmem
    rw [List.getElem?_append_left hlt] at hempty
    rw [← h.length_eq] at hlt
    simpa only [World.Open, List.getElem?_append_left hlt] using h.empty slot hslot hempty
  · intro slot hslot hempty
    simp only [World.held, Js.held, List.mem_append, List.mem_singleton]
    rcases hopen slot hslot with ⟨hlt, hold⟩ | rfl
    · rw [List.getElem?_append_left hlt] at hempty
      have := h.attended slot hold hempty
      simp only [World.held, hjs, Js.held, List.append_nil, List.mem_append] at this
      exact .inl this
    · exact .inr rfl

/-- A permit that is prepared is as open as before. -/
theorem Permitted.prepared {w : World} (h : Permitted w) {slot : Nat} (hjs : w.js = .idle)
    (hpermit : w.permits[slot]? = some .held) :
    Permitted { w with permits := w.permits.set slot .prepared } := by
  have hopen (other : Nat) : World.Open { w with permits := w.permits.set slot .prepared } other ↔
      w.Open other := by
    by_cases heq : other = slot
    · subst heq
      have hlt : other < w.permits.length := (List.getElem?_eq_some_iff.mp hpermit).1
      simp [World.Open, hpermit, List.getElem?_set_self hlt]
    · simp only [World.Open, List.getElem?_set_ne (Ne.symm heq)]
  refine ⟨?_, ?_, h.made, h.bounded, ?_, ?_, ?_⟩
  · rw [List.length_set]
    exact h.length_eq
  · intro other hother
    exact h.fresh other ((hopen other).mp hother)
  · intro other hreserving
    exact absurd (hjs.symm.trans hreserving) (by simp)
  · intro other hother hempty
    exact (hopen other).mpr (h.empty other hother hempty)
  · intro other hother hempty
    exact h.attended other ((hopen other).mp hother) hempty

theorem JsStep.permitted {w w' : World} (step : JsStep w w') (h : Permitted w) (ho : Ordered w) :
    Permitted w' := by
  cases step with
  | reserve hjs hrunning => exact h.reserved ho hjs
  | @send slot hjs halive hroom =>
    obtain ⟨hnone, hheld⟩ := h.untouched slot hjs
    refine ⟨h.length_eq, h.fresh, h.made, h.bounded, fun _ hslot => absurd hslot (by simp), ?_, ?_⟩
    · intro other hother hempty
      rcases hother with hworker | hchannel
      · exact h.empty other (.inl hworker) hempty
      · simp only [slotsOf_append, slotsOf_pending, slotsOf_nil, List.mem_append, List.mem_singleton]
          at hchannel
        rcases hchannel with hchannel | rfl
        · exact h.empty other (.inr hchannel) hempty
        · exact .inl hheld
    · intro other hother hempty
      have := h.attended other hother hempty
      simpa [World.held, Js.held, hjs] using this
  | @sendFails slot state hjs hrefused hstate =>
    refine h.closed (List.getElem?_eq_some_iff.mp hstate).1 (cancel_ne_none state.fail.2) (.inr rfl)
      (List.set_set _) rfl (fun _ hmem => .inl hmem) ?_ (by simp) (fun _ hplace => hplace) ?_
    · intro other hother
      simpa [World.withdraw, World.failSlot] using hother
    · intro other hother hne
      simp only [World.held, World.withdraw, World.failSlot, hjs, Js.held, List.mem_append,
        List.mem_singleton, List.append_nil] at hother ⊢
      rcases hother with hother | heq
      · exact hother
      · exact absurd heq hne
  | @handOut slot hjs hrunning =>
    exact h.kept rfl rfl rfl rfl (by simp) (fun _ hplace => hplace) (by simp [World.held, Js.held, hjs])
  | @withhold slot state hjs hstopping hstate =>
    have hafter := h.withdraw hstate (.inl rfl) (by simp [hjs])
    exact hafter.kept rfl rfl rfl rfl (by simp) (fun _ hplace => hplace)
      (by simp [World.held, Js.held, hjs, World.withdraw])
  | prepare hjs hpermit => exact h.prepared hjs hpermit
  | @commit slot state state' hjs hpermit hstate hcommit =>
    obtain ⟨rfl, rfl⟩ := SlotState.commit_eq_ok hcommit
    refine h.closed (List.getElem?_eq_some_iff.mp hstate).1 (by simp) (.inl rfl) rfl rfl ?_
      (fun _ hmem => .inl hmem) (by simp [hjs, World.setSlot]) (fun _ hplace => hplace)
      (fun _ hmem _ => hmem)
    intro command hcommand
    rcases List.mem_append.mp hcommand with hold | hnew
    · exact .inl hold
    · exact .inr (by rw [List.mem_singleton.mp hnew])
  | @refused slot state command hjs hpermit hstate hcommit =>
    obtain ⟨-, hsome⟩ := SlotState.commit_eq_error hcommit
    obtain ⟨hlt, hget⟩ := List.getElem?_eq_some_iff.mp hstate
    refine h.closed hlt hsome (.inl rfl) ?_ rfl (fun _ hmem => .inl hmem) (fun _ hmem => .inl hmem)
      (by simp [hjs]) (fun _ hplace => hplace) (fun _ hmem _ => hmem)
    rw [← hget, List.set_getElem_self]
  | give hjs hpermit hgives hstate =>
    refine h.withdraw hstate ?_ (by simp [hjs])
    cases hgives <;> simp
  | close hjs =>
    exact h.kept rfl rfl rfl rfl (by simp) (fun _ hplace => hplace) (by simp [World.held, Js.held, hjs])
  | sendStop hjs halive hroom =>
    refine h.kept rfl rfl rfl rfl (by simp) ?_ (by simp [World.held, Js.held, hjs])
    intro slot hplace
    simpa using hplace
  | stopFails hjs =>
    exact h.kept rfl rfl rfl rfl (by simp) (fun _ hplace => hplace) (by simp [World.held, Js.held, hjs])
  | dropSender hjs =>
    exact h.kept rfl rfl rfl rfl (by simp) (fun _ hplace => hplace) (by simp [World.held, Js.held, hjs])
  | collect hjs hpermit hgives hstate => exact h.withdraw hstate (.inr rfl) (by simp [hjs])

/-- A step of the worker that writes the slot whose placeholder it holds. The slot looks empty
afterwards only where a command was taken out of it, or the placeholder is still there. -/
theorem Permitted.taken {w w' : World} (h : Permitted w) (ha : Accounted w) (ho : Ordered w) {slot : Nat}
    {state state' : SlotState} (hstate : w.slots[slot]? = some state)
    (hslots : w'.slots = w.slots.set slot state') (hpermits : w'.permits = w.permits)
    (hcommitted : w'.committed = w.committed) (hwithdrawn : w'.withdrawn = w.withdrawn)
    (hjs : w'.js = w.js) (hchannel : w'.channel = w.channel) (hnot : ∀ other, w'.worker ≠ .waiting other)
    (hmine : slot ∉ slotsOf w.channel ++ w.js.held)
    (hempty : state' = none → slot ∈ w'.held ∨ ∃ command, state = some (some command))
    (hheld : ∀ other ∈ w.held, other ≠ slot → other ∈ w'.held) : Permitted w' := by
  have hopen (other : Nat) : w'.Open other ↔ w.Open other := by rw [World.Open, World.Open, hpermits]
  rw [List.mem_append, not_or] at hmine
  refine ⟨?_, ?_, ?_, ?_, ?_, ?_, ?_⟩
  · rw [hslots, hpermits, List.length_set]
    exact h.length_eq
  · intro other hother
    rw [hwithdrawn, hcommitted]
    exact h.fresh other ((hopen other).mp hother)
  · rw [hslots, hcommitted, List.length_set]
    exact h.made
  · rw [hslots, hwithdrawn, List.length_set]
    exact h.bounded
  · intro other hother
    rw [hjs] at hother
    have hne : slot ≠ other := by
      rintro rfl
      exact hmine.2 (by simp [hother, Js.held])
    rw [hslots, hpermits, List.getElem?_set_ne hne]
    exact h.untouched other hother
  · intro other hother hnone
    rw [hchannel] at hother
    rcases hother with hworker | hplace
    · exact absurd hworker (hnot other)
    · have hne : slot ≠ other := by
        rintro rfl
        exact hmine.1 hplace
      rw [hslots, List.getElem?_set_ne hne] at hnone
      exact (hopen other).mpr (h.empty other (.inr hplace) hnone)
  · intro other hother hnone
    rw [hslots] at hnone
    rcases Cells.getElem?_set_cases hnone with ⟨rfl, hnew⟩ | ⟨hne, hnone⟩
    · rcases hempty hnew.symm with hmem | ⟨command, rfl⟩
      · exact hmem
      · -- a command in the slot means that its permit was spent on it
        have hslot := (ho.filled other command hstate).1
        exact absurd hslot ((h.fresh other ((hopen other).mp hother)).2 command (ha.mem_committed hstate))
    · exact hheld other (h.attended other ((hopen other).mp hother) hnone) hne

theorem Permitted.failedSlot {w : World} (h : Permitted w) (ha : Accounted w) (ho : Ordered w) {slot : Nat}
    {state : SlotState} (hstate : w.slots[slot]? = some state) (worker : Worker)
    (hnot : ∀ other, worker ≠ .waiting other) (hmine : slot ∉ slotsOf w.channel ++ w.js.held)
    (hheld : ∀ other ∈ w.worker.held, other ≠ slot → other ∈ worker.held) :
    Permitted { w.failSlot slot state with worker := worker } := by
  refine h.taken ha ho hstate rfl rfl rfl rfl rfl rfl hnot hmine (fun hnone => .inr (fail_snd_eq_none hnone)) ?_
  intro other hother hne
  simp only [World.held, World.failSlot, List.mem_append] at hother ⊢
  rcases hother with (hworker | hchannel) | hjs
  · exact .inl (.inl (hheld other hworker hne))
  · exact .inl (.inr hchannel)
  · exact .inr hjs

theorem WorkerStep.permitted {w w' : World} (step : WorkerStep w w') (h : Permitted w) (ha : Accounted w)
    (ho : Ordered w) : Permitted w' := by
  cases step with
  | enter hworker =>
    refine h.kept rfl rfl rfl rfl (fun _ hjs => hjs) ?_ (by simp [World.held, Worker.held, hworker])
    simp [hworker]
  | leave hworker =>
    refine h.kept rfl rfl rfl rfl (fun _ hjs => hjs) ?_ (by simp [World.held, Worker.held, hworker])
    simp [hworker]
  | receive hworker hchannel =>
    refine h.kept rfl rfl rfl rfl (fun _ hjs => hjs) ?_ (by simp [World.held, Worker.held, hworker, hchannel])
    intro slot hplace
    right
    rw [hchannel, slotsOf_pending, List.mem_cons]
    rcases hplace with heq | hmem
    · cases heq
      exact .inl rfl
    · exact .inr hmem
  | receiveStop hworker hchannel =>
    refine h.kept rfl rfl rfl rfl (fun _ hjs => hjs) ?_ (by simp [World.held, Worker.held, hworker, hchannel])
    simp [hworker, hchannel]
  | hangUp hworker =>
    refine h.kept rfl rfl rfl rfl (fun _ hjs => hjs) ?_ (by simp [World.held, Worker.held, hworker])
    simp [hworker]
  | @wake slot state command hworker hstate htaken =>
    refine h.taken ha ho hstate rfl rfl rfl rfl rfl rfl (by simp)
      (ho.worker_notMem (by rw [hworker, Worker.held])) ?_ ?_
    · exact fun _ => .inr ⟨command, Option.join_eq_some_iff.mp htaken⟩
    · intro other hother hne
      simp only [World.held, World.setSlot, hworker, Worker.held, List.mem_append, List.mem_singleton,
        List.not_mem_nil, false_or] at hother ⊢
      rcases hother with (heq | hchannel) | hjs
      · exact absurd heq hne
      · exact .inl hchannel
      · exact .inr hjs
  | @wakeEmpty slot state hworker hstate hready htaken =>
    refine h.taken ha ho hstate rfl rfl rfl rfl rfl rfl (by simp)
      (ho.worker_notMem (by rw [hworker, Worker.held])) ?_ ?_
    · exact fun _ => .inl (by simp [World.held, World.setSlot, Worker.held])
    · intro other hother _
      simpa only [World.held, World.setSlot, hworker, Worker.held] using hother
  | @sealSlot slot state hworker hstate =>
    refine h.failedSlot ha ho hstate _ (by simp) (ho.worker_notMem (by rw [hworker, Worker.held])) ?_
    intro other hother hne
    rw [hworker] at hother
    exact absurd (List.mem_singleton.mp hother) hne
  | run hworker =>
    refine h.kept rfl rfl rfl rfl (fun _ hjs => hjs) ?_ (by simp [World.held, Worker.held, hworker])
    simp [hworker]
  | failCommand hworker =>
    refine h.kept rfl rfl rfl rfl (fun _ hjs => hjs) ?_ (by simp [World.held, Worker.held, hworker])
    simp [hworker]
  | @complete command keep hworker =>
    refine h.kept rfl rfl rfl rfl (fun _ hjs => hjs) ?_ ?_
    · cases keep <;> simp [hworker]
    · cases keep <;> simp [World.held, Worker.held, hworker]
  | stop hworker =>
    refine h.kept rfl rfl rfl rfl (fun _ hjs => hjs) ?_ (by simp [World.held, Worker.held, hworker])
    simp [hworker]
  | drain hworker hchannel =>
    refine h.kept rfl rfl rfl rfl (fun _ hjs => hjs) ?_ (by simp [World.held, Worker.held, hworker, hchannel])
    intro slot hplace
    rcases hplace with heq | hmem
    · cases heq
    · right
      rw [hchannel, slotsOf_pending]
      exact List.mem_cons_of_mem _ hmem
  | drainStop hworker hchannel =>
    refine h.kept rfl rfl rfl rfl (fun _ hjs => hjs) ?_ (by simp [World.held, hchannel])
    simp [hchannel]
  | @fail again slot state hworker hstate =>
    refine h.failedSlot ha ho hstate _ (by simp) (ho.worker_notMem (by rw [hworker, Worker.held])) ?_
    intro other hother _
    rwa [hworker] at hother
  | @reseal again slot state hworker hstate =>
    refine h.failedSlot ha ho hstate _ (by simp) (ho.worker_notMem (by rw [hworker, Worker.held])) ?_
    intro other hother hne
    rw [hworker] at hother
    exact absurd (List.mem_singleton.mp hother) hne
  | @drained again hworker hchannel =>
    refine h.kept rfl rfl rfl rfl (fun _ hjs => hjs) ?_ ?_
    · cases again <;> simp [hworker]
    · cases again <;> simp [World.held, Worker.held, hworker]
  | disconnect hworker =>
    refine h.kept rfl rfl rfl rfl (fun _ hjs => hjs) ?_ (by simp [World.held, Worker.held, hworker])
    simp [hworker]
  | @discard slot rest state hworker hstate =>
    refine h.failedSlot ha ho hstate _ (by simp) ?_ ?_
    · have hline := ho.increasing
      simp only [World.line, World.held, hworker, Worker.held, slotsOf_pending, List.cons_append] at hline
      have htail := (List.pairwise_append.mp (List.pairwise_append.mp hline).2.1).2.1
      intro hmem
      refine absurd (List.rel_of_pairwise_cons htail ?_) (lt_irrefl slot)
      rw [List.append_assoc]
      exact List.mem_append_right _ hmem
    · intro other hother hne
      rw [hworker, Worker.held, slotsOf_pending, List.mem_cons] at hother
      rcases hother with heq | hmem
      · exact absurd heq hne
      · exact hmem
  | discardStop hworker =>
    refine h.kept rfl rfl rfl rfl (fun _ hjs => hjs) ?_ (by simp [World.held, Worker.held, hworker])
    simp [hworker]
  | finish hworker =>
    refine h.kept rfl rfl rfl rfl (fun _ hjs => hjs) ?_ (by simp [World.held, Worker.held, hworker])
    simp [hworker]

/-! ## Whole runs -/

/-- What holds between any two steps. -/
structure Inv (w : World) : Prop where
  accounted : Accounted w
  ordered : Ordered w
  permitted : Permitted w

theorem Inv.of_start : Inv .start where
  accounted := ⟨rfl, rfl, by simp [World.start], by simp [World.start]⟩
  ordered := ⟨by simp [World.start, World.line, World.held, Worker.held, Worker.hand, Js.held],
    by simp [World.start, World.line, World.held, Worker.held, Worker.hand, Js.held],
    by simp [World.start], by simp [World.start], by simp [World.start]⟩
  permitted := ⟨rfl, by simp [World.start], by simp [World.start], by simp [World.start],
    by simp [World.start], by simp [World.start], by simp [World.start]⟩

theorem Reachable.inv {w : World} (reached : Reachable w) : Inv w := by
  induction reached with
  | start => exact Inv.of_start
  | js _ step ih =>
    exact ⟨step.accounted ih.accounted, step.ordered ih.ordered ih.permitted,
      step.permitted ih.permitted ih.ordered⟩
  | worker _ step ih =>
    exact ⟨step.accounted ih.accounted, step.ordered ih.ordered,
      step.permitted ih.permitted ih.accounted ih.ordered⟩

/-- Each command is committed or refused once. -/
theorem Accounted.nodup {w : World} (h : Accounted w) : (w.refused ++ w.committed).Nodup :=
  List.Nodup.of_map _ h.numbered

theorem Accounted.fates {w : World} (h : Accounted w) :
    (w.executed ++ w.failed).Nodup ∧ (∀ command ∈ w.executed ++ w.failed, command ∈ w.committed) ∧
      ∀ command ∈ w.committed, command ∈ w.executed ++ w.failed ∨ command ∈ w.waiting ∨
        w.worker.hand = some command := by
  have hnodup : (w.committed : Multiset Command).Nodup := (List.nodup_append.mp h.nodup).2.1
  rw [← h.commands] at hnodup
  have hpart : ((w.executed : Multiset Command) + w.failed).Nodup :=
    Multiset.nodup_of_le ((Multiset.le_add_left _ _).trans (Multiset.le_add_left _ _)) hnodup
  refine ⟨hpart, ?_, ?_⟩
  · intro command hcommand
    have hmem : command ∈ (w.committed : Multiset Command) := by
      rw [← h.commands]
      exact Multiset.mem_add.mpr (.inr (Multiset.mem_add.mpr (.inr hcommand)))
    exact hmem
  · intro command hcommand
    have hmem : command ∈ (w.committed : Multiset Command) := hcommand
    rw [← h.commands] at hmem
    rcases Multiset.mem_add.mp hmem with hwaiting | hmem
    · exact .inr (.inl hwaiting)
    · rcases Multiset.mem_add.mp hmem with hhand | hdone
      · exact .inr (.inr (Option.mem_toList.mp hhand))
      · exact .inl hdone

theorem Accounted.replies_once {w : World} (h : Accounted w) :
    w.replied.Nodup ∧ (∀ command ∈ w.replied, command ∈ w.refused ++ (w.executed ++ w.failed)) ∧
      ∀ command ∈ w.refused ++ (w.executed ++ w.failed), w.worker.active ≠ some command →
        command ∈ w.replied := by
  have hall : (w.refused ++ (w.executed ++ w.failed)).Nodup := by
    obtain ⟨hrefused, -, hdisjoint⟩ := List.nodup_append.mp h.nodup
    obtain ⟨hfates, hcommitted, -⟩ := h.fates
    rw [List.nodup_append]
    exact ⟨hrefused, hfates, fun a ha b hb => hdisjoint a ha b (hcommitted b hb)⟩
  have hreplies : (w.replied : Multiset Command) + w.worker.active.toList =
      (w.refused ++ (w.executed ++ w.failed) : List Command) := h.replies
  refine ⟨?_, ?_, ?_⟩
  · have hle : (w.replied : Multiset Command) ≤ (w.refused ++ (w.executed ++ w.failed) : List Command) := by
      rw [← hreplies]
      exact Multiset.le_add_right _ _
    exact Multiset.nodup_of_le hle hall
  · intro command hcommand
    have hmem : command ∈ (w.refused ++ (w.executed ++ w.failed) : Multiset Command) := by
      rw [← hreplies]
      exact Multiset.mem_add.mpr (.inl hcommand)
    exact hmem
  · intro command hcommand hactive
    have hmem : command ∈ (w.replied : Multiset Command) + w.worker.active.toList := by
      rw [hreplies]
      exact hcommand
    rcases Multiset.mem_add.mp hmem with hreplied | hrunning
    · exact hreplied
    · exact absurd (Option.mem_toList.mp hrunning) hactive

theorem Ordered.executed_increasing {w : World} (h : Ordered w) :
    (w.executed.map Command.slot).Pairwise (· < ·) :=
  (List.pairwise_append.mp h.increasing).1

/-- Nothing the JavaScript thread does takes a committed command away. -/
theorem JsStep.keeps {w w' : World} (step : JsStep w w') (h : Permitted w) :
    w.waiting ≤ w'.waiting ∧ w'.executed = w.executed ∧ w'.failed = w.failed ∧
      w'.worker = w.worker := by
  cases step with
  | reserve =>
    refine ⟨le_of_eq ?_, rfl, rfl, rfl⟩
    simp only [World.waiting]
    rw [Cells.content_push, Option.join_none, Cells.single_none, add_zero]
  | @sendFails slot state hjs hrefused hstate =>
    obtain rfl : state = none := Option.some.inj (hstate.symm.trans (h.untouched slot hjs).1)
    have hself : (w.failSlot slot none).slots[slot]? = some (SlotState.fail none).2 :=
      List.getElem?_set_self (List.getElem?_eq_some_iff.mp hstate).1
    have hcancel := content_cancel hself
    have hfail := content_fail hstate
    refine ⟨le_of_eq ?_, rfl, List.append_nil _, rfl⟩
    simp only [World.waiting]
    refine Eq.trans ?_ hcancel.symm
    simpa [SlotState.fail, World.failSlot] using hfail.symm
  | withhold hjs hstopping hstate => exact ⟨le_of_eq (content_cancel hstate).symm, rfl, rfl, rfl⟩
  | @commit slot state state' hjs hpermit hstate hcommit =>
    obtain ⟨rfl, rfl⟩ := SlotState.commit_eq_ok hcommit
    refine ⟨?_, rfl, rfl, rfl⟩
    simp only [World.waiting, World.setSlot]
    rw [content_commit hstate]
    exact Multiset.le_add_right _ _
  | give hjs hpermit hgives hstate => exact ⟨le_of_eq (content_cancel hstate).symm, rfl, rfl, rfl⟩
  | collect hjs hpermit hgives hstate => exact ⟨le_of_eq (content_cancel hstate).symm, rfl, rfl, rfl⟩
  | send => exact ⟨le_refl _, rfl, rfl, rfl⟩
  | handOut => exact ⟨le_refl _, rfl, rfl, rfl⟩
  | prepare => exact ⟨le_refl _, rfl, rfl, rfl⟩
  | refused => exact ⟨le_refl _, rfl, rfl, rfl⟩
  | close => exact ⟨le_refl _, rfl, rfl, rfl⟩
  | sendStop => exact ⟨le_refl _, rfl, rfl, rfl⟩
  | stopFails => exact ⟨le_refl _, rfl, rfl, rfl⟩
  | dropSender => exact ⟨le_refl _, rfl, rfl, rfl⟩

/-- What is committed in a step was committed to an open permit. -/
theorem JsStep.committed_open {w w' : World} (step : JsStep w w') {command : Command}
    (hnew : command ∈ w'.committed) : command ∈ w.committed ∨ w.Open command.slot := by
  cases step with
  | @commit slot state state' hjs hpermit hstate hcommit =>
    rcases List.mem_append.mp hnew with hold | hnew
    · exact .inl hold
    · rw [List.mem_singleton.mp hnew]
      exact .inr (.inr hpermit)
  | reserve => exact .inl hnew
  | send => exact .inl hnew
  | sendFails => exact .inl hnew
  | handOut => exact .inl hnew
  | withhold => exact .inl hnew
  | prepare => exact .inl hnew
  | refused => exact .inl hnew
  | give => exact .inl hnew
  | close => exact .inl hnew
  | sendStop => exact .inl hnew
  | stopFails => exact .inl hnew
  | dropSender => exact .inl hnew
  | collect => exact .inl hnew

/-! ## The end of a run -/

/-- Once the worker has ended no slot holds a command. -/
theorem Inv.nothing_waits {w : World} (h : Inv w) (hworker : w.worker = .done) :
    w.waiting = 0 ∧ w.worker.hand = none := by
  have hdead : w.receiver = false := by
    cases hreceiver : w.receiver with
    | false => rfl
    | true => exact absurd hworker (h.ordered.ending hreceiver []).2
  refine ⟨Cells.content_eq_zero ?_, by rw [hworker]; rfl⟩
  intro state hstate
  obtain ⟨slot, hslot⟩ := List.mem_iff_getElem?.mp hstate
  cases hjoin : state.join with
  | none => rfl
  | some command =>
    obtain rfl : state = some (some command) := Option.join_eq_some_iff.mp hjoin
    have hheld := (h.ordered.filled slot command hslot).2
    simp only [World.held, hworker, Worker.held, h.ordered.hungUp hdead, slotsOf_nil, List.append_nil,
      List.nil_append] at hheld
    cases hjs : w.js with
    | reserving other =>
      rw [hjs, Js.held, List.mem_singleton] at hheld
      subst hheld
      exact absurd (hslot.symm.trans (h.permitted.untouched slot hjs).1) (by simp)
    | idle => simp [hjs, Js.held] at hheld
    | sent _ => simp [hjs, Js.held] at hheld
    | closing => simp [hjs, Js.held] at hheld
    | closingSender => simp [hjs, Js.held] at hheld
    | closed => simp [hjs, Js.held] at hheld

/-- `Drop for NativeConnector` raises the flag first and drops the sender last. -/
def Js.Raised (js : Js) (stopping sender : Bool) : Prop :=
  (js = .closing ∨ js = .closingSender ∨ js = .closed → stopping = true) ∧ (js = .closed → sender = false)

theorem Reachable.raised {w : World} (reached : Reachable w) : w.js.Raised w.stopping w.sender := by
  induction reached with
  | start => simp [Js.Raised, World.start]
  | js _ step ih =>
    unfold Js.Raised at ih ⊢
    cases step with
    | close => simp
    | sendStop hjs => exact ⟨fun _ => ih.1 (.inl hjs), by simp⟩
    | stopFails hjs => exact ⟨fun _ => ih.1 (.inl hjs), by simp⟩
    | dropSender hjs => exact ⟨fun _ => ih.1 (.inr (.inl hjs)), fun _ => rfl⟩
    | reserve => simp
    | send => simp
    | sendFails => simp
    | handOut => simp
    | withhold => simp
    | prepare => exact ih
    | commit => exact ih
    | refused => exact ih
    | give => exact ih
    | collect => exact ih
  | worker _ step ih =>
    unfold Js.Raised at ih ⊢
    cases step with
    | stop => exact ⟨fun _ => rfl, ih.2⟩
    | _ => exact ih

/-- Where the worker stands: it can move, it has ended, it waits for a message that may come,
or it waits on a slot whose permit is still open. -/
theorem Inv.worker_moves {w : World} (h : Inv w) :
    (∃ w', WorkerStep w w') ∨ w.worker = .done ∨
      (w.worker = .recv ∧ w.channel = [] ∧ w.sender = true) ∨
      ∃ slot, w.worker = .waiting slot ∧ w.stopping = false ∧ w.Open slot := by
  have hslot (slot : Nat) (hheld : slot ∈ w.worker.held) : ∃ state, w.slots[slot]? = some state := by
    have hline : slot ∈ w.line := by
      simp only [World.line, World.held, List.mem_append]
      exact .inr (.inr (.inl (.inl hheld)))
    exact ⟨_, List.getElem?_eq_getElem (h.ordered.known slot hline)⟩
  cases hworker : w.worker with
  | top =>
    cases hstopping : w.stopping with
    | false => exact .inl ⟨_, .enter hworker hstopping⟩
    | true => exact .inl ⟨_, .leave hworker hstopping⟩
  | recv =>
    cases hchannel : w.channel with
    | nil =>
      cases hsender : w.sender with
      | false => exact .inl ⟨_, .hangUp hworker hchannel hsender⟩
      | true => exact .inr (.inr (.inl ⟨rfl, rfl, rfl⟩))
    | cons message rest =>
      cases message with
      | pending slot => exact .inl ⟨_, .receive hworker hchannel⟩
      | stop => exact .inl ⟨_, .receiveStop hworker hchannel⟩
  | waiting slot =>
    obtain ⟨state, hstate⟩ := hslot slot (by simp [hworker, Worker.held])
    cases hready : state.ready w.stopping with
    | true =>
      cases hjoin : state.join with
      | none => exact .inl ⟨_, .wakeEmpty hworker hstate hready hjoin⟩
      | some command => exact .inl ⟨_, .wake hworker hstate hjoin⟩
    | false =>
      simp only [SlotState.ready, Bool.or_eq_false_iff, Option.isSome_eq_false_iff, Option.isNone_iff_eq_none]
        at hready
      obtain ⟨rfl, hstopping⟩ := hready
      exact .inr (.inr (.inr ⟨slot, rfl, hstopping, h.permitted.empty slot (.inl hworker) hstate⟩))
  | sealing slot =>
    obtain ⟨state, hstate⟩ := hslot slot (by simp [hworker, Worker.held])
    exact .inl ⟨_, .sealSlot hworker hstate⟩
  | got command =>
    cases hstopping : w.stopping with
    | false => exact .inl ⟨_, .run hworker hstopping⟩
    | true => exact .inl ⟨_, .failCommand hworker hstopping⟩
  | running command => exact .inl ⟨_, .complete true hworker⟩
  | leaving again => exact .inl ⟨_, .stop hworker⟩
  | draining again =>
    cases hchannel : w.channel with
    | nil => exact .inl ⟨_, .drained hworker hchannel⟩
    | cons message rest =>
      cases message with
      | pending slot => exact .inl ⟨_, .drain hworker hchannel⟩
      | stop => exact .inl ⟨_, .drainStop hworker hchannel⟩
  | failing again slot =>
    obtain ⟨state, hstate⟩ := hslot slot (by simp [hworker, Worker.held])
    exact .inl ⟨_, .fail hworker hstate⟩
  | resealing again slot =>
    obtain ⟨state, hstate⟩ := hslot slot (by simp [hworker, Worker.held])
    exact .inl ⟨_, .reseal hworker hstate⟩
  | disconnecting => exact .inl ⟨_, .disconnect hworker⟩
  | discarding messages =>
    cases messages with
    | nil => exact .inl ⟨_, .finish hworker⟩
    | cons message rest =>
      cases message with
      | pending slot =>
        obtain ⟨state, hstate⟩ := hslot slot (by simp [hworker, Worker.held])
        exact .inl ⟨_, .discard hworker hstate⟩
      | stop => exact .inl ⟨_, .discardStop hworker⟩
  | done => exact .inr (.inl rfl)

/-- How far a worker that is to stop is from its end, the channel apart. -/
def Worker.rank : Worker → Nat
  | .done => 0
  | .discarding messages => 1 + messages.length
  | .disconnecting => 2
  | .draining again => if again then 3 else 5
  | .resealing again _ => if again then 4 else 6
  | .failing again _ => if again then 5 else 7
  | .leaving again => if again then 4 else 6
  | .top => 7
  | .recv => 7
  | .running _ => 8
  | .sealing _ => 8
  | .got _ => 9
  | .waiting _ => 10

def World.rank (w : World) : Nat := w.worker.rank + 4 * w.channel.length

/-- Each step brings a worker that is to stop nearer to its end. -/
theorem WorkerStep.rank_lt {w w' : World} (step : WorkerStep w w') (hstopping : w.stopping = true) :
    w'.rank < w.rank := by
  unfold World.rank
  cases step with
  | enter hworker hrunning => exact absurd (hstopping.symm.trans hrunning) (by simp)
  | run hworker hrunning => exact absurd (hstopping.symm.trans hrunning) (by simp)
  | leave hworker => simp [hworker, Worker.rank]
  | receive hworker hchannel =>
    simp only [hworker, hchannel, Worker.rank, List.length_cons]
    omega
  | receiveStop hworker hchannel =>
    simp only [hworker, hchannel, Worker.rank, List.length_cons]
    simp
    omega
  | hangUp hworker => simp [hworker, Worker.rank]
  | wake hworker => simp [hworker, Worker.rank, World.setSlot]
  | wakeEmpty hworker => simp [hworker, Worker.rank, World.setSlot]
  | sealSlot hworker => simp [hworker, Worker.rank, World.failSlot]
  | failCommand hworker => simp [hworker, Worker.rank]
  | @complete command keep hworker => cases keep <;> simp [hworker, Worker.rank]
  | @stop again hworker => cases again <;> simp [hworker, Worker.rank]
  | @drain again slot rest hworker hchannel =>
    simp only [hworker, hchannel, Worker.rank, List.length_cons]
    cases again <;> simp <;> omega
  | drainStop hworker hchannel => simp [hchannel]
  | @fail again slot state hworker => cases again <;> simp [hworker, Worker.rank, World.failSlot]
  | @reseal again slot state hworker => cases again <;> simp [hworker, Worker.rank, World.failSlot]
  | @drained again hworker => cases again <;> simp [hworker, Worker.rank]
  | disconnect hworker =>
    simp only [hworker, Worker.rank, List.length_nil]
    omega
  | discard hworker => simp [hworker, Worker.rank, World.failSlot]
  | discardStop hworker => simp [hworker, Worker.rank]
  | finish hworker => simp [hworker, Worker.rank]

/-- A closed connector never leaves its worker waiting. -/
theorem Inv.closed_moves {w : World} (h : Inv w) (hraised : w.js.Raised w.stopping w.sender)
    (hjs : w.js = .closed) : (∃ w', WorkerStep w w') ∨ w.worker = .done := by
  have hstopping := hraised.1 (.inr (.inr hjs))
  have hsender := hraised.2 hjs
  rcases h.worker_moves with hmoves | hdone | ⟨-, -, halive⟩ | ⟨slot, -, hrunning, -⟩
  · exact .inl hmoves
  · exact .inr hdone
  · exact absurd (halive.symm.trans hsender) (by simp)
  · exact absurd (hrunning.symm.trans hstopping) (by simp)

/-- **The command slot protocol**, in every interleaving of the two threads.

No command has two fates, and a committed one has none only while it lies in its slot or in
the worker's hands; none does once the worker has ended. The worker is held up only by an
empty channel or by an open permit, and after `close` by nothing: every step then takes it
nearer to its end. Replies are given once. Commands are executed in the order of their
slots. A slot that was released or cancelled is never committed to, and no step of the
JavaScript thread takes a committed command away. -/
theorem command_slots (w : World) (reached : Reachable w) :
    ((w.executed ++ w.failed).Nodup ∧ (∀ command ∈ w.executed ++ w.failed, command ∈ w.committed) ∧
      (∀ command ∈ w.committed, command ∈ w.executed ++ w.failed ∨ command ∈ w.waiting ∨
        w.worker.hand = some command) ∧
      (w.worker = .done → ∀ command ∈ w.committed, command ∈ w.executed ++ w.failed)) ∧
    (((∃ w', WorkerStep w w') ∨ w.worker = .done ∨
        (w.worker = .recv ∧ w.channel = [] ∧ w.sender = true) ∨
        ∃ slot, w.worker = .waiting slot ∧ w.stopping = false ∧ w.Open slot) ∧
      (w.js = .closed → (∃ w', WorkerStep w w') ∨ w.worker = .done) ∧
      (w.stopping = true → ∀ w', WorkerStep w w' → w'.rank < w.rank)) ∧
    (w.replied.Nodup ∧ (∀ command ∈ w.replied, command ∈ w.refused ++ (w.executed ++ w.failed)) ∧
      ∀ command ∈ w.refused ++ (w.executed ++ w.failed), w.worker.active ≠ some command →
        command ∈ w.replied) ∧
    (w.executed.map Command.slot).Pairwise (· < ·) ∧
    (∀ slot ∈ w.withdrawn, ¬ w.Open slot ∧ ∀ w', JsStep w w' → ∀ command ∈ w'.committed,
      command.slot = slot → command ∈ w.committed) ∧
    (∀ w', JsStep w w' → w.waiting ≤ w'.waiting ∧ w'.executed = w.executed ∧ w'.failed = w.failed ∧
      w'.worker = w.worker) := by
  have hinv := reached.inv
  obtain ⟨honce, hcommitted, hfates⟩ := hinv.accounted.fates
  refine ⟨⟨honce, hcommitted, hfates, ?_⟩, ⟨hinv.worker_moves, hinv.closed_moves reached.raised,
    fun hstopping w' step => step.rank_lt hstopping⟩, hinv.accounted.replies_once,
    hinv.ordered.executed_increasing, ?_, fun w' step => step.keeps hinv.permitted⟩
  · intro hdone command hcommand
    obtain ⟨hwaiting, hhand⟩ := hinv.nothing_waits hdone
    rcases hfates command hcommand with hfate | hmem | hmem
    · exact hfate
    · rw [hwaiting] at hmem
      exact absurd hmem (Multiset.notMem_zero _)
    · rw [hhand] at hmem
      cases hmem
  · intro slot hslot
    have hclosed : ¬ w.Open slot := fun hopen => (hinv.permitted.fresh slot hopen).1 hslot
    refine ⟨hclosed, ?_⟩
    intro w' step command hcommand heq
    rcases step.committed_open hcommand with hold | hopen
    · exact hold
    · rw [heq] at hopen
      exact absurd hopen hclosed

/-- Two slots: the second is committed first, and the first is executed first. -/
theorem command_slots_two :
    let first : Command := ⟨1, 0⟩
    let second : Command := ⟨0, 1⟩
    let w : World := ⟨false, [], true, true, [none, none], [.spent, .spent], .idle, .running second, 2,
      [second, first], [], [first, second], [], [first], []⟩
    Reachable w ∧ (w.executed ++ w.failed).Nodup ∧ (w.executed.map Command.slot).Pairwise (· < ·) := by
  intro first second w
  have h₁ := Reachable.js (Reachable.js (Reachable.js .start (.reserve rfl rfl)) (.send rfl rfl (by decide)))
    (.handOut rfl rfl)
  have h₂ := Reachable.js (Reachable.js (Reachable.js h₁ (.reserve rfl rfl)) (.send rfl rfl (by decide)))
    (.handOut rfl rfl)
  have h₃ := Reachable.js (Reachable.js h₂ (@JsStep.prepare _ 1 rfl rfl))
    (@JsStep.commit _ 1 _ _ rfl rfl rfl rfl)
  have h₄ := Reachable.js (Reachable.js h₃ (@JsStep.prepare _ 0 rfl rfl))
    (@JsStep.commit _ 0 _ _ rfl rfl rfl rfl)
  have h₅ := Reachable.worker (Reachable.worker (Reachable.worker (Reachable.worker (Reachable.worker h₄
    (.enter rfl rfl)) (.receive rfl rfl)) (.wake rfl rfl rfl)) (.run rfl rfl)) (.complete true rfl)
  have h₆ : Reachable w := Reachable.worker (Reachable.worker (Reachable.worker (Reachable.worker h₅
    (.enter rfl rfl)) (.receive rfl rfl)) (.wake rfl rfl rfl)) (.run rfl rfl)
  obtain ⟨⟨honce, -⟩, -, -, horder, -⟩ := command_slots w h₆
  exact ⟨h₆, honce, horder⟩

end Xqdb.Node.Slots
