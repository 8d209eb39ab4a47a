import Xqdb.Errors
import Xqdb.Lib.Cells

/-! `admission.rs` of the Node binding: how many commands, and how many bytes of argument
snapshots, are between the JavaScript side and the worker. A permit holds one reservation
until it is taken; what was taken is charged and in the end dropped by whoever holds it.

Every step below is one critical section of the source, so a list of steps is an
interleaving. A reservation that is on its way out of a permit (taken, released, or left
behind by a permit that is dropped) is loose until its own `drop` runs. -/

namespace Xqdb.Node

inductive Code where
  | io
  | conversion
  | internal
  | backpressure
  deriving DecidableEq, Repr

structure BindingError where
  code : Code
  message : String
  deriving DecidableEq, Repr

/-- `AdmissionState`; its `Arc` is its number in the world. -/
structure AdmissionState where
  ownerId : Nat
  commandCapacity : UInt64
  byteCapacity : UInt64
  queuedCommands : Nat
  queuedBytes : Nat
  deriving DecidableEq, Repr

structure QueueReservation where
  state : Nat
  reservedBytes : Nat
  deriving DecidableEq, Repr

/-- `live` says that the permit has not been dropped. -/
structure AdmissionPermit where
  owner : Nat
  reservation : Option QueueReservation
  live : Bool
  deriving DecidableEq, Repr

structure World where
  nextOwnerId : Nat
  states : List AdmissionState
  permits : List AdmissionPermit
  loose : List (Option QueueReservation)
  deriving DecidableEq, Repr

def World.start : World := ⟨1, [], [], []⟩

/-! ## One critical section each -/

def AdmissionState.new (ownerId : Nat) (commandCapacity byteCapacity : UInt64) : AdmissionState :=
  ⟨ownerId, commandCapacity, byteCapacity, 0, 0⟩

/-- `reserve`, where the flag was loaded as `stopping`. -/
def AdmissionState.reserve (s : AdmissionState) (stopping : Bool) : Except BindingError AdmissionState :=
  if stopping then .error ⟨.internal, "native connector worker is not running"⟩
  else if s.queuedCommands ≥ s.commandCapacity.toNat then
    .error ⟨.backpressure, s!"native connector command queue is full (capacity {s.commandCapacity})"⟩
  else .ok { s with queuedCommands := (s.queuedCommands + 1) % 2 ^ 64 }

/-- `charge_bytes`: both sums are computed before either counter is written. -/
def QueueReservation.chargeBytes (r : QueueReservation) (s : AdmissionState) (bytes : UInt64) :
    Except BindingError (AdmissionState × QueueReservation) :=
  match checkedAdd r.reservedBytes bytes.toNat, checkedAdd s.queuedBytes bytes.toNat with
  | some newReservation, some newTotal =>
    if newTotal > s.byteCapacity.toNat then
      .error ⟨.backpressure, s!"native queued snapshots would exceed maxQueuedBytes {s.byteCapacity}"⟩
    else .ok ({ s with queuedBytes := newTotal }, { r with reservedBytes := newReservation })
  | _, _ => .error ⟨.backpressure, "queued snapshot byte count overflowed"⟩

/-- `Drop for QueueReservation`; both subtractions saturate. -/
def QueueReservation.drop (r : QueueReservation) (s : AdmissionState) : AdmissionState :=
  { s with queuedCommands := s.queuedCommands - 1, queuedBytes := s.queuedBytes - r.reservedBytes }

/-- The check in front of `take_uncommitted_for` and `release_for`. -/
def World.belongs (w : World) (permit : AdmissionPermit) (owner : Nat) : Bool :=
  (w.states[permit.owner]?).map (·.ownerId) == (w.states[owner]?).map (·.ownerId) &&
    permit.owner == owner

def foreignPermit : BindingError :=
  ⟨.conversion, "native admission permit belongs to a different connector"⟩

/-- The reservation, and the permit without it. -/
def World.takeUncommittedFor (w : World) (permit : AdmissionPermit) (owner : Nat) :
    Except BindingError (QueueReservation × AdmissionPermit) :=
  if w.belongs permit owner = false then .error foreignPermit
  else match permit.reservation with
    | none => .error ⟨.conversion, "native admission permit was already consumed or released"⟩
    | some r => .ok (r, { permit with reservation := none })

/-- What `release_for` takes out of the permit, if anything is left in it. -/
def World.releaseFor (w : World) (permit : AdmissionPermit) (owner : Nat) :
    Except BindingError (Option QueueReservation × AdmissionPermit) :=
  if w.belongs permit owner = false then .error foreignPermit
  else .ok (permit.reservation, { permit with reservation := none })

/-! ## Interleavings -/

inductive Op where
  | create (commandCapacity byteCapacity : UInt64)
  | reserve (owner : Nat) (stopping : Bool)
  | take (permit owner : Nat)
  | release (permit owner : Nat)
  | dropPermit (permit : Nat)
  | charge (reservation : Nat) (bytes : UInt64)
  | drop (reservation : Nat)
  deriving DecidableEq, Repr

abbrev Reply := Except BindingError Unit

/-- A refusal changes nothing. -/
def World.refuse (w : World) (e : BindingError) : Reply × World := (.error e, w)

/-- A permit that is still there. -/
def World.permit? (w : World) (p : Nat) : Option AdmissionPermit :=
  match w.permits[p]? with
  | some permit => if permit.live then some permit else none
  | none => none

/-- A reservation that is loose. -/
def World.loose? (w : World) (r : Nat) : Option QueueReservation := w.loose[r]?.join

/-- One step, where the objects it names are there. -/
def World.apply (w : World) : Op → Option (Reply × World)
  | .create commandCapacity byteCapacity =>
    some (.ok (), { w with
      nextOwnerId := (w.nextOwnerId + 1) % 2 ^ 64
      states := w.states ++ [.new w.nextOwnerId commandCapacity byteCapacity] })
  | .reserve owner stopping => do
    let s ← w.states[owner]?
    match s.reserve stopping with
    | .error e => some (w.refuse e)
    | .ok s => some (.ok (), { w with
        states := w.states.set owner s
        permits := w.permits ++ [⟨owner, some ⟨owner, 0⟩, true⟩] })
  | .take p owner => do
    let permit ← w.permit? p
    match w.takeUncommittedFor permit owner with
    | .error e => some (w.refuse e)
    | .ok taken => some (.ok (), { w with
        permits := w.permits.set p taken.2
        loose := w.loose ++ [some taken.1] })
  | .release p owner => do
    let permit ← w.permit? p
    match w.releaseFor permit owner with
    | .error e => some (w.refuse e)
    | .ok released => some (.ok (), { w with
        permits := w.permits.set p released.2
        loose := w.loose ++ [released.1] })
  | .dropPermit p => do
    let permit ← w.permit? p
    some (.ok (), { w with
      permits := w.permits.set p { permit with reservation := none, live := false }
      loose := w.loose ++ [permit.reservation] })
  | .charge r bytes => do
    let reservation ← w.loose? r
    let s ← w.states[reservation.state]?
    match reservation.chargeBytes s bytes with
    | .error e => some (w.refuse e)
    | .ok charged => some (.ok (), { w with
        states := w.states.set reservation.state charged.1
        loose := w.loose.set r (some charged.2) })
  | .drop r => do
    let reservation ← w.loose? r
    let s ← w.states[reservation.state]?
    some (.ok (), { w with
      states := w.states.set reservation.state (reservation.drop s)
      loose := w.loose.set r none })

/-- What each step of an interleaving answered. -/
abbrev Log := List (Op × Reply)

/-- Everything that can happen, one step after another. -/
inductive Run : Log → World → Prop
  | start : Run [] .start
  | step {log : Log} {w w' : World} {op : Op} {reply : Reply} (run : Run log w)
      (happens : w.apply op = some (reply, w')) : Run (log ++ [(op, reply)]) w'

/-- The reservations nobody has dropped, wherever they are. -/
def World.live (w : World) : Multiset QueueReservation :=
  Cells.content (·.reservation) w.permits + Cells.content id w.loose

/-- How many of some reservations are one connector's. -/
def commandsOf (reservations : Multiset QueueReservation) (owner : Nat) : Nat :=
  (reservations.filter (·.state = owner)).card

/-- The bytes charged to them. -/
def bytesOf (reservations : Multiset QueueReservation) (owner : Nat) : Nat :=
  ((reservations.filter (·.state = owner)).map (·.reservedBytes)).sum

/-! ## What a step does -/

/-- The steps that are not refused, by what they do to the reservations. -/
inductive Effect (w : World) : Op → World → Prop
  | created (commandCapacity byteCapacity : UInt64) :
    Effect w (.create commandCapacity byteCapacity) { w with
      nextOwnerId := (w.nextOwnerId + 1) % 2 ^ 64
      states := w.states ++ [.new w.nextOwnerId commandCapacity byteCapacity] }
  | reserved {owner : Nat} {s : AdmissionState} (hstate : w.states[owner]? = some s)
    (hroom : s.queuedCommands < s.commandCapacity.toNat) :
    Effect w (.reserve owner false) { w with
      states := w.states.set owner { s with queuedCommands := (s.queuedCommands + 1) % 2 ^ 64 }
      permits := w.permits ++ [⟨owner, some ⟨owner, 0⟩, true⟩] }
  | moved {op : Op} {p : Nat} {permit : AdmissionPermit} (live : Bool)
    (hpermit : w.permits[p]? = some permit)
    (hop : op = .dropPermit p ∨ op = .release p permit.owner ∨
      op = .take p permit.owner ∧ permit.reservation.isSome) :
    Effect w op { w with
      permits := w.permits.set p { permit with reservation := none, live := live }
      loose := w.loose ++ [permit.reservation] }
  | charged {r : Nat} {reservation charged : QueueReservation} {s s' : AdmissionState} {bytes : UInt64}
    (hloose : w.loose[r]? = some (some reservation)) (hstate : w.states[reservation.state]? = some s)
    (hcharge : reservation.chargeBytes s bytes = .ok (s', charged)) :
    Effect w (.charge r bytes) { w with
      states := w.states.set reservation.state s'
      loose := w.loose.set r (some charged) }
  | dropped {r : Nat} {reservation : QueueReservation} {s : AdmissionState}
    (hloose : w.loose[r]? = some (some reservation)) (hstate : w.states[reservation.state]? = some s) :
    Effect w (.drop r) { w with
      states := w.states.set reservation.state (reservation.drop s)
      loose := w.loose.set r none }

theorem permit?_eq_some {w : World} {p : Nat} {permit : AdmissionPermit} (h : w.permit? p = some permit) :
    w.permits[p]? = some permit ∧ permit.live = true := by
  unfold World.permit? at h
  split at h
  · next found hfound =>
    split at h
    · next hlive =>
      obtain rfl := Option.some.inj h
      exact ⟨hfound, hlive⟩
    · cases h
  · cases h

theorem loose?_eq_some {w : World} {r : Nat} {reservation : QueueReservation}
    (h : w.loose? r = some reservation) : w.loose[r]? = some (some reservation) := by
  unfold World.loose? at h
  rwa [Option.join_eq_some_iff] at h

theorem belongs_eq_true {w : World} {permit : AdmissionPermit} {owner : Nat}
    (h : ¬ w.belongs permit owner = false) : permit.owner = owner := by
  unfold World.belongs at h
  simp only [Bool.not_eq_false, Bool.and_eq_true, beq_iff_eq] at h
  exact h.2

/-- **Every step**: a refusal that changes nothing, or one of the effects. -/
theorem apply_cases {w w' : World} {op : Op} {reply : Reply} (h : w.apply op = some (reply, w')) :
    (∃ e, reply = .error e ∧ w' = w) ∨ (reply = .ok () ∧ Effect w op w') := by
  cases op with
  | create commandCapacity byteCapacity =>
    cases h
    exact .inr ⟨rfl, .created _ _⟩
  | reserve owner stopping =>
    obtain ⟨s, hstate, h⟩ := Option.bind_eq_some_iff.mp h
    cases hreserve : s.reserve stopping with
    | error e =>
      rw [hreserve] at h
      cases h
      exact .inl ⟨e, rfl, rfl⟩
    | ok s' =>
      rw [hreserve] at h
      cases h
      unfold AdmissionState.reserve at hreserve
      split at hreserve
      · cases hreserve
      next hstopping =>
      split at hreserve
      · cases hreserve
      next hroom =>
      cases hreserve
      obtain rfl : stopping = false := by simpa using hstopping
      exact .inr ⟨rfl, .reserved hstate (by omega)⟩
  | take p owner =>
    obtain ⟨permit, hpermit, h⟩ := Option.bind_eq_some_iff.mp h
    obtain ⟨hfound, hlive⟩ := permit?_eq_some hpermit
    cases htake : w.takeUncommittedFor permit owner with
    | error e =>
      rw [htake] at h
      cases h
      exact .inl ⟨e, rfl, rfl⟩
    | ok taken =>
      rw [htake] at h
      cases h
      unfold World.takeUncommittedFor at htake
      split at htake
      · cases htake
      next hbelongs =>
      obtain rfl := belongs_eq_true hbelongs
      cases hreservation : permit.reservation with
      | none =>
        rw [hreservation] at htake
        cases htake
      | some r =>
        rw [hreservation] at htake
        cases htake
        have heffect : Effect w (.take p permit.owner) _ :=
          .moved permit.live hfound (.inr (.inr ⟨rfl, by simp [hreservation]⟩))
        rw [hreservation] at heffect
        exact .inr ⟨rfl, heffect⟩
  | release p owner =>
    obtain ⟨permit, hpermit, h⟩ := Option.bind_eq_some_iff.mp h
    obtain ⟨hfound, hlive⟩ := permit?_eq_some hpermit
    cases hrelease : w.releaseFor permit owner with
    | error e =>
      rw [hrelease] at h
      cases h
      exact .inl ⟨e, rfl, rfl⟩
    | ok released =>
      rw [hrelease] at h
      cases h
      unfold World.releaseFor at hrelease
      split at hrelease
      · cases hrelease
      next hbelongs =>
      obtain rfl := belongs_eq_true hbelongs
      cases hrelease
      exact .inr ⟨rfl, .moved permit.live hfound (.inr (.inl rfl))⟩
  | dropPermit p =>
    obtain ⟨permit, hpermit, h⟩ := Option.bind_eq_some_iff.mp h
    obtain ⟨hfound, -⟩ := permit?_eq_some hpermit
    cases h
    exact .inr ⟨rfl, .moved false hfound (.inl rfl)⟩
  | charge r bytes =>
    obtain ⟨reservation, hloose, h⟩ := Option.bind_eq_some_iff.mp h
    obtain ⟨s, hstate, h⟩ := Option.bind_eq_some_iff.mp h
    cases hcharge : reservation.chargeBytes s bytes with
    | error e =>
      rw [hcharge] at h
      cases h
      exact .inl ⟨e, rfl, rfl⟩
    | ok charged =>
      rw [hcharge] at h
      cases h
      exact .inr ⟨rfl, .charged (loose?_eq_some hloose) hstate hcharge⟩
  | drop r =>
    obtain ⟨reservation, hloose, h⟩ := Option.bind_eq_some_iff.mp h
    obtain ⟨s, hstate, h⟩ := Option.bind_eq_some_iff.mp h
    cases h
    exact .inr ⟨rfl, .dropped (loose?_eq_some hloose) hstate⟩

/-! ## The bag of live reservations -/

@[simp] theorem commandsOf_add (a b : Multiset QueueReservation) (owner : Nat) :
    commandsOf (a + b) owner = commandsOf a owner + commandsOf b owner := by
  simp [commandsOf, Multiset.filter_add]

@[simp] theorem bytesOf_add (a b : Multiset QueueReservation) (owner : Nat) :
    bytesOf (a + b) owner = bytesOf a owner + bytesOf b owner := by
  simp [bytesOf, Multiset.filter_add]

@[simp] theorem commandsOf_single (r : QueueReservation) (owner : Nat) :
    commandsOf {r} owner = if r.state = owner then 1 else 0 := by
  unfold commandsOf
  split
  · next h => simp [Multiset.filter_singleton, h]
  · next h => simp [Multiset.filter_singleton, h]

@[simp] theorem bytesOf_single (r : QueueReservation) (owner : Nat) :
    bytesOf {r} owner = if r.state = owner then r.reservedBytes else 0 := by
  unfold bytesOf
  split
  · next h => simp [Multiset.filter_singleton, h]
  · next h => simp [Multiset.filter_singleton, h]

theorem chargeBytes_eq_ok {r r' : QueueReservation} {s s' : AdmissionState} {bytes : UInt64}
    (h : r.chargeBytes s bytes = .ok (s', r')) :
    s' = { s with queuedBytes := s.queuedBytes + bytes.toNat } ∧
      r' = { r with reservedBytes := r.reservedBytes + bytes.toNat } ∧
      s.queuedBytes + bytes.toNat ≤ s.byteCapacity.toNat := by
  unfold QueueReservation.chargeBytes at h
  split at h
  · next newReservation newTotal hreservation htotal =>
    obtain ⟨rfl, -⟩ := checkedAdd_eq_some.mp hreservation
    obtain ⟨rfl, -⟩ := checkedAdd_eq_some.mp htotal
    split at h
    · cases h
    · cases h
      exact ⟨rfl, rfl, by omega⟩
  · cases h

theorem live_reserved (w : World) (states : List AdmissionState) (owner : Nat) :
    World.live { w with states := states, permits := w.permits ++ [⟨owner, some ⟨owner, 0⟩, true⟩] } =
      w.live + {⟨owner, 0⟩} := by
  simp only [World.live, Cells.content_push, Cells.single_some]
  ac_rfl

theorem live_moved {w : World} {p : Nat} {permit : AdmissionPermit} (live : Bool)
    (h : w.permits[p]? = some permit) :
    World.live { w with
      permits := w.permits.set p { permit with reservation := none, live := live }
      loose := w.loose ++ [permit.reservation] } = w.live := by
  have hset := Cells.content_set AdmissionPermit.reservation
    { permit with reservation := none, live := live } h
  simp only [Cells.single_none, add_zero] at hset
  simp only [World.live, Cells.content_push, id_eq]
  rw [← hset]
  ac_rfl

theorem live_changed {w : World} {r : Nat} {reservation : QueueReservation} (states : List AdmissionState)
    (new : Option QueueReservation) (h : w.loose[r]? = some (some reservation)) :
    World.live { w with states := states, loose := w.loose.set r new } + {reservation} =
      w.live + Cells.single new := by
  have hset := Cells.content_set id new h
  simp only [id_eq, Cells.single_some] at hset
  simp only [World.live]
  rw [add_assoc, hset]
  ac_rfl

/-! ## The counters -/

/-- The counters say what is live, and stay within their capacities. -/
structure Sound (w : World) : Prop where
  commands : ∀ owner s, w.states[owner]? = some s → s.queuedCommands = commandsOf w.live owner
  bytes : ∀ owner s, w.states[owner]? = some s → s.queuedBytes = bytesOf w.live owner
  commandBound : ∀ s ∈ w.states, s.queuedCommands ≤ s.commandCapacity.toNat
  byteBound : ∀ s ∈ w.states, s.queuedBytes ≤ s.byteCapacity.toNat
  known : ∀ r ∈ w.live, r.state < w.states.length

theorem Sound.of_start : Sound .start where
  commands owner s h := by simp [World.start] at h
  bytes owner s h := by simp [World.start] at h
  commandBound s h := by simp [World.start] at h
  byteBound s h := by simp [World.start] at h
  known r h := by simp [World.start, World.live] at h

/-- Reservations that nobody holds yet belong to no new connector. -/
theorem Sound.unknown {w : World} (h : Sound w) {owner : Nat} (howner : w.states.length ≤ owner) :
    commandsOf w.live owner = 0 ∧ bytesOf w.live owner = 0 := by
  have hnone : w.live.filter (·.state = owner) = 0 := by
    rw [Multiset.filter_eq_nil]
    intro r hr heq
    have := h.known r hr
    omega
  simp [commandsOf, bytesOf, hnone]

/-- A step that exchanges `gone` for `come`, both of one connector, and writes the counters of
this connector accordingly. -/
theorem Sound.exchange {w w' : World} (h : Sound w) {owner : Nat} {s s' : AdmissionState}
    {gone come : Multiset QueueReservation} (hstate : w.states[owner]? = some s)
    (hstates : w'.states = w.states.set owner s') (hlive : w'.live + gone = w.live + come)
    (hgone : ∀ r ∈ gone, r.state = owner) (hcome : ∀ r ∈ come, r.state = owner)
    (hcommands : s'.queuedCommands + gone.card = s.queuedCommands + come.card)
    (hbytes : s'.queuedBytes + (gone.map (·.reservedBytes)).sum =
      s.queuedBytes + (come.map (·.reservedBytes)).sum)
    (hcommandBound : s'.queuedCommands ≤ s'.commandCapacity.toNat)
    (hbyteBound : s'.queuedBytes ≤ s'.byteCapacity.toNat) : Sound w' := by
  have hlt : owner < w.states.length := (List.getElem?_eq_some_iff.mp hstate).1
  have hself (bag : Multiset QueueReservation) (hbag : ∀ r ∈ bag, r.state = owner) (other : Nat) :
      bag.filter (·.state = other) = if other = owner then bag else 0 := by
    split
    · next heq =>
      subst heq
      rw [Multiset.filter_eq_self]
      exact hbag
    · next hne =>
      rw [Multiset.filter_eq_nil]
      intro r hr heq
      exact hne (heq.symm.trans (hbag r hr))
  have hcount (other : Nat) : commandsOf w'.live other + (if other = owner then gone.card else 0) =
      commandsOf w.live other + (if other = owner then come.card else 0) := by
    have := congrArg (commandsOf · other) hlive
    simp only [commandsOf_add] at this
    rw [commandsOf, commandsOf, commandsOf, commandsOf, hself gone hgone, hself come hcome] at this
    split <;> simp_all [commandsOf]
  have hsum (other : Nat) :
      bytesOf w'.live other + (if other = owner then (gone.map (·.reservedBytes)).sum else 0) =
      bytesOf w.live other + (if other = owner then (come.map (·.reservedBytes)).sum else 0) := by
    have := congrArg (bytesOf · other) hlive
    simp only [bytesOf_add] at this
    rw [bytesOf, bytesOf, bytesOf, bytesOf, hself gone hgone, hself come hcome] at this
    split <;> simp_all [bytesOf]
  have hget (other : Nat) (t : AdmissionState) (ht : w'.states[other]? = some t) :
      (other = owner ∧ t = s') ∨ (other ≠ owner ∧ w.states[other]? = some t) := by
    rw [hstates] at ht
    exact Cells.getElem?_set_cases ht
  refine ⟨?_, ?_, ?_, ?_, ?_⟩
  · intro other t ht
    have hothers := hcount other
    rcases hget other t ht with ⟨rfl, rfl⟩ | ⟨hne, ht⟩
    · have := h.commands other s hstate
      simp only [if_true] at hothers
      omega
    · rw [if_neg hne, if_neg hne] at hothers
      have := h.commands other t ht
      omega
  · intro other t ht
    have hothers := hsum other
    rcases hget other t ht with ⟨rfl, rfl⟩ | ⟨hne, ht⟩
    · have := h.bytes other s hstate
      simp only [if_true] at hothers
      omega
    · rw [if_neg hne, if_neg hne] at hothers
      have := h.bytes other t ht
      omega
  · intro t ht
    rw [hstates] at ht
    rcases List.mem_or_eq_of_mem_set ht with ht | rfl
    · exact h.commandBound t ht
    · exact hcommandBound
  · intro t ht
    rw [hstates] at ht
    rcases List.mem_or_eq_of_mem_set ht with ht | rfl
    · exact h.byteBound t ht
    · exact hbyteBound
  · intro r hr
    rw [hstates, List.length_set]
    have hmem : r ∈ w.live + come := hlive ▸ Multiset.mem_add.mpr (.inl hr)
    rcases Multiset.mem_add.mp hmem with hold | hnew
    · exact h.known r hold
    · rw [hcome r hnew]
      exact hlt

/-- A loose reservation is counted, and so are its bytes. -/
theorem Sound.covers {w : World} (h : Sound w) {r : Nat} {reservation : QueueReservation}
    {s : AdmissionState} (hloose : w.loose[r]? = some (some reservation))
    (hstate : w.states[reservation.state]? = some s) :
    1 ≤ s.queuedCommands ∧ reservation.reservedBytes ≤ s.queuedBytes := by
  have hrest := live_changed w.states none hloose
  rw [Cells.single_none, add_zero] at hrest
  have hcommands := congrArg (commandsOf · reservation.state) hrest
  have hbytes := congrArg (bytesOf · reservation.state) hrest
  simp only [commandsOf_add, bytesOf_add, commandsOf_single, bytesOf_single, if_true] at hcommands hbytes
  rw [h.commands _ s hstate, h.bytes _ s hstate]
  omega

/-- One step keeps the counters right. -/
theorem Effect.sound {w w' : World} {op : Op} (heffect : Effect w op w') (h : Sound w) : Sound w' := by
  have hcapacity (capacity : UInt64) : capacity.toNat < 2 ^ 64 := capacity.toNat_lt
  cases heffect with
  | created commandCapacity byteCapacity =>
    have hget (owner : Nat) (t : AdmissionState)
        (ht : (w.states ++ [AdmissionState.new w.nextOwnerId commandCapacity byteCapacity])[owner]? = some t) :
        w.states[owner]? = some t ∨
          (w.states.length ≤ owner ∧ t = .new w.nextOwnerId commandCapacity byteCapacity) := by
      by_cases hlt : owner < w.states.length
      · rw [List.getElem?_append_left hlt] at ht
        exact .inl ht
      · rw [List.getElem?_append_right (by omega)] at ht
        obtain ⟨hindex, hnew⟩ := List.getElem?_eq_some_iff.mp ht
        simp only [List.getElem_singleton] at hnew
        exact .inr ⟨by omega, hnew.symm⟩
    refine ⟨?_, ?_, ?_, ?_, ?_⟩
    · intro owner t ht
      rcases hget owner t ht with hold | ⟨howner, rfl⟩
      · exact h.commands owner t hold
      · exact (h.unknown howner).1.symm
    · intro owner t ht
      rcases hget owner t ht with hold | ⟨howner, rfl⟩
      · exact h.bytes owner t hold
      · exact (h.unknown howner).2.symm
    · intro t ht
      rcases List.mem_append.mp ht with hold | hnew
      · exact h.commandBound t hold
      · rw [List.mem_singleton.mp hnew]
        exact Nat.zero_le _
    · intro t ht
      rcases List.mem_append.mp ht with hold | hnew
      · exact h.byteBound t hold
      · rw [List.mem_singleton.mp hnew]
        exact Nat.zero_le _
    · intro r hr
      have := h.known r hr
      simp only [List.length_append]
      omega
  | @reserved owner s hstate hroom =>
    have hsmall := hcapacity s.commandCapacity
    have hbound := h.byteBound s (List.mem_of_getElem? hstate)
    refine h.exchange hstate rfl ((add_zero _).trans (live_reserved w _ owner)) (by simp) (by simp)
      ?_ ?_ ?_ hbound
    · simp only [Multiset.card_zero, Multiset.card_singleton]
      rw [Nat.mod_eq_of_lt (by omega)]
    · simp
    · simp only
      rw [Nat.mod_eq_of_lt (by omega)]
      omega
  | moved live hpermit hop =>
    have hsame := live_moved live hpermit
    refine ⟨?_, ?_, h.commandBound, h.byteBound, ?_⟩
    · rw [hsame]
      exact h.commands
    · rw [hsame]
      exact h.bytes
    · rw [hsame]
      exact h.known
  | @charged r reservation charged s s' bytes hloose hstate hcharge =>
    obtain ⟨rfl, rfl, hbyteBound⟩ := chargeBytes_eq_ok hcharge
    refine h.exchange hstate rfl (live_changed _ (some _) hloose) (by simp) (by simp) rfl ?_
      (h.commandBound s (List.mem_of_getElem? hstate)) hbyteBound
    simp only [Cells.single_some, Multiset.map_singleton, Multiset.sum_singleton]
    omega
  | @dropped r reservation s hstate hloose =>
    obtain ⟨hcommands, hbytes⟩ := h.covers hstate hloose
    have hcommandBound := h.commandBound s (List.mem_of_getElem? hloose)
    have hbyteBound := h.byteBound s (List.mem_of_getElem? hloose)
    refine h.exchange hloose rfl (live_changed _ none hstate) (by simp) (by simp) ?_ ?_ ?_ ?_
    · simp only [QueueReservation.drop, Multiset.card_singleton, Cells.single_none, Multiset.card_zero]
      omega
    · simp only [QueueReservation.drop, Multiset.map_singleton, Multiset.sum_singleton,
        Cells.single_none, Multiset.map_zero, Multiset.sum_zero]
      omega
    · simp only [QueueReservation.drop]
      omega
    · simp only [QueueReservation.drop]
      omega

theorem Run.sound {log : Log} {w : World} (run : Run log w) : Sound w := by
  induction run with
  | start => exact Sound.of_start
  | step _ happens ih =>
    rcases apply_cases happens with ⟨_, _, rfl⟩ | ⟨_, heffect⟩
    · exact ih
    · exact heffect.sound ih

/-! ## Permits -/

/-- A successful `take` of permit `p`. -/
def takes (p : Nat) (entry : Op × Reply) : Bool :=
  match entry with
  | (.take q _, .ok ()) => q == p
  | _ => false

/-- What the log says about the permits: a permit with a reservation was never taken, none was
taken twice, all were taken by their owners, and a dropped permit holds nothing. -/
structure Taken (log : Log) (w : World) : Prop where
  fresh : ∀ p, (∀ permit, w.permits[p]? = some permit → permit.reservation.isSome) → log.countP (takes p) = 0
  once : ∀ p, log.countP (takes p) ≤ 1
  owned : ∀ p owner, (Op.take p owner, Except.ok ()) ∈ log →
    ∃ permit, w.permits[p]? = some permit ∧ permit.owner = owner
  gone : ∀ permit ∈ w.permits, permit.live = false → permit.reservation = none

/-- An entry that is no `take`, where the permits keep their owners and none gets its
reservation back. -/
theorem Taken.other {log : Log} {w w' : World} {entry : Op × Reply} (h : Taken log w)
    (hentry : ∀ p, takes p entry = false)
    (hfresh : ∀ p : Nat,
      (∀ permit : AdmissionPermit, w'.permits[p]? = some permit → permit.reservation.isSome) →
      ∀ permit : AdmissionPermit, w.permits[p]? = some permit → permit.reservation.isSome)
    (hkept : ∀ (p : Nat) (permit : AdmissionPermit), w.permits[p]? = some permit →
      ∃ permit', w'.permits[p]? = some permit' ∧ permit'.owner = permit.owner)
    (hgone : ∀ permit ∈ w'.permits, permit.live = false → permit.reservation = none) :
    Taken (log ++ [entry]) w' := by
  have hcount (p : Nat) : (log ++ [entry]).countP (takes p) = log.countP (takes p) := by
    simp [List.countP_append, hentry p]
  refine ⟨?_, ?_, ?_, hgone⟩
  · intro p hp
    rw [hcount]
    exact h.fresh p (hfresh p hp)
  · intro p
    rw [hcount]
    exact h.once p
  · intro p owner hmem
    rcases List.mem_append.mp hmem with hold | hnew
    · obtain ⟨permit, hpermit, rfl⟩ := h.owned p owner hold
      exact hkept p permit hpermit
    · have := hentry p
      rw [← List.mem_singleton.mp hnew] at this
      simp [takes] at this

theorem Taken.step {log : Log} {w w' : World} {op : Op} (h : Taken log w) (heffect : Effect w op w') :
    Taken (log ++ [(op, .ok ())]) w' := by
  cases heffect with
  | created => exact h.other (fun _ => rfl) (fun _ hp => hp) (fun p permit hp => ⟨permit, hp, rfl⟩) h.gone
  | reserved =>
    refine h.other (fun _ => rfl) ?_ ?_ ?_
    · intro p hp permit hpermit
      exact hp permit (by rw [List.getElem?_append_left (List.getElem?_eq_some_iff.mp hpermit).1, hpermit])
    · intro p permit hpermit
      exact ⟨permit, by rw [List.getElem?_append_left (List.getElem?_eq_some_iff.mp hpermit).1, hpermit],
        rfl⟩
    · intro permit hmem hdead
      rcases List.mem_append.mp hmem with hold | hnew
      · exact h.gone permit hold hdead
      · rw [List.mem_singleton.mp hnew] at hdead
        cases hdead
  | charged => exact h.other (fun _ => rfl) (fun _ hp => hp) (fun p permit hp => ⟨permit, hp, rfl⟩) h.gone
  | dropped => exact h.other (fun _ => rfl) (fun _ hp => hp) (fun p permit hp => ⟨permit, hp, rfl⟩) h.gone
  | @moved _ p permit live hpermit hop =>
    have hlt : p < w.permits.length := (List.getElem?_eq_some_iff.mp hpermit).1
    have hself : (w.permits.set p { permit with reservation := none, live := live })[p]? =
        some { permit with reservation := none, live := live } := List.getElem?_set_self hlt
    have hfresh (q : Nat) (hq : ∀ found, (w.permits.set p
          { permit with reservation := none, live := live })[q]? = some found → found.reservation.isSome)
        (found : AdmissionPermit) (hfound : w.permits[q]? = some found) : found.reservation.isSome := by
      by_cases heq : q = p
      · subst heq
        exact absurd (hq _ hself) (by simp)
      · exact hq found (by rw [List.getElem?_set_ne (Ne.symm heq), hfound])
    have hkept (q : Nat) (found : AdmissionPermit) (hfound : w.permits[q]? = some found) :
        ∃ found', (w.permits.set p { permit with reservation := none, live := live })[q]? = some found' ∧
          found'.owner = found.owner := by
      by_cases heq : q = p
      · subst heq
        obtain rfl : permit = found := Option.some.inj (hpermit.symm.trans hfound)
        exact ⟨_, hself, rfl⟩
      · exact ⟨found, by rw [List.getElem?_set_ne (Ne.symm heq), hfound], rfl⟩
    have hgone (found : AdmissionPermit)
        (hmem : found ∈ w.permits.set p { permit with reservation := none, live := live })
        (hdead : found.live = false) : found.reservation = none := by
      rcases List.mem_or_eq_of_mem_set hmem with hold | rfl
      · exact h.gone found hold hdead
      · rfl
    rcases hop with rfl | rfl | ⟨rfl, hsome⟩
    · exact h.other (fun _ => rfl) hfresh hkept hgone
    · exact h.other (fun _ => rfl) hfresh hkept hgone
    · have hnone : log.countP (takes p) = 0 := by
        apply h.fresh
        intro found hfound
        obtain rfl : permit = found := Option.some.inj (hpermit.symm.trans hfound)
        exact hsome
      have hcount (q : Nat) : (log ++ [(Op.take p permit.owner, Except.ok ())]).countP (takes q) =
          log.countP (takes q) + if p = q then 1 else 0 := by
        simp [List.countP_append, List.countP_cons, takes]
      refine ⟨?_, ?_, ?_, hgone⟩
      · intro q hq
        have hne : p ≠ q := by
          rintro rfl
          exact absurd (hq _ hself) (by simp)
        rw [hcount, if_neg hne, h.fresh q (hfresh q hq)]
      · intro q
        rw [hcount]
        split
        · next heq =>
          subst heq
          omega
        · exact h.once q
      · intro q owner hmem
        rcases List.mem_append.mp hmem with hold | hnew
        · obtain ⟨found, hfound, rfl⟩ := h.owned q owner hold
          exact hkept q found hfound
        · simp only [List.mem_singleton, Prod.mk.injEq, Op.take.injEq, and_true] at hnew
          obtain ⟨rfl, rfl⟩ := hnew
          exact ⟨_, hself, rfl⟩

theorem Run.taken {log : Log} {w : World} (run : Run log w) : Taken log w := by
  induction run with
  | start => exact ⟨fun _ _ => rfl, fun _ => Nat.zero_le _, fun _ _ h => absurd h (by simp),
      fun _ h => absurd h (by simp [World.start])⟩
  | @step log w w' op reply run happens ih =>
    rcases apply_cases happens with ⟨e, rfl, rfl⟩ | ⟨rfl, heffect⟩
    · refine ih.other (fun p => ?_) (fun _ hp => hp) (fun p permit hp => ⟨permit, hp, rfl⟩)
        ih.gone
      cases op <;> rfl
    · exact ih.step heffect

/-- Nothing is held any more: every permit and every reservation has been dropped. -/
def World.Empty (w : World) : Prop :=
  (∀ permit ∈ w.permits, permit.live = false) ∧ ∀ r ∈ w.loose, r = none

theorem Taken.empty {log : Log} {w : World} (h : Taken log w) (hempty : w.Empty) : w.live = 0 := by
  have hpermits : Cells.content AdmissionPermit.reservation w.permits = 0 :=
    Cells.content_eq_zero fun permit hmem => h.gone permit hmem (hempty.1 permit hmem)
  have hloose : Cells.content id w.loose = 0 := Cells.content_eq_zero hempty.2
  rw [World.live, hpermits, hloose, add_zero]

/-- **Admission accounting**, in every interleaving: the counters of a connector are the
number and the bytes of its live reservations and never exceed its capacities; no
subtraction saturates; a refused step leaves every counter as it is; a permit is taken at
most once, and by its owner; and once nothing is held both counters are zero. -/
theorem admission_accounting (log : Log) (w : World) (run : Run log w) :
    (∀ owner s, w.states[owner]? = some s →
      s.queuedCommands = commandsOf w.live owner ∧ s.queuedCommands ≤ s.commandCapacity.toNat ∧
      s.queuedBytes = bytesOf w.live owner ∧ s.queuedBytes ≤ s.byteCapacity.toNat ∧
      (w.Empty → s.queuedCommands = 0 ∧ s.queuedBytes = 0)) ∧
    (∀ r reservation, w.loose? r = some reservation → ∃ s, w.states[reservation.state]? = some s ∧
      1 ≤ s.queuedCommands ∧ reservation.reservedBytes ≤ s.queuedBytes) ∧
    (∀ op e w', w.apply op = some (.error e, w') → w' = w) ∧
    (∀ p, log.countP (takes p) ≤ 1) ∧
    (∀ p owner, (Op.take p owner, Except.ok ()) ∈ log →
      ∃ permit, w.permits[p]? = some permit ∧ permit.owner = owner) := by
  have hsound := run.sound
  have htaken := run.taken
  refine ⟨?_, ?_, ?_, htaken.once, htaken.owned⟩
  · intro owner s hstate
    have hmem := List.mem_of_getElem? hstate
    refine ⟨hsound.commands owner s hstate, hsound.commandBound s hmem, hsound.bytes owner s hstate,
      hsound.byteBound s hmem, ?_⟩
    intro hempty
    rw [hsound.commands owner s hstate, hsound.bytes owner s hstate, htaken.empty hempty]
    exact ⟨rfl, rfl⟩
  · intro r reservation hloose
    have hfound := loose?_eq_some hloose
    have hlive : reservation ∈ w.live :=
      Multiset.mem_add.mpr (.inr (Cells.mem_content_of_getElem? hfound rfl))
    have hlt := hsound.known reservation hlive
    refine ⟨w.states[reservation.state], List.getElem?_eq_getElem hlt, ?_⟩
    exact hsound.covers hfound (List.getElem?_eq_getElem hlt)
  · intro op e w' happens
    rcases apply_cases happens with ⟨_, _, rfl⟩ | ⟨hok, _⟩
    · rfl
    · cases hok

theorem admission_accounting_charge :
    let w : World := ⟨2, [⟨1, 1, 10, 1, 4⟩], [⟨0, none, true⟩], [some ⟨0, 4⟩]⟩
    let log : Log := [(.create 1 10, .ok ()), (.reserve 0 false, .ok ()), (.take 0 0, .ok ()),
      (.charge 0 4, .ok ())]
    Run log w ∧ commandsOf w.live 0 = 1 ∧ bytesOf w.live 0 = 4 ∧ log.countP (takes 0) ≤ 1 := by
  intro w log
  have hcreated : Run [(.create 1 10, .ok ())] ⟨2, [⟨1, 1, 10, 0, 0⟩], [], []⟩ :=
    .step .start (by decide)
  have hreserved : Run [(.create 1 10, .ok ()), (.reserve 0 false, .ok ())]
      ⟨2, [⟨1, 1, 10, 1, 0⟩], [⟨0, some ⟨0, 0⟩, true⟩], []⟩ := .step hcreated (by decide)
  have htaken : Run [(.create 1 10, .ok ()), (.reserve 0 false, .ok ()), (.take 0 0, .ok ())]
      ⟨2, [⟨1, 1, 10, 1, 0⟩], [⟨0, none, true⟩], [some ⟨0, 0⟩]⟩ := .step hreserved (by decide)
  have hcharged : Run log w := .step htaken (by decide)
  obtain ⟨hcounters, -, -, honce, -⟩ := admission_accounting log w hcharged
  obtain ⟨hcommands, -, hbytes, -⟩ := hcounters 0 _ rfl
  exact ⟨hcharged, hcommands.symm, hbytes.symm, honce 0⟩

end Xqdb.Node
