import Xqdb.ListGrammar

/-! One scan over a body that arrives piece by piece. Whatever the pieces are, it comes to the
end that a scan of the whole body finds. -/

namespace Xqdb

variable {received body : Bytes} {total : Nat}

/-- Prefixes of a body, none shorter than the one before it, and the whole body last. -/
structure Arrival (body : Bytes) (parts : List Bytes) : Prop where
  within : ∀ part ∈ parts, part <+: body
  grows : parts.Pairwise fun earlier later => earlier.length ≤ later.length
  whole : parts.getLast? = some body

namespace ListScan

/-- `advance` with one prefix after the other; the state is the last outcome and the scan. -/
def advanceOver (total : Nat) : List Bytes → ScanOutcome × ListScan → Exec (ScanOutcome × ListScan)
  | [], state => .ok state
  | received :: rest, state => do
    let next ← state.2.advance received total
    advanceOver total rest next

/-- A new scan over all the prefixes. -/
def scanOver (kType : UInt8) (startPos total : Nat) (parts : List Bytes) : Exec (ScanOutcome × ListScan) := do
  let scan ← new kType startPos
  advanceOver total parts (.Incomplete, scan)

/-! ## The last outcome -/

/-- A scan that is complete and stays so. -/
def Done (scan : ListScan) (stop : Nat) : Prop :=
  scan.rowsLeft ≠ none ∧ scan.cursor.pos = stop ∧ (scan.kType = 11 ∨ scan.kType = 0 → scan.rowsLeft = some 0)

theorem nestedRows_complete {rows stop left : Nat} {cursor cursor' : RowCursor}
    (h : nestedRows received total rows cursor = .ok (.Complete stop, cursor', left)) :
    left = 0 ∧ cursor'.pos = stop ∧ stop ≤ received.length := by
  induction rows generalizing cursor with
  | zero =>
    simp only [nestedRows, Except.ok.injEq, Prod.mk.injEq] at h
    obtain ⟨houtcome, rfl, rfl⟩ := h
    split at houtcome
    · next hpos =>
      cases houtcome
      exact ⟨rfl, rfl, hpos⟩
    · cases houtcome
  | succ rows ih =>
    simp only [nestedRows, Exec.bind_eq_ok] at h
    obtain ⟨row, -, h⟩ := h
    cases row with
    | done next => exact ih h
    | stuck next => cases h
    | cut next => cases h

/-- The end is within what was received. -/
theorem advanceRows_complete {scan scan' : ListScan} {stop : Nat} (hready : scan.Ready received)
    (hsome : scan.rowsLeft ≠ none) (h : scan.advanceRows received total = .ok (.Complete stop, scan')) :
    stop ≤ received.length ∧ scan'.Done stop := by
  unfold advanceRows at h
  split at h
  · next hkind =>
    simp only [Exec.bind_eq_ok, Prod.exists, Except.ok.injEq, Prod.mk.injEq] at h
    obtain ⟨_, pos, left, hscan, rfl, rfl⟩ := h
    obtain ⟨hpos, hcases⟩ := scanSymbols_pos (hready.symbols hkind hsome) hscan
    obtain ⟨hstop, rfl⟩ | ⟨hstop, -⟩ := hcases
    · cases hstop
      exact ⟨hpos, by simp, rfl, fun _ => rfl⟩
    · cases hstop
  next hkind =>
  split at h
  · simp only [Exec.bind_eq_ok, Prod.exists, Except.ok.injEq, Prod.mk.injEq] at h
    obtain ⟨_, cursor, left, hscan, rfl, rfl⟩ := h
    obtain ⟨rfl, hpos, hle⟩ := nestedRows_complete hscan
    exact ⟨hle, by simp, hpos, fun _ => rfl⟩
  next hzero =>
  split at h
  · next hpos =>
    cases h
    exact ⟨hpos, hsome, rfl, fun hkinds => absurd hkinds (by simp [hkind, hzero])⟩
  · cases h

theorem advance_complete {scan scan' : ListScan} {stop : Nat} (hready : scan.Ready received)
    (h : scan.advance received total = .ok (.Complete stop, scan')) :
    stop ≤ received.length ∧ scan'.Done stop := by
  cases hrows : scan.rowsLeft with
  | some rows =>
    simp only [advance, hrows] at h
    exact advanceRows_complete hready (by simp [hrows]) h
  | none =>
    simp only [advance, hrows, Exec.bind_eq_ok] at h
    obtain ⟨header, hheader, h⟩ := h
    cases header with
    | none => cases h
    | some next =>
      obtain ⟨hnext, hsome⟩ := takeHeader_ready (hready.fresh hrows) hheader
      exact advanceRows_complete hnext hsome h

theorem Done.advance {scan : ListScan} {stop : Nat} (h : scan.Done stop) (hstop : stop ≤ received.length) :
    scan.advance received total = .ok (.Complete stop, scan) := by
  obtain ⟨hsome, rfl, hrows⟩ := h
  obtain ⟨rows, hleft⟩ := Option.ne_none_iff_exists'.mp hsome
  obtain ⟨kType, rowsLeft, pos, childType, childSymbolsLeft⟩ := scan
  subst hleft
  simp only [ListScan.advance, advanceRows, Option.getD_some]
  by_cases hkind : kType = 11
  · obtain rfl : rows = 0 := Option.some.inj (hrows (.inl hkind))
    simp only [if_pos hkind, scanSymbols, Exec.ok_bind]
  rw [if_neg hkind]
  by_cases hzero : kType = 0
  · obtain rfl : rows = 0 := Option.some.inj (hrows (.inr hzero))
    simp only [if_pos hzero, nestedRows, if_pos hstop, Exec.ok_bind]
  · simp only [if_neg hzero, if_pos hstop]

/-! ## The whole body -/

theorem scanSymbols_whole {context : String} {rows pos pos' left : Nat} :
    scanSymbols body body.length context rows pos ≠ .ok (.Incomplete, pos', left) := by
  induction rows generalizing pos with
  | zero => simp [scanSymbols]
  | succ rows ih =>
    intro h
    simp only [scanSymbols, Exec.bind_eq_ok] at h
    obtain ⟨tail, -, h⟩ := h
    split at h
    · exact ih h
    · rw [if_neg (lt_irrefl _)] at h
      cases h

theorem nestedSymbols_whole {cursor : RowCursor} {outcome : RowOutcome} (hpos : cursor.pos ≤ body.length)
    (h : nestedSymbols body body.length cursor = .ok outcome) :
    ∃ next, outcome = .done next ∧ next.pos ≤ body.length := by
  simp only [nestedSymbols, Exec.bind_eq_ok, Prod.exists] at h
  obtain ⟨scan, pos, left, hscan, h⟩ := h
  cases scan with
  | Complete stop =>
    cases h
    exact ⟨_, rfl, (scanSymbols_pos hpos hscan).1⟩
  | Incomplete => exact absurd hscan scanSymbols_whole

/-- Every row of a whole body is passed. -/
theorem nestedRow_whole {cursor : RowCursor} {outcome : RowOutcome} (hready : cursor.Ready body)
    (h : nestedRow body body.length cursor = .ok outcome) :
    ∃ next, outcome = .done next ∧ next.pos ≤ body.length := by
  unfold nestedRow at h
  split at h
  · next hsymbols => exact nestedSymbols_whole (hready hsymbols) h
  split at h
  · next hheader =>
    rw [incompleteOrOverrun, if_pos hheader] at h
    cases h
  simp only [nestedHeader, Exec.bind_eq_ok] at h
  obtain ⟨current, -, childType, -, h⟩ := h
  split at h
  · cases h
  simp only [Exec.bind_eq_ok, Prod.exists] at h
  obtain ⟨subLength, pos, hlength, h⟩ := h
  obtain ⟨-, hpos, -⟩ := takeListLength_stop hlength
  unfold nestedBody at h
  split at h
  · split at h
    · cases h
    · cases h
      exact ⟨_, rfl, hpos⟩
  split at h
  · split at h
    · cases h
      exact ⟨_, rfl, hpos⟩
    · exact nestedSymbols_whole hpos h
  simp only [nestedPayload, Exec.bind_eq_ok] at h
  obtain ⟨payloadLength, -, stop, -, h⟩ := h
  split at h
  · cases h
  next htotal =>
  cases h
  exact ⟨_, rfl, Nat.not_lt.mp htotal⟩

theorem nestedRows_whole {rows left : Nat} {cursor cursor' : RowCursor} (hready : cursor.Ready body)
    (hpos : cursor.pos ≤ body.length) :
    nestedRows body body.length rows cursor ≠ .ok (.Incomplete, cursor', left) := by
  induction rows generalizing cursor with
  | zero => simp [nestedRows, hpos]
  | succ rows ih =>
    intro h
    simp only [nestedRows, Exec.bind_eq_ok] at h
    obtain ⟨row, hrow, h⟩ := h
    obtain ⟨next, rfl, hnext⟩ := nestedRow_whole hready hrow
    exact ih (fun _ => hnext) hnext h

/-- A header taken from the whole body leaves the scan inside it. -/
theorem takeHeader_whole {scan scan' : ListScan} (h : scan.takeHeader body body.length = .ok (some scan')) :
    scan'.cursor.pos ≤ body.length := by
  unfold takeHeader at h
  split at h
  · simp only [Exec.bind_eq_ok] at h
    obtain ⟨-, -, h⟩ := h
    cases h
  simp only [Exec.bind_eq_ok, Prod.exists] at h
  obtain ⟨rows, pos, hlength, h⟩ := h
  split at h
  · cases h
    exact (takeListLength_stop hlength).2.1
  simp only [fixedEnd, Exec.bind_eq_ok] at h
  obtain ⟨_, ⟨payloadLength, -, stop, -, hstop⟩, h⟩ := h
  split at hstop
  · cases hstop
  next htotal =>
  cases hstop
  cases h
  exact Nat.not_lt.mp htotal

/-- The header of a whole body is there or fails. -/
theorem takeHeader_ne_none (scan : ListScan) : scan.takeHeader body body.length ≠ .ok none := by
  intro h
  unfold takeHeader at h
  split at h
  · next hshort =>
    rw [incompleteOrOverrun, if_pos hshort] at h
    cases h
  rw [Exec.bind_eq_ok] at h
  obtain ⟨⟨rows, pos⟩, -, h⟩ := h
  simp only at h
  split at h
  · cases h
  · rw [Exec.bind_eq_ok] at h
    obtain ⟨stop, -, h⟩ := h
    cases h

theorem advanceRows_whole {scan scan' : ListScan} (hready : scan.Ready body)
    (hpos : scan.cursor.pos ≤ body.length) : scan.advanceRows body body.length ≠ .ok (.Incomplete, scan') := by
  intro h
  unfold advanceRows at h
  split at h
  · rw [Exec.bind_eq_ok] at h
    obtain ⟨⟨outcome, pos, left⟩, hscan, h⟩ := h
    cases h
    exact scanSymbols_whole hscan
  split at h
  · rw [Exec.bind_eq_ok] at h
    obtain ⟨⟨outcome, cursor, left⟩, hscan, h⟩ := h
    cases h
    exact nestedRows_whole hready.cursor hpos hscan
  · cases h

/-- A new scan is never incomplete on the whole body. -/
theorem advance_whole {kType : UInt8} {startPos : Nat} {scan scan' : ListScan}
    (hnew : new kType startPos = .ok scan) : scan.advance body body.length ≠ .ok (.Incomplete, scan') := by
  intro h
  obtain ⟨-, rfl⟩ := new_eq_ok.mp hnew
  simp only [advance, Exec.bind_eq_ok] at h
  obtain ⟨header, hheader, h⟩ := h
  cases header with
  | none => exact takeHeader_ne_none _ hheader
  | some next =>
    obtain ⟨hnext, -⟩ := takeHeader_ready rfl hheader
    exact advanceRows_whole hnext (takeHeader_whole hheader) h

/-! ## Taking the scan up again and again -/

/-- A scan that came to a state on `seen` and will come to `whole` on the body. -/
def Follows (body : Bytes) (whole : Exec (ScanOutcome × ListScan)) (seen : Bytes) :
    ScanOutcome × ListScan → Prop
  | (.Incomplete, scan) => scan.Ready seen ∧ scan.advance body body.length = whole
  | (.Complete stop, scan) => stop ≤ seen.length ∧ scan.Done stop ∧ whole = .ok (.Complete stop, scan)

variable {whole : Exec (ScanOutcome × ListScan)} {seen part : Bytes} {state : ScanOutcome × ListScan}

/-- One more prefix: the scan follows the body still, or fails as it does on the body. -/
theorem Follows.advance (hsize : body.length < usizeMax) (h : Follows body whole seen state)
    (hseen : seen <+: part) (hpart : part <+: body) :
    (∀ next, state.2.advance part body.length = .ok next → Follows body whole part next) ∧
      ∀ e, state.2.advance part body.length = .error e → whole = .error e := by
  obtain ⟨outcome, scan⟩ := state
  cases outcome with
  | Complete stop =>
    obtain ⟨hstop, hdone, hwhole⟩ := h
    have hstop' : stop ≤ part.length := hstop.trans hseen.length_le
    have hagain : scan.advance part body.length = .ok (.Complete stop, scan) := hdone.advance hstop'
    constructor
    · intro next hnext
      obtain rfl := Except.ok.inj (hagain.symm.trans hnext)
      exact ⟨hstop', hdone, hwhole⟩
    · intro e he
      cases hagain.symm.trans he
  | Incomplete =>
    obtain ⟨hready, hwhole⟩ := h
    obtain ⟨tail, rfl⟩ := hseen
    obtain ⟨more, rfl⟩ := hpart
    have hready' : scan.Ready (seen ++ tail) := hready.mono
    rw [advance_resume hsize hready'] at hwhole
    constructor
    · rintro ⟨outcome, scan'⟩ hnext
      rw [hnext] at hwhole
      cases outcome with
      | Incomplete => exact ⟨advance_ready hready' hnext, hwhole⟩
      | Complete stop =>
        obtain ⟨hstop, hdone⟩ := advance_complete hready' hnext
        exact ⟨hstop, hdone, hwhole.symm⟩
    · intro e he
      rw [he] at hwhole
      exact hwhole.symm

theorem Follows.noPanic (hsize : body.length < usizeMax) (h : Follows body whole seen state)
    (hseen : seen <+: part) (hpart : part <+: body) : NoPanic (state.2.advance part body.length) := by
  obtain ⟨outcome, scan⟩ := state
  cases outcome with
  | Complete stop =>
    obtain ⟨hstop, hdone, -⟩ := h
    rw [hdone.advance (hstop.trans hseen.length_le)]
    exact noPanic_ok _
  | Incomplete =>
    obtain ⟨tail, rfl⟩ := hseen
    exact noPanic_advance h.1.mono (hpart.length_le.trans_lt hsize)

/-- All the prefixes, one after the other. -/
theorem Follows.advanceOver (hsize : body.length < usizeMax) {parts : List Bytes}
    (h : Follows body whole seen state) (hseen : seen <+: body) (hparts : ∀ part ∈ parts, part <+: body)
    (hgrows : (seen :: parts).Pairwise fun earlier later => earlier.length ≤ later.length) :
    (∀ last, ListScan.advanceOver body.length parts state = .ok last →
      Follows body whole (parts.getLast?.getD seen) last) ∧
      ∀ e, ListScan.advanceOver body.length parts state = .error e → whole = .error e := by
  induction parts generalizing seen state with
  | nil =>
    constructor
    · intro last hlast
      cases hlast
      exact h
    · intro e he
      cases he
  | cons part parts ih =>
    have hpart : part <+: body := hparts part (by simp)
    have hlonger : seen.length ≤ part.length := List.rel_of_pairwise_cons hgrows (by simp)
    have hlead : seen <+: part := List.prefix_of_prefix_length_le hseen hpart hlonger
    obtain ⟨hnext, hfail⟩ := h.advance hsize hlead hpart
    simp only [ListScan.advanceOver]
    cases hadvance : state.2.advance part body.length with
    | error e =>
      constructor
      · intro last hlast
        cases hlast
      · intro e' he
        cases he
        exact hfail e hadvance
    | ok next =>
      obtain ⟨hlast, herror⟩ := ih (hnext next hadvance) hpart
        (fun other hother => hparts other (by simp [hother])) (List.Pairwise.of_cons hgrows)
      rw [Exec.ok_bind]
      have hend : (part :: parts).getLast?.getD seen = parts.getLast?.getD part := by
        rw [List.getLast?_cons, Option.getD_some]
      rw [hend]
      exact ⟨hlast, herror⟩

/-- The whole body: a scan that follows it comes to what it will come to. -/
theorem Follows.advance_body (h : Follows body whole seen state) (hseen : seen <+: body) :
    state.2.advance body body.length = whole := by
  obtain ⟨outcome, scan⟩ := state
  cases outcome with
  | Incomplete => exact h.2
  | Complete stop =>
    obtain ⟨hstop, hdone, hwhole⟩ := h
    rw [hwhole]
    exact hdone.advance (hstop.trans hseen.length_le)

theorem advanceOver_append (total : Nat) (parts rest : List Bytes) (state : ScanOutcome × ListScan) :
    ListScan.advanceOver total (parts ++ rest) state =
      ListScan.advanceOver total parts state >>= ListScan.advanceOver total rest := by
  induction parts generalizing state with
  | nil => rfl
  | cons part parts ih =>
    simp only [List.cons_append, ListScan.advanceOver]
    cases state.2.advance part total with
    | error e => rfl
    | ok next => exact ih next

section Fresh

variable {kType : UInt8} {startPos : Nat} {scan : ListScan} (hsize : body.length < usizeMax)
  (hnew : new kType startPos = .ok scan)

/-- A new scan follows the body. -/
theorem new_follows (hnew : new kType startPos = .ok scan) :
    Follows body (scan.advance body body.length) [] (.Incomplete, scan) :=
  ⟨new_ready [] hnew, rfl⟩

include hsize hnew in
/-- A new scan over a part of the prefixes. -/
theorem follows_of_arrival {earlier later : List Bytes} (harrival : Arrival body (earlier ++ later)) :
    (∀ state, advanceOver body.length earlier (.Incomplete, scan) = .ok state →
      Follows body (scan.advance body body.length) (earlier.getLast?.getD []) state) ∧
      ∀ e, advanceOver body.length earlier (.Incomplete, scan) = .error e →
        scan.advance body body.length = .error e := by
  refine (new_follows hnew).advanceOver hsize List.nil_prefix ?_ ?_
  · intro part hpart
    exact harrival.within part (by simp [hpart])
  · rw [List.pairwise_cons]
    exact ⟨by simp, (List.pairwise_append.mp harrival.grows).1⟩

/-- What was seen last is a prefix of the body and of what is to come. -/
theorem last_of_arrival {earlier later : List Bytes} {part : Bytes}
    (harrival : Arrival body (earlier ++ part :: later)) :
    earlier.getLast?.getD [] <+: part ∧ part <+: body := by
  have hpart : part <+: body := harrival.within part (by simp)
  refine ⟨?_, hpart⟩
  cases hlast : earlier.getLast? with
  | none => exact List.nil_prefix
  | some last =>
    have hmem : last ∈ earlier := List.mem_of_getLast? hlast
    have hlength : last.length ≤ part.length :=
      (List.pairwise_append.mp harrival.grows).2.2 last hmem part (by simp)
    exact List.prefix_of_prefix_length_le (harrival.within last (by simp [hmem])) hpart hlength

include hsize hnew in
/-- A scan over all the prefixes is the scan of the whole body. -/
theorem advanceOver_arrival {parts : List Bytes} (harrival : Arrival body parts) :
    advanceOver body.length parts (.Incomplete, scan) = scan.advance body body.length := by
  obtain ⟨earlier, rfl⟩ := List.getLast?_eq_some_iff.mp harrival.whole
  obtain ⟨hfollows, hfails⟩ := follows_of_arrival hsize hnew harrival
  rw [advanceOver_append]
  cases hearlier : advanceOver body.length earlier (.Incomplete, scan) with
  | error e =>
    rw [hfails e hearlier]
    rfl
  | ok state =>
    obtain ⟨hlead, -⟩ := last_of_arrival harrival
    have hbody := (hfollows state hearlier).advance_body hlead
    simp only [Exec.ok_bind, advanceOver, hbody]
    cases scan.advance body body.length with
    | error e => rfl
    | ok last => rfl

end Fresh

theorem calculateArrayEndIndex_new (body : Bytes) {kType : UInt8} {startPos : Nat} {scan : ListScan}
    (hnew : new kType startPos = .ok scan) :
    (∀ stop, calculateArrayEndIndex body startPos kType = .ok stop ↔
      ∃ scan', scan.advance body body.length = .ok (.Complete stop, scan')) ∧
      ((∃ e, calculateArrayEndIndex body startPos kType = .error e) ↔
        ∃ e, scan.advance body body.length = .error e) := by
  simp only [calculateArrayEndIndex, hnew, Exec.ok_bind]
  cases hadvance : scan.advance body body.length with
  | error e => simp
  | ok result =>
    obtain ⟨outcome, scan'⟩ := result
    cases outcome with
    | Complete stop => simp
    | Incomplete => exact absurd hadvance (advance_whole hnew)

/-- **A scan can be taken up over any prefixes.** It ends where the scan of the whole body ends,
or both fail. On the way it never leaves what was received, it reports an end only inside it, it
does not wait for more than the body, and it fails only if the whole body fails. -/
theorem scan_resumable (body : Bytes) (hsize : body.length ≤ isizeMax) (kType : UInt8) (startPos : Nat)
    (parts : List Bytes) (harrival : Arrival body parts) :
    (∀ stop, calculateArrayEndIndex body startPos kType = .ok stop ↔
      ∃ scan, scanOver kType startPos body.length parts = .ok (.Complete stop, scan)) ∧
    ((∃ e, calculateArrayEndIndex body startPos kType = .error e) ↔
      ∃ e, scanOver kType startPos body.length parts = .error e) ∧
    ∀ earlier part later outcome scan, parts = earlier ++ part :: later →
      scanOver kType startPos body.length earlier = .ok (outcome, scan) →
      NoPanic (scan.advance part body.length) ∧
      (∀ stop scan', scan.advance part body.length = .ok (.Complete stop, scan') → stop ≤ part.length) ∧
      (part = body → ∀ scan', scan.advance part body.length ≠ .ok (.Incomplete, scan')) ∧
      ((∃ stop, calculateArrayEndIndex body startPos kType = .ok stop) →
        ∀ e, scan.advance part body.length ≠ .error e) := by
  have hisize : isizeMax < usizeMax := by decide
  have husize : body.length < usizeMax := by omega
  cases hnew : new kType startPos with
  | error e =>
    simp only [calculateArrayEndIndex, scanOver, hnew, Exec.error_bind]
    refine ⟨by simp, by simp, ?_⟩
    intro earlier part later outcome scan _ h
    cases h
  | ok scan =>
    obtain ⟨hends, hfails⟩ := calculateArrayEndIndex_new body hnew
    simp only [hends, hfails, scanOver, hnew, Exec.ok_bind, advanceOver_arrival husize hnew harrival]
    refine ⟨by simp, by simp, ?_⟩
    rintro earlier part later outcome scan' rfl hearlier
    obtain ⟨hfollows, -⟩ := follows_of_arrival husize hnew harrival
    have hfollow := hfollows _ hearlier
    obtain ⟨hlead, hpart⟩ := last_of_arrival harrival
    obtain ⟨hstep, hfail⟩ := hfollow.advance husize hlead hpart
    refine ⟨hfollow.noPanic husize hlead hpart, ?_, ?_, ?_⟩
    · intro stop next hnext
      exact (hstep _ hnext).1
    · rintro rfl next hnext
      rw [hfollow.advance_body hlead] at hnext
      exact advance_whole hnew hnext
    · rintro ⟨stop, next, hok⟩ e he
      cases hok.symm.trans (hfail e he)

/-- A nested symbol list that stops inside its header, inside a row's header and inside a symbol. -/
def cutSymbols : Bytes := [0, 1, 0, 0, 0, 11, 0, 1, 0, 0, 0, 97, 0]

theorem scan_resumable_cutSymbols :
    ∃ scan, scanOver 0 0 cutSymbols.length
      [cutSymbols.take 3, cutSymbols.take 8, cutSymbols.take 12, cutSymbols] = .ok (.Complete 13, scan) := by
  have harrival : Arrival cutSymbols
      [cutSymbols.take 3, cutSymbols.take 8, cutSymbols.take 12, cutSymbols] :=
    ⟨by decide, by decide, rfl⟩
  have hend : calculateArrayEndIndex cutSymbols 0 0 = .ok 13 := by decide
  exact ((scan_resumable cutSymbols (by decide) 0 0 _ harrival).1 13).mp hend

end ListScan

end Xqdb
