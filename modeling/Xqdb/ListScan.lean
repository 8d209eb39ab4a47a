import Xqdb.Types
import Xqdb.Lib.LittleEndian

/-! The resumable scan for the end of one list (`ListScan` of `serde6.rs`). It looks
at the bytes received so far and says `Incomplete` where more are needed, so a scan
that is taken up again with more bytes must go on as if it had seen them at once. -/

namespace Xqdb

open LittleEndian (decode signed)

/-- `a.saturating_add(b)` on `usize`. -/
def saturatingAdd (a b : Nat) : Nat := min (a + b) usizeMax

/-- `&vec[start..]`. -/
def sliceFrom (vec : Bytes) (start : Nat) : Exec Bytes :=
  if start ≤ vec.length then .ok (vec.drop start) else Exec.panicked

/-- A list header behind its type: the attribute, which is not looked at, and the count. -/
def takeListLength (bytes : Bytes) (pos : Nat) (context : String) : Exec (Nat × Nat) := do
  let stop ← Exec.okOr (checkedAdd pos 5)
    (.DeserializationErr (context ++ " header offset overflowed"))
  let header ← Exec.okOr (getRange bytes pos stop)
    (.DeserializationErr (context ++ " header omitted its 5 byte(s)"))
  if signed 32 (decode (header.drop 1)) < 0 then
    Exec.err (.DeserializationErr (context ++ " length cannot be negative"))
  else .ok (decode (header.drop 1), stop)

inductive ScanOutcome where
  | Complete (stop : Nat)
  | Incomplete
  deriving DecidableEq, Repr

/-- The fields of a scan that the rows move. -/
structure RowCursor where
  pos : Nat
  childType : Option UInt8
  childSymbolsLeft : Nat
  deriving DecidableEq, Repr

structure ListScan where
  kType : UInt8
  rowsLeft : Option Nat
  cursor : RowCursor
  deriving DecidableEq, Repr

def incompleteOrOverrun (needed total : Nat) : Exec Unit :=
  if total < needed then
    Exec.err (.DeserializationErr "q list header extends beyond its frame")
  else .ok ()

/-- `scan_symbols`: the outcome, the position and the symbols left. -/
def scanSymbols (received : Bytes) (total : Nat) (context : String) :
    Nat → Nat → Exec (ScanOutcome × Nat × Nat)
  | 0, pos => .ok (.Complete pos, pos, 0)
  | rowsLeft + 1, pos => do
    let tail ← sliceFrom received pos
    match memchr tail with
    | some terminator => scanSymbols received total context rowsLeft (pos + (terminator + 1))
    | none =>
      if received.length < total then .ok (.Incomplete, pos, rowsLeft + 1)
      else Exec.err (.DeserializationErr (context ++ " is not NUL-terminated"))

/-! ## Rows of a nested list -/

/-- How far one row of a nested list came: past it, stuck inside it, or past it in the
frame but not in what was received. -/
inductive RowOutcome where
  | done (cursor : RowCursor)
  | stuck (cursor : RowCursor)
  | cut (cursor : RowCursor)
  deriving DecidableEq, Repr

/-- The types a nested list can have as its first row. -/
def nestedTypes : List UInt8 := [1, 4, 5, 6, 7, 8, 9, 10, 11, 12]

/-- The type of the rows: the one seen first. -/
def rowType (childType : Option UInt8) (current : UInt8) : Exec UInt8 :=
  match childType with
  | some childType => .ok childType
  | none =>
    if current ∈ nestedTypes then .ok current
    else Exec.err (.NotSupportedKNestedListErr current)

def nestedSymbols (received : Bytes) (total : Nat) (cursor : RowCursor) : Exec RowOutcome := do
  let (outcome, pos, left) ←
    scanSymbols received total "q nested symbol" cursor.childSymbolsLeft cursor.pos
  match outcome with
  | .Incomplete => .ok (.stuck { cursor with pos := pos, childSymbolsLeft := left })
  | .Complete _ => .ok (.done { cursor with pos := pos, childSymbolsLeft := left })

/-- The payload of a fixed-width row. -/
def nestedPayload (received : Bytes) (total : Nat) (current : UInt8) (subLength : Nat)
    (cursor : RowCursor) : Exec RowOutcome := do
  let payloadLength ← Exec.okOr (checkedMul subLength (typeSize current))
    (.DeserializationErr "q nested-list payload length overflowed")
  let stop ← Exec.okOr (checkedAdd cursor.pos payloadLength)
    (.DeserializationErr "q nested-list payload offset overflowed")
  if total < stop then
    Exec.err (.DeserializationErr
      s!"q nested-list payload length {payloadLength} exceeds the available bytes")
  else if received.length < stop then .ok (.cut { cursor with pos := stop })
  else .ok (.done { cursor with pos := stop })

/-- What follows the header of a row. -/
def nestedBody (received : Bytes) (total : Nat) (childType current : UInt8) (subLength : Nat)
    (cursor : RowCursor) : Exec RowOutcome :=
  if current = 0 then
    if subLength ≠ 0 then Exec.err (.NotSupportedKMixedListErr childType current)
    else .ok (.done cursor)
  else if current = 11 then
    if subLength = 0 then .ok (.done cursor)
    else nestedSymbols received total { cursor with childSymbolsLeft := subLength }
  else nestedPayload received total current subLength cursor

def nestedHeader (received : Bytes) (total : Nat) (cursor : RowCursor) : Exec RowOutcome := do
  let current ← index received cursor.pos
  let childType ← rowType cursor.childType current
  if current ≠ childType ∧ current ≠ 0 then
    Exec.err (.NotSupportedKMixedListErr childType current)
  else do
    let (subLength, pos) ← takeListLength received (cursor.pos + 1) "q nested-list element"
    nestedBody received total childType current subLength
      { cursor with pos := pos, childType := some childType }

/-- One row: the symbols it stopped at, or its header and what follows. -/
def nestedRow (received : Bytes) (total : Nat) (cursor : RowCursor) : Exec RowOutcome :=
  if 0 < cursor.childSymbolsLeft then nestedSymbols received total cursor
  else if received.length < saturatingAdd cursor.pos 6 then do
    incompleteOrOverrun (saturatingAdd cursor.pos 6) total
    .ok (.stuck cursor)
  else nestedHeader received total cursor

/-- `while rows_left > 0`. The last component is the rows left. -/
def nestedRows (received : Bytes) (total : Nat) :
    Nat → RowCursor → Exec (ScanOutcome × RowCursor × Nat)
  | 0, cursor =>
    .ok (if cursor.pos ≤ received.length then .Complete cursor.pos else .Incomplete, cursor, 0)
  | rowsLeft + 1, cursor => do
    match ← nestedRow received total cursor with
    | .done cursor => nestedRows received total rowsLeft cursor
    | .stuck cursor => .ok (.Incomplete, cursor, rowsLeft + 1)
    | .cut cursor => .ok (.Incomplete, cursor, rowsLeft)

namespace ListScan

def new (kType : UInt8) (startPos : Nat) : Exec ListScan :=
  if kType = 0 ∨ kType = 11 ∨ (1 ≤ kType ∧ kType ≤ 19 ∧ 0 < typeSize kType) then
    .ok ⟨kType, none, ⟨startPos, none, 0⟩⟩
  else Exec.err (.NotSupportedKListErr kType)

/-- The end of a fixed-width list of `rows` elements. -/
def fixedEnd (kType : UInt8) (rows pos total : Nat) : Exec Nat := do
  let payloadLength ← Exec.okOr (checkedMul rows (typeSize kType))
    (.DeserializationErr "q typed-list payload length overflowed")
  let stop ← Exec.okOr (checkedAdd pos payloadLength)
    (.DeserializationErr "q typed-list payload offset overflowed")
  if total < stop then
    Exec.err (.DeserializationErr
      s!"q typed-list payload length {payloadLength} exceeds the available bytes")
  else .ok stop

/-- The header of the list, if it has arrived. -/
def takeHeader (scan : ListScan) (received : Bytes) (total : Nat) : Exec (Option ListScan) :=
  if received.length < saturatingAdd scan.cursor.pos 5 then do
    incompleteOrOverrun (saturatingAdd scan.cursor.pos 5) total
    .ok none
  else do
    let (rows, pos) ← takeListLength received scan.cursor.pos "q list"
    if scan.kType = 0 ∨ scan.kType = 11 then
      .ok (some { scan with rowsLeft := some rows, cursor := { scan.cursor with pos := pos } })
    else do
      let stop ← fixedEnd scan.kType rows pos total
      .ok (some { scan with rowsLeft := some 0, cursor := { scan.cursor with pos := stop } })

/-- The part of `advance` behind the header. -/
def advanceRows (scan : ListScan) (received : Bytes) (total : Nat) : Exec (ScanOutcome × ListScan) :=
  if scan.kType = 11 then do
    let (outcome, pos, left) ←
      scanSymbols received total "q symbol-list value" (scan.rowsLeft.getD 0) scan.cursor.pos
    .ok (outcome, { scan with rowsLeft := some left, cursor := { scan.cursor with pos := pos } })
  else if scan.kType = 0 then do
    let (outcome, cursor, left) ← nestedRows received total (scan.rowsLeft.getD 0) scan.cursor
    .ok (outcome, { scan with rowsLeft := some left, cursor := cursor })
  else if scan.cursor.pos ≤ received.length then .ok (.Complete scan.cursor.pos, scan)
  else .ok (.Incomplete, scan)

def advance (scan : ListScan) (received : Bytes) (total : Nat) : Exec (ScanOutcome × ListScan) :=
  match scan.rowsLeft with
  | some _ => scan.advanceRows received total
  | none => do
    match ← scan.takeHeader received total with
    | none => .ok (.Incomplete, scan)
    | some scan => scan.advanceRows received total

end ListScan

/-- `calculate_array_end_index`. -/
def calculateArrayEndIndex (vec : Bytes) (startPos : Nat) (kType : UInt8) : Exec Nat := do
  let scan ← ListScan.new kType startPos
  match ← scan.advance vec vec.length with
  | (.Complete stop, _) => .ok stop
  | (.Incomplete, _) =>
    Exec.err (.DeserializationErr "q list ends before its declared length")

/-! ## Taking a scan up again

`received` is what the scan saw, `received ++ more` the whole frame. -/

theorem getRange_append {vec more : Bytes} {start stop : Nat} (h : stop ≤ vec.length) :
    getRange (vec ++ more) start stop = getRange vec start stop := by
  unfold getRange
  by_cases hle : start ≤ stop
  · rw [if_pos ⟨hle, by simp; omega⟩, if_pos ⟨hle, h⟩, List.drop_append_of_le_length (by omega),
      List.take_append_of_le_length (by simp; omega)]
  · rw [if_neg (fun hc => hle hc.1), if_neg (fun hc => hle hc.1)]

theorem index_append {vec more : Bytes} {i : Nat} (h : i < vec.length) :
    index (vec ++ more) i = index vec i := by
  unfold index
  rw [List.getElem?_append_left h]

theorem memchr_append {tail more : Bytes} {n : Nat} (h : memchr tail = some n) :
    memchr (tail ++ more) = some n := by
  obtain ⟨text, rest, rfl, hnul, rfl⟩ := memchr_eq_some.mp h
  rw [List.append_assoc, List.cons_append, memchr_append_zero hnul]

theorem memchr_lt {tail : Bytes} {n : Nat} (h : memchr tail = some n) : n < tail.length := by
  obtain ⟨text, rest, rfl, -, rfl⟩ := memchr_eq_some.mp h
  simp

theorem takeListLength_append {vec more : Bytes} {pos : Nat} (context : String)
    (h : pos + 5 ≤ vec.length) :
    takeListLength (vec ++ more) pos context = takeListLength vec pos context := by
  unfold takeListLength checkedAdd
  split
  · rw [Exec.okOr_some, Exec.ok_bind, Exec.ok_bind, getRange_append h]
  · rfl

theorem decode_lt_of_length {bytes header : Bytes} {pos : Nat}
    (h : getRange bytes pos (pos + 5) = some header) : decode (header.drop 1) < 2 ^ 32 := by
  have hlen := getRange_length h
  have hlt := LittleEndian.decode_lt (header.drop 1)
  rw [List.length_drop, hlen] at hlt
  have : 256 ^ (pos + 5 - pos - 1) = 2 ^ 32 := by
    rw [show pos + 5 - pos - 1 = 4 by omega]
    norm_num
  omega

theorem takeListLength_stop {bytes : Bytes} {pos length stop : Nat} {context : String}
    (h : takeListLength bytes pos context = .ok (length, stop)) :
    stop = pos + 5 ∧ stop ≤ bytes.length ∧ length < 2 ^ 31 := by
  simp only [takeListLength, Exec.bind_eq_ok, Exec.okOr_eq_ok, checkedAdd_eq_some] at h
  obtain ⟨_, ⟨rfl, -⟩, header, hheader, h⟩ := h
  have hlen := getRange_length hheader
  have hbound := decode_lt_of_length hheader
  split at h
  · cases h
  next hneg =>
  cases h
  refine ⟨rfl, (getRange_eq_some.mp hheader).2.1, ?_⟩
  by_contra hbig
  exact hneg (LittleEndian.signed_neg hbound hbig)

section Resume

variable {received more : Bytes} (hsize : (received ++ more).length < usizeMax)

theorem scanSymbols_resume (context : String) {rows pos : Nat} (hpos : pos ≤ received.length) :
    scanSymbols (received ++ more) (received ++ more).length context rows pos =
      match scanSymbols received (received ++ more).length context rows pos with
      | .ok (.Incomplete, pos, left) =>
        scanSymbols (received ++ more) (received ++ more).length context left pos
      | result => result := by
  induction rows generalizing pos with
  | zero => rfl
  | succ rows ih =>
    have hpos' : pos ≤ (received ++ more).length := by simp; omega
    rw [scanSymbols, scanSymbols, sliceFrom, sliceFrom, if_pos hpos, if_pos hpos', Exec.ok_bind,
      Exec.ok_bind]
    cases hnul : memchr (received.drop pos) with
    | some terminator =>
      have hlt := memchr_lt hnul
      rw [List.length_drop] at hlt
      rw [List.drop_append_of_le_length hpos, memchr_append hnul]
      exact ih (by omega)
    | none =>
      by_cases hlen : received.length < (received ++ more).length
      · simp only [if_pos hlen]
        rw [scanSymbols, sliceFrom, if_pos hpos', Exec.ok_bind]
      · have hmore : more = [] := by
          simp only [List.length_append] at hlen
          exact List.length_eq_zero_iff.mp (by omega)
        subst hmore
        simp [hnul]

/-- Symbols that are still to come start within what was received. -/
theorem scanSymbols_pos {context : String} {total rows pos : Nat} {outcome : ScanOutcome}
    {pos' left : Nat} (hpos : pos ≤ received.length)
    (h : scanSymbols received total context rows pos = .ok (outcome, pos', left)) :
    pos' ≤ received.length ∧
      (outcome = .Complete pos' ∧ left = 0 ∨ outcome = .Incomplete ∧ 0 < left) := by
  induction rows generalizing pos with
  | zero =>
    cases h
    exact ⟨hpos, .inl ⟨rfl, rfl⟩⟩
  | succ rows ih =>
    rw [scanSymbols, sliceFrom, if_pos hpos, Exec.ok_bind] at h
    split at h
    · next terminator hnul =>
      have hlt := memchr_lt hnul
      rw [List.length_drop] at hlt
      exact ih (by omega) h
    · split at h
      · cases h
        exact ⟨hpos, .inr ⟨rfl, by omega⟩⟩
      · cases h

/-- A cursor that stopped inside the symbols of a row has them ahead. -/
def RowCursor.Ready (cursor : RowCursor) (received : Bytes) : Prop :=
  0 < cursor.childSymbolsLeft → cursor.pos ≤ received.length

/-- What a row leaves behind. -/
def RowOutcome.Ready (received : Bytes) (total : Nat) : RowOutcome → Prop
  | .done cursor => cursor.childSymbolsLeft = 0
  | .stuck cursor => cursor.Ready received
  | .cut cursor => cursor.childSymbolsLeft = 0 ∧ cursor.pos ≤ total

theorem nestedSymbols_ready {total : Nat} {cursor : RowCursor} {outcome : RowOutcome}
    (hpos : cursor.pos ≤ received.length)
    (h : nestedSymbols received total cursor = .ok outcome) : outcome.Ready received total := by
  simp only [nestedSymbols, Exec.bind_eq_ok, Prod.exists] at h
  obtain ⟨scan, pos, left, hscan, h⟩ := h
  obtain ⟨hpos', hcases⟩ := scanSymbols_pos hpos hscan
  obtain ⟨rfl, rfl⟩ | ⟨rfl, -⟩ := hcases
  · cases h
    rfl
  · cases h
    exact fun _ => hpos'

theorem nestedRow_ready {total : Nat} {cursor : RowCursor} {outcome : RowOutcome}
    (hready : cursor.Ready received) (h : nestedRow received total cursor = .ok outcome) :
    outcome.Ready received total := by
  unfold nestedRow at h
  split at h
  · next hsymbols => exact nestedSymbols_ready (hready hsymbols) h
  next hnone =>
  have hzero : cursor.childSymbolsLeft = 0 := by omega
  split at h
  · simp only [Exec.bind_eq_ok, Except.ok.injEq] at h
    obtain ⟨-, -, rfl⟩ := h
    exact hready
  simp only [nestedHeader, Exec.bind_eq_ok] at h
  obtain ⟨current, -, childType, -, h⟩ := h
  split at h
  · cases h
  simp only [Exec.bind_eq_ok, Prod.exists] at h
  obtain ⟨subLength, pos, hlength, h⟩ := h
  obtain ⟨-, hpos, -⟩ := takeListLength_stop hlength
  unfold nestedBody at h
  split at h
  · split at h
    · cases h
    · cases h
      exact hzero
  split at h
  · split at h
    · cases h
      exact hzero
    · exact nestedSymbols_ready hpos h
  simp only [nestedPayload, Exec.bind_eq_ok] at h
  obtain ⟨payloadLength, -, stop, -, h⟩ := h
  split at h
  · cases h
  next htotal =>
  split at h
  · cases h
    exact ⟨hzero, by simpa using htotal⟩
  · cases h
    exact hzero

/-- The rest of a row on the whole frame, from what it came to on a part of it. -/
def RowOutcome.resume (body : Bytes) : Exec RowOutcome → Exec RowOutcome
  | .ok (.stuck cursor) => nestedRow body body.length cursor
  | .ok (.cut cursor) => .ok (.done cursor)
  | result => result

theorem nestedSymbols_resume {cursor : RowCursor} (hpos : cursor.pos ≤ received.length) :
    nestedSymbols (received ++ more) (received ++ more).length cursor =
      RowOutcome.resume (received ++ more)
        (nestedSymbols received (received ++ more).length cursor) := by
  unfold nestedSymbols
  rw [scanSymbols_resume "q nested symbol" hpos]
  cases hscan : scanSymbols received (received ++ more).length "q nested symbol"
      cursor.childSymbolsLeft cursor.pos with
  | error e => rfl
  | ok result =>
    obtain ⟨outcome, pos, left⟩ := result
    obtain ⟨-, hcases⟩ := scanSymbols_pos hpos hscan
    obtain ⟨rfl, rfl⟩ | ⟨rfl, hleft⟩ := hcases
    · rfl
    · rw [Exec.ok_bind]
      simp only [RowOutcome.resume, nestedRow, if_pos hleft]
      rfl

theorem nestedPayload_resume {current : UInt8} {subLength : Nat} {cursor : RowCursor} :
    nestedPayload (received ++ more) (received ++ more).length current subLength cursor =
      RowOutcome.resume (received ++ more)
        (nestedPayload received (received ++ more).length current subLength cursor) := by
  unfold nestedPayload
  cases checkedMul subLength (typeSize current) with
  | none => rfl
  | some payloadLength =>
    simp only [Exec.okOr_some, Exec.ok_bind]
    cases checkedAdd cursor.pos payloadLength with
    | none => rfl
    | some stop =>
      simp only [Exec.okOr_some, Exec.ok_bind]
      by_cases htotal : (received ++ more).length < stop
      · rw [if_pos htotal, if_pos htotal]
        rfl
      · rw [if_neg htotal, if_neg htotal, if_neg htotal]
        split <;> rfl

include hsize in
/-- A row whose payload was cut off is done once the whole frame is there. -/
theorem nestedRow_resume {cursor : RowCursor} (hready : cursor.Ready received) :
    nestedRow (received ++ more) (received ++ more).length cursor =
      RowOutcome.resume (received ++ more)
        (nestedRow received (received ++ more).length cursor) := by
  by_cases hsymbols : 0 < cursor.childSymbolsLeft
  · simp only [nestedRow, if_pos hsymbols]
    exact nestedSymbols_resume (hready hsymbols)
  by_cases hheader : received.length < saturatingAdd cursor.pos 6
  · by_cases htotal : (received ++ more).length < saturatingAdd cursor.pos 6
    · simp only [nestedRow, if_neg hsymbols, if_pos hheader, if_pos htotal, incompleteOrOverrun]
      rfl
    · -- nothing was read of the row
      have hstuck : nestedRow received (received ++ more).length cursor = .ok (.stuck cursor) := by
        simp only [nestedRow, if_neg hsymbols, if_pos hheader, incompleteOrOverrun, if_neg htotal,
          Exec.ok_bind]
      rw [hstuck]
      rfl
  have hpos : cursor.pos + 6 ≤ received.length := by
    simp only [saturatingAdd, List.length_append] at hheader hsize
    omega
  have hheader' : ¬ (received ++ more).length < saturatingAdd cursor.pos 6 := by
    simp only [List.length_append]
    omega
  simp only [nestedRow, if_neg hsymbols, if_neg hheader, if_neg hheader', nestedHeader]
  rw [index_append (by omega)]
  cases index received cursor.pos with
  | error e => rfl
  | ok current =>
    simp only [Exec.ok_bind]
    cases rowType cursor.childType current with
    | error e => rfl
    | ok childType =>
      simp only [Exec.ok_bind]
      split
      · rfl
      rw [takeListLength_append _ (by omega)]
      cases hlength : takeListLength received (cursor.pos + 1) "q nested-list element" with
      | error e => rfl
      | ok result =>
        obtain ⟨subLength, pos⟩ := result
        obtain ⟨-, hstop, -⟩ := takeListLength_stop hlength
        simp only [Exec.ok_bind, nestedBody]
        split
        · split <;> rfl
        split
        · split
          · rfl
          · exact nestedSymbols_resume hstop
        exact nestedPayload_resume

include hsize in
theorem nestedRows_resume {rows : Nat} {cursor : RowCursor} (hready : cursor.Ready received) :
    nestedRows (received ++ more) (received ++ more).length rows cursor =
      match nestedRows received (received ++ more).length rows cursor with
      | .ok (.Incomplete, cursor, left) =>
        nestedRows (received ++ more) (received ++ more).length left cursor
      | result => result := by
  induction rows generalizing cursor with
  | zero =>
    simp only [nestedRows]
    by_cases hpos : cursor.pos ≤ received.length
    · have hpos' : cursor.pos ≤ (received ++ more).length := by simp; omega
      rw [if_pos hpos, if_pos hpos']
    · rw [if_neg hpos]
      rfl
  | succ rows ih =>
    rw [nestedRows, nestedRows, nestedRow_resume hsize hready]
    cases hrow : nestedRow received (received ++ more).length cursor with
    | error e => rfl
    | ok outcome =>
      have houtcome := nestedRow_ready hready hrow
      cases outcome with
      | done cursor =>
        simp only [RowOutcome.resume, Exec.ok_bind]
        exact ih fun h => absurd h (by rw [houtcome]; omega)
      | stuck cursor =>
        simp only [RowOutcome.resume, Exec.ok_bind, nestedRows]
      | cut cursor =>
        simp only [RowOutcome.resume, Exec.ok_bind]

namespace ListScan

/-- A scan that can be taken up with at least `received`. -/
structure Ready (scan : ListScan) (received : Bytes) : Prop where
  cursor : scan.cursor.Ready received
  symbols : scan.kType = 11 → scan.rowsLeft ≠ none → scan.cursor.pos ≤ received.length
  fresh : scan.rowsLeft = none → scan.cursor.childSymbolsLeft = 0

theorem Ready.mono {scan : ListScan} {received more : Bytes} (h : scan.Ready received) :
    scan.Ready (received ++ more) where
  cursor hleft := by
    have := h.cursor hleft
    simp
    omega
  symbols hkind hrows := by
    have := h.symbols hkind hrows
    simp
    omega
  fresh := h.fresh

theorem new_ready {kType : UInt8} {startPos : Nat} {scan : ListScan} (received : Bytes)
    (h : new kType startPos = .ok scan) : scan.Ready received := by
  unfold new at h
  split at h
  · cases h
    exact ⟨fun h => absurd h (by simp), fun _ h => absurd rfl h, fun _ => rfl⟩
  · cases h

theorem nestedRows_ready {total rows : Nat} {cursor cursor' : RowCursor} {outcome : ScanOutcome}
    {left : Nat} (hready : cursor.Ready received)
    (h : nestedRows received total rows cursor = .ok (outcome, cursor', left)) :
    cursor'.Ready received := by
  induction rows generalizing cursor with
  | zero =>
    cases h
    exact hready
  | succ rows ih =>
    simp only [nestedRows, Exec.bind_eq_ok] at h
    obtain ⟨row, hrow, h⟩ := h
    have houtcome := nestedRow_ready hready hrow
    cases row with
    | done next => exact ih (fun hleft => absurd hleft (by rw [houtcome]; omega)) h
    | stuck next =>
      cases h
      exact houtcome
    | cut next =>
      cases h
      exact fun hleft => absurd hleft (by rw [houtcome.1]; omega)

theorem advanceRows_ready {scan scan' : ListScan} {total : Nat} {outcome : ScanOutcome}
    (hready : scan.Ready received) (hsome : scan.rowsLeft ≠ none)
    (h : scan.advanceRows received total = .ok (outcome, scan')) : scan'.Ready received := by
  unfold advanceRows at h
  split at h
  · next hkind =>
    simp only [Exec.bind_eq_ok, Prod.exists, Except.ok.injEq, Prod.mk.injEq] at h
    obtain ⟨_, pos, left, hscan, rfl, rfl⟩ := h
    have hpos := (scanSymbols_pos (hready.symbols hkind hsome) hscan).1
    exact ⟨fun _ => hpos, fun _ _ => hpos, by simp⟩
  next hkind =>
  split at h
  · simp only [Exec.bind_eq_ok, Prod.exists, Except.ok.injEq, Prod.mk.injEq] at h
    obtain ⟨_, cursor, left, hscan, rfl, rfl⟩ := h
    exact ⟨nestedRows_ready hready.cursor hscan, fun h11 => absurd h11 hkind, by simp⟩
  · split at h
    · cases h
      exact hready
    · cases h
      exact hready

/-- The header leaves a scan that can go on. -/
theorem takeHeader_ready {scan scan' : ListScan} {total : Nat}
    (hzero : scan.cursor.childSymbolsLeft = 0) (h : scan.takeHeader received total = .ok (some scan')) :
    scan'.Ready received ∧ scan'.rowsLeft ≠ none := by
  unfold takeHeader at h
  split at h
  · simp only [Exec.bind_eq_ok] at h
    obtain ⟨-, -, h⟩ := h
    cases h
  simp only [Exec.bind_eq_ok, Prod.exists] at h
  obtain ⟨rows, pos, hlength, h⟩ := h
  obtain ⟨-, hpos, -⟩ := takeListLength_stop hlength
  split at h
  · cases h
    exact ⟨⟨fun _ => hpos, fun _ _ => hpos, by simp⟩, by simp⟩
  next hkind =>
  simp only [Exec.bind_eq_ok] at h
  obtain ⟨stop, -, h⟩ := h
  cases h
  exact ⟨⟨fun hleft => absurd hleft (by simp [hzero]), fun h11 => absurd (.inr h11) hkind, by simp⟩,
    by simp⟩

/-- What is to come of a scan on the whole frame, from what it came to on a part of it. -/
def resume (body : Bytes) : Exec (ScanOutcome × ListScan) → Exec (ScanOutcome × ListScan)
  | .ok (.Incomplete, scan) => scan.advance body body.length
  | result => result

include hsize in
theorem advanceRows_resume {scan : ListScan} (hready : scan.Ready received)
    (hsome : scan.rowsLeft ≠ none) :
    scan.advanceRows (received ++ more) (received ++ more).length =
      resume (received ++ more) (scan.advanceRows received (received ++ more).length) := by
  unfold advanceRows
  by_cases hkind : scan.kType = 11
  · simp only [if_pos hkind]
    rw [scanSymbols_resume _ (hready.symbols hkind hsome)]
    cases hscan : scanSymbols received (received ++ more).length "q symbol-list value"
        (scan.rowsLeft.getD 0) scan.cursor.pos with
    | error e => rfl
    | ok result =>
      obtain ⟨outcome, pos, left⟩ := result
      cases outcome with
      | Complete stop => rfl
      | Incomplete => simp only [Exec.ok_bind, resume, advance, advanceRows, if_pos hkind, Option.getD_some]
  · simp only [if_neg hkind]
    by_cases hnested : scan.kType = 0
    · simp only [if_pos hnested]
      rw [nestedRows_resume hsize hready.cursor]
      cases hscan : nestedRows received (received ++ more).length (scan.rowsLeft.getD 0)
          scan.cursor with
      | error e => rfl
      | ok result =>
        obtain ⟨outcome, cursor, left⟩ := result
        cases outcome with
        | Complete stop => rfl
        | Incomplete =>
          simp only [Exec.ok_bind, resume, advance, advanceRows, if_neg hkind, if_pos hnested,
            Option.getD_some]
    · simp only [if_neg hnested]
      by_cases hpos : scan.cursor.pos ≤ received.length
      · have hpos' : scan.cursor.pos ≤ (received ++ more).length := by simp; omega
        rw [if_pos hpos, if_pos hpos']
        rfl
      · rw [if_neg hpos]
        obtain ⟨rows, hrows⟩ := Option.ne_none_iff_exists'.mp hsome
        simp only [resume, advance, hrows, advanceRows, if_neg hkind, if_neg hnested]

theorem takeHeader_append {scan : ListScan} {total : Nat}
    (h : scan.cursor.pos + 5 ≤ received.length) :
    scan.takeHeader (received ++ more) total = scan.takeHeader received total := by
  have hshort : ∀ bytes : Bytes, received.length ≤ bytes.length →
      ¬ bytes.length < saturatingAdd scan.cursor.pos 5 := by
    intro bytes hlen
    simp only [saturatingAdd]
    omega
  unfold takeHeader
  rw [if_neg (hshort _ (by simp)), if_neg (hshort _ (le_refl _)), takeListLength_append _ h]

include hsize in
/-- **A scan can be taken up again.** On the whole frame it ends where the scan ends that
saw a part of the frame first. -/
theorem advance_resume {scan : ListScan} (hready : scan.Ready received) :
    scan.advance (received ++ more) (received ++ more).length =
      resume (received ++ more) (scan.advance received (received ++ more).length) := by
  cases hrows : scan.rowsLeft with
  | some rows =>
    simp only [advance, hrows]
    exact advanceRows_resume hsize hready (by simp [hrows])
  | none =>
    by_cases hheader : received.length < saturatingAdd scan.cursor.pos 5
    · by_cases htotal : (received ++ more).length < saturatingAdd scan.cursor.pos 5
      · simp only [advance, hrows, takeHeader, if_pos hheader, if_pos htotal, incompleteOrOverrun]
        rfl
      · have hnone : scan.advance received (received ++ more).length = .ok (.Incomplete, scan) := by
          simp only [advance, hrows, takeHeader, if_pos hheader, incompleteOrOverrun, if_neg htotal,
            Exec.ok_bind]
        rw [hnone]
        rfl
    · have hpos : scan.cursor.pos + 5 ≤ received.length := by
        simp only [saturatingAdd, List.length_append] at hheader hsize
        omega
      simp only [advance, hrows]
      rw [takeHeader_append hpos]
      cases htake : scan.takeHeader received (received ++ more).length with
      | error e => rfl
      | ok header =>
        cases header with
        | none => simp only [Exec.ok_bind, resume, advance, hrows, takeHeader_append hpos, htake]
        | some next =>
          obtain ⟨hnext, hsome⟩ := takeHeader_ready (hready.fresh hrows) htake
          exact advanceRows_resume hsize hnext hsome

theorem advance_ready {scan scan' : ListScan} {total : Nat} {outcome : ScanOutcome}
    (hready : scan.Ready received) (h : scan.advance received total = .ok (outcome, scan')) :
    scan'.Ready received := by
  cases hrows : scan.rowsLeft with
  | some rows =>
    simp only [advance, hrows] at h
    exact advanceRows_ready hready (by simp [hrows]) h
  | none =>
    simp only [advance, hrows, Exec.bind_eq_ok] at h
    obtain ⟨header, hheader, h⟩ := h
    cases header with
    | none =>
      cases h
      exact hready
    | some next =>
      obtain ⟨hnext, hsome⟩ := takeHeader_ready (hready.fresh hrows) hheader
      exact advanceRows_ready hnext hsome h

end ListScan

end Resume

end Xqdb
