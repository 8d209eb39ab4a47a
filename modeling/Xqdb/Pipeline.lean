import Xqdb.Connector.QStream
import Xqdb.Deserialize
import Xqdb.Lib.Prefetch

/-! `pipeline.rs`: a table is decoded while the rest of its frame is still arriving. The
reader publishes how much of the body is in place; the scanner walks the columns as far as
that allows and hands every complete column to a decode task. All of them run at once, in
any order. -/

namespace Xqdb.Pipeline

open Connector (IoFailure QStream)
open Incoming (Stop content)
open Prefetch (Program State Step Steps)

/-- Bytes after the table type byte: attribute, dictionary type and type of the name list. -/
def tablePreamble : Nat := 4

/-- Type, attribute and count of the column list behind the names. -/
def columnListHeader : Nat := 6

def tableType : UInt8 := 98

/-- A column that has arrived, for a decode task. -/
structure ColumnTask where
  index : Nat
  kType : UInt8
  bytes : Bytes
  deriving DecidableEq, Repr

/-- The scanner ends with the column names. -/
abbrev Scanner := Program UInt8 ColumnTask (Exec (List Str))

def receiptFailed : XqdbError :=
  .IOError .unexpectedEof "IPC message body ended before its declared length"

def halted {α : Type} (result : Exec α) (next : α → Scanner) : Scanner :=
  match result with
  | .ok a => next a
  | .error e => .halt (.error e)

/-- `body.wait_for(needed)?`. The reader's failure ends the scanner with `receiptFailed`. -/
def waitFor (total needed : Nat) (next : Bytes → Scanner) : Scanner :=
  if total < needed then
    .halt (Exec.err (.DeserializationErr "q table structure extends beyond its frame"))
  else .wait needed next

/-- The loop of `scan_to_end`, `received` being what the scanner sees. -/
def scanLoop (total : Nat) (next : Nat → Scanner) : Nat → ListScan → Bytes → Scanner
  | 0, _, _ => .halt Exec.panicked
  | fuel + 1, scan, received =>
    halted (scan.advance received total) fun
      | (.Complete stop, _) => next stop
      | (.Incomplete, scan) =>
        waitFor total (saturatingAdd received.length 1) (scanLoop total next fuel scan)

/-- `snapshot` is a wait that needs nothing. Every round sees at least one byte more. -/
def scanToEnd (total : Nat) (scan : ListScan) (next : Nat → Scanner) : Scanner :=
  .wait 0 (scanLoop total next (total + 1) scan)

/-- `names.str()`, a null as the empty text. -/
def scannedNames : K → Exec (List Str)
  | .Series ⟨_, .flat .string chunks⟩ => .ok (chunks.flatten.map (·.getD Str.empty))
  | .Series _ => deserializationErr "invalid series dtype: expected `String`"
  | _ => deserializationErr "Expecting array"

/-- `for index in 0..names.len()`: a task for each column as soon as it has arrived. -/
def scanEach (total : Nat) (next : Nat → Scanner) : Nat → Nat → Nat → Scanner
  | 0, _, pos => next pos
  | count + 1, position, pos =>
    waitFor total (saturatingAdd pos 1) fun received =>
      halted (index received pos) fun kType =>
        halted (ListScan.new kType (pos + 1)) fun scan =>
          scanToEnd total scan fun stop =>
            waitFor total stop fun received =>
              halted (sliceRange received (pos + 1) stop) fun bytes =>
                .spawn ⟨position, kType, bytes⟩ (scanEach total next count (position + 1) stop)

/-- The check behind the last column. -/
def scanTrailing (total : Nat) (names : List Str) (pos : Nat) : Scanner :=
  waitFor total total fun _ =>
    if pos ≠ total then
      halted (subtract total pos) fun trailing =>
        .halt (deserializationErr s!"q value has {trailing} trailing byte(s)")
    else .halt (.ok names)

section Decoder

variable (categories : CategoricalMapping) (encoding : SymbolEncoding)

def decodeNames (received : Bytes) (namesEnd : Nat) : Exec (List Str × Nat) := do
  let bytes ← sliceRange received tablePreamble namesEnd
  let k ← deserializeSeries categories bytes 11 false encoding
  let names ← scannedNames k
  let pos ← Exec.okOr (checkedAdd namesEnd columnListHeader)
    (.DeserializationErr "q table column list overflowed")
  .ok (names, pos)

def scanColumns (total : Nat) : Scanner :=
  halted (ListScan.new 11 tablePreamble) fun scan =>
    scanToEnd total scan fun namesEnd =>
      waitFor total namesEnd fun received =>
        halted (decodeNames categories encoding received namesEnd) fun header =>
          scanEach total (scanTrailing total header.1) header.1.length 0 header.2

/-! ## What the tasks come to -/

/-- `for (index, column) in results.try_iter()`, in the order the tasks sent them. -/
def collect : List (Nat × Exec Series) → List (Option Series) → Exec (List (Option Series))
  | [], columns => .ok columns
  | (position, decoded) :: results, columns => do
    let column ← decoded
    if position < columns.length then collect results (columns.set position (some column))
    else Exec.panicked

def nameColumns : List (Option Series) → List Str → Exec (List Series)
  | some column :: columns, name :: names => do
    let rest ← nameColumns columns names
    .ok (column.rename name :: rest)
  | none :: _, _ :: _ => Exec.err parserPanic
  | _, _ => .ok []

def assemble (names : List Str) (results : List (Nat × Exec Series)) : Exec K := do
  let columns ← collect results (List.replicate names.length none)
  let columns ← nameColumns columns names
  let frame ← newFrame columns
  .ok (.DataFrame frame)

def taskResult (task : ColumnTask) : Nat × Exec Series :=
  (task.index, decodeColumn categories encoding (task.kType, task.bytes))

def isPanic {α : Type} : Exec α → Bool
  | .error .panic => true
  | _ => false

/-- The value, once the body has been read. A panic of the scanner or of a task comes out of
the scope after all of them have ended. -/
def decodeOutcome (scanned : Exec (List Str)) (results : List (Nat × Exec Series)) : Exec K :=
  if isPanic scanned || results.any (isPanic ·.2) then Exec.err parserPanic
  else do
    let names ← scanned
    assemble names results

/-- `Result<K, XqdbError>` of a computation that must not panic. -/
def settled {α : Type} : Exec α → Exec (Except XqdbError α)
  | .ok a => .ok (.ok a)
  | .error (.error e) => .ok (.error e)
  | .error .panic => .error .panic

def scanned (scanner : Scanner) : Exec (List Str) :=
  match scanner with
  | .halt result => result
  | _ => Exec.err parserPanic

abbrev Scope := State UInt8 IoFailure ColumnTask (Exec (List Str))

/-- What `receive_table` returns when everything in its scope has ended: the outcome of the
reads decides first. -/
def receiveOutcome (scope : Scope) : Exec (Except XqdbError K) :=
  match scope.reader with
  | some .full => settled (decodeOutcome (scanned scope.program)
      (scope.finished.map (taskResult categories encoding)))
  | some (.failed e) => Exec.err e.toError
  | _ => Exec.err receiptFailed

/-- A complete run of `receive_table`, with `buffer` read before. -/
structure ReceivesTable (stream : QStream) (buffer : Bytes) (total : Nat) (scope : Scope) : Prop where
  steps : Steps total (Exec.err receiptFailed)
    (State.start stream buffer (scanColumns categories encoding total)) scope
  final : scope.Final

end Decoder

/-! ## The scanner does not depend on how much has arrived -/

section Coherence

variable {whole seen : Bytes} (hsize : whole.length ≤ isizeMax)

/-- What the scanner does on the whole body. -/
theorem waitFor_run (needed : Nat) (next : Bytes → Scanner) :
    (waitFor whole.length needed next).run whole =
      if whole.length < needed then
        ([], Exec.err (.DeserializationErr "q table structure extends beyond its frame"))
      else (next whole).run whole := by
  unfold waitFor
  split <;> rfl

theorem waitFor_coherent {needed : Nat} {next : Bytes → Scanner}
    (h : ∀ part, seen <+: part → part <+: whole → needed ≤ part.length →
      (next part).Coherent whole part ∧ (next part).run whole = (next whole).run whole) :
    (waitFor whole.length needed next).Coherent whole seen := by
  unfold waitFor
  split
  · trivial
  · exact ⟨by omega, h⟩

/-- Where a scan of the whole body goes on. -/
def scanEnd (next : Nat → Scanner) (result : Exec (ScanOutcome × ListScan)) : Scanner :=
  halted result fun
    | (.Complete stop, _) => next stop
    | (.Incomplete, _) =>
      .halt (Exec.err (.DeserializationErr "q table structure extends beyond its frame"))

include hsize in
/-- The loop can be taken up with any part of the body. The fuel is enough because every
round sees at least one byte more. -/
theorem scanLoop_coherent {next : Nat → Scanner} (fuel : Nat) :
    ∀ (scan : ListScan) (part : Bytes), scan.Ready part → part <+: whole →
      whole.length < part.length + fuel →
      (∀ stop part', part <+: part' → part' <+: whole → (next stop).Coherent whole part') →
      (scanLoop whole.length next fuel scan part).Coherent whole part ∧
        (scanLoop whole.length next fuel scan part).run whole =
          (scanEnd next (scan.advance whole whole.length)).run whole := by
  have hbound : isizeMax < usizeMax := by decide
  induction fuel with
  | zero =>
    intro scan part _ hpart hfuel
    have := hpart.length_le
    omega
  | succ fuel ih =>
    intro scan part hready hpart hfuel hnext
    obtain ⟨more, hmore⟩ := hpart
    have hresume : scan.advance whole whole.length =
        ListScan.resume whole (scan.advance part whole.length) := by
      rw [← hmore]
      refine ListScan.advance_resume ?_ hready
      rw [hmore]
      omega
    have hlen : part.length ≤ whole.length := by
      rw [← hmore, List.length_append]
      omega
    rw [scanLoop]
    cases hadvance : scan.advance part whole.length with
    | error e =>
      rw [hresume, hadvance]
      exact ⟨trivial, rfl⟩
    | ok result =>
      obtain ⟨outcome, scan'⟩ := result
      have hready' := ListScan.advance_ready hready hadvance
      cases outcome with
      | Complete stop =>
        rw [hresume, hadvance]
        exact ⟨hnext stop part (List.prefix_refl part) ⟨more, hmore⟩, rfl⟩
      | Incomplete =>
        have hneeded : saturatingAdd part.length 1 = part.length + 1 := by
          unfold saturatingAdd
          omega
        have hround : ∀ part', part <+: part' → part' <+: whole → part.length + 1 ≤ part'.length →
            (scanLoop whole.length next fuel scan' part').Coherent whole part' ∧
              (scanLoop whole.length next fuel scan' part').run whole =
                (scanEnd next (scan'.advance whole whole.length)).run whole := by
          intro part' hpart hwhole hlonger
          obtain ⟨tail, rfl⟩ := hpart
          exact ih scan' (part ++ tail) hready'.mono hwhole (by omega)
            fun stop part'' hpart'' => hnext stop part'' (List.IsPrefix.trans ⟨tail, rfl⟩ hpart'')
        simp only [halted, hneeded]
        refine ⟨waitFor_coherent fun part' hpart hwhole hlonger => ?_, ?_⟩
        · obtain ⟨hcoherent, hrun⟩ := hround part' hpart hwhole hlonger
          refine ⟨hcoherent, hrun.trans ?_⟩
          have hall := hpart.length_le.trans hwhole.length_le
          exact (hround whole ⟨more, hmore⟩ (List.prefix_refl whole)
            (hlonger.trans hwhole.length_le)).2.symm
        · rw [waitFor_run]
          by_cases hend : whole.length < part.length + 1
          · -- nothing is missing, so the scan of the whole body is incomplete as well
            obtain rfl : part = whole := List.IsPrefix.eq_of_length ⟨more, hmore⟩ (by omega)
            rw [if_pos hend, hadvance]
            rfl
          · rw [if_neg hend, hresume, hadvance]
            exact (hround whole ⟨more, hmore⟩ (List.prefix_refl whole) (by omega)).2

include hsize in
/-- **One list**, scanned as it arrives: the scanner goes on behind the end that a scan of
the whole body finds, or ends with an error where that scan does. -/
theorem scanList_coherent {kType : UInt8} {pos : Nat} {next : Nat → Scanner} (hseen : seen <+: whole)
    (hnext : ∀ stop part, seen <+: part → part <+: whole → (next stop).Coherent whole part) :
    (halted (ListScan.new kType pos) fun scan => scanToEnd whole.length scan next).Coherent whole seen ∧
      ((∃ stop, calculateArrayEndIndex whole pos kType = .ok stop ∧
        (halted (ListScan.new kType pos) fun scan => scanToEnd whole.length scan next).run whole =
          (next stop).run whole) ∨
      ((∃ e, calculateArrayEndIndex whole pos kType = .error e) ∧
        ∃ e, (halted (ListScan.new kType pos) fun scan =>
          scanToEnd whole.length scan next).run whole = ([], .error e))) := by
  unfold calculateArrayEndIndex
  cases hnew : ListScan.new kType pos with
  | error e => exact ⟨trivial, .inr ⟨⟨e, rfl⟩, e, rfl⟩⟩
  | ok scan =>
    have hloop : ∀ part, seen <+: part → part <+: whole →
        (scanLoop whole.length next (whole.length + 1) scan part).Coherent whole part ∧
          (scanLoop whole.length next (whole.length + 1) scan part).run whole =
            (scanEnd next (scan.advance whole whole.length)).run whole := by
      intro part hpart hwhole
      exact scanLoop_coherent hsize (whole.length + 1) scan part (ListScan.new_ready part hnew) hwhole
        (by omega) fun stop part' hpart' => hnext stop part' (hpart.trans hpart')
    have hrun := (hloop whole hseen (List.prefix_refl whole)).2
    refine ⟨⟨Nat.zero_le _, fun part hpart hwhole _ => ?_⟩, ?_⟩
    · obtain ⟨hcoherent, hpartRun⟩ := hloop part hpart hwhole
      exact ⟨hcoherent, hpartRun.trans hrun.symm⟩
    · simp only [halted, scanToEnd, Program.run, Exec.ok_bind, hrun]
      cases hadvance : scan.advance whole whole.length with
      | error e => exact .inr ⟨⟨e, rfl⟩, e, rfl⟩
      | ok result =>
        obtain ⟨outcome, scan'⟩ := result
        cases outcome with
        | Complete stop => exact .inl ⟨stop, rfl, rfl⟩
        | Incomplete => exact .inr ⟨⟨_, rfl⟩, _, rfl⟩

/-- The tasks of the columns from `position` on. -/
def columnTasks : Nat → List (UInt8 × Bytes) → List ColumnTask
  | _, [] => []
  | position, column :: columns => ⟨position, column.1, column.2⟩ :: columnTasks (position + 1) columns

theorem sliceRange_lead {part : Bytes} {start stop : Nat} (hpart : part <+: whole)
    (hstop : stop ≤ part.length) : sliceRange part start stop = sliceRange whole start stop := by
  obtain ⟨more, rfl⟩ := hpart
  rw [sliceRange, sliceRange, getRange_append hstop]

include hsize in
theorem scanEach_coherent {next : Nat → Scanner}
    (hnext : ∀ pos part, part <+: whole → (next pos).Coherent whole part) (count : Nat) :
    ∀ (position pos : Nat) (seen : Bytes), seen <+: whole →
      (scanEach whole.length next count position pos).Coherent whole seen ∧
        ((∃ columns stop, tableColumns whole count pos = .ok (columns, stop) ∧
          (scanEach whole.length next count position pos).run whole =
            (columnTasks position columns ++ ((next stop).run whole).1, ((next stop).run whole).2)) ∨
        ((∃ e, tableColumns whole count pos = .error e) ∧
          ∃ tasks e, (scanEach whole.length next count position pos).run whole = (tasks, .error e))) := by
  have hbound : isizeMax < usizeMax := by decide
  induction count with
  | zero =>
    intro position pos seen hseen
    exact ⟨hnext pos seen hseen, .inl ⟨[], pos, rfl, rfl⟩⟩
  | succ count ih =>
    intro position pos seen hseen
    by_cases hpos : pos < whole.length
    · have hneeded : saturatingAdd pos 1 = pos + 1 := by
        unfold saturatingAdd
        omega
      have hindex : ∀ part, part <+: whole → pos + 1 ≤ part.length →
          index part pos = .ok whole[pos] := by
        intro part hpart hlong
        obtain ⟨more, rfl⟩ := hpart
        rw [← index_append hlong, index_of_lt hpos]
      -- the task of the column that ends at `stop`, and what comes behind it
      let column : Nat → Scanner := fun stop => waitFor whole.length stop fun received =>
        halted (sliceRange received (pos + 1) stop) fun bytes =>
          .spawn ⟨position, whole[pos], bytes⟩ (scanEach whole.length next count (position + 1) stop)
      have hcolumn : ∀ stop part, seen <+: part → part <+: whole →
          (column stop).Coherent whole part := by
        intro stop part _ _
        refine waitFor_coherent fun part' _ hwhole hlong => ?_
        rw [sliceRange_lead hwhole hlong]
        cases sliceRange whole (pos + 1) stop with
        | error e => exact ⟨trivial, rfl⟩
        | ok bytes => exact ⟨(ih (position + 1) stop part' hwhole).1, rfl⟩
      have hlist := fun seen' (hseen' : seen' <+: whole) (hpart : seen <+: seen') =>
        @scanList_coherent whole seen' hsize whole[pos] (pos + 1) column hseen'
          fun stop part hpart' => hcolumn stop part (hpart.trans hpart')
      have hwhole := List.prefix_refl whole
      have hstart : (scanEach whole.length next (count + 1) position pos).run whole =
          (halted (ListScan.new whole[pos] (pos + 1)) fun scan =>
            scanToEnd whole.length scan column).run whole := by
        rw [scanEach, hneeded, waitFor_run, if_neg (by omega), hindex whole hwhole hpos]
        rfl
      refine ⟨?_, ?_⟩
      · rw [scanEach, hneeded]
        refine waitFor_coherent fun part hpart hpartWhole hlong => ?_
        rw [hindex part hpartWhole hlong, hindex whole hwhole hpos]
        exact ⟨(hlist part hpartWhole hpart).1, rfl⟩
      · rw [hstart, tableColumns, index_of_lt hpos, Exec.ok_bind]
        rcases (hlist whole hwhole hseen).2 with ⟨stop, hend, hrun⟩ | ⟨⟨e, hend⟩, e', hrun⟩
        · rw [hrun, hend, Exec.ok_bind]
          simp only [column, waitFor_run]
          by_cases hstop : whole.length < stop
          · have hslice : sliceRange whole (pos + 1) stop = Exec.panicked := by
              rw [sliceRange, getRange, if_neg (by omega)]
            rw [if_pos hstop, hslice]
            exact .inr ⟨⟨_, rfl⟩, _, _, rfl⟩
          · rw [if_neg hstop]
            cases sliceRange whole (pos + 1) stop with
            | error e => exact .inr ⟨⟨_, rfl⟩, _, _, rfl⟩
            | ok bytes =>
              rw [Exec.ok_bind]
              rcases (ih (position + 1) stop whole hwhole).2 with
                ⟨columns, last, hcolumns, hrest⟩ | ⟨⟨e, hcolumns⟩, tasks, e', hrest⟩
              · refine .inl ⟨(whole[pos], bytes) :: columns, last, ?_, ?_⟩
                · rw [hcolumns, Exec.ok_bind]
                · simp only [halted, Program.run, hrest]
                  rfl
              · refine .inr ⟨⟨e, ?_⟩, ⟨position, whole[pos], bytes⟩ :: tasks, e', ?_⟩
                · rw [hcolumns, Exec.error_bind]
                · simp only [halted, Program.run, hrest]
        · rw [hend]
          exact .inr ⟨⟨e, rfl⟩, [], e', hrun⟩
    · have hneeded : whole.length < saturatingAdd pos 1 := by
        unfold saturatingAdd
        omega
      have hpanic : index whole pos = Exec.panicked := by
        rw [index, List.getElem?_eq_none (by omega)]
      rw [scanEach, waitFor, if_pos hneeded, tableColumns, hpanic]
      exact ⟨trivial, .inr ⟨⟨_, rfl⟩, _, _, rfl⟩⟩

theorem scanTrailing_coherent (names : List Str) (pos : Nat) (part : Bytes) :
    (scanTrailing whole.length names pos).Coherent whole part := by
  refine waitFor_coherent fun _ _ _ _ => ⟨?_, rfl⟩
  split
  · cases subtract whole.length pos with
    | error e => trivial
    | ok trailing => trivial
  · trivial

theorem scanTrailing_run (names : List Str) (pos : Nat) :
    (pos = whole.length ∧ (scanTrailing whole.length names pos).run whole = ([], .ok names)) ∨
      (pos ≠ whole.length ∧
        ∃ e, (scanTrailing whole.length names pos).run whole = ([], .error e)) := by
  rw [scanTrailing, waitFor_run, if_neg (by omega)]
  by_cases hpos : pos = whole.length
  · exact .inl ⟨hpos, by rw [if_neg (by simpa using hpos)]; rfl⟩
  · rw [if_pos hpos]
    refine .inr ⟨hpos, ?_⟩
    cases subtract whole.length pos with
    | error e => exact ⟨_, rfl⟩
    | ok trailing => exact ⟨_, rfl⟩

/-- Both paths take the names from the same series. -/
theorem scannedNames_cases (k : K) :
    (∃ names, tableNames k = .ok names ∧ scannedNames k = .ok (names.map (·.getD Str.empty))) ∨
      ((∃ e, tableNames k = .error e) ∧ ∃ e, scannedNames k = .error e) := by
  by_cases hnames : ∃ name chunks, k = .Series ⟨name, .flat .string chunks⟩
  · obtain ⟨name, chunks, rfl⟩ := hnames
    exact .inl ⟨_, rfl, rfl⟩
  right
  constructor
  · unfold tableNames
    split
    · exact absurd ⟨_, _, rfl⟩ hnames
    · exact ⟨_, rfl⟩
    · exact ⟨_, rfl⟩
  · unfold scannedNames
    split
    · exact absurd ⟨_, _, rfl⟩ hnames
    · exact ⟨_, rfl⟩
    · exact ⟨_, rfl⟩

section Decoder

variable (categories : CategoricalMapping) (encoding : SymbolEncoding)

/-- The names of a table, its columns and where it ends: `deserialize` up to the decoding of
the columns. -/
def tableLayout (vec : Bytes) (pos : Nat) :
    Exec (List (Option Str) × List (UInt8 × Bytes) × Nat) := do
  let stop ← calculateArrayEndIndex vec (pos + 3) 11
  let bytes ← sliceRange vec (pos + 3) stop
  let k ← deserializeSeries categories bytes 11 false encoding
  let names ← tableNames k
  let columns ← tableColumns vec names.length (stop + 6)
  .ok (names, columns.1, columns.2)

theorem deserializeTable_eq (vec : Bytes) (pos : Nat) :
    deserializeTable categories encoding vec pos = (do
      let layout ← tableLayout categories encoding vec pos
      let decoded ← tryCollect (decodeColumn categories encoding) layout.2.1
      let frame ← newFrame (renameColumns decoded layout.1)
      .ok (.DataFrame frame, layout.2.2)) := by
  simp only [deserializeTable, tableLayout, bind_assoc, Exec.ok_bind]

include hsize in
/-- **The scanner on the whole body** finds the layout that `deserialize` finds, with a task
for each column, where the layout ends with the body; else it ends with an error. -/
theorem scanColumns_coherent (hseen : seen <+: whole) :
    (scanColumns categories encoding whole.length).Coherent whole seen ∧
      ((∃ names columns, tableLayout categories encoding whole 1 = .ok (names, columns, whole.length) ∧
        (scanColumns categories encoding whole.length).run whole =
          (columnTasks 0 columns, .ok (names.map (·.getD Str.empty)))) ∨
      ((∀ names columns,
          tableLayout categories encoding whole 1 ≠ .ok (names, columns, whole.length)) ∧
        ∃ tasks e, (scanColumns categories encoding whole.length).run whole = (tasks, .error e))) := by
  have hbound : isizeMax + 6 < usizeMax := by decide
  have hwhole := List.prefix_refl whole
  -- what is done behind the names, from what has arrived
  let behind : Nat → Scanner := fun namesEnd => waitFor whole.length namesEnd fun received =>
    halted (decodeNames categories encoding received namesEnd) fun header =>
      scanEach whole.length (scanTrailing whole.length header.1) header.1.length 0 header.2
  have hsame : ∀ namesEnd part, part <+: whole → namesEnd ≤ part.length →
      decodeNames categories encoding part namesEnd =
        decodeNames categories encoding whole namesEnd := by
    intro namesEnd part hpart hlong
    rw [decodeNames, decodeNames, sliceRange_lead hpart hlong]
  have heach := fun (names : List Str) (pos : Nat) (part : Bytes) (hpart : part <+: whole) =>
    scanEach_coherent hsize (fun pos part _ => scanTrailing_coherent names pos part) names.length 0 pos
      part hpart
  have hbehind : ∀ stop part, seen <+: part → part <+: whole →
      (behind stop).Coherent whole part := by
    intro stop part _ _
    refine waitFor_coherent fun part' _ hpart' hlong => ?_
    rw [hsame stop part' hpart' hlong]
    cases decodeNames categories encoding whole stop with
    | error e => exact ⟨trivial, rfl⟩
    | ok header => exact ⟨(heach header.1 header.2 part' hpart').1, rfl⟩
  obtain ⟨hcoherent, hrun⟩ := @scanList_coherent whole seen hsize 11 tablePreamble behind hseen hbehind
  refine ⟨hcoherent, ?_⟩
  change (∃ names columns, _ ∧ (halted (ListScan.new 11 tablePreamble) fun scan =>
    scanToEnd whole.length scan behind).run whole = _) ∨ (_ ∧ ∃ tasks e,
      (halted (ListScan.new 11 tablePreamble) fun scan =>
        scanToEnd whole.length scan behind).run whole = _)
  rcases hrun with ⟨stop, hend, hrun⟩ | ⟨⟨e, hend⟩, e', hrun⟩
  · rw [hrun]
    simp only [behind, waitFor_run, tableLayout, show 1 + 3 = tablePreamble from rfl, hend, Exec.ok_bind]
    by_cases hstop : whole.length < stop
    · have hslice : sliceRange whole tablePreamble stop = Exec.panicked := by
        rw [sliceRange, getRange, if_neg (by omega)]
      rw [if_pos hstop, hslice]
      exact .inr ⟨(fun _ _ h => by cases h), _, _, rfl⟩
    rw [if_neg hstop]
    have hadd : checkedAdd stop columnListHeader = some (stop + 6) :=
      checkedAdd_eq_some.mpr ⟨rfl, by omega⟩
    rw [decodeNames, hadd, Exec.okOr_some]
    cases sliceRange whole tablePreamble stop with
    | error e => exact .inr ⟨(fun _ _ h => by cases h), _, _, rfl⟩
    | ok bytes =>
      simp only [Exec.ok_bind]
      cases deserializeSeries categories bytes 11 false encoding with
      | error e => exact .inr ⟨(fun _ _ h => by cases h), _, _, rfl⟩
      | ok k =>
        simp only [Exec.ok_bind]
        rcases scannedNames_cases k with ⟨names, hnames, hscanned⟩ | ⟨⟨e, hnames⟩, e', hscanned⟩
        · rw [hnames, hscanned]
          simp only [Exec.ok_bind, halted]
          rcases (heach (names.map (·.getD Str.empty)) (stop + 6) whole hwhole).2 with
            ⟨columns, last, hcolumns, hrest⟩ | ⟨⟨e, hcolumns⟩, tasks, e', hrest⟩
          · rw [List.length_map] at hcolumns
            rw [hrest, hcolumns]
            simp only [Exec.ok_bind]
            rcases @scanTrailing_run whole (names.map (·.getD Str.empty)) last with
              ⟨rfl, htrailing⟩ | ⟨hlast, e, htrailing⟩
            · rw [htrailing, List.append_nil]
              exact .inl ⟨names, columns, rfl, rfl⟩
            · rw [htrailing]
              refine .inr ⟨fun names' columns' h => ?_, _, _, rfl⟩
              cases h
              exact hlast rfl
          · rw [List.length_map] at hcolumns
            rw [hrest, hcolumns]
            exact .inr ⟨(fun _ _ h => by cases h), tasks, e', rfl⟩
        · rw [hnames, hscanned]
          exact .inr ⟨(fun _ _ h => by cases h), _, _, rfl⟩
  · refine .inr ⟨fun names columns h => ?_, [], e', hrun⟩
    rw [tableLayout, show 1 + 3 = tablePreamble from rfl, hend] at h
    cases h

end Decoder

end Coherence

/-! ## The columns, in whatever order they were decoded -/

theorem mem_columnTasks {columns : List (UInt8 × Bytes)} {position : Nat} {task : ColumnTask} :
    task ∈ columnTasks position columns ↔
      ∃ i, task.index = position + i ∧ columns[i]? = some (task.kType, task.bytes) := by
  induction columns generalizing position with
  | nil => simp [columnTasks]
  | cons column columns ih =>
    rw [columnTasks, List.mem_cons, ih]
    constructor
    · rintro (rfl | ⟨i, hindex, hcolumn⟩)
      · exact ⟨0, rfl, rfl⟩
      · exact ⟨i + 1, by omega, hcolumn⟩
    · rintro ⟨i, hindex, hcolumn⟩
      cases i with
      | zero =>
        simp only [List.getElem?_cons_zero, Option.some.injEq] at hcolumn
        subst hcolumn
        obtain ⟨index, kType, bytes⟩ := task
        exact .inl (by rw [show index = position from hindex])
      | succ i => exact .inr ⟨i, by omega, hcolumn⟩

theorem tryCollect_cases {α β : Type} (convert : α → Exec β) (items : List α) :
    (∃ values, tryCollect convert items = .ok values ∧ values.length = items.length ∧
      ∀ (i : Nat) item, items[i]? = some item →
        ∃ value, values[i]? = some value ∧ convert item = .ok value) ∨
    ((∃ e, tryCollect convert items = .error e) ∧ ∃ item ∈ items, ∃ e, convert item = .error e) := by
  induction items with
  | nil => exact .inl ⟨[], rfl, rfl, fun i item h => by simp at h⟩
  | cons item items ih =>
    rw [tryCollect]
    cases hitem : convert item with
    | error e => exact .inr ⟨⟨e, rfl⟩, item, by simp, e, hitem⟩
    | ok value =>
      rw [Exec.ok_bind]
      rcases ih with ⟨values, hvalues, hlen, heach⟩ | ⟨⟨e, hvalues⟩, bad, hmem, hbad⟩
      · refine .inl ⟨value :: values, by rw [hvalues, Exec.ok_bind], by simp [hlen], ?_⟩
        intro i other hother
        cases i with
        | zero =>
          simp only [List.getElem?_cons_zero, Option.some.injEq] at hother
          subst hother
          exact ⟨value, rfl, hitem⟩
        | succ i => exact heach i other hother
      · exact .inr ⟨⟨e, by rw [hvalues, Exec.error_bind]⟩, bad, List.mem_cons_of_mem _ hmem, hbad⟩

/-- Results that are all good fill their places. -/
theorem collect_ok {decoded : List Series} (results : List (Nat × Exec Series)) :
    ∀ columns : List (Option Series), columns.length = decoded.length →
      (∀ result ∈ results, ∃ column, decoded[result.1]? = some column ∧ result.2 = .ok column) →
      ∃ out, collect results columns = .ok out ∧ out.length = decoded.length ∧
        ∀ i, ((∃ result ∈ results, result.1 = i) ∨ columns[i]? = some decoded[i]?) →
          out[i]? = some decoded[i]? := by
  induction results with
  | nil =>
    intro columns hlen _
    refine ⟨columns, rfl, hlen, fun i hi => ?_⟩
    rcases hi with ⟨result, hmem, -⟩ | hi
    · cases hmem
    · exact hi
  | cons result results ih =>
    intro columns hlen hgood
    obtain ⟨position, outcome⟩ := result
    obtain ⟨column, hcolumn, houtcome⟩ := hgood _ (List.mem_cons_self)
    dsimp only at hcolumn houtcome
    subst houtcome
    have hposition : position < columns.length := by
      have := (List.getElem?_eq_some_iff.mp hcolumn).1
      omega
    obtain ⟨out, hout, hsize, hplaces⟩ := ih (columns.set position (some column)) (by simpa using hlen)
      fun result hmem => hgood result (List.mem_cons_of_mem _ hmem)
    refine ⟨out, ?_, hsize, fun i hi => hplaces i ?_⟩
    · rw [collect, Exec.ok_bind, if_pos hposition, hout]
    · by_cases hsame : position = i
      · subst hsame
        right
        rw [List.getElem?_set_self hposition, hcolumn]
      · rcases hi with ⟨other, hmem, hother⟩ | hi
        · rcases List.mem_cons.mp hmem with rfl | hmem
          · exact absurd hother hsame
          · exact .inl ⟨other, hmem, hother⟩
        · right
          rw [List.getElem?_set_ne hsame, hi]

/-- A result that is an error is the outcome, whichever comes first. -/
theorem collect_failed (results : List (Nat × Exec Series)) :
    ∀ columns : List (Option Series),
      (∀ result ∈ results, result.1 < columns.length ∧ isPanic result.2 = false) →
      (∃ result ∈ results, ∃ e, result.2 = .error e) →
      ∃ e, collect results columns = Exec.err e := by
  induction results with
  | nil =>
    rintro columns - ⟨result, hmem, -⟩
    cases hmem
  | cons result results ih =>
    intro columns hgood hbad
    obtain ⟨position, outcome⟩ := result
    obtain ⟨hposition, hpanic⟩ := hgood _ (List.mem_cons_self)
    cases outcome with
    | error failure =>
      cases failure with
      | error e => exact ⟨e, rfl⟩
      | panic => cases hpanic
    | ok column =>
      rw [collect, Exec.ok_bind, if_pos hposition]
      refine ih _ (fun result hmem => ?_) ?_
      · rw [List.length_set]
        exact hgood result (List.mem_cons_of_mem _ hmem)
      · obtain ⟨bad, hmem, e, he⟩ := hbad
        rcases List.mem_cons.mp hmem with rfl | hmem
        · cases he
        · exact ⟨bad, hmem, e, he⟩

theorem nameColumns_map (decoded : List Series) :
    ∀ names : List Str, nameColumns (decoded.map some) names =
      .ok (List.zipWith (fun column name => column.rename name) decoded names) := by
  induction decoded with
  | nil =>
    intro names
    cases names <;> rfl
  | cons column decoded ih =>
    intro names
    cases names with
    | nil => rfl
    | cons name names => rw [List.map_cons, nameColumns, ih names, Exec.ok_bind, List.zipWith_cons_cons]

theorem tableColumns_length {vec : Bytes} {count pos stop : Nat} {columns : List (UInt8 × Bytes)}
    (h : tableColumns vec count pos = .ok (columns, stop)) : columns.length = count := by
  induction count generalizing pos columns with
  | zero =>
    cases h
    rfl
  | succ count ih =>
    obtain ⟨kType, -, h⟩ := Exec.bind_eq_ok.mp h
    obtain ⟨stop', -, h⟩ := Exec.bind_eq_ok.mp h
    obtain ⟨bytes, -, h⟩ := Exec.bind_eq_ok.mp h
    obtain ⟨rest, hrest, h⟩ := Exec.bind_eq_ok.mp h
    cases h
    rw [List.length_cons, ih hrest]

@[simp] theorem isPanic_ok {α : Type} (a : α) : isPanic (.ok a : Exec α) = false := rfl

section Agreement

variable (categories : CategoricalMapping) (encoding : SymbolEncoding)

/-- **The columns, however their tasks were ordered**, make the frame that decoding them one
after the other makes, or an error where that is one. -/
theorem decodeOutcome_eq {columns : List (UInt8 × Bytes)} {names : List (Option Str)}
    {finished : List ColumnTask} (hperm : finished.Perm (columnTasks 0 columns))
    (hnames : names.length = columns.length) :
    (∃ decoded, tryCollect (decodeColumn categories encoding) columns = .ok decoded ∧
      decodeOutcome (.ok (names.map (·.getD Str.empty)))
          (finished.map (taskResult categories encoding)) = (do
        let frame ← newFrame (renameColumns decoded names)
        .ok (.DataFrame frame))) ∨
    ((∃ e, tryCollect (decodeColumn categories encoding) columns = .error e) ∧
      ∃ e, decodeOutcome (.ok (names.map (·.getD Str.empty)))
        (finished.map (taskResult categories encoding)) = Exec.err e) := by
  have htask : ∀ result ∈ finished.map (taskResult categories encoding), ∃ i column,
      columns[i]? = some column ∧ result = (i, decodeColumn categories encoding column) := by
    intro result hmem
    obtain ⟨task, htask, rfl⟩ := List.mem_map.mp hmem
    obtain ⟨i, hindex, hcolumn⟩ := mem_columnTasks.mp (hperm.mem_iff.mp htask)
    exact ⟨i, _, hcolumn, by rw [taskResult, hindex, Nat.zero_add]⟩
  rcases tryCollect_cases (decodeColumn categories encoding) columns with
    ⟨decoded, hdecoded, hlen, heach⟩ | ⟨hfailed, bad, hmem, e, hbad⟩
  · refine .inl ⟨decoded, hdecoded, ?_⟩
    have hgood : ∀ result ∈ finished.map (taskResult categories encoding),
        ∃ column, decoded[result.1]? = some column ∧ result.2 = .ok column := by
      intro result hmem
      obtain ⟨i, column, hcolumn, rfl⟩ := htask result hmem
      exact heach i column hcolumn
    have hpanic : (finished.map (taskResult categories encoding)).any (isPanic ·.2) = false := by
      rw [List.any_eq_false]
      intro result hmem
      obtain ⟨column, -, hok⟩ := hgood result hmem
      simp [hok]
    obtain ⟨out, hcollect, hsize, hplaces⟩ := collect_ok
      (finished.map (taskResult categories encoding)) (List.replicate names.length none)
      (by rw [List.length_replicate, hnames, hlen]) hgood
    have hout : out = decoded.map some := by
      apply List.ext_getElem?
      intro i
      rw [List.getElem?_map]
      by_cases hi : i < columns.length
      · have hmem : (⟨i, columns[i].1, columns[i].2⟩ : ColumnTask) ∈ finished := by
          refine hperm.mem_iff.mpr (mem_columnTasks.mpr ⟨i, by simp, ?_⟩)
          exact List.getElem?_eq_getElem hi
        rw [hplaces i (.inl ⟨_, List.mem_map_of_mem hmem, rfl⟩)]
        rw [List.getElem?_eq_getElem (show i < decoded.length by omega), Option.map_some]
      · rw [List.getElem?_eq_none (by omega), List.getElem?_eq_none (by omega), Option.map_none]
    simp only [decodeOutcome, isPanic_ok, hpanic, Bool.or_false, Bool.false_eq_true, if_false,
      Exec.ok_bind, assemble, List.length_map, hcollect, hout, nameColumns_map, renameColumns,
      List.zipWith_map_right]
  · refine .inr ⟨hfailed, ?_⟩
    unfold decodeOutcome
    split
    · exact ⟨_, rfl⟩
    · next hcalm =>
      simp only [isPanic_ok, Bool.false_or, Bool.not_eq_true, List.any_eq_false] at hcalm
      obtain ⟨i, hi, rfl⟩ := List.mem_iff_getElem.mp hmem
      have hmemTask : (⟨i, columns[i].1, columns[i].2⟩ : ColumnTask) ∈ finished := by
        refine hperm.mem_iff.mpr (mem_columnTasks.mpr ⟨i, by simp, ?_⟩)
        exact List.getElem?_eq_getElem hi
      have hplaces : ∀ result ∈ finished.map (taskResult categories encoding),
          result.1 < (List.replicate names.length (none : Option Series)).length ∧
            isPanic result.2 = false := by
        intro result hmem
        refine ⟨?_, hcalm result hmem⟩
        obtain ⟨j, column, hcolumn, rfl⟩ := htask result hmem
        rw [List.length_replicate, hnames]
        exact (List.getElem?_eq_some_iff.mp hcolumn).1
      obtain ⟨e', hcollect⟩ := collect_failed (finished.map (taskResult categories encoding))
        (List.replicate names.length none) hplaces ⟨_, List.mem_map_of_mem hmemTask, e, hbad⟩
      refine ⟨e', ?_⟩
      simp only [Exec.ok_bind, assemble, List.length_map, hcollect, Exec.err_bind]

theorem newFrame_cases (columns : List Series) :
    (∃ frame, newFrame columns = .ok frame) ∨ ∃ e, newFrame columns = Exec.err e := by
  unfold newFrame
  split
  · exact .inl ⟨_, rfl⟩
  · exact .inr ⟨_, rfl⟩

/-- The decoder on a body that starts with the table type. -/
theorem deserializeUnchecked_table {body : Bytes} (hfirst : body.head? = some tableType) :
    deserializeUnchecked categories encoding deserializeFuel body 0 false 0 =
      deserializeTable categories encoding body 1 := by
  have hbyte : body[0]? = some tableType := by rw [← List.head?_eq_getElem?, hfirst]
  rw [deserializeFuel, deserializeUnchecked, if_neg (Nat.not_lt_zero _), hbyte, Exec.okOr_some,
    Exec.ok_bind, deserializeBody, if_neg (by decide), if_neg (by decide), if_neg (by decide),
    if_pos (by decide)]

/-- Both paths end with the same value, or both with an error. -/
def SameOutcome (piped whole : Except XqdbError K) : Prop :=
  (∃ k, piped = .ok k ∧ whole = .ok k) ∨ ((∃ e, piped = .error e) ∧ ∃ e, whole = .error e)

theorem decodeOutcome_error (e : Failure) (results : List (Nat × Exec Series)) :
    ∃ e', decodeOutcome (.error e) results = Exec.err e' := by
  unfold decodeOutcome
  split
  · exact ⟨_, rfl⟩
  · next hcalm =>
    cases e with
    | error e => exact ⟨e, rfl⟩
    | panic => exact absurd rfl hcalm

/-- What the scanner and its tasks come to on the whole body is what `deserialize` does. -/
theorem decodeOutcome_agrees {body : Bytes} (hsize : body.length ≤ isizeMax)
    (hfirst : body.head? = some tableType) {finished : List ColumnTask}
    (hperm : finished.Perm ((scanColumns categories encoding body.length).run body).1) :
    ∃ result, settled (decodeOutcome ((scanColumns categories encoding body.length).run body).2
        (finished.map (taskResult categories encoding))) = .ok result ∧
      SameOutcome result (deserialize categories encoding body) := by
  rw [deserialize, deserializeUnchecked_table categories encoding hfirst, deserializeTable_eq]
  rcases (scanColumns_coherent hsize categories encoding (List.nil_prefix)).2 with
    ⟨names, columns, hlayout, hrun⟩ | ⟨hlayout, tasks, e, hrun⟩
  · rw [hrun] at hperm ⊢
    have hnames : names.length = columns.length := by
      obtain ⟨stop, -, h⟩ := Exec.bind_eq_ok.mp hlayout
      obtain ⟨bytes, -, h⟩ := Exec.bind_eq_ok.mp h
      obtain ⟨k, -, h⟩ := Exec.bind_eq_ok.mp h
      obtain ⟨names', -, h⟩ := Exec.bind_eq_ok.mp h
      obtain ⟨found, hfound, h⟩ := Exec.bind_eq_ok.mp h
      simp only [Except.ok.injEq, Prod.mk.injEq] at h
      obtain ⟨rfl, rfl, -⟩ := h
      exact (tableColumns_length hfound).symm
    simp only [hlayout, Exec.ok_bind]
    rcases decodeOutcome_eq categories encoding hperm hnames with
      ⟨decoded, hdecoded, houtcome⟩ | ⟨⟨e, hdecoded⟩, e', houtcome⟩
    · rw [houtcome, hdecoded]
      simp only [Exec.ok_bind]
      rcases newFrame_cases (renameColumns decoded names) with ⟨frame, hframe⟩ | ⟨e, hframe⟩
      · rw [hframe]
        exact ⟨.ok (.DataFrame frame), rfl, .inl ⟨_, rfl, by simp [Exec.catchUnwind]⟩⟩
      · rw [hframe]
        exact ⟨.error e, rfl, .inr ⟨⟨e, rfl⟩, e, rfl⟩⟩
    · rw [houtcome, hdecoded]
      refine ⟨.error e', rfl, .inr ⟨⟨e', rfl⟩, ?_⟩⟩
      cases e with
      | error e => exact ⟨e, rfl⟩
      | panic => exact ⟨_, rfl⟩
  · rw [hrun]
    obtain ⟨e', houtcome⟩ := decodeOutcome_error e (finished.map (taskResult categories encoding))
    rw [houtcome]
    refine ⟨.error e', rfl, .inr ⟨⟨e', rfl⟩, ?_⟩⟩
    cases hfound : tableLayout categories encoding body 1 with
    | error failure =>
      cases failure with
      | error e => exact ⟨e, rfl⟩
      | panic => exact ⟨_, rfl⟩
    | ok layout =>
      obtain ⟨names, columns, pos⟩ := layout
      have hpos : pos ≠ body.length := by
        rintro rfl
        exact hlayout names columns hfound
      simp only [Exec.ok_bind]
      cases tryCollect (decodeColumn categories encoding) columns with
      | error failure =>
        cases failure with
        | error e => exact ⟨e, rfl⟩
        | panic => exact ⟨_, rfl⟩
      | ok decoded =>
        simp only [Exec.ok_bind]
        rcases newFrame_cases (renameColumns decoded names) with ⟨frame, hframe⟩ | ⟨e, hframe⟩
        · rw [hframe]
          exact ⟨_, by simp only [Exec.ok_bind, Exec.catchUnwind]; rw [if_neg hpos]⟩
        · rw [hframe]
          exact ⟨e, rfl⟩

theorem arriving_start {stream : QStream} {buffer body more : Bytes} (hsize : body.length ≤ isizeMax)
    (hbody : buffer ++ content stream = body ++ more) (hbuffer : buffer.length ≤ body.length) :
    Prefetch.Arriving body.length body more (scanColumns categories encoding body.length)
      (State.start stream buffer (scanColumns categories encoding body.length)) :=
  ⟨rfl, hbody, hbuffer, .inl rfl, [], [], List.nil_prefix,
    (scanColumns_coherent hsize categories encoding List.nil_prefix).1, rfl, rfl, List.Perm.refl _⟩

/-- Every complete run of `receive_table` over a body that arrives reads exactly the body and
comes to what `deserialize` comes to on the whole of it. -/
theorem receiveOutcome_agrees {stream : QStream} {buffer body more : Bytes}
    (hsize : body.length ≤ isizeMax) (hfirst : body.head? = some tableType)
    (hbody : buffer ++ content stream = body ++ more) (hbuffer : buffer.length ≤ body.length)
    {scope : Scope} (hrun : ReceivesTable categories encoding stream buffer body.length scope) :
    ∃ result, receiveOutcome categories encoding scope = .ok result ∧
      SameOutcome result (deserialize categories encoding body) ∧
      scope.arrived = body ∧ content scope.source = more := by
  have harriving := hrun.steps.arriving (arriving_start categories encoding hsize hbody hbuffer)
  obtain ⟨hreader, hprogram, hperm, harrived, hrest⟩ := harriving.final hrun.final
  obtain ⟨result, hresult, hsame⟩ := decodeOutcome_agrees categories encoding hsize hfirst hperm
  refine ⟨result, ?_, hsame, harrived, hrest⟩
  rw [receiveOutcome, hreader, hprogram]
  exact hresult

/-- A body that does not arrive is an error of the connection. -/
theorem receiveOutcome_starved {stream : QStream} {buffer : Bytes} {total : Nat}
    (hshort : buffer.length + (content stream).length < total) {scope : Scope}
    (hrun : ReceivesTable categories encoding stream buffer total scope) :
    ∃ e, receiveOutcome categories encoding scope = Exec.err e := by
  have hstarving := hrun.steps.starving ⟨fun _ => hshort, by simp [State.start]⟩
  obtain ⟨hreader, -⟩ := hrun.final
  unfold receiveOutcome
  split
  · next hfull => exact absurd hfull hstarving.reader
  · exact ⟨_, rfl⟩
  · exact ⟨_, rfl⟩

/-- A receive can be completed, whether the body arrives or not. -/
theorem exists_receivesTable (stream : QStream) (buffer : Bytes) (total : Nat)
    (hsize : total ≤ isizeMax) (hbuffer : buffer.length ≤ total) :
    ∃ scope, ReceivesTable categories encoding stream buffer total scope := by
  by_cases hlong : total ≤ (buffer ++ content stream).length
  · obtain ⟨body, hbody⟩ : ∃ body, body = (buffer ++ content stream).take total := ⟨_, rfl⟩
    have hlen : body.length = total := by
      rw [hbody, List.length_take]
      omega
    have hsplit : buffer ++ content stream = body ++ (buffer ++ content stream).drop total := by
      rw [hbody, List.take_append_drop]
    subst hlen
    obtain ⟨scope, hsteps, hfinal⟩ := Prefetch.completes
      (.inl (arriving_start categories encoding hsize hsplit hbuffer))
    exact ⟨scope, hsteps, hfinal⟩
  · rw [List.length_append] at hlong
    obtain ⟨scope, hsteps, hfinal⟩ := @Prefetch.completes _ _ _ _ total (Exec.err receiptFailed) [] []
      (scanColumns categories encoding total)
      (State.start stream buffer (scanColumns categories encoding total))
      (.inr ⟨fun _ => by simpa [State.start] using hlong, by simp [State.start]⟩)
    exact ⟨scope, hsteps, hfinal⟩

/-- **The pipelined receive agrees with whole-frame decoding.** The body is delivered in
pieces of any size, the scanner sees any part of it that has what it waits for, and the
decode tasks finish in any order. No run is endless and every run can be completed; a
complete run has read the body and nothing behind it, and has the value `deserialize` has
on the whole body, or an error where `deserialize` has one. -/
theorem receiveTable_agrees (stream : QStream) (buffer body more : Bytes)
    (hsize : body.length ≤ isizeMax) (hfirst : body.head? = some tableType)
    (hbody : buffer ++ content stream = body ++ more) (hbuffer : buffer.length ≤ body.length) :
    let start : Scope := State.start stream buffer (scanColumns categories encoding body.length)
    Acc (fun b a => Step body.length (Exec.err receiptFailed) a b) start ∧
    (∀ scope, Steps body.length (Exec.err receiptFailed) start scope →
      ∃ last, Steps body.length (Exec.err receiptFailed) scope last ∧ last.Final) ∧
    ∀ scope, ReceivesTable categories encoding stream buffer body.length scope →
      ∃ result, receiveOutcome categories encoding scope = .ok result ∧
        (∀ k, result = .ok k ↔ deserialize categories encoding body = .ok k) ∧
        ((∃ e, result = .error e) ↔ ∃ e, deserialize categories encoding body = .error e) ∧
        scope.arrived = body ∧ content scope.source = more := by
  intro start
  have harriving := arriving_start categories encoding hsize hbody hbuffer
  refine ⟨Prefetch.terminates _ _ _ start rfl, fun scope hsteps => ?_, fun scope hrun => ?_⟩
  · exact Prefetch.completes (.inl (hsteps.arriving harriving))
  · obtain ⟨result, hresult, hsame, harrived, hrest⟩ :=
      receiveOutcome_agrees categories encoding hsize hfirst hbody hbuffer hrun
    refine ⟨result, hresult, ?_, ?_, harrived, hrest⟩
    · intro k
      rcases hsame with ⟨k', rfl, hwhole⟩ | ⟨⟨e, rfl⟩, e', hwhole⟩
      · rw [hwhole]
      · rw [hwhole]
        simp
    · rcases hsame with ⟨k', rfl, hwhole⟩ | ⟨⟨e, rfl⟩, e', hwhole⟩
      · rw [hwhole]
      · rw [hwhole]
        exact ⟨fun _ => ⟨e', rfl⟩, fun _ => ⟨e, rfl⟩⟩

end Agreement

/-- A table of one integer column, cut inside its name list and inside its column. -/
theorem receiveTable_agrees_oneColumn :
    let stream : QStream := [.data 99 [11, 0, 1, 0], .interrupted, .data 0 [0, 97, 0, 0, 0, 1, 0, 0, 0, 6, 0],
      .data 1 [0, 0, 0, 7, 0], .data 0 [0, 1, 0, 2]]
    let body : Bytes := [98, 0, 99, 11, 0, 1, 0, 0, 0, 97, 0, 0, 0, 1, 0, 0, 0, 6, 0, 1, 0, 0, 0, 7, 0, 0, 0]
    ∃ scope result, ReceivesTable numberedTexts .Strict stream [98, 0] body.length scope ∧
      receiveOutcome numberedTexts .Strict scope = .ok result ∧
      (∀ k, result = .ok k ↔ deserialize numberedTexts .Strict body = .ok k) ∧
      scope.arrived = body ∧ content scope.source = [1, 0, 2] := by
  intro stream body
  obtain ⟨-, hcompletes, hagrees⟩ := receiveTable_agrees numberedTexts .Strict stream [98, 0] body
    [1, 0, 2] (by decide) rfl rfl (by decide)
  obtain ⟨scope, hsteps, hfinal⟩ := hcompletes _ (.refl _)
  obtain ⟨result, hresult, hsame, -, harrived, hrest⟩ := hagrees scope ⟨hsteps, hfinal⟩
  exact ⟨scope, result, ⟨hsteps, hfinal⟩, hresult, hsame, harrived, hrest⟩

end Xqdb.Pipeline
