import Xqdb.Js.Conversion
import Xqdb.Lib.Paging
import Xqdb.QValue.Compose

/-! `batches` of `js-xqdb/src/q.ts` and `iter_batches` of `py-xqdb/xqdb/q.py`: generators that page
through what a function of the server returns. A run is given by how often the caller asks for
another page, and by what `sync` comes to for each offset; no offset is sent twice, so this may
depend on everything that happened before. -/

namespace Xqdb
namespace Batches

open Paging (Trace)

/-- What `sync` returned, as far as the generators look at it: an Arrow table or data frame, a
lossless value, or something else. -/
inductive Value (Frame : Type) where
  | frame (value : Frame)
  | qvalue (value : QValue)
  | other

/-- The greatest q long. -/
def maxQLong : Nat := 2 ^ 63 - 1

section

-- `Failure` is what `sync` throws, `numRows` is `numRows` or `shape[0]`
variable {Frame Failure : Type} (numRows : Frame → Nat)

/-! ## JavaScript -/

inductive Thrown (Failure : Type) where
  | sync (failure : Failure)
  | rangeError (message : String)
  | conversion (message : String)
  deriving DecidableEq

def maxBatchArguments : Nat := 6

def jsRows : Value Frame → Except (Thrown Failure) Nat
  | .frame value => .ok (numRows value)
  | .qvalue value =>
    if value.isTable then .ok value.len
    else .error (.conversion "batches paging function must return exactly one q table")
  | .other => .error (.conversion "batches paging function must return exactly one q table")

/-- From one request to the next, where the offset is a `bigint`: one that is not a q long does
not get through the snapshot of the arguments. -/
def batchesFrom (batchSize : Nat) (sync : Nat → Except Failure (Value Frame)) :
    Nat → Nat → Trace (Value Frame) (Thrown Failure)
  | 0, _ => .stop none
  | pulls + 1, offset =>
    if maxQLong < offset then
      .stop (some (.error (.conversion "bigintValue is outside the signed 64-bit range")))
    else
      match sync offset with
      | .error failure => .last offset (.error (.sync failure))
      | .ok value =>
        match jsRows numRows value with
        | .error error => .last offset (.error error)
        | .ok rows =>
          if batchSize < rows then
            .last offset (.error (.conversion
              s!"batches paging function returned {rows} rows, exceeding requested {batchSize}"))
          else if rows = 0 then .last offset (.ok ())
          else .cons offset value
            -- behind the `yield`
            (match pulls with
            | 0 => .stop none
            | _ + 1 => if rows < batchSize then .stop (some (.ok ()))
              else batchesFrom batchSize sync pulls (offset + rows))

/-- `batches`; nothing runs before the first page is asked for. -/
def batches (batchSize : UInt64) (args : Nat) (sync : Nat → Except Failure (Value Frame)) (pulls : Nat) :
    Trace (Value Frame) (Thrown Failure) :=
  if pulls = 0 then .stop none
  else if !Js.isSafeInteger batchSize || F64.value batchSize ≤ 0 then
    .stop (some (.error (.rangeError "batchSize must be a positive safe integer")))
  else if maxBatchArguments < args then
    .stop (some (.error (.rangeError s!"batches accepts at most {maxBatchArguments} additional arguments")))
  else batchesFrom numRows (F64.cast 0 (2 ^ 53 - 1) batchSize).toNat sync pulls 0

/-! ## Python -/

inductive Raised (Failure : Type) where
  | sync (failure : Failure)
  | typeError (message : String)
  | valueError (message : String)
  | overflowError (message : String)
  deriving DecidableEq

def pagingTableMessage : String := "paging function must return a q table"

def maxIterBatchArgs : Nat := 6

def pyRows : Value Frame → Except (Raised Failure) Nat
  | .qvalue value => if !value.isTable then .error (.typeError pagingTableMessage) else .ok value.len
  | .frame value => .ok (numRows value)
  | .other => .error (.typeError pagingTableMessage)

/-- From one request to the next. -/
def iterBatchesFrom (requestedRows : Nat) (sync : Nat → Except Failure (Value Frame)) :
    Nat → Nat → Trace (Value Frame) (Raised Failure)
  | 0, _ => .stop none
  | pulls + 1, offset =>
    match sync offset with
    | .error failure => .last offset (.error (.sync failure))
    | .ok batch =>
      match pyRows numRows batch with
      | .error error => .last offset (.error error)
      | .ok rowCount =>
        if requestedRows < rowCount then
          .last offset (.error (.valueError
            s!"paging function returned more rows than requested ({rowCount} > {requestedRows})"))
        else if rowCount = 0 then .last offset (.ok ())
        else .cons offset batch
          (match pulls with
          | 0 => .stop none
          | _ + 1 => if rowCount < requestedRows then .stop (some (.ok ()))
            else if maxQLong < offset + rowCount then
              .stop (some (.error (.overflowError "iter_batches offset exceeds q long range")))
            else iterBatchesFrom requestedRows sync pulls (offset + rowCount))

/-- `iter_batches` of an integer. -/
def iterBatches (batchSize : Int) (args : Nat) (sync : Nat → Except Failure (Value Frame)) (pulls : Nat) :
    Trace (Value Frame) (Raised Failure) :=
  if pulls = 0 then .stop none
  else if ¬ (1 ≤ batchSize ∧ batchSize ≤ maxQLong) then
    .stop (some (.error (.valueError s!"batch_size must be a positive integer no greater than {maxQLong}")))
  else if maxIterBatchArgs < args then
    .stop (some (.error (.typeError s!"iter_batches accepts at most {maxIterBatchArgs} additional arguments")))
  else iterBatchesFrom numRows batchSize.toNat sync pulls 0

/-! ## Both are one pager -/

variable (batchSize : Nat) (sync : Nat → Except Failure (Value Frame))

def jsRules : Paging.Rules (Value Frame) (Thrown Failure) where
  size := batchSize
  limit := maxQLong
  rows := jsRows numRows
  tooMany rows := .conversion s!"batches paging function returned {rows} rows, exceeding requested {batchSize}"
  overflow := .conversion "bigintValue is outside the signed 64-bit range"

def pyRules : Paging.Rules (Value Frame) (Raised Failure) where
  size := batchSize
  limit := maxQLong
  rows := pyRows numRows
  tooMany rows := .valueError s!"paging function returned more rows than requested ({rows} > {batchSize})"
  overflow := .overflowError "iter_batches offset exceeds q long range"

/-- What `sync` comes to, with its failures as JavaScript sees them. -/
def jsServer (offset : Nat) : Except (Thrown Failure) (Value Frame) := (sync offset).mapError .sync

def pyServer (offset : Nat) : Except (Raised Failure) (Value Frame) := (sync offset).mapError .sync

theorem toOption_eq_some {Error α : Type} {result : Except Error α} {value : α} (h : result.toOption = some value) :
    result = .ok value := by
  cases result with
  | error error => cases h
  | ok found => exact congrArg _ (Option.some.inj h)

theorem jsServer_eq_ok {sync : Nat → Except Failure (Value Frame)} {offset : Nat} {value : Value Frame} :
    jsServer sync offset = .ok value ↔ sync offset = .ok value := by
  unfold jsServer
  cases sync offset with
  | error failure => simp [Except.mapError]
  | ok found => simp [Except.mapError]

theorem batchesFrom_eq_run (pulls offset : Nat) :
    batchesFrom numRows batchSize sync pulls offset =
      Paging.run (jsRules numRows batchSize) (jsServer sync) pulls offset := by
  induction pulls generalizing offset with
  | zero => rfl
  | succ pulls ih =>
    rw [batchesFrom, Paging.run, jsServer]
    simp only [jsRules]
    congr 1
    cases sync offset with
    | error failure => rfl
    | ok value =>
      simp only [Except.mapError]
      cases (jsRows numRows value : Except (Thrown Failure) Nat) with
      | error error => rfl
      | ok rows =>
        dsimp only
        congr 2
        cases pulls with
        | zero => simp [Paging.run]
        | succ pulls =>
          rw [ih]
          by_cases hshort : rows < batchSize
          · simp [hshort]
          · simp only [hshort, if_false]
            rfl

theorem iterBatchesFrom_eq_run (pulls offset : Nat) (hoffset : offset ≤ maxQLong) :
    iterBatchesFrom numRows batchSize sync pulls offset =
      Paging.run (pyRules numRows batchSize) (pyServer sync) pulls offset := by
  induction pulls generalizing offset with
  | zero => rfl
  | succ pulls ih =>
    rw [iterBatchesFrom, Paging.run, pyServer]
    simp only [pyRules]
    have hnot : ¬ maxQLong < offset := by omega
    simp only [hnot, if_false]
    cases sync offset with
    | error failure => rfl
    | ok value =>
      simp only [Except.mapError]
      cases (pyRows numRows value : Except (Raised Failure) Nat) with
      | error error => rfl
      | ok rows =>
        dsimp only
        congr 2
        cases pulls with
        | zero => simp [Paging.run]
        | succ pulls =>
          by_cases hshort : rows < batchSize
          · simp [hshort]
          -- the next offset is compared here, and there in front of the next request
          by_cases hlimit : maxQLong < offset + rows
          · simp only [hshort, hlimit, if_false, if_true, Paging.run]
          · rw [ih _ (by omega)]
            simp only [hshort, hlimit, if_false]
            rfl

/-- The rows of what can be a page. -/
def rowsOf : Value Frame → Option Nat
  | .frame value => some (numRows value)
  | .qvalue value => if value.isTable then some value.len else none
  | .other => none

theorem toOption_jsRows (value : Value Frame) :
    (jsRows numRows value : Except (Thrown Failure) Nat).toOption = rowsOf numRows value := by
  cases value with
  | frame value => rfl
  | qvalue value =>
    simp only [jsRows, rowsOf]
    split <;> rfl
  | other => rfl

theorem toOption_pyRows (value : Value Frame) :
    (pyRows numRows value : Except (Raised Failure) Nat).toOption = rowsOf numRows value := by
  cases value with
  | frame value => rfl
  | qvalue value =>
    simp only [pyRows, rowsOf]
    cases value.isTable <;> rfl
  | other => rfl

/-- A number that `batches` accepts is an integer that `iter_batches` accepts. -/
theorem safe_batchSize {batchSize : UInt64} (hsafe : Js.isSafeInteger batchSize = true)
    (hpositive : 0 < F64.value batchSize) :
    1 ≤ F64.cast 0 (2 ^ 53 - 1) batchSize ∧ F64.cast 0 (2 ^ 53 - 1) batchSize ≤ maxQLong := by
  have hone := F64.one_pos
  simp only [Js.isSafeInteger, Js.isInteger, F64.hasFraction, Bool.and_eq_true, Bool.not_eq_true',
    Bool.or_eq_false_iff, Bool.not_eq_false', decide_eq_false_iff_not, not_not] at hsafe
  obtain ⟨⟨hfinite, hwhole⟩, -⟩ := hsafe
  have hnan : F64.isNan batchSize = false := binary64.isNan_of_isFinite hfinite
  obtain ⟨count, hcount⟩ := Int.dvd_of_emod_eq_zero hwhole
  have hcountpos : 0 < count := by
    rw [hcount] at hpositive
    by_contra hnot
    have hproduct := Int.mul_nonpos_of_nonneg_of_nonpos (Int.le_of_lt hone) (Int.not_lt.mp hnot)
    omega
  have hquotient : (F64.value batchSize).tdiv binary64.one = count := by
    rw [hcount]
    exact Int.mul_tdiv_cancel_left _ (Int.ne_of_gt hone)
  rw [F64.cast, hnan, if_neg (by simp), hquotient]
  have hlong : (maxQLong : Int) = 2 ^ 63 - 1 := rfl
  omega

variable {batchSize : UInt64} (hsafe : Js.isSafeInteger batchSize = true) (hpositive : 0 < F64.value batchSize)
  {args : Nat} (hargs : args ≤ 6)

include hsafe hpositive hargs

theorem batches_eq_run (sync : Nat → Except Failure (Value Frame)) (pulls : Nat) :
    batches numRows batchSize args sync pulls =
      Paging.run (jsRules numRows (F64.cast 0 (2 ^ 53 - 1) batchSize).toNat) (jsServer sync) pulls 0 := by
  rw [batches]
  have hcheck : ¬ (!Js.isSafeInteger batchSize || F64.value batchSize ≤ 0) = true := by
    simp [hsafe, hpositive]
  have hcount : ¬ maxBatchArguments < args := by
    simp only [maxBatchArguments]
    omega
  rw [if_neg hcheck, if_neg hcount, batchesFrom_eq_run]
  cases pulls with
  | zero => rfl
  | succ pulls => rfl

theorem iterBatches_eq_run (sync : Nat → Except Failure (Value Frame)) (pulls : Nat) :
    iterBatches numRows (F64.cast 0 (2 ^ 53 - 1) batchSize) args sync pulls =
      Paging.run (pyRules numRows (F64.cast 0 (2 ^ 53 - 1) batchSize).toNat) (pyServer sync) pulls 0 := by
  have hsize := safe_batchSize hsafe hpositive
  have hcount : ¬ maxIterBatchArgs < args := by
    simp only [maxIterBatchArgs]
    omega
  rw [iterBatches, if_neg (not_not.mpr hsize), if_neg hcount, iterBatchesFrom_eq_run _ _ _ _ _ (Nat.zero_le _)]
  cases pulls with
  | zero => rfl
  | succ pulls => rfl

/-- **Paging is orderly and the same in both clients.** Whatever comes back for each offset: both
generators send the same requests, the k-th for the rows from `k * size` on and never beyond q's
longs, hand out the same pages as they came, each with some rows and no more than were asked for,
ask again only behind a full page, and go on, end or fail together. -/
theorem paging_orderly (sync : Nat → Except Failure (Value Frame)) (pulls : Nat) :
    let size := F64.cast 0 (2 ^ 53 - 1) batchSize
    let js := batches numRows batchSize args sync pulls
    let py := iterBatches numRows size args sync pulls
    (js.requests = py.requests ∧ js.pages = py.pages ∧
      js.ended.map Except.toOption = py.ended.map Except.toOption) ∧
    js.requests = (List.range js.requests.length).map (· * size.toNat) ∧
    (∀ offset ∈ js.requests, offset ≤ maxQLong) ∧
    (js.pages.length ≤ js.requests.length ∧ js.requests.length ≤ js.pages.length + 1) ∧
    (∀ (k : Nat) page, js.pages[k]? = some page → sync (k * size.toNat) = .ok page ∧
      ∃ rows, rowsOf numRows page = some rows ∧ 0 < rows ∧ rows ≤ size.toNat ∧
        (k + 1 < js.requests.length → rows = size.toNat)) ∧
    (js.ended = none → js.pages.length = pulls) := by
  intro size js py
  have hjs : js = Paging.run (jsRules numRows size.toNat) (jsServer sync) pulls 0 :=
    batches_eq_run numRows hsafe hpositive hargs sync pulls
  have hpy : py = Paging.run (pyRules numRows size.toNat) (pyServer sync) pulls 0 :=
    iterBatches_eq_run numRows hsafe hpositive hargs sync pulls
  have halike : Paging.Alike js py := by
    rw [hjs, hpy]
    apply Paging.run_alike
    · rfl
    · rfl
    · intro page
      exact (toOption_jsRows numRows page).trans (toOption_pyRows numRows page).symm
    · intro offset
      simp only [jsServer, pyServer]
      cases sync offset <;> rfl
  have horderly : Paging.Orderly (jsRules numRows size.toNat) (jsServer sync) pulls 0 js := by
    rw [hjs]
    exact Paging.run_orderly _ _ _ _
  refine ⟨⟨halike.requests, halike.pages, halike.ended⟩, ?_, horderly.limited, horderly.answered, ?_,
    horderly.waiting⟩
  · simpa [jsRules] using horderly.requests
  · intro k page hpage
    obtain ⟨hanswered, rows, hrows, hsome, hmost⟩ := horderly.handed k page hpage
    have hread : (jsRows numRows page : Except (Thrown Failure) Nat) = .ok rows := hrows
    have hcount : rowsOf numRows page = some rows := by
      have hsame : (jsRows numRows page : Except (Thrown Failure) Nat).toOption = rowsOf numRows page :=
        toOption_jsRows numRows page
      rw [hread] at hsame
      exact hsame.symm
    refine ⟨?_, rows, hcount, hsome, hmost, ?_⟩
    · rw [Nat.zero_add] at hanswered
      exact jsServer_eq_ok.mp hanswered
    · intro hmore
      have hfull := horderly.full k page hpage hmore
      rw [Paging.Full, hrows, Except.ok.injEq] at hfull
      exact hfull

/-- **A table that does not change is read once and whole.** If the function of the server answers
each offset with the rows of one table from there on, as many as were asked for, then the pages
that either client hands out are the table, and it stops behind the first page that is not full. -/
theorem paging_reads_table {Row : Type} (content : Value Frame → List Row)
    (sync : Nat → Except Failure (Value Frame)) (table : List Row) (hlength : table.length ≤ maxQLong)
    (hserves : ∀ offset ≤ table.length, ∃ page, sync offset = .ok page ∧
      rowsOf numRows page = some (content page).length ∧
      content page = (table.drop offset).take (F64.cast 0 (2 ^ 53 - 1) batchSize).toNat)
    (pulls : Nat) (hpulls : table.length / (F64.cast 0 (2 ^ 53 - 1) batchSize).toNat + 1 < pulls) :
    let size := F64.cast 0 (2 ^ 53 - 1) batchSize
    let js := batches numRows batchSize args sync pulls
    let py := iterBatches numRows size args sync pulls
    (js.ended = some (.ok ()) ∧ js.pages.flatMap content = table ∧
      js.requests.length = table.length / size.toNat + 1) ∧
    (py.ended = some (.ok ()) ∧ py.pages.flatMap content = table ∧
      py.requests.length = table.length / size.toNat + 1) := by
  intro size js py
  have hpositive' : 0 < size.toNat := by
    have hle : 1 ≤ size := (safe_batchSize hsafe hpositive).1
    omega
  have hjs : js = Paging.run (jsRules numRows size.toNat) (jsServer sync) pulls 0 :=
    batches_eq_run numRows hsafe hpositive hargs sync pulls
  have hpy : py = Paging.run (pyRules numRows size.toNat) (pyServer sync) pulls 0 :=
    iterBatches_eq_run numRows hsafe hpositive hargs sync pulls
  constructor
  · rw [hjs]
    have hserves' : Paging.Serves (jsRules numRows size.toNat) content (jsServer sync) table := by
      intro offset hoffset
      obtain ⟨page, hsync, hrows, hcontent⟩ := hserves offset hoffset
      refine ⟨page, jsServer_eq_ok.mpr hsync, ?_, hcontent⟩
      exact toOption_eq_some ((toOption_jsRows numRows page).trans hrows)
    exact Paging.run_table _ content hpositive' hlength hserves' pulls 0 (Nat.zero_le _) hpulls
  · rw [hpy]
    have hserves' : Paging.Serves (pyRules numRows size.toNat) content (pyServer sync) table := by
      intro offset hoffset
      obtain ⟨page, hsync, hrows, hcontent⟩ := hserves offset hoffset
      refine ⟨page, ?_, ?_, hcontent⟩
      · rw [pyServer, hsync]
        rfl
      · exact toOption_eq_some ((toOption_pyRows numRows page).trans hrows)
    exact Paging.run_table _ content hpositive' hlength hserves' pulls 0 (Nat.zero_le _) hpulls

end

/-- Frames that are their rows. -/
def contentOf : Value (List Nat) → List Nat
  | .frame rows => rows
  | _ => []

/-- Five rows, and what a function of the server returns for two of them at a time. -/
def fiveRows (offset : Nat) : Except Unit (Value (List Nat)) := .ok (.frame (([10, 20, 30, 40, 50].drop offset).take 2))

theorem cast_two : F64.cast 0 (2 ^ 53 - 1) 0x4000000000000000 = 2 := by decide +kernel

theorem two_safe : Js.isSafeInteger 0x4000000000000000 = true ∧ 0 < F64.value 0x4000000000000000 := by decide +kernel

theorem paging_orderly_five :
    let js := batches List.length 0x4000000000000000 0 fiveRows 4
    let py := iterBatches List.length 2 0 fiveRows 4
    js.requests = [0, 2, 4] ∧ js.requests = py.requests ∧ js.pages = py.pages := by
  intro js py
  have horderly := @paging_orderly (List Nat) Unit List.length 0x4000000000000000 two_safe.1 two_safe.2 0
    (Nat.zero_le 6) fiveRows 4
  simp only [cast_two] at horderly
  obtain ⟨⟨hrequests, hpages, -⟩, -⟩ := horderly
  refine ⟨?_, hrequests, hpages⟩
  rw [hrequests]
  rfl

theorem paging_reads_table_five :
    (batches List.length 0x4000000000000000 0 fiveRows 4).ended = some (.ok ()) ∧
      (batches List.length 0x4000000000000000 0 fiveRows 4).pages.flatMap contentOf = [10, 20, 30, 40, 50] := by
  have hread := @paging_reads_table (List Nat) Unit List.length 0x4000000000000000 two_safe.1 two_safe.2 0
    (Nat.zero_le 6) Nat contentOf fiveRows [10, 20, 30, 40, 50] (by decide) (by
      intro offset _
      rw [cast_two]
      exact ⟨_, rfl, rfl, rfl⟩) 4 (by
      rw [cast_two]
      decide)
  exact ⟨hread.1.1, hread.1.2.1⟩

end Batches
end Xqdb
