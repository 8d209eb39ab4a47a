import Mathlib.Tactic.Common
import Mathlib.Algebra.Group.Nat.Defs

/-! `errors.rs`, and the two ways a modelled function can stop early: an error
value or a Rust panic (an index or slice out of range, `unwrap`, `expect`).
Loops carry fuel; running out of it is reported as a panic, so a theorem that
rules out panics also says that the fuel was enough. -/

namespace Xqdb

abbrev Bytes := List UInt8

/-- `usize::MAX` on the 64-bit targets the client is built for. -/
def usizeMax : Nat := 2 ^ 64 - 1

/-- `isize::MAX`, the largest size of an allocation. -/
def isizeMax : Nat := 2 ^ 63 - 1

def i32Max : Nat := 2 ^ 31 - 1

def u32Max : Nat := 2 ^ 32 - 1

inductive TimeUnit where
  | nanoseconds
  | microseconds
  | milliseconds
  deriving DecidableEq, Repr

/-- The Polars types the client tells apart. `other` stands for the rest. -/
inductive DataType where
  | boolean
  | uint8
  | int16
  | int32
  | int64
  | float32
  | float64
  | string
  | date
  | datetime (unit : TimeUnit)
  | duration (unit : TimeUnit)
  | time
  | list (inner : DataType)
  | array (inner : DataType) (size : Nat)
  | categorical
  | binary
  | null
  | other (name : String)
  deriving DecidableEq, Repr

inductive ErrorKind where
  | unexpectedEof
  | interrupted
  | other
  deriving DecidableEq, Repr

inductive XqdbError where
  | IOError (kind : ErrorKind) (message : String)
  | AuthErr
  | FailedToConnectErr (message : String)
  | DeserializationErr (message : String)
  | Err (message : String)
  | NotConnectedErr
  | VersionErr
  | NotSupportedKTypeErr (kType : UInt8)
  | NotSupportedMinusTimeErr (kType : UInt8)
  | NotSupportedKOperatorErr (opcode : UInt8)
  | NotSupportedKNestedListErr (kType : UInt8)
  | NotSupportedKListErr (kType : UInt8)
  | NotSupportedKMixedListErr (expected actual : UInt8)
  | NotSupportedSeriesTypeErr (dataType : DataType)
  | NotSupportedPolarsNestedListTypeErr (dataType : DataType)
  | NotSupportedBigEndianErr
  | NotAbleToSerializeErr (message : String)
  | OverLengthErr
  | TooManyArgumentErr
  | ServerErr (message : Bytes)
  deriving DecidableEq, Repr

inductive Failure where
  | error (e : XqdbError)
  | panic
  deriving DecidableEq, Repr

abbrev Exec := Except Failure

namespace Exec

def err {α : Type} (e : XqdbError) : Exec α := .error (.error e)

def panicked {α : Type} : Exec α := .error .panic

/-- `option.ok_or(e)?`. -/
def okOr {α : Type} (value : Option α) (e : XqdbError) : Exec α :=
  match value with
  | some a => .ok a
  | none => err e

/-- `catch_unwind`, with the error a panic is reported as. -/
def catchUnwind {α : Type} (onPanic : XqdbError) (run : Exec α) : Except XqdbError α :=
  match run with
  | .ok a => .ok a
  | .error (.error e) => .error e
  | .error .panic => .error onPanic

theorem bind_eq_ok {α β : Type} {run : Exec α} {next : α → Exec β} {b : β} :
    run >>= next = .ok b ↔ ∃ a, run = .ok a ∧ next a = .ok b := by
  cases run with
  | error e => simp [bind, Except.bind]
  | ok a => simp [bind, Except.bind]

@[simp] theorem ok_bind {α β : Type} (a : α) (next : α → Exec β) :
    (Except.ok a : Exec α) >>= next = next a := rfl

@[simp] theorem error_bind {α β : Type} (e : Failure) (next : α → Exec β) :
    (Except.error e : Exec α) >>= next = .error e := rfl

@[simp] theorem err_bind {α β : Type} (e : XqdbError) (next : α → Exec β) :
    (err e : Exec α) >>= next = err e := rfl

@[simp] theorem panicked_bind {α β : Type} (next : α → Exec β) :
    (panicked : Exec α) >>= next = panicked := rfl

@[simp] theorem err_ne_ok {α : Type} (e : XqdbError) (a : α) : (err e : Exec α) ≠ .ok a := by
  simp [err]

@[simp] theorem panicked_ne_ok {α : Type} (a : α) : (panicked : Exec α) ≠ .ok a := by
  simp [panicked]

theorem okOr_eq_ok {α : Type} {value : Option α} {e : XqdbError} {a : α} :
    okOr value e = .ok a ↔ value = some a := by
  cases value <;> simp [okOr]

@[simp] theorem okOr_some {α : Type} (a : α) (e : XqdbError) : okOr (some a) e = .ok a := rfl

@[simp] theorem okOr_none {α : Type} (e : XqdbError) : okOr (none : Option α) e = err e := rfl

end Exec

/-- A run that ends with a value or an error. -/
def NoPanic {α : Type} (run : Exec α) : Prop := run ≠ .error .panic

theorem noPanic_ok {α : Type} (a : α) : NoPanic (.ok a : Exec α) := by simp [NoPanic]

theorem noPanic_err {α : Type} (e : XqdbError) : NoPanic (Exec.err e : Exec α) := by
  simp [NoPanic, Exec.err]

theorem noPanic_okOr {α : Type} (value : Option α) (e : XqdbError) : NoPanic (Exec.okOr value e) := by
  cases value with
  | none => exact noPanic_err e
  | some a => exact noPanic_ok a

theorem NoPanic.bind {α β : Type} {run : Exec α} {next : α → Exec β} (hrun : NoPanic run)
    (hnext : ∀ a, run = .ok a → NoPanic (next a)) : NoPanic (run >>= next) := by
  cases run with
  | error e =>
    intro h
    exact hrun (congrArg Except.error (Except.error.inj h))
  | ok a => exact hnext a rfl

/-- `vec[i]`. -/
def index (vec : Bytes) (i : Nat) : Exec UInt8 :=
  match vec[i]? with
  | some b => .ok b
  | none => Exec.panicked

/-- `vec[i] = b`. -/
def setIndex (vec : Bytes) (i : Nat) (b : UInt8) : Exec Bytes :=
  if i < vec.length then .ok (vec.set i b) else Exec.panicked

/-- `vec.get(start..end)`. -/
def getRange (vec : Bytes) (start stop : Nat) : Option Bytes :=
  if start ≤ stop ∧ stop ≤ vec.length then some ((vec.drop start).take (stop - start)) else none

/-- `&vec[start..end]`. -/
def sliceRange (vec : Bytes) (start stop : Nat) : Exec Bytes :=
  match getRange vec start stop with
  | some bytes => .ok bytes
  | none => Exec.panicked

/-- `vec[start..start + source.len()].copy_from_slice(source)`. -/
def copyFromSlice (vec : Bytes) (start : Nat) (source : Bytes) : Exec Bytes :=
  if start + source.length ≤ vec.length then
    .ok (vec.take start ++ source ++ vec.drop (start + source.length))
  else Exec.panicked

/-- `a.checked_add(b)` on `usize`. -/
def checkedAdd (a b : Nat) : Option Nat := if a + b ≤ usizeMax then some (a + b) else none

/-- `a.checked_mul(b)` on `usize`. -/
def checkedMul (a b : Nat) : Option Nat := if a * b ≤ usizeMax then some (a * b) else none

/-- `a.checked_sub(b)` on `usize`. -/
def checkedSub (a b : Nat) : Option Nat := if b ≤ a then some (a - b) else none

theorem checkedAdd_eq_some {a b c : Nat} : checkedAdd a b = some c ↔ c = a + b ∧ c ≤ usizeMax := by
  unfold checkedAdd
  split
  · simp only [Option.some.injEq]
    omega
  · simp only [reduceCtorEq, false_iff]
    omega

theorem checkedMul_eq_some {a b c : Nat} : checkedMul a b = some c ↔ c = a * b ∧ c ≤ usizeMax := by
  unfold checkedMul
  split
  · simp only [Option.some.injEq]
    constructor
    · rintro rfl
      exact ⟨rfl, by assumption⟩
    · rintro ⟨rfl, -⟩
      rfl
  · simp only [reduceCtorEq, false_iff]
    rintro ⟨rfl, h⟩
    exact absurd h (by assumption)

/-- `a - b` on `usize`, where an underflow panics. -/
def subtract (a b : Nat) : Exec Nat := if b ≤ a then .ok (a - b) else Exec.panicked

theorem index_eq_ok {vec : Bytes} {i : Nat} {b : UInt8} : index vec i = .ok b ↔ vec[i]? = some b := by
  unfold index
  cases vec[i]? <;> simp

theorem index_of_lt {vec : Bytes} {i : Nat} (h : i < vec.length) : index vec i = .ok vec[i] := by
  simp [index, List.getElem?_eq_getElem h]

theorem setIndex_of_lt {vec : Bytes} {i : Nat} (b : UInt8) (h : i < vec.length) :
    setIndex vec i b = .ok (vec.set i b) := by
  simp [setIndex, h]

theorem setIndex_length {vec out : Bytes} {i : Nat} {b : UInt8} (h : setIndex vec i b = .ok out) :
    out.length = vec.length := by
  unfold setIndex at h
  split at h
  · rw [← Except.ok.inj h, List.length_set]
  · cases h

theorem getRange_eq_some {vec : Bytes} {start stop : Nat} {out : Bytes} :
    getRange vec start stop = some out ↔
      start ≤ stop ∧ stop ≤ vec.length ∧ out = (vec.drop start).take (stop - start) := by
  unfold getRange
  split
  · rename_i h
    simp only [Option.some.injEq, h.1, h.2, true_and]
    exact eq_comm
  · rename_i h
    simp only [reduceCtorEq, false_iff]
    intro ⟨h₁, h₂, _⟩
    exact h ⟨h₁, h₂⟩

theorem getRange_length {vec : Bytes} {start stop : Nat} {out : Bytes}
    (h : getRange vec start stop = some out) : out.length = stop - start := by
  obtain ⟨h₁, h₂, rfl⟩ := getRange_eq_some.mp h
  simp only [List.length_take, List.length_drop]
  omega

theorem sliceRange_eq_ok {vec : Bytes} {start stop : Nat} {out : Bytes} :
    sliceRange vec start stop = .ok out ↔ getRange vec start stop = some out := by
  unfold sliceRange
  cases getRange vec start stop <;> simp

/-- `vec.get(start..)`. -/
def getFrom (vec : Bytes) (start : Nat) : Option Bytes :=
  if start ≤ vec.length then some (vec.drop start) else none

/-- `memchr(0, tail)`: the position of the first NUL. -/
def memchr (tail : Bytes) : Option Nat := tail.findIdx? (· == 0)

theorem memchr_eq_some {tail : Bytes} {n : Nat} :
    memchr tail = some n ↔ ∃ text rest, tail = text ++ 0 :: rest ∧ 0 ∉ text ∧ text.length = n := by
  unfold memchr
  induction tail generalizing n with
  | nil => simp
  | cons b tail ih =>
    rw [List.findIdx?_cons]
    by_cases hb : b = 0
    · subst hb
      simp only [beq_self_eq_true, if_true, Option.some.injEq]
      constructor
      · rintro rfl
        exact ⟨[], tail, rfl, by simp, rfl⟩
      · rintro ⟨text, rest, heq, hmem, rfl⟩
        cases text with
        | nil => rfl
        | cons c text =>
          simp only [List.cons_append, List.cons.injEq] at heq
          exact absurd (by simp [← heq.1]) hmem
    · simp only [hb, beq_iff_eq, if_false, Option.map_eq_some_iff]
      constructor
      · rintro ⟨m, hm, rfl⟩
        obtain ⟨text, rest, rfl, hmem, rfl⟩ := ih.mp hm
        refine ⟨b :: text, rest, rfl, ?_, rfl⟩
        simp only [List.mem_cons, not_or]
        exact ⟨fun h => hb h.symm, hmem⟩
      · rintro ⟨text, rest, heq, hmem, rfl⟩
        cases text with
        | nil =>
          simp only [List.nil_append, List.cons.injEq] at heq
          exact absurd heq.1 hb
        | cons c text =>
          simp only [List.cons_append, List.cons.injEq] at heq
          obtain ⟨rfl, rfl⟩ := heq
          simp only [List.mem_cons, not_or] at hmem
          exact ⟨text.length, ih.mpr ⟨text, rest, rfl, hmem.2, rfl⟩, rfl⟩

theorem memchr_eq_none {tail : Bytes} : memchr tail = none ↔ 0 ∉ tail := by
  simp only [memchr, List.findIdx?_eq_none_iff, beq_eq_false_iff_ne, ne_eq]
  constructor
  · intro h hmem
    exact h 0 hmem rfl
  · rintro h b hb rfl
    exact h hb

@[simp] theorem memchr_append_zero {text rest : Bytes} (h : 0 ∉ text) :
    memchr (text ++ 0 :: rest) = some text.length :=
  memchr_eq_some.mpr ⟨text, rest, rfl, h, rfl⟩

end Xqdb
