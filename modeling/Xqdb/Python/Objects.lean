import Xqdb.Floats
import Xqdb.Lib.Calendar
import Xqdb.Lib.ObjectGraph
import Xqdb.Node.RoundTrip

/-! Values of the client as Python objects: `cast_to_k` and `cast_k_to_py` of
`py-xqdb/src/connector.rs`. -/

namespace Xqdb.Python

/-- What is raised. `extraction` stands for the errors that `pyo3` raises by itself where an object
is not what it is extracted as. -/
inductive Exception where
  | ValueError (message : String)
  | TypeError (message : String)
  | OverflowError (message : String)
  | extraction (target : String)
  deriving DecidableEq

/-! ## Objects -/

/-- `datetime.date`. -/
structure Date where
  date : Calendar.Date
  valid : date.Valid
  years : 1 ≤ date.year ∧ date.year ≤ 9999
  deriving DecidableEq

/-- `datetime.time`. -/
structure Time where
  hour : Nat
  minute : Nat
  second : Nat
  microsecond : Nat
  bounds : hour < 24 ∧ minute < 60 ∧ second < 60 ∧ microsecond < 1000000
  deriving DecidableEq

/-- The `tzinfo` of a `datetime`: there is none, it has no offset at this time, it has one in
microseconds, or asking it raises. -/
inductive Zone where
  | naive
  | offsetless
  | offset (microseconds : Int)
  | failing (error : Exception)
  deriving DecidableEq

/-- `datetime.datetime`. The attribute `nanosecond` is there on a `pandas.Timestamp`. -/
structure DateTime where
  date : Date
  time : Time
  zone : Zone
  nanosecond : Option (Except Exception Int64)

/-- `datetime.timedelta`, as Python normalises it. -/
structure Delta where
  days : Int
  seconds : Nat
  microseconds : Nat
  bounds : -999999999 ≤ days ∧ days ≤ 999999999 ∧ seconds < 86400 ∧ microseconds < 1000000
  deriving DecidableEq

/-- What `import_value` makes of an object with `__arrow_c_stream__`. -/
inductive ArrowValue where
  | DataFrame (frame : Xqdb.DataFrame)
  | Series (series : Xqdb.Series)

def ArrowValue.k : ArrowValue → K
  | .Series series => .Series series
  | .DataFrame frame => .DataFrame frame

/-- Objects without members. A text is `none` if it has a surrogate and so no UTF-8; `arrow` has
`__arrow_c_stream__`, with what `import_value` makes of it. -/
inductive Leaf where
  | qvalue (value : QValue)
  | operator (value : QOperator)
  | lambda (value : QLambda)
  | bool (value : Bool)
  | int (value : Int)
  | float (bits : UInt64)
  | str (text : Option Str)
  | bytes (value : Bytes)
  | arrow (imported : Except Exception ArrowValue)
  | none
  | datetime (value : DateTime)
  | date (value : Date)
  | time (value : Time)
  | delta (value : Delta)
  | other (typeName : String)

/-- What a reference leads to. A key is what extracting it as a text comes to. -/
inductive Object (Ref : Type) where
  | leaf (value : Leaf)
  | dict (entries : List (Except Exception Str × Ref))
  | list (items : List Ref)
  | tuple (items : List Ref)

/-- Objects as trees, such as `cast_k_to_py` makes. -/
inductive Value where
  | leaf (value : Leaf)
  | dict (entries : List (Str × Value))
  | list (items : List Value)
  | tuple (items : List Value)

def maxConversionDepth : Nat := 64
def maxCallArguments : Nat := 8
def microsecondsPerSecond : Int := 1000000
def microsecondsPerDay : Int := 86400 * microsecondsPerSecond

/-- The number of 1 January 1970. -/
def epochDay : Int := 719163

/-- `IndexMap::insert` and `dict.__setitem__`: a key that is there keeps its place. -/
def setEntry {α : Type} (entries : List (Str × α)) (key : Str) (value : α) : List (Str × α) :=
  if key ∈ entries.map Prod.fst then entries.map fun entry => if entry.1 = key then (key, value) else entry
  else entries ++ [(key, value)]

/-! ## From Python -/

theorem Date.number_bounds (date : Date) : 1 ≤ date.date.number ∧ date.date.number ≤ 3652059 := by
  obtain ⟨hlow, hhigh⟩ := Calendar.number_bounds date.valid
  obtain ⟨hfirst, hlast⟩ := date.years
  have hstart := Calendar.daysBeforeYear_mono hfirst
  have hend := Calendar.daysBeforeYear_mono (show date.date.year + 1 ≤ 10000 by omega)
  have hone : Calendar.daysBeforeYear 1 = 0 := by decide
  have hmost : Calendar.daysBeforeYear 10000 = 3652059 := by decide
  omega

/-- `extract::<chrono::NaiveDate>`. -/
def Date.naive (date : Date) : NaiveDate where
  days := date.date.number
  lower := by
    have := date.number_bounds
    omega
  upper := by
    have := date.number_bounds
    omega

def Time.seconds (time : Time) : Nat := time.hour * 3600 + time.minute * 60 + time.second

/-- `extract::<chrono::NaiveTime>`. -/
def Time.naive (time : Time) : NaiveTime where
  secs := time.seconds
  frac := time.microsecond * 1000
  secs_lt := by
    have := time.bounds
    unfold Time.seconds
    omega
  frac_lt := by
    have := time.bounds
    omega

/-- The wall clock in microseconds from 1970. -/
def DateTime.wall (value : DateTime) : Int :=
  ((value.date.date.number - epochDay) * 86400 + value.time.seconds) * microsecondsPerSecond + value.time.microsecond

/-- The years that `astimezone` can return. -/
def InYears (microseconds : Int) : Prop :=
  (1 - epochDay) * microsecondsPerDay ≤ microseconds ∧ microseconds < (3652060 - epochDay) * microsecondsPerDay

instance (microseconds : Int) : Decidable (InYears microseconds) := inferInstanceAs (Decidable (_ ∧ _))

def ofUnixNanoseconds (nanoseconds : Int) : Xqdb.DateTime where
  timestamp := nanoseconds / 1000000000
  subsec := (nanoseconds % 1000000000).toNat
  subsec_lt := by omega

def timestampRangeMessage : String := "datetime is outside q's representable timestamp range"

/-- A naive `datetime` is taken as it is, also under a `tzinfo` without an offset. -/
def DateTime.instant (value : DateTime) : Except Exception Int :=
  match value.zone with
  | .naive => .ok value.wall
  | .offsetless => .ok value.wall
  | .offset microseconds =>
    if InYears (value.wall - microseconds) then .ok (value.wall - microseconds)
    else .error (.OverflowError "date value out of range")
  | .failing error => .error error

/-- The digits behind the microseconds. -/
def DateTime.remainder (value : DateTime) : Except Exception Int :=
  match value.nanosecond with
  | none => .ok 0
  | some (.error error) => .error error
  | some (.ok remainder) =>
    if 0 ≤ remainder.toInt ∧ remainder.toInt < 1000 then .ok remainder.toInt
    else .error (.ValueError "datetime.nanosecond must be between 0 and 999")

def castDateTime (value : DateTime) : Except Exception K := do
  let microseconds ← value.instant
  let remainder ← value.remainder
  let value := ofUnixNanoseconds (microseconds * 1000 + remainder)
  match value.timestampNanosOpt with
  | none => .error (.OverflowError timestampRangeMessage)
  | some nanoseconds =>
    if nanoseconds.toInt < Node.minQTimestampUnixNanos then .error (.OverflowError timestampRangeMessage)
    else .ok (.DateTime value)

/-- `extract::<chrono::Duration>`. -/
def Delta.duration (delta : Delta) : Duration :=
  ⟨((delta.days * 86400 + delta.seconds) * microsecondsPerSecond + delta.microseconds) * 1000⟩

/-- The branches of `cast_to_k_inner` for objects without members. -/
def castLeaf : Leaf → Except Exception K
  | .qvalue value => .ok (.QValue value)
  | .operator value => .ok (.Operator value)
  | .lambda value => .ok (.Lambda value)
  | .bool value => .ok (.Boolean value)
  | .int value =>
    match checkedI64 value with
    | some value => .ok (.I64 value)
    | none => .error (.OverflowError "Python int too large to convert to C long")
  | .float bits => .ok (.F64 bits)
  | .str (some text) => .ok (.Symbol text)
  | .str none => .error (.extraction "&str")
  | .bytes value => .ok (.CharVector value)
  | .arrow imported => imported.map ArrowValue.k
  | .none => .ok .Null
  | .datetime value => castDateTime value
  | .date value => .ok (.Date value.naive)
  | .time value =>
    if value.naive.frac % 1000000 ≠ 0 then .error (.ValueError "q time only supports millisecond precision")
    else .ok (.Time value.naive)
  | .delta value =>
    match value.duration.numNanoseconds with
    | none => .error (.OverflowError "timedelta is outside q's representable timespan range")
    | some _ => .ok (.Duration value.duration)
  | .other typeName => .error (.TypeError s!"unsupported Python type {typeName}")

section

variable {Ref : Type} (follow : Ref → List Ref → Except Exception K × List Ref)

/-- The loop over a list or tuple. -/
def castItems : List Ref → List Ref → Except Exception (List K) × List Ref
  | [], active => (.ok [], active)
  | item :: rest, active =>
    match follow item active with
    | (.error error, active) => (.error error, active)
    | (.ok value, active) =>
      match castItems rest active with
      | (.error error, active) => (.error error, active)
      | (.ok values, active) => (.ok (value :: values), active)

/-- The loop over a dictionary. -/
def castEntries : List (Except Exception Str × Ref) → List (Str × K) → List Ref →
    Except Exception (List (Str × K)) × List Ref
  | [], dict, active => (.ok dict, active)
  | (.error error, _) :: _, _, active => (.error error, active)
  | (.ok key, value) :: rest, dict, active =>
    match follow value active with
    | (.error error, active) => (.error error, active)
    | (.ok value, active) => castEntries rest (setEntry dict key value) active

end

section

variable {Ref : Type} [DecidableEq Ref] (heap : Ref → Object Ref)

def nestingMessage : String := "Python value nesting exceeds 64 levels"

def cyclicMessage : String := "cyclic Python containers cannot be converted to q"

/-- `cast_to_k_inner`, by the levels that are left. Every way out of a container removes it again. -/
def castToKInner : Nat → Ref → List Ref → Except Exception K × List Ref
  | 0, _, active => (.error (.ValueError nestingMessage), active)
  | levels + 1, ref, active =>
    match heap ref with
    | .leaf value => (castLeaf value, active)
    | .dict entries =>
      if ref ∈ active then (.error (.ValueError cyclicMessage), active)
      else
        let result := castEntries (castToKInner levels) entries [] (ref :: active)
        (result.1.map .Dict, result.2.erase ref)
    | .list items =>
      if ref ∈ active then (.error (.ValueError cyclicMessage), active)
      else
        let result := castItems (castToKInner levels) items (ref :: active)
        (result.1.map .MixedList, result.2.erase ref)
    | .tuple items =>
      if ref ∈ active then (.error (.ValueError cyclicMessage), active)
      else
        let result := castItems (castToKInner levels) items (ref :: active)
        (result.1.map .MixedList, result.2.erase ref)

def castToK (ref : Ref) : Except Exception K := (castToKInner heap (maxConversionDepth + 1) ref []).1

/-- `cast_to_k_vec`: the arguments of a call go through one set. -/
def castToKVec (arguments : List Ref) : Except Exception (List K) :=
  if maxCallArguments < arguments.length then
    .error (.TypeError s!"q functions accept at most {maxCallArguments} arguments")
  else (castItems (castToKInner heap (maxConversionDepth + 1)) arguments []).1

end

/-! ## To Python -/

/-- `python_date_parts`. -/
def pythonDateParts (days : Int) : Except Exception Date :=
  if h : 1 ≤ (Calendar.ofNumber days).year ∧ (Calendar.ofNumber days).year ≤ 9999 then
    .ok ⟨Calendar.ofNumber days, (Calendar.number_ofNumber days).1, h⟩
  else .error (.OverflowError s!"year {(Calendar.ofNumber days).year} is outside Python's supported range")

/-- `python_microseconds`. -/
def pythonMicroseconds (nanoseconds : Nat) (typeName : String) : Except Exception Nat :=
  if nanoseconds % 1000 ≠ 0 then
    .error (.ValueError s!"{typeName} has sub-microsecond precision that Python cannot represent")
  else .ok (nanoseconds / 1000)

/-- The constructor of `datetime.time`, for a second of the day. -/
def pythonTime (seconds microsecond : Nat) : Except Exception Time :=
  if h : seconds / 3600 < 24 ∧ seconds / 60 % 60 < 60 ∧ seconds % 60 < 60 ∧ microsecond < 1000000 then
    .ok ⟨seconds / 3600, seconds / 60 % 60, seconds % 60, microsecond, h⟩
  else .error (.ValueError "microsecond must be in 0..999999")

def deltaRangeMessage : String := "q timespan is outside Python's supported range"

/-- The constructor of `datetime.timedelta`, which raises outside of its range. -/
def pythonDelta (days seconds microseconds : Int) : Except Exception Delta :=
  if h : -999999999 ≤ days ∧ days ≤ 999999999 ∧ seconds.toNat < 86400 ∧ microseconds.toNat < 1000000 then
    .ok ⟨days, seconds.toNat, microseconds.toNat, h⟩
  else .error (.OverflowError s!"days={days}; must have magnitude <= 999999999")

/-- `Uuid::to_string`. -/
def guidText (guid : Guid) : Str :=
  let hex : List Char := guid.bytes.flatMap fun byte =>
    [Nat.digitChar (byte.toNat / 16), Nat.digitChar (byte.toNat % 16)]
  Str.ofText (hex.take 8 ++ '-' :: (hex.drop 8).take 4 ++ '-' :: (hex.drop 12).take 4 ++ '-' :: (hex.drop 16).take 4 ++
    '-' :: hex.drop 20)

/-- What `import_value` makes of the columns and tables that were handed to Python. -/
structure Bridge where
  series : Series → Except Exception ArrowValue
  frame : DataFrame → Except Exception ArrowValue

def castKDateTime (value : Xqdb.DateTime) : Except Exception Leaf := do
  let date ← pythonDateParts (value.timestamp / 86400 + epochDay)
  let microsecond ← pythonMicroseconds value.subsec "q timestamp"
  let time ← pythonTime (value.timestamp % 86400).toNat microsecond
  .ok (.datetime ⟨date, time, .naive, none⟩)

def castKTime (value : NaiveTime) : Except Exception Leaf := do
  let microsecond ← pythonMicroseconds value.frac "q time"
  let time ← pythonTime value.secs microsecond
  .ok (.time time)

def castKDuration (value : Duration) : Except Exception Leaf :=
  match value.numNanoseconds with
  | none => .error (.OverflowError deltaRangeMessage)
  | some nanoseconds =>
    if nanoseconds.toInt % 1000 ≠ 0 then
      .error (.ValueError "q timespan has sub-microsecond precision that Python cannot represent")
    else
      let microseconds := nanoseconds.toInt / 1000
      let days := microseconds / microsecondsPerDay
      let rest := microseconds % microsecondsPerDay
      if -2 ^ 31 ≤ days ∧ days < 2 ^ 31 then do
        let delta ← pythonDelta days (rest / microsecondsPerSecond) (rest % microsecondsPerSecond)
        .ok (.delta delta)
      else .error (.OverflowError deltaRangeMessage)

section

variable (bridge : Bridge)

mutual

def castKToPyInner (k : K) (depth : Nat) : Except Exception Value :=
  if maxConversionDepth < depth then .error (.ValueError "q value nesting exceeds 64 levels")
  else
    match k with
    | .Boolean value => .ok (.leaf (.bool value))
    | .Guid value => .ok (.leaf (.str (some (guidText value))))
    | .U8 value => .ok (.leaf (.int value.toNat))
    | .I16 value => .ok (.leaf (.int value.toInt))
    | .I32 value => .ok (.leaf (.int value.toInt))
    | .I64 value => .ok (.leaf (.int value.toInt))
    | .F32 bits => .ok (.leaf (.float (f32AsF64 bits)))
    | .F64 bits => .ok (.leaf (.float bits))
    | .Char value => .ok (.leaf (.str (some (Str.ofText [Char.ofNat value.toNat]))))
    | .CharVector value =>
      match Str.fromUtf8 value with
      | some text => .ok (.leaf (.str (some text)))
      | none => .ok (.leaf (.bytes value))
    | .Symbol value => .ok (.leaf (.str (some value)))
    | .String value => .ok (.leaf (.str (some value)))
    | .DateTime value => (castKDateTime value).map .leaf
    | .Date value => (pythonDateParts value.days).map fun date => .leaf (.date date)
    | .Time value => (castKTime value).map .leaf
    | .Duration value => (castKDuration value).map .leaf
    | .MixedList values => do
      let items ← castKItems values (depth + 1)
      .ok (.tuple items)
    | .Series value => .ok (.leaf (.arrow (bridge.series value)))
    | .DataFrame value => .ok (.leaf (.arrow (bridge.frame value)))
    | .Operator value => .ok (.leaf (.operator value))
    | .Lambda value => .ok (.leaf (.lambda value))
    | .QValue value => .ok (.leaf (.qvalue value))
    | .Null => .ok (.leaf .none)
    | .Dict entries => do
      let entries ← castKEntries entries (depth + 1) []
      .ok (.dict entries)

def castKItems (values : List K) (depth : Nat) : Except Exception (List Value) :=
  match values with
  | [] => .ok []
  | value :: rest => do
    let item ← castKToPyInner value depth
    let items ← castKItems rest depth
    .ok (item :: items)

def castKEntries (entries : List (Str × K)) (depth : Nat) (dict : List (Str × Value)) :
    Except Exception (List (Str × Value)) :=
  match entries with
  | [] => .ok dict
  | (key, value) :: rest => do
    let value ← castKToPyInner value depth
    castKEntries rest depth (setEntry dict key value)

end

def castKToPy (k : K) : Except Exception Value := castKToPyInner bridge k 0

end

end Xqdb.Python
