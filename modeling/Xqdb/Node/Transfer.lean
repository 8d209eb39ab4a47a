import Xqdb.Js.Lambda
import Xqdb.Node.NativeValue
import Xqdb.QValue.Compose
import Xqdb.Value

/-! `k_into_native` and `OwnedNativeValue::into_k` of `dto.rs`: values of the client to the objects
that JavaScript gets, and from a snapshot of such an object back. -/

namespace Xqdb

/-- `DateTime::from_timestamp`. -/
def DateTime.fromTimestamp (secs : Int) (nsecs : Nat) : Option DateTime :=
  if h : (-95746129 ≤ secs / 86400 + 719163 ∧ secs / 86400 + 719163 ≤ 95745399) ∧
      nsecs < 2000000000 ∧ (nsecs < 1000000000 ∨ secs % 60 = 59) then some ⟨secs, nsecs, h.2.1⟩
  else none

/-- The text of a primitive's name. -/
def primitiveText (name : String) : Str := Str.ofText name.toList

/-- The type and opcode of the first primitive of that name. -/
def primitiveOf (name : Bytes) : Option (UInt8 × UInt8) :=
  [101, 102, 103].findSome? fun kType =>
    (primitives kType).bind fun names =>
      (names.findIdx? fun primitive => (primitiveText primitive).bytes = name).bind fun opcode =>
        if name = [] then none else some (kType, UInt8.ofNat opcode)

/-- `QOperator::new`. The last message ends in the name as `{:?}` shows it. -/
def QOperator.new (name : Str) : Except XqdbError QOperator :=
  if 0 ∈ name.bytes then
    .error (.NotAbleToSerializeErr "q primitive operator names cannot contain NUL bytes")
  else
    match (primitiveOf name.bytes).bind fun (kType, opcode) => QOperator.fromWire kType opcode with
    | some operator => .ok operator
    | none => .error (.NotAbleToSerializeErr "unsupported q primitive operator name ")

namespace Node

/-- `MIN_Q_TIMESTAMP_UNIX_NANOS`. -/
def minQTimestampUnixNanos : Int := -2 ^ 63 + 946684800000000000 + 2

def nanosPerMillisecond : Int := 1000000
def nanosPerSecond : Int := 1000000000
def nanosPerDay : Int := 86400 * nanosPerSecond

/-- What the conversions call of other crates: GUIDs and dates as text, where the error is the
text of the error, and tables and series as Arrow streams. -/
structure Packages extends Napi where
  guidToString : Guid → Str
  guidParseStr : Str → Except String Guid
  /-- `format("%Y-%m-%d").to_string()`. -/
  dateFormat : NaiveDate → Str
  /-- `parse_from_str(.., "%Y-%m-%d")`. -/
  dateParseFromStr : Str → Except String NaiveDate
  seriesToIpc : Series → Except DtoError Bytes
  seriesFromIpc : Bytes → Except DtoError Series
  dataframeToIpc : DataFrame → Except DtoError Bytes
  dataframeFromIpc : Bytes → Except DtoError DataFrame

def validateQSymbol (value : Str) (field : String) : Except DtoError Unit :=
  if 0 ∈ value.bytes then conversion s!"{field} cannot contain NUL bytes" else .ok ()

/-! ## To JavaScript -/

def setNumber (tag : String) (value : UInt64) : NativeDto := { tag := tag, numberValue := some value }

/-- `is_negative()` and `unsigned_abs()`. -/
def setBigint (tag : String) (value : Int64) : NativeDto :=
  { tag := tag, bigintValue := some ⟨value.toInt < 0, [UInt64.ofNat value.toInt.natAbs]⟩ }

def setString (tag : String) (value : Str) : NativeDto := { tag := tag, stringValue := some value }

def timeNanos (value : NaiveTime) : Int := value.secs * nanosPerSecond + value.frac

mutual

/-- `k_into_native_with_depth`. -/
def kIntoNativeWithDepth (env : Packages) (value : K) (depth : Nat) : Except DtoError NativeDto := do
  checkDepth depth
  match value with
  | .Operator value => return setString "operator" (primitiveText value.name)
  | .Lambda value => return { tag := "lambda", stringValue := some value.source, context := some value.context }
  | .Null => return { tag := "null" }
  | .Boolean value => return { tag := "boolean", boolValue := some value }
  | .Guid value => return setString "guid" (env.guidToString value)
  | .U8 value => return setNumber "u8" (F64.ofInt value.toNat)
  | .I16 value => return setNumber "i16" (F64.ofInt value.toInt)
  | .I32 value => return setNumber "i32" (F64.ofInt value.toInt)
  | .I64 value => return setBigint "i64" value
  | .F32 bits => return setNumber "f32" (f32AsF64 bits)
  | .F64 bits => return setNumber "f64" bits
  | .Char value => return setNumber "char" (F64.ofInt value.toNat)
  | .Symbol value =>
    validateQSymbol value "symbol"
    return setString "symbol" value
  | .String value => return setString "string" value
  | .CharVector value => return { tag := "bytes", bytesValue := some value }
  | .QValue value =>
    return { tag := "qvalue", bytesValue := some value.bytes, typeCode := some (Int32.ofInt value.typeCode),
             length := some (F64.ofInt value.len), isTable := some value.isTable }
  | .DateTime value =>
    match value.timestampNanosOpt with
    | some nanos => return setBigint "timestamp" nanos
    | none => conversion "timestamp cannot be represented as signed nanoseconds"
  | .Date value => return setString "date" (env.dateFormat value)
  | .Time value =>
    if timeNanos value % nanosPerMillisecond ≠ 0 then conversion "q time only supports millisecond precision"
    else return setBigint "time" (Int64.ofInt (timeNanos value))
  | .Duration value =>
    match value.numNanoseconds with
    | some nanos => return setBigint "timespan" nanos
    | none => conversion "timespan cannot be represented as signed nanoseconds"
  | .MixedList values =>
    let items ← eachIntoNative env values (depth + 1)
    return { tag := "list", items := some items }
  | .Series value =>
    let bytes ← env.seriesToIpc value
    return { tag := "series", bytesValue := some bytes }
  | .DataFrame value =>
    let bytes ← env.dataframeToIpc value
    return { tag := "table", bytesValue := some bytes }
  | .Dict entries =>
    let entries ← entriesIntoNative env entries (depth + 1)
    return { tag := "dictionary", entries := some entries }

def eachIntoNative (env : Packages) (values : List K) (depth : Nat) : Except DtoError (List NativeDto) :=
  match values with
  | [] => .ok []
  | value :: rest => do
    let value ← kIntoNativeWithDepth env value depth
    let rest ← eachIntoNative env rest depth
    return value :: rest

def entriesIntoNative (env : Packages) (entries : List (Str × K)) (depth : Nat) :
    Except DtoError (List (Str × NativeDto)) :=
  match entries with
  | [] => .ok []
  | (key, value) :: rest => do
    validateQSymbol key "dictionary key"
    let value ← kIntoNativeWithDepth env value depth
    let rest ← entriesIntoNative env rest depth
    return (key, value) :: rest

end

def kIntoNative (env : Packages) (value : K) : Except DtoError NativeDto := kIntoNativeWithDepth env value 0

theorem kIntoNativeWithDepth_list {env : Packages} {values : List K} {depth : Nat} {natives : List NativeDto}
    (hdepth : depth ≤ maxValueDepth) (h : eachIntoNative env values (depth + 1) = .ok natives) :
    kIntoNativeWithDepth env (.MixedList values) depth = .ok { tag := "list", items := some natives } := by
  rw [kIntoNativeWithDepth, checkDepth_ok hdepth]
  simp only [ok_bind, h]
  rfl

theorem kIntoNativeWithDepth_dict {env : Packages} {entries : List (Str × K)} {depth : Nat}
    {natives : List (Str × NativeDto)} (hdepth : depth ≤ maxValueDepth)
    (h : entriesIntoNative env entries (depth + 1) = .ok natives) :
    kIntoNativeWithDepth env (.Dict entries) depth = .ok { tag := "dictionary", entries := some natives } := by
  rw [kIntoNativeWithDepth, checkDepth_ok hdepth]
  simp only [ok_bind, h]
  rfl

/-! ## And back -/

/-- `required_bool` and the like. -/
def required {α : Type} (tag field : String) (value : Option α) : Except DtoError α :=
  match value with
  | some value => .ok value
  | none => conversion s!"{tag} requires {field}"

def requiredInteger (tag : String) (numberValue : Option UInt64) (minimum maximum : Int) : Except DtoError Int := do
  let value ← required tag "numberValue" numberValue
  if !F64.isFinite value || F64.hasFraction value || F64.lt value (F64.ofInt minimum) ||
      F64.lt (F64.ofInt maximum) value then
    conversion s!"numberValue for {tag} must be an integer in {minimum}..={maximum}"
  else return F64.cast (-2 ^ 63) (2 ^ 63 - 1) value

/-- `map_err(BindingError::from)`. -/
def fromClient {α : Type} (result : Except XqdbError α) : Except DtoError α :=
  match result with
  | .ok value => .ok value
  | .error error => .error (.client (.error error))

def fromExec {α : Type} (result : Exec α) : Except DtoError α :=
  match result with
  | .ok value => .ok value
  | .error failure => .error (.client failure)

/-- The error of another crate behind a message of the binding. -/
def fromText {α : Type} (message : String) (result : Except String α) : Except DtoError α :=
  match result with
  | .ok value => .ok value
  | .error error => conversion (message ++ error)

def f32FromNumber (value : UInt64) : Except DtoError K :=
  if F64.isFinite value && (F64.lt value (f32AsF64 f32Min) || F64.lt (f32AsF64 f32Max) value) then
    conversion "numberValue is outside the f32 range"
  else .ok (.F32 (f64AsF32 value))

def timestampFromBigint (nanos : Int64) : Except DtoError K :=
  if nanos.toInt < minQTimestampUnixNanos then
    conversion "bigintValue is outside q's representable timestamp range"
  else
    match DateTime.fromTimestamp (nanos.toInt / nanosPerSecond) (nanos.toInt % nanosPerSecond).toNat with
    | some value => .ok (.DateTime value)
    | none => conversion "bigintValue is outside the timestamp range"

def timeFromBigint (nanos : Int64) : Except DtoError K :=
  if nanos.toInt < 0 ∨ nanosPerDay ≤ nanos.toInt then conversion "bigintValue for time must be within one day"
  else if nanos.toInt % nanosPerMillisecond ≠ 0 then
    conversion "bigintValue for time must use millisecond precision"
  else
    match NaiveTime.fromNumSecondsFromMidnightOpt (nanos.toInt / nanosPerSecond).toNat
      (nanos.toInt % nanosPerSecond).toNat with
    | some value => .ok (.Time value)
    | none => conversion "invalid time"

def qvalueFromParts (bytesValue : Option Bytes) (typeCode : Option Int16) (length : Option Nat)
    (isTable : Option Bool) : Except DtoError K := do
  let bytes ← required "qvalue" "bytesValue" bytesValue
  let value ← fromExec (QValue.fromBytes bytes)
  let typeCode ← required "qvalue" "typeCode" typeCode
  if typeCode.toInt ≠ value.typeCode then conversion "qvalue typeCode does not match its validated bytes"
  let length ← required "qvalue" "length" length
  if length ≠ value.len then conversion "qvalue length does not match its validated bytes"
  let isTable ← required "qvalue" "isTable" isTable
  if isTable ≠ value.isTable then conversion "qvalue isTable does not match its validated bytes"
  return .QValue value

mutual

/-- `OwnedNativeValue::into_k`. -/
def intoK (env : Packages) : OwnedNativeValue → Except DtoError K
  | ⟨tag, boolValue, numberValue, bigintValue, stringValue, context, bytesValue, items, entries, typeCode,
      length, isTable⟩ =>
    match tag with
    | "null" => return .Null
    | "boolean" => return .Boolean (← required tag "boolValue" boolValue)
    | "guid" => do
      let text ← required tag "stringValue" stringValue
      return .Guid (← fromText "invalid guid: " (env.guidParseStr text))
    | "u8" => return .U8 (UInt8.ofNat (← requiredInteger tag numberValue 0 255).toNat)
    | "i16" => return .I16 (Int16.ofInt (← requiredInteger tag numberValue (-2 ^ 15) (2 ^ 15 - 1)))
    | "i32" => return .I32 (Int32.ofInt (← requiredInteger tag numberValue (-2 ^ 31) (2 ^ 31 - 1)))
    | "i64" => return .I64 (← required tag "bigintValue" bigintValue)
    | "f32" => do f32FromNumber (← required tag "numberValue" numberValue)
    | "f64" => return .F64 (← required tag "numberValue" numberValue)
    | "char" => return .Char (UInt8.ofNat (← requiredInteger tag numberValue 0 255).toNat)
    | "symbol" => do
      let value ← required tag "stringValue" stringValue
      validateQSymbol value "symbol stringValue"
      return .Symbol value
    | "string" => return .String (← required tag "stringValue" stringValue)
    | "operator" => do
      let name ← required tag "stringValue" stringValue
      return .Operator (← fromClient (QOperator.new name))
    | "lambda" => do
      let source ← required tag "stringValue" stringValue
      let context ← required tag "context" context
      return .Lambda (← fromClient (QLambda.withContext source context))
    | "bytes" => return .CharVector (← required tag "bytesValue" bytesValue)
    | "timestamp" => do timestampFromBigint (← required tag "bigintValue" bigintValue)
    | "date" => do
      let text ← required tag "stringValue" stringValue
      return .Date (← fromText "invalid date: " (env.dateParseFromStr text))
    | "time" => do timeFromBigint (← required tag "bigintValue" bigintValue)
    | "timespan" => return .Duration (Duration.ofNanoseconds (← required tag "bigintValue" bigintValue))
    | "list" =>
      match items with
      | some items => return .MixedList (← eachIntoK env items)
      | none => conversion "list requires items"
    | "dictionary" =>
      match entries with
      | some entries => return .Dict (← entriesIntoK env entries [])
      | none => conversion "dictionary requires entries"
    | "series" => return .Series (← env.seriesFromIpc (← required tag "bytesValue" bytesValue))
    | "qvalue" => qvalueFromParts bytesValue typeCode length isTable
    | "table" => return .DataFrame (← env.dataframeFromIpc (← required tag "bytesValue" bytesValue))
    | _ => .error (.unsupportedTag tag)

def eachIntoK (env : Packages) : List OwnedNativeValue → Except DtoError (List K)
  | [] => .ok []
  | item :: rest => do
    let item ← intoK env item
    let rest ← eachIntoK env rest
    return item :: rest

/-- The insertions into the `IndexMap`. -/
def entriesIntoK (env : Packages) : List (Str × OwnedNativeValue) → List (Str × K) → Except DtoError (List (Str × K))
  | [], dictionary => .ok dictionary
  | (key, value) :: rest, dictionary => do
    validateQSymbol key "dictionary key"
    if key ∈ dictionary.map Prod.fst then .error (.duplicateKey key)
    let value ← intoK env value
    entriesIntoK env rest (dictionary ++ [(key, value)])

end

end Node
end Xqdb
