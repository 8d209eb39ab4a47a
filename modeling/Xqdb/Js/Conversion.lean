import Xqdb.Floats
import Xqdb.Js.Lambda
import Xqdb.Lib.PropertyOrder
import Xqdb.Node.NativeValue

/-! `js-xqdb/src/conversion.ts`: `normalizeOutput`, from the native objects to JavaScript values, and
`normalizeInput`, back to them. Dictionaries become plain objects, which keep their properties in
an order of JavaScript's own. -/

namespace Xqdb
namespace Js

/-! ## Values -/

/-- What a conversion throws: the message, with the text that it ends in as `JSON.stringify` shows
it. -/
structure ConversionError where
  message : String
  quoted : Option JsString := none
  deriving DecidableEq

def conversionError {α : Type} (message : String) : Except ConversionError α := .error ⟨message, none⟩

/-- What the facade calls of `apache-arrow`; `none` where it throws. -/
structure Arrow where
  Table : Type
  Vector : Type
  tableFromIPC : Bytes → Option Table
  /-- `getChildAt(0)`. -/
  firstColumn : Table → Option Vector
  tableBytes : Table → Option Bytes
  vectorBytes : Vector → Option Bytes

/-- No Arrow values. -/
def noArrow : Arrow := ⟨Empty, Empty, fun _ => none, Empty.elim, Empty.elim, Empty.elim⟩

/-- `QValueState`. -/
structure QValueState where
  body : Bytes
  typeCode : UInt64
  length : UInt64
  isTable : Bool
  deriving DecidableEq

/-- `XqdbInput` and `XqdbValue`. A plain object is the list of its own properties in the order in
which they are enumerated. -/
inductive JsValue (A : Arrow) where
  | null
  | boolean (value : Bool)
  | number (bits : UInt64)
  | bigint (value : Int)
  | string (value : JsString)
  | qvalue (state : QValueState)
  | bytes (value : Bytes)
  | operator (name : JsString)
  | lambda (source context : JsString)
  | timestamp (nanoseconds : Int)
  | date (value : JsString)
  | time (nanoseconds : Int)
  | timespan (nanoseconds : Int)
  | table (value : A.Table)
  | vector (value : A.Vector)
  | array (items : List (JsValue A))
  | object (properties : List (JsString × JsValue A))

/-- The objects of `native-contract.ts`. -/
abbrev NativeObject := NativeValue JsString Int UInt64 UInt64

/-! ## Property keys -/

def decimalFrom : Nat → JsString → Option Nat
  | value, [] => some value
  | value, unit :: rest =>
    if 0x30 ≤ unit ∧ unit ≤ 0x39 then decimalFrom (10 * value + (unit.toNat - 0x30)) rest else none

/-- The array index that a key writes: a decimal below 2³² - 1 without leading zeros. -/
def arrayIndex (key : JsString) : Option Nat :=
  if key = [0x30] then some 0
  else if key.head? = none ∨ key.head? = some 0x30 then none
  else (decimalFrom 0 key).filter (· < 2 ^ 32 - 1)

/-! ## Checked types -/

def ascii (text : String) : JsString := text.toList.map fun c => UInt16.ofNat c.toNat

def supportedQOperatorNames : List JsString :=
  ["!", "!:", "#", "#:", "$", "$:", "%", "%:", "&", "&:", "'", "*", "*:", "+", "+:", ",", ",:", "-", "-:", ".",
   ".:", "/", "0:", "0::", "1:", "1::", "2:", "2::", ":", "<", "<:", "=", "=:", ">", ">:", "?", "?:", "@", "@:",
   "\\", "^", "^:", "_", "_:", "abs", "acos", "asin", "atan", "avg", "bin", "cos", "div", "enlist", "exit", "exp",
   "getenv", "in", "insert", "last", "like", "log", "max", "min", "prd", "setenv", "sin", "sqrt", "ss", "sum",
   "tan", "wavg", "within", "wsum", "xexp", "|", "|:", "~", "~:"].map ascii

def validateQOperatorName (name : JsString) : Except ConversionError JsString :=
  if name.includesNul then conversionError "XqdbQOperator.name cannot contain NUL bytes"
  else if name ∉ supportedQOperatorNames then
    .error ⟨"Unsupported q primitive operator name: ", some name⟩
  else .ok name

/-- `validateQLambdaParts`, as it throws. -/
def validatedQLambdaParts (source context : JsString) : Except ConversionError (JsString × JsString) :=
  match validateQLambdaParts source context with
  | .ok parts => .ok parts
  | .error message => conversionError message

/-- `ISO_DATE.test`. -/
def isoDate (text : JsString) : Bool :=
  text.length = 10 ∧ (List.range 10).all fun i =>
    if i = 4 ∨ i = 7 then text[i]? = some 0x2D
    else text[i]?.any fun unit => 0x30 ≤ unit ∧ unit ≤ 0x39

/-- `Number.isInteger`. -/
def isInteger (bits : UInt64) : Bool := !F64.hasFraction bits

/-- `Number.isSafeInteger`. -/
def isSafeInteger (bits : UInt64) : Bool :=
  isInteger bits && (F64.value bits).natAbs ≤ (2 ^ 53 - 1) * binary64.one

def maxValueDepth : Nat := 64
def nanosecondsPerDay : Int := 86400000000000
def nanosecondsPerMillisecond : Int := 1000000

/-! ## The way in -/

variable {A : Arrow}

/-- `arrowBytes`, under the tag of the value. -/
def arrowObject (tag : String) (bytes : Option Bytes) : Except ConversionError NativeObject :=
  match bytes with
  | some bytes => .ok { tag := tag, bytesValue := some bytes }
  | none => conversionError "Unable to serialize the Arrow value as an IPC stream"

mutual

/-- The arrays and objects under way, which the source keeps to tell a cycle, are left out: a value
here is a tree and has none. -/
def normalizeInputAtDepth (value : JsValue A) (depth : Nat) : Except ConversionError NativeObject :=
  if maxValueDepth < depth then conversionError "Input nesting exceeds 64 levels"
  else
    match value with
    | .null => .ok { tag := "null" }
    | .boolean value => .ok { tag := "boolean", boolValue := some value }
    | .number bits => .ok { tag := "f64", numberValue := some bits }
    | .bigint value => .ok { tag := "i64", bigintValue := some value }
    | .string value =>
      if value.includesNul then conversionError "q symbols cannot contain NUL bytes"
      else .ok { tag := "symbol", stringValue := some value }
    | .qvalue state =>
      .ok { tag := "qvalue", bytesValue := some state.body, typeCode := some state.typeCode,
            length := some state.length, isTable := some state.isTable }
    | .bytes value => .ok { tag := "bytes", bytesValue := some value }
    | .operator name => do
      let name ← validateQOperatorName name
      return { tag := "operator", stringValue := some name }
    | .lambda source context => do
      let (source, context) ← validatedQLambdaParts source context
      return { tag := "lambda", stringValue := some source, context := some context }
    | .timestamp nanoseconds => .ok { tag := "timestamp", bigintValue := some nanoseconds }
    | .date value =>
      if !isoDate value then conversionError "XqdbDate.value must use YYYY-MM-DD form"
      else .ok { tag := "date", stringValue := some value }
    | .time nanoseconds =>
      if nanoseconds < 0 ∨ nanosecondsPerDay ≤ nanoseconds then
        conversionError "XqdbTime.nanoseconds must be within one day"
      else if nanoseconds.tmod nanosecondsPerMillisecond ≠ 0 then
        conversionError "XqdbTime.nanoseconds must use millisecond precision"
      else .ok { tag := "time", bigintValue := some nanoseconds }
    | .timespan nanoseconds => .ok { tag := "timespan", bigintValue := some nanoseconds }
    | .table value => arrowObject "table" (A.tableBytes value)
    | .vector value => arrowObject "series" (A.vectorBytes value)
    | .array items => do
      let items ← normalizeItems items (depth + 1)
      return { tag := "list", items := some items }
    | .object properties => do
      let entries ← normalizeDictionary properties (depth + 1)
      return { tag := "dictionary", entries := some entries }

def normalizeItems (items : List (JsValue A)) (depth : Nat) : Except ConversionError (List NativeObject) :=
  match items with
  | [] => .ok []
  | item :: rest => do
    let item ← normalizeInputAtDepth item depth
    let rest ← normalizeItems rest depth
    return item :: rest

def normalizeDictionary (properties : List (JsString × JsValue A)) (depth : Nat) :
    Except ConversionError (List (JsString × NativeObject)) :=
  match properties with
  | [] => .ok []
  | (key, value) :: rest => do
    if key.includesNul then conversionError "q dictionary keys cannot contain NUL bytes"
    let value ← normalizeInputAtDepth value depth
    let rest ← normalizeDictionary rest depth
    return (key, value) :: rest

end

def normalizeInput (value : JsValue A) : Except ConversionError NativeObject := normalizeInputAtDepth value 0

/-! ## The way out -/

/-- `requiredBoolean` and the like. -/
def required {α : Type} (tag field : String) (value : Option α) : Except ConversionError α :=
  match value with
  | some value => .ok value
  | none => conversionError s!"Native {tag} value omitted {field}"

def decodeArrowTable (tag : String) (bytesValue : Option Bytes) : Except ConversionError A.Table :=
  match bytesValue.bind A.tableFromIPC with
  | some table => .ok table
  | none => conversionError s!"Unable to decode native {tag} IPC stream"

def qValueFromNative (bytesValue : Option Bytes) (typeCode length : Option UInt64) (isTable : Option Bool) :
    Except ConversionError (JsValue A) :=
  match bytesValue, typeCode, length, isTable with
  | some body, some typeCode, some length, some isTable =>
    if isInteger typeCode && isSafeInteger length && 0 ≤ F64.value length then
      .ok (.qvalue ⟨body, typeCode, length, isTable⟩)
    else conversionError "Native qvalue omitted validated bytes or metadata"
  | _, _, _, _ => conversionError "Native qvalue omitted validated bytes or metadata"

mutual

def normalizeOutput : NativeObject → Except ConversionError (JsValue A)
  | ⟨tag, boolValue, numberValue, bigintValue, stringValue, context, bytesValue, items, entries, typeCode,
      length, isTable⟩ =>
    match tag with
    | "null" => .ok .null
    | "boolean" => return .boolean (← required tag "boolValue" boolValue)
    | "u8" | "i16" | "i32" | "f32" | "f64" | "char" => return .number (← required tag "numberValue" numberValue)
    | "i64" => return .bigint (← required tag "bigintValue" bigintValue)
    | "guid" | "symbol" | "string" => return .string (← required tag "stringValue" stringValue)
    | "operator" => do
      let name ← required tag "stringValue" stringValue
      return .operator (← validateQOperatorName name)
    | "lambda" => do
      let source ← required tag "stringValue" stringValue
      let context ← required tag "context" context
      let (source, context) ← validatedQLambdaParts source context
      return .lambda source context
    | "bytes" => return .bytes (← required tag "bytesValue" bytesValue)
    | "timestamp" => return .timestamp (← required tag "bigintValue" bigintValue)
    | "date" => return .date (← required tag "stringValue" stringValue)
    | "time" => return .time (← required tag "bigintValue" bigintValue)
    | "timespan" => return .timespan (← required tag "bigintValue" bigintValue)
    | "list" =>
      match items with
      | some items => return .array (← normalizeOutputs items)
      | none => conversionError "Native list value omitted items"
    | "dictionary" =>
      match entries with
      | some entries => return .object (← decodeDictionary entries [])
      | none => conversionError "Native dictionary value omitted entries"
    | "table" => return .table (← decodeArrowTable tag bytesValue)
    | "series" => do
      let table ← decodeArrowTable tag bytesValue
      match A.firstColumn table with
      | some vector => return .vector vector
      | none => conversionError "Native series IPC stream contained no column"
    | "qvalue" => qValueFromNative bytesValue typeCode length isTable
    | _ => conversionError s!"Unsupported native value tag: {tag}"

def normalizeOutputs : List NativeObject → Except ConversionError (List (JsValue A))
  | [] => .ok []
  | item :: rest => do
    let item ← normalizeOutput item
    let rest ← normalizeOutputs rest
    return item :: rest

/-- `defineProperty`, entry by entry. -/
def decodeDictionary : List (JsString × NativeObject) → List (JsString × JsValue A) →
    Except ConversionError (List (JsString × JsValue A))
  | [], output => .ok output
  | (key, value) :: rest, output => do
    let value ← normalizeOutput value
    decodeDictionary rest (PropertyOrder.define arrayIndex output key value)

end

end Js
end Xqdb
