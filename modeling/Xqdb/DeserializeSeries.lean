import Xqdb.Value
import Xqdb.ListScan

/-! Lists of the decoder (`deserialize_series` and `deserialize_nested_array` of
`serde6.rs`). `categories` is the process-wide mapping that symbol columns share. -/

namespace Xqdb

/-- The text of an ASCII literal of the source. -/
def literal (text : String) : Str :=
  (Str.fromUtf8 (text.toList.map fun c => UInt8.ofNat c.toNat)).getD Str.empty

def kTypeName : List String :=
  ["", "boolean", "guid", "", "byte", "short", "int", "long", "real", "float", "char", "symbol",
   "timestamp", "", "date", "datetime", "timespan", "minute", "second", "time"]

/-- `K_TYPE_NAME[k_type as usize]` for a type that is known to be in the table. -/
def typeName (kType : UInt8) : Str := literal (kTypeName.getD kType.toNat "")

def deserializationErr {α : Type} (message : String) : Exec α :=
  Exec.err (.DeserializationErr message)

/-- `try_collect`: the first failure stops. -/
def tryCollect {α β : Type} (convert : α → Exec β) : List α → Exec (List β)
  | [] => .ok []
  | item :: items => do
    let value ← convert item
    let values ← tryCollect convert items
    .ok (value :: values)

def takeBytes (bytes : Bytes) (pos width : Nat) (context : String) : Exec (Bytes × Nat) := do
  let stop ← Exec.okOr (checkedAdd pos width)
    (.DeserializationErr (context ++ " byte range overflowed"))
  let value ← Exec.okOr (getRange bytes pos stop)
    (.DeserializationErr s!"{context} omitted {width} byte(s)")
  .ok (value, stop)

/-! ## Text -/

def decodeUtf8 (bytes : Bytes) (encoding : SymbolEncoding) (context : String) : Exec Str :=
  match Str.fromUtf8 bytes, encoding with
  | some text, _ => .ok text
  | none, .Strict => deserializationErr (context ++ " is not valid UTF-8")
  | none, .Lossy => .ok ⟨Utf8.lossy bytes, Utf8.valid_lossy bytes⟩

def takeUntilNul (bytes : Bytes) (pos : Nat) (context : String) : Exec (Bytes × Nat) := do
  let tail ← Exec.okOr (getFrom bytes pos)
    (.DeserializationErr (context ++ " starts beyond the available payload"))
  let length ← Exec.okOr (memchr tail) (.DeserializationErr (context ++ " is not NUL-terminated"))
  let stop ← Exec.okOr (checkedAdd pos length)
    (.DeserializationErr (context ++ " length overflowed"))
  let value ← sliceRange bytes pos stop
  let next ← Exec.okOr (checkedAdd stop 1)
    (.DeserializationErr (context ++ " terminator offset overflowed"))
  .ok (value, next)

def takeUtf8UntilNul (bytes : Bytes) (pos : Nat) (encoding : SymbolEncoding) (context : String) :
    Exec (Str × Nat) := do
  let (value, next) ← takeUntilNul bytes pos context
  let text ← decodeUtf8 value encoding context
  .ok (text, next)

/-! ## Numbers and times -/

def unixTimestampNanoseconds (qNanoseconds : Int64) : Exec Int64 :=
  if qNanoseconds.toInt = -2 ^ 63 + 1 ∨ qNanoseconds.toInt = 2 ^ 63 - 1 then
    deserializationErr "q timestamp infinity cannot be represented as a native timestamp"
  else Exec.okOr (checkedI64 (qNanoseconds.toInt + nanosDiff))
    (.DeserializationErr "finite q timestamp is outside the Unix nanosecond range")

/-- A value of a timestamp list; the null passes through. -/
def timestampValue (value : Int64) : Exec Int64 :=
  if value = i64Min then .ok value else unixTimestampNanoseconds value

def dateValue (value : Int32) : Exec Int32 :=
  if value = i32Min then .ok value
  else Exec.okOr (checkedI32 (value.toInt + 10957))
    (.DeserializationErr "q date is outside Polars' representable range")

def datetimeValue (bits : UInt64) : Exec Int64 :=
  if f64IsNan bits then .ok i64Min
  else if ¬ f64IsFinite bits then
    deserializationErr "q datetime infinity cannot be represented as a native timestamp"
  else qDatetimeNanoseconds bits

/-- The nanoseconds of a minute, second or time, with the null as zero. -/
def timeValue (multiplier : Int) (value : Int32) : Exec Int64 :=
  if value = i32Min then .ok 0
  else Exec.okOr
    ((checkedI64 (value.toInt * multiplier)).bind fun nanoseconds =>
      if 0 ≤ nanoseconds.toInt ∧ nanoseconds.toInt < nanosPerDay then some nanoseconds else none)
    (.DeserializationErr "q time-list value exceeds one day")

/-- A column under a validity bitmap. -/
def withValidity {α : Type} (valid : α → Bool) (values : List α) : List (Option α) :=
  values.map fun value => if valid value then some value else none

def validateBooleans (values : Bytes) (context : String) : Exec Unit :=
  match values.find? (1 < ·) with
  | some value => deserializationErr s!"{context} must be 0 or 1, got {value}"
  | none => .ok ()

/-! ## Fixed-width lists -/

/-- The lists that are neither nested, character nor symbol lists. -/
def decodeFixedList (kType : UInt8) (payload : Bytes) : Exec K :=
  let name := typeName kType
  match kType.toNat with
  | 1 => do
    validateBooleans payload "q boolean list values"
    .ok (.Series (.ofCells name .boolean (payload.map fun value => some (value == 1))))
  | 2 => .ok (.Series (.ofCells name .binary ((chunksExact 16 (payload.length / 16) payload).map some)))
  | 4 => .ok (.Series (.ofCells name .uint8 (payload.map some)))
  | 5 => do
    let values ← decodeWireNumbers Int16 payload "q short list"
    .ok (.Series (.ofCells name .int16
      (withValidity (fun v => -2 ^ 15 + 1 < v.toInt && v.toInt < 2 ^ 15 - 1) values)))
  | 6 => do
    let values ← decodeWireNumbers Int32 payload "q int list"
    .ok (.Series (.ofCells name .int32
      (withValidity (fun v => -2 ^ 31 + 1 < v.toInt && v.toInt < 2 ^ 31 - 1) values)))
  | 7 => do
    let values ← decodeWireNumbers Int64 payload "q long list"
    .ok (.Series (.ofCells name .int64
      (withValidity (fun v => -2 ^ 63 + 1 < v.toInt && v.toInt < 2 ^ 63 - 1) values)))
  | 8 => do
    let values ← decodeWireNumbers UInt32 payload "q real list"
    .ok (.Series (.ofCells name .float32 (withValidity (fun v => !f32IsNan v) values)))
  | 9 => do
    let values ← decodeWireNumbers UInt64 payload "q float list"
    .ok (.Series (.ofCells name .float64 (withValidity (fun v => !f64IsNan v) values)))
  | 12 => do
    let qValues ← decodeWireNumbers Int64 payload "q timestamp list"
    let values ← tryCollect timestampValue qValues
    .ok (.Series (.ofCells name (.datetime .nanoseconds) (withValidity (· != i64Min) values)))
  | 14 => do
    let qValues ← decodeWireNumbers Int32 payload "q date list"
    let values ← tryCollect dateValue qValues
    .ok (.Series (.ofCells name .date (withValidity (· != i32Min) values)))
  | 15 => do
    let qValues ← decodeWireNumbers UInt64 payload "q datetime list"
    let values ← tryCollect datetimeValue qValues
    .ok (.Series (.ofCells name (.datetime .nanoseconds) (withValidity (· != i64Min) values)))
  | 16 => do
    let values ← decodeWireNumbers Int64 payload "q timespan list"
    .ok (.Series (.ofCells name (.duration .nanoseconds) (withValidity (· != i64Min) values)))
  | 17 => decodeTimes name 60000000000 payload
  | 18 => decodeTimes name 1000000000 payload
  | 19 => decodeTimes name 1000000 payload
  | _ => Exec.err (.NotSupportedKListErr kType)
where
  decodeTimes (name : Str) (multiplier : Int) (payload : Bytes) : Exec K := do
    let qValues ← decodeWireNumbers Int32 payload "q time list"
    let values ← tryCollect (timeValue multiplier) qValues
    .ok (.Series (.ofCells name .time
      (List.zipWith (fun q value => if q = i32Min then none else some value) qValues values)))

/-! ## Character columns -/

def isAscii (bytes : Bytes) : Bool := bytes.all (· < 0x80)

/-- One character of a column as text of its own; only ASCII stands alone. -/
def charText (byte : UInt8) : Str :=
  ⟨Utf8.lossy [byte], Utf8.valid_lossy [byte]⟩

def decodeCharColumn (payload : Bytes) (encoding : SymbolEncoding) : Exec K :=
  if isAscii payload ∨ encoding = .Lossy then
    .ok (.Series (.ofCells (typeName 10) .string (payload.map fun byte => some (charText byte))))
  else deserializationErr "q char columns require valid one-byte UTF-8 characters"

/-! ## Symbol lists -/

/-- `SymbolInterner`: the categories of one column seen so far. Symbols of at most eight
bytes are found by their zero-padded word. -/
structure SymbolInterner where
  last : Option (Bytes × Nat)
  short : List (Nat × Nat)
  long : List (Bytes × Nat)

namespace SymbolInterner

def new : SymbolInterner := ⟨none, [], []⟩

/-- The bytes of a short symbol as one little-endian word. -/
def word (symbol : Bytes) : Nat := LittleEndian.decode symbol

/-- `insert_global_category`: the payload is known to be valid UTF-8, so a piece between
two NULs is. -/
def insertGlobalCategory (categories : CategoricalMapping) (symbol : Bytes) : Nat :=
  categories.insertCat ((Str.fromUtf8 symbol).getD Str.empty)

/-- A map lookup that inserts on a miss. -/
def entry {κ : Type} [BEq κ] (map : List (κ × Nat)) (key : κ) (fresh : Nat) :
    Nat × List (κ × Nat) :=
  match map.lookup key with
  | some category => (category, map)
  | none => (fresh, (key, fresh) :: map)

def category (categories : CategoricalMapping) (interner : SymbolInterner) (symbol : Bytes) :
    Nat × SymbolInterner :=
  let fresh := insertGlobalCategory categories symbol
  if let some (last, category) := interner.last then
    if last = symbol then (category, interner) else lookup interner symbol fresh
  else lookup interner symbol fresh
where
  lookup (interner : SymbolInterner) (symbol : Bytes) (fresh : Nat) : Nat × SymbolInterner :=
    if symbol.length ≤ 8 then
      let (category, short) := entry interner.short (word symbol) fresh
      (category, { interner with last := some (symbol, category), short := short })
    else
      let (category, long) := entry interner.long symbol fresh
      (category, { interner with last := some (symbol, category), long := long })

end SymbolInterner

def checkSymbolListConsumed (payload : Bytes) (cursor : Nat) : Exec Unit :=
  if cursor = payload.length then .ok ()
  else deserializationErr s!"q symbol list has {payload.length - cursor} trailing byte(s)"

/-- One NUL-terminated piece of a symbol payload. -/
def nextSymbol (payload : Bytes) (cursor : Nat) : Exec (Bytes × Nat) := do
  let tail ← sliceFrom payload cursor
  let terminator ← Exec.okOr (memchr tail)
    (.DeserializationErr "q symbol-list value is not NUL-terminated")
  let symbol ← sliceRange payload cursor (cursor + terminator)
  .ok (symbol, cursor + (terminator + 1))

/-- The loop of `decode_symbol_column`: the categories and the cursor behind them. -/
def symbolCategories (categories : CategoricalMapping) (payload : Bytes) :
    Nat → Nat → SymbolInterner → Exec (List Nat × Nat)
  | 0, cursor, _ => .ok ([], cursor)
  | length + 1, cursor, interner => do
    let (symbol, cursor) ← nextSymbol payload cursor
    let (category, interner) := interner.category categories symbol
    let (rest, cursor) ← symbolCategories categories payload length cursor interner
    .ok (category :: rest, cursor)

def decodeSymbolColumn (categories : CategoricalMapping) (payload : Bytes) (length : Nat) : Exec K := do
  let (ids, cursor) ← symbolCategories categories payload length 0 .new
  checkSymbolListConsumed payload cursor
  .ok (.Series (.ofCells (typeName 11) (.categorical categories) (ids.map some)))

/-- The texts of a symbol list that is not a column. -/
def symbolTexts (payload : Bytes) : Nat → Nat → Exec (List Bytes × Nat)
  | 0, cursor => .ok ([], cursor)
  | length + 1, cursor => do
    let (symbol, cursor) ← nextSymbol payload cursor
    let (rest, cursor) ← symbolTexts payload length cursor
    .ok (symbol :: rest, cursor)

/-- Texts cut out of valid UTF-8 at its NULs. -/
def textSeries (name : Str) (texts : List Bytes) : Series :=
  .ofCells name .string (texts.map fun text => some ((Str.fromUtf8 text).getD Str.empty))

def decodeSymbolList (categories : CategoricalMapping) (payload : Bytes) (length : Nat)
    (asColumn : Bool) (encoding : SymbolEncoding) : Exec K := do
  let text ← decodeUtf8 payload encoding "q symbol-list value"
  if asColumn then decodeSymbolColumn categories text.bytes length
  else do
    let (texts, cursor) ← symbolTexts text.bytes length 0
    checkSymbolListConsumed text.bytes cursor
    .ok (.Series (textSeries (typeName 11) texts))

def newEmptySeries (categories : CategoricalMapping) (kType : UInt8) : Exec K :=
  let name := typeName kType
  match kType.toNat with
  | 0 => .ok (.Series ⟨name, .null 0⟩)
  | 1 => .ok (.Series (.ofCells name .boolean []))
  | 2 => .ok (.Series (.ofCells name .binary []))
  | 4 => .ok (.Series (.ofCells name .string []))
  | 10 => .ok (.Series (.ofCells name .string []))
  | 5 => .ok (.Series (.ofCells name .int16 []))
  | 6 => .ok (.Series (.ofCells name .int32 []))
  | 7 => .ok (.Series (.ofCells name .int64 []))
  | 8 => .ok (.Series (.ofCells name .float32 []))
  | 9 => .ok (.Series (.ofCells name .float64 []))
  | 11 => .ok (.Series (.ofCells name (.categorical categories) []))
  | 12 => .ok (.Series (.ofCells name (.datetime .nanoseconds) []))
  | 15 => .ok (.Series (.ofCells name (.datetime .nanoseconds) []))
  | 14 => .ok (.Series (.ofCells name .date []))
  | 16 => .ok (.Series (.ofCells name (.duration .nanoseconds) []))
  | 17 => .ok (.Series (.ofCells name .time []))
  | 18 => .ok (.Series (.ofCells name .time []))
  | 19 => .ok (.Series (.ofCells name .time []))
  | _ => Exec.err (.NotSupportedKListErr kType)

/-! ## Nested character lists -/

/-- The payload of one row of a nested character list and the position behind it. -/
def charRowPayload (vec : Bytes) (current : UInt8) (subLength pos : Nat) : Exec (Bytes × Nat) :=
  if current = 0 ∧ subLength = 0 then .ok ([], pos)
  else if current = 10 then do
    let stop ← Exec.okOr (checkedAdd pos subLength)
      (.DeserializationErr "q nested-list payload offset overflowed")
    let payload ← Exec.okOr (getRange vec pos stop)
      (.DeserializationErr
        s!"q nested-list payload length {subLength} exceeds the available bytes")
    .ok (payload, stop)
  else Exec.err (.NotSupportedKMixedListErr 10 current)

/-- The loop of `decode_char_rows`; `used` is the length of the view buffer so far. It
ends with nothing at the first row that is not valid UTF-8. -/
def charRows (vec : Bytes) : Nat → Nat → Nat → Exec (Option (List Str × Nat))
  | 0, pos, _ => .ok (some ([], pos))
  | length + 1, pos, used => do
    let current ← Exec.okOr vec[pos]?
      (.DeserializationErr "q nested list omitted an element type")
    let (subLength, pos) ← takeListLength vec (pos + 1) "q nested-list element"
    let (payload, pos) ← charRowPayload vec current subLength pos
    match Str.fromUtf8 payload with
    | none => .ok none
    | some text =>
      if u32Max < used then
        deserializationErr "q nested char values exceed the view buffer limit"
      else do
        let rest ← charRows vec length pos (used + payload.length)
        .ok (rest.map fun (rows, pos) => (text :: rows, pos))

def decodeCharRows (vec : Bytes) (pos length : Nat) : Exec (Option (List Str)) := do
  match ← charRows vec length pos 0 with
  | none => .ok none
  | some (rows, pos) =>
    if pos ≠ vec.length then
      deserializationErr s!"q nested list has {vec.length - pos} trailing byte(s)"
    else .ok (some rows)

/-- A row starts in the middle of a code point. -/
def splitsCodePoint : List Bytes → Bool
  | [] => false
  | row :: rows =>
    ((row ++ rows.flatten).head?.any fun byte => byte &&& 0xC0 == 0x80) || splitsCodePoint rows

/-- `validate_nested_char`; the values are the rows end to end, the boundaries their starts. -/
def validateNestedChar (rows : List Bytes) : Exec Unit :=
  if ¬ Utf8.Valid rows.flatten then
    deserializationErr "q nested char value is not valid UTF-8"
  else if splitsCodePoint rows then
    deserializationErr
      "q nested char value is not valid UTF-8: row boundary splits a code point"
  else .ok ()

/-- `transcode_nested_char_lossy`, row by row; `used` is the length of the output so far. -/
def transcodeNestedCharLossy : List Bytes → Nat → Exec (List Bytes)
  | [], _ => .ok []
  | row :: rows, used => do
    let text ← decodeUtf8 row .Lossy "q nested char value"
    if i32Max < used + text.bytes.length then
      deserializationErr "q nested char values exceed i32::MAX bytes after transcoding"
    else do
      let rest ← transcodeNestedCharLossy rows (used + text.bytes.length)
      .ok (text.bytes :: rest)

/-- The character rows the single pass gave up on. -/
def nestedCharSeries (rows : List Bytes) (encoding : SymbolEncoding) : Exec K :=
  match validateNestedChar rows, encoding with
  | .ok (), _ => .ok (.Series (textSeries (typeName 10) rows))
  | .error e, .Strict => .error e
  | .error _, .Lossy => do
    let rows ← transcodeNestedCharLossy rows 0
    .ok (.Series (textSeries (typeName 10) rows))

/-! ## Nested lists -/

/-- A row is of the first row's type, or an empty general list. -/
def checkRowType (kType current : UInt8) (subLength : Nat) : Exec Unit :=
  if current = 0 then
    if subLength ≠ 0 then Exec.err (.NotSupportedKMixedListErr kType current) else .ok ()
  else if current ≠ kType then Exec.err (.NotSupportedKMixedListErr kType current)
  else .ok ()

def fixedRow (vec : Bytes) (kType : UInt8) (subLength pos : Nat) : Exec (Bytes × Nat) := do
  let payloadLength ← Exec.okOr (checkedMul subLength (typeSize kType))
    (.DeserializationErr "q nested-list payload length overflowed")
  let stop ← Exec.okOr (checkedAdd pos payloadLength)
    (.DeserializationErr "q nested-list payload offset overflowed")
  let payload ← Exec.okOr (getRange vec pos stop)
    (.DeserializationErr
      s!"q nested-list payload length {payloadLength} exceeds the available bytes")
  .ok (payload, stop)

def symbolRow (vec : Bytes) (encoding : SymbolEncoding) : Nat → Nat → Exec (List Str × Nat)
  | 0, pos => .ok ([], pos)
  | subLength + 1, pos => do
    let (symbol, pos) ← takeUtf8UntilNul vec pos encoding "q nested symbol"
    let (rest, pos) ← symbolRow vec encoding subLength pos
    .ok (symbol :: rest, pos)

section Rows

variable {α : Type} (empty : α) (read : Nat → Nat → Exec (α × Nat))

/-- What a row holds: nothing for a general list. -/
def rowValues (current : UInt8) (subLength pos : Nat) : Exec (α × Nat) :=
  if current = 0 then .ok (empty, pos) else read subLength pos

/-- The loop over the rows; `offset` counts the children so far, within an `i32`. -/
def nestedArrayRows (vec : Bytes) (kType : UInt8) : Nat → Nat → Nat → Exec (List α × Nat)
  | 0, pos, _ => .ok ([], pos)
  | length + 1, pos, offset => do
    let current ← Exec.okOr vec[pos]?
      (.DeserializationErr "q nested list omitted an element type")
    let (subLength, pos) ← takeListLength vec (pos + 1) "q nested-list element"
    checkRowType kType current subLength
    let offset ← Exec.okOr (if offset + subLength ≤ i32Max then some (offset + subLength) else none)
      (.DeserializationErr "q nested-list cumulative child count overflowed")
    let (row, pos) ← rowValues empty read current subLength pos
    let (rows, pos) ← nestedArrayRows vec kType length pos offset
    .ok (row :: rows, pos)

/-- The rows of a nested list that ends with its bytes. -/
def wholeNestedRows (vec : Bytes) (kType : UInt8) (length pos : Nat) : Exec (List α) := do
  let (rows, pos) ← nestedArrayRows empty read vec kType length pos 0
  if pos ≠ vec.length then
    deserializationErr s!"q nested list has {vec.length - pos} trailing byte(s)"
  else .ok rows

end Rows

/-- A list column of numbers, row by row. -/
def nestedNumbers {α : Type} [WireNumber α] (kType : UInt8) (inner : FlatType)
    (convert : α → Exec (Option inner.Cell)) (rows : List Bytes) (context : String) : Exec K := do
  let cells ← tryCollect (fun row => do
    let values ← decodeWireNumbers α row context
    tryCollect convert values) rows
  .ok (.Series (.ofRows (typeName kType) inner cells))

/-- The list column of rows of one fixed-width type. -/
def nestedFixedSeries (kType : UInt8) (rows : List Bytes) (encoding : SymbolEncoding) : Exec K :=
  match kType.toNat with
  | 1 => do
    validateBooleans rows.flatten "q nested boolean values"
    .ok (.Series (.ofRows (typeName 1) .boolean
      (rows.map fun row => row.map fun value => some (value == 1))))
  | 4 => .ok (.Series (.ofRows (typeName 4) .uint8 (rows.map fun row => row.map some)))
  | 5 => nestedNumbers 5 .int16 (fun v : Int16 => .ok (if v = i16Min then none else some v)) rows
      "q nested short list"
  | 6 => nestedNumbers 6 .int32 (fun v : Int32 => .ok (if v = i32Min then none else some v)) rows
      "q nested int list"
  | 7 => nestedNumbers 7 .int64 (fun v : Int64 => .ok (if v = i64Min then none else some v)) rows
      "q nested long list"
  | 8 => nestedNumbers 8 .float32 (fun v : UInt32 => .ok (if f32IsNan v then none else some v)) rows
      "q nested real list"
  | 9 => nestedNumbers 9 .float64 (fun v : UInt64 => .ok (if f64IsNan v then none else some v)) rows
      "q nested float list"
  | 10 => nestedCharSeries rows encoding
  | 12 => nestedNumbers 12 (.datetime .nanoseconds)
      (fun v : Int64 => do
        let value ← timestampValue v
        .ok (if value = i64Min then none else some value)) rows "q nested timestamp list"
  | _ => Exec.err (.NotSupportedKNestedListErr kType)

/-- The general decoder behind the character fast path. -/
def nestedGeneral (categories : CategoricalMapping) (vec : Bytes) (kType : UInt8) (length pos : Nat)
    (encoding : SymbolEncoding) : Exec K :=
  if kType = 11 then do
    let rows ← wholeNestedRows [] (symbolRow vec encoding) vec kType length pos
    .ok (.Series (.ofRows (typeName 11) (.categorical categories)
      (rows.map fun row => row.map fun text => some (categories.insertCat text))))
  else do
    let rows ← wholeNestedRows [] (fixedRow vec kType) vec kType length pos
    nestedFixedSeries kType rows encoding

/-- Fixed-width rows leave room for their headers. -/
def checkChildHeaders (vec : Bytes) (kType : UInt8) (length pos : Nat) : Exec Unit :=
  if kType = 11 then .ok ()
  else do
    let available ← subtract vec.length pos
    let _ ← Exec.okOr ((checkedMul length 6).bind fun headers => checkedSub available headers)
      (.DeserializationErr "q nested list is too short for its child headers")
    .ok ()

def nestedChild (categories : CategoricalMapping) (vec : Bytes) (kType : UInt8) (length pos : Nat)
    (encoding : SymbolEncoding) : Exec K :=
  if kType = 10 then do
    match ← decodeCharRows vec pos length with
    | some rows => .ok (.Series (.ofCells (typeName 10) .string (rows.map some)))
    | none => nestedGeneral categories vec kType length pos encoding
  else nestedGeneral categories vec kType length pos encoding

def deserializeNestedArray (categories : CategoricalMapping) (vec : Bytes)
    (encoding : SymbolEncoding) : Exec K := do
  let (length, pos) ← takeListLength vec 0 "q nested list"
  if length = 0 then
    if pos ≠ vec.length then
      deserializationErr s!"empty q nested list has {vec.length - pos} trailing byte(s)"
    else newEmptySeries categories 0
  else do
    let kType ← Exec.okOr vec[pos]?
      (.DeserializationErr "q nested list omitted its child type")
    if kType ∉ nestedTypes then Exec.err (.NotSupportedKNestedListErr kType)
    else do
      checkChildHeaders vec kType length pos
      nestedChild categories vec kType length pos encoding

/-! ## Series -/

/-- The payload of a fixed-width list is as long as its count says. -/
def checkPayloadLength (kType : UInt8) (length : Nat) (arrayVec : Bytes) : Exec Unit :=
  if kType = 0 ∨ kType = 11 then .ok ()
  else do
    let expected ← Exec.okOr (checkedMul length (typeSize kType))
      (.DeserializationErr "q list payload length overflowed")
    if arrayVec.length ≠ expected then
      deserializationErr s!"q list declares {length} values but has {arrayVec.length} payload byte(s), expected {expected}"
    else .ok ()

/-- The match on the type of a list that is not empty. -/
def decodeList (categories : CategoricalMapping) (vec : Bytes) (kType : UInt8) (length : Nat)
    (arrayVec : Bytes) (asColumn : Bool) (encoding : SymbolEncoding) : Exec K :=
  if kType = 0 then deserializeNestedArray categories vec encoding
  else if kType = 10 then
    if asColumn then decodeCharColumn arrayVec encoding else .ok (.CharVector arrayVec)
  else if kType = 11 then decodeSymbolList categories arrayVec length asColumn encoding
  else decodeFixedList kType arrayVec

def deserializeSeries (categories : CategoricalMapping) (vec : Bytes) (kType : UInt8)
    (asColumn : Bool) (encoding : SymbolEncoding) : Exec K :=
  if 19 < kType then Exec.err (.NotSupportedKListErr kType)
  else do
    let (length, pos) ← takeListLength vec 0 "q list"
    if length = 0 then
      if pos ≠ vec.length then
        deserializationErr s!"empty q list has {vec.length - pos} trailing byte(s)"
      else if kType = 10 ∧ asColumn = false then .ok (.CharVector [])
      else newEmptySeries categories kType
    else do
      let arrayVec ← Exec.okOr (getFrom vec pos)
        (.DeserializationErr "q list payload starts beyond its frame")
      checkPayloadLength kType length arrayVec
      decodeList categories vec kType length arrayVec asColumn encoding

end Xqdb
