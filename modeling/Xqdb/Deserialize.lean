import Xqdb.DeserializeSeries

/-! The native decoder `deserialize` of `serde6.rs`. A position goes in and comes out
beside the value. Nested values carry fuel; one unit per level is enough, because the
decoder counts its levels itself. -/

namespace Xqdb

/-! ## Values of a series -/

def outOfRange (kind : String) : XqdbError :=
  .NotAbleToSerializeErr s!"Polars {kind} value is outside q's representable range"

/-- Nanoseconds in one unit. -/
def multiplier : TimeUnit → Int
  | .nanoseconds => 1
  | .microseconds => 1000
  | .milliseconds => 1000000

namespace K

/-- `K::try_from_any_value` on one row of a flat column. -/
def tryFromCell (type : FlatType) (cell : Option type.Cell) : Exec K :=
  match type, cell with
  | _, none => .ok .Null
  | .boolean, some value => .ok (.Boolean value)
  | .uint8, some value => .ok (.U8 value)
  | .int16, some value => .ok (.I16 value)
  | .int32, some value => .ok (.I32 value)
  | .int64, some value => .ok (.I64 value)
  | .float32, some bits => .ok (.F32 bits)
  | .float64, some bits => .ok (.F64 bits)
  | .string, some text => .ok (.String text)
  | .binary, some value =>
    if h : value.length = 16 then .ok (.Guid ⟨value, h⟩)
    else Exec.err (.NotAbleToSerializeErr
      "Polars binary value must be exactly 16 bytes to encode as a GUID")
  | .date, some days => do
    let date ← Exec.okOr
      ((checkedI32 (days.toInt + 719163)).bind NaiveDate.fromNumDaysFromCeOpt)
      (outOfRange "date")
    .ok (.Date date)
  | .datetime unit, some value => do
    let nanoseconds ← Exec.okOr (checkedI64 (value.toInt * multiplier unit)) (outOfRange "datetime")
    .ok (.DateTime (DateTime.fromTimestampNanos nanoseconds))
  | .duration unit, some value => do
    let nanoseconds ← Exec.okOr (checkedI64 (value.toInt * multiplier unit)) (outOfRange "duration")
    .ok (.Duration (Duration.ofNanoseconds nanoseconds))
  | .time, some value => do
    let time ← Exec.okOr
      (if 0 ≤ value.toInt ∧ value.toInt < 86400000000000 then
        NaiveTime.fromNumSecondsFromMidnightOpt (value.toInt.toNat / 1000000000)
          (value.toInt.toNat % 1000000000)
      else none) (outOfRange "time")
    .ok (.Time time)
  | .categorical mapping, some category => do
    let symbol ← Exec.okOr (mapping.catToStr category)
      (.NotAbleToSerializeErr s!"Polars categorical index {category} has no symbol")
    validateQSymbol symbol.bytes
    .ok (.Symbol symbol)

/-- A row of a list column is a series of its own. -/
def ofListRow (inner : FlatType) (row : Option (List (Option inner.Cell))) : K :=
  match row with
  | none => .Null
  | some cells => .Series (.ofCells Str.empty inner cells)

/-- `for value in series.iter() { K::try_from_any_value(value)? }`. -/
def seriesValues (series : Xqdb.Series) : Exec (List K) :=
  match series.data with
  | .null length => .ok (List.replicate length .Null)
  | .flat type chunks => tryCollect (tryFromCell type) chunks.flatten
  | .list inner chunks _ => .ok ((chunks.flatMap ListChunk.rows).map (ofListRow inner))
  | .array _ _ _ _ => Exec.err (.NotAbleToSerializeErr "unsupported Polars value")
  | .other _ _ _ => Exec.err (.NotAbleToSerializeErr "unsupported Polars value")

def intoSeries : K → Exec Xqdb.Series
  | .Series series => .ok series
  | _ => Exec.err (.Err "Not Series")

def intoDataFrame : K → Exec Xqdb.DataFrame
  | .DataFrame frame => .ok frame
  | _ => Exec.err (.Err "Not DataFrame")

end K

/-! ## Atoms -/

/-- A number read from its little-endian bytes. -/
def takeNumber (α : Type) [WireNumber α] (vec : Bytes) (pos : Nat) (context : String) :
    Exec (α × Nat) := do
  let (bytes, pos) ← takeBytes vec pos (WireNumber.width α) context
  .ok (WireNumber.fromLe bytes, pos)

def takeByteAt (vec : Bytes) (pos : Nat) (context : String) : Exec (UInt8 × Nat) := do
  let (bytes, pos) ← takeBytes vec pos 1 context
  let byte ← index bytes 0
  .ok (byte, pos)

def booleanAtom (value : UInt8) : Exec K :=
  if value = 0 then .ok (.Boolean false)
  else if value = 1 then .ok (.Boolean true)
  else deserializationErr s!"q boolean atom must be 0 or 1, got {value}"

def guidAtom (bytes : Bytes) : Exec K :=
  if h : bytes.length = 16 then .ok (.Guid ⟨bytes, h⟩) else Exec.panicked

def timestampAtom (qNanoseconds : Int64) : Exec K :=
  if qNanoseconds = i64Min then .ok .Null
  else do
    let nanoseconds ← unixTimestampNanoseconds qNanoseconds
    .ok (.DateTime (DateTime.fromTimestampNanos nanoseconds))

def monthAtom (unit : Int32) : Exec K := do
  let year ← Exec.okOr (checkedI32 (2000 + unit.toInt / 12))
    (.DeserializationErr "q month is outside chrono's representable range")
  let date ← Exec.okOr (NaiveDate.firstOfMonth year.toInt ((unit.toInt % 12).toNat + 1))
    (.DeserializationErr "q month is outside chrono's representable range")
  .ok (.Date date)

def dateAtom (qDays : Int32) : Exec K := do
  let days ← Exec.okOr (checkedI32 (qDays.toInt + 730120))
    (.DeserializationErr "q date is outside chrono's representable range")
  let date ← Exec.okOr (NaiveDate.fromNumDaysFromCeOpt days)
    (.DeserializationErr "q date is outside chrono's representable range")
  .ok (.Date date)

def datetimeAtom (bits : UInt64) : Exec K :=
  if f64IsNan bits then .ok .Null
  else if ¬ f64IsFinite bits then
    deserializationErr "q datetime infinity cannot be represented as a native timestamp"
  else do
    let nanoseconds ← qDatetimeNanoseconds bits
    .ok (.DateTime (DateTime.fromTimestampNanos nanoseconds))

def timeAtom (kType : UInt8) (multiplier : Int) (unit : Int32) : Exec K :=
  if unit.toInt < 0 then Exec.err (.NotSupportedMinusTimeErr kType)
  else do
    let nanoseconds ← Exec.okOr
      ((checkedI64 (unit.toInt * multiplier)).bind fun nanoseconds =>
        if nanoseconds.toInt < nanosPerDay then some nanoseconds else none)
      (.DeserializationErr "q time atom exceeds one day")
    let time ← Exec.okOr
      (NaiveTime.fromNumSecondsFromMidnightOpt (nanoseconds.toInt.toNat / 1000000000)
        (nanoseconds.toInt.toNat % 1000000000))
      (.DeserializationErr "q time atom exceeds one day")
    .ok (.Time time)

/-- An atom made from a number: read it, then convert it. -/
def numberAtom (α : Type) [WireNumber α] (vec : Bytes) (pos : Nat) (context : String)
    (convert : α → Exec K) : Exec (K × Nat) := do
  let (value, pos) ← takeNumber α vec pos context
  let k ← convert value
  .ok (k, pos)

def byteAtom (vec : Bytes) (pos : Nat) (context : String) (convert : UInt8 → Exec K) :
    Exec (K × Nat) := do
  let (value, pos) ← takeByteAt vec pos context
  let k ← convert value
  .ok (k, pos)

/-- The types 237 to 255. -/
def deserializeAtom (vec : Bytes) (pos : Nat) (kType : UInt8) (encoding : SymbolEncoding) :
    Exec (K × Nat) :=
  match kType.toNat with
  | 255 => byteAtom vec pos "q boolean atom" booleanAtom
  | 254 => do
    let (bytes, pos) ← takeBytes vec pos 16 "q GUID atom"
    let k ← guidAtom bytes
    .ok (k, pos)
  | 252 => byteAtom vec pos "q byte atom" fun value => .ok (.U8 value)
  | 251 => numberAtom Int16 vec pos "q short atom" fun value => .ok (.I16 value)
  | 250 => numberAtom Int32 vec pos "q int atom" fun value => .ok (.I32 value)
  | 249 => numberAtom Int64 vec pos "q long atom" fun value => .ok (.I64 value)
  | 248 => numberAtom UInt32 vec pos "q real atom" fun bits => .ok (.F32 bits)
  | 247 => numberAtom UInt64 vec pos "q float atom" fun bits => .ok (.F64 bits)
  | 246 => byteAtom vec pos "q char atom" fun value => .ok (.Char value)
  | 245 => do
    let (symbol, pos) ← takeUtf8UntilNul vec pos encoding "q symbol atom"
    .ok (.Symbol symbol, pos)
  | 244 => numberAtom Int64 vec pos "q timestamp atom" timestampAtom
  | 243 => numberAtom Int32 vec pos "q month atom" monthAtom
  | 242 => numberAtom Int32 vec pos "q date atom" dateAtom
  | 241 => numberAtom UInt64 vec pos "q datetime atom" datetimeAtom
  | 240 => numberAtom Int64 vec pos "q timespan atom" fun value =>
      .ok (.Duration (Duration.ofNanoseconds value))
  | 239 => numberAtom Int32 vec pos "q time atom" (timeAtom 239 60000000000)
  | 238 => numberAtom Int32 vec pos "q time atom" (timeAtom 238 1000000000)
  | 237 => numberAtom Int32 vec pos "q time atom" (timeAtom 237 1000000)
  | _ => Exec.err (.NotSupportedKTypeErr kType)

/-! ## Functions -/

def deserializeLambda (vec : Bytes) (startPos : Nat) (encoding : SymbolEncoding) :
    Exec (K × Nat) := do
  let tail ← Exec.okOr (getFrom vec startPos)
    (.DeserializationErr "q lambda omitted its context")
  let contextLength ← Exec.okOr (memchr tail)
    (.DeserializationErr "q lambda context is not NUL-terminated")
  let contextEnd ← Exec.okOr (checkedAdd startPos contextLength)
    (.DeserializationErr "q lambda context overflowed")
  let contextBytes ← sliceRange vec startPos contextEnd
  let context ← decodeUtf8 contextBytes encoding "q lambda context"
  let vectorStart ← Exec.okOr (checkedAdd contextEnd 1)
    (.DeserializationErr "q lambda source offset overflowed")
  let vectorEnd ← Exec.okOr (checkedAdd vectorStart 6)
    (.DeserializationErr "q lambda source header overflowed")
  let header ← Exec.okOr (getRange vec vectorStart vectorEnd)
    (.DeserializationErr "q lambda omitted its type-10 character-vector source")
  let sourceLength ← lambdaHeader header
  let sourceEnd ← Exec.okOr (checkedAdd vectorEnd sourceLength)
    (.DeserializationErr "q lambda source length overflowed")
  let sourceBytes ← Exec.okOr (getRange vec vectorEnd sourceEnd)
    (.DeserializationErr
      s!"q lambda source length {sourceLength} exceeds the available payload")
  let source ← decodeUtf8 sourceBytes encoding "q lambda source"
  match QLambda.withContext source context with
  | .ok lambda => .ok (.Lambda lambda, sourceEnd)
  | .error e => deserializationErr (lambdaError e)
where
  lambdaError : XqdbError → String
    | .NotAbleToSerializeErr message => "Not able to serialize \"" ++ message ++ "\"."
    | _ => ""
  /-- The type, attribute and count of the source. -/
  lambdaHeader (header : Bytes) : Exec Nat := do
    let sourceType ← index header 0
    let attr ← index header 1
    if sourceType ≠ 10 then
      deserializationErr
        s!"q lambda source must be a type-10 character vector, got type {sourceType}"
    else if attr ≠ 0 then
      deserializationErr s!"q lambda source has unsupported attribute {attr}"
    else if LittleEndian.signed 32 (LittleEndian.decode (header.drop 2)) < 0 then
      deserializationErr "q lambda source length cannot be negative"
    else .ok (LittleEndian.decode (header.drop 2))

def deserializePrimitive (vec : Bytes) (pos : Nat) (kType : UInt8) : Exec (K × Nat) := do
  let opcode ← Exec.okOr vec[pos]?
    (.DeserializationErr s!"q primitive type {kType} omitted its opcode")
  if kType = 101 ∧ opcode = 0 then .ok (.Null, pos + 1)
  else do
    let operator ← Exec.okOr (QOperator.fromWire kType opcode) (.NotSupportedKOperatorErr opcode)
    .ok (.Operator operator, pos + 1)

/-! ## Tables -/

/-- `series.str().unwrap()` on the column names. -/
def tableNames : K → Exec (List (Option Str))
  | .Series ⟨_, .flat .string chunks⟩ => .ok chunks.flatten
  | .Series _ => Exec.panicked
  | _ => deserializationErr "Expecting array"

/-- The type and the bytes of each column, and the position behind the last. -/
def tableColumns (vec : Bytes) : Nat → Nat → Exec (List (UInt8 × Bytes) × Nat)
  | 0, pos => .ok ([], pos)
  | count + 1, pos => do
    let kType ← index vec pos
    let stop ← calculateArrayEndIndex vec (pos + 1) kType
    let bytes ← sliceRange vec (pos + 1) stop
    let (rest, pos) ← tableColumns vec count stop
    .ok ((kType, bytes) :: rest, pos)

section Decoder

variable (categories : CategoricalMapping) (encoding : SymbolEncoding)

def decodeColumn (column : UInt8 × Bytes) : Exec Series := do
  let k ← deserializeSeries categories column.2 column.1 true encoding
  k.intoSeries

/-- `columns.zip(symbols)`, renamed. -/
def renameColumns (columns : List Series) (names : List (Option Str)) : List Series :=
  List.zipWith (fun column name => column.rename (name.getD Str.empty)) columns names

def newFrame (columns : List Series) : Exec DataFrame :=
  match DataFrame.newInferHeight columns with
  | .ok frame => .ok frame
  | .error message => deserializationErr message

/-- Type 98, behind the type byte. The attribute, the dictionary type, the type of the names
and the header of the column list are stepped over. -/
def deserializeTable (vec : Bytes) (pos : Nat) : Exec (K × Nat) := do
  let stop ← calculateArrayEndIndex vec (pos + 3) 11
  let bytes ← sliceRange vec (pos + 3) stop
  let k ← deserializeSeries categories bytes 11 false encoding
  let names ← tableNames k
  let (columns, pos) ← tableColumns vec names.length (stop + 6)
  let decoded ← tryCollect (decodeColumn categories encoding) columns
  let frame ← newFrame (renameColumns decoded names)
  .ok (.DataFrame frame, pos)

/-! ## Dictionaries -/

/-- `keys.cat32()` and `iter_str()`, a null as the empty text. -/
def keyTexts (keys : Series) : Exec (List Str) :=
  match keys.data with
  | .flat (.categorical mapping) chunks =>
    .ok (chunks.flatten.map fun cell => (cell.bind mapping.catToStr).getD Str.empty)
  | _ => deserializationErr "expected a Categorical column"

def dictionaryKeys (vec : Bytes) (pos : Nat) (keyType : UInt8) : Exec (Series × Nat) :=
  if keyType = 11 then do
    let stop ← calculateArrayEndIndex vec pos 11
    let bytes ← sliceRange vec pos stop
    let k ← deserializeSeries categories bytes 11 true encoding
    let keys ← k.intoSeries
    .ok (keys, stop)
  else do
    let (length, pos) ← takeListLength vec pos "q dictionary keys"
    if length = 0 then do
      let k ← newEmptySeries categories 11
      let keys ← k.intoSeries
      .ok (keys, pos)
    else Exec.err (.Err "Only support symbol keys dictionary or keyed table, got k type 0")

def valueLength : K → Exec Nat
  | .Series series => .ok series.len
  | .MixedList values => .ok values.length
  | .CharVector values => .ok values.length
  | _ => deserializationErr "dictionary values must be a list"

def dictionaryValues : K → Exec (List K)
  | .Series series => K.seriesValues series
  | .MixedList values => .ok values
  | .CharVector values => .ok (values.map .Char)
  | _ => deserializationErr "dictionary values changed type during decoding"

/-- Entries into the map, one after the other; a key that is there is refused. -/
def insertEntries : List (Str × K) → List (Str × K) → Exec (List (Str × K))
  | dict, [] => .ok dict
  | dict, (key, value) :: entries =>
    if key ∈ dict.map Prod.fst then
      deserializationErr
        "duplicate symbol dictionary key; use lossless value mode to preserve duplicate entries"
    else insertEntries (dict ++ [(key, value)]) entries

/-- A dictionary out of its two decoded sides. -/
def buildDictionary (keys : Series) (values : K) : Exec K := do
  let texts ← keyTexts keys
  let length ← valueLength values
  if keys.len ≠ length then
    deserializationErr
      s!"dictionary key/value length mismatch: {keys.len} keys and {length} values"
  else do
    let values ← dictionaryValues values
    let dict ← insertEntries [] (texts.zip values)
    .ok (.Dict dict)

/-- `key_df.hstack(value_df.columns())`. -/
def stackFrames (keys values : DataFrame) : Exec K :=
  match keys.hstack values.columns with
  | .ok frame => .ok (.DataFrame frame)
  | .error message => Exec.err (.Err message)

/-! ## Values

`decode` is `deserialize_unchecked` at the levels below. -/

section Values

variable (decode : Bytes → Nat → Bool → Nat → Exec (K × Nat))

/-- `for _ in 0..length { deserialize_unchecked(…)? }`. -/
def decodeMany (vec : Bytes) (depth : Nat) : Nat → Nat → Exec (List K × Nat)
  | 0, pos => .ok ([], pos)
  | length + 1, pos => do
    let (value, pos) ← decode vec pos false depth
    let (values, pos) ← decodeMany vec depth length pos
    .ok (value :: values, pos)

/-- What is tried when a general list has no end of its own. -/
def deserializeMixedList (vec : Bytes) (pos depth : Nat) : Exec (K × Nat) := do
  let (_, pos) ← takeBytes vec pos 1 "q mixed-list attribute"
  let (raw, pos) ← takeBytes vec pos 4 "q mixed-list length"
  if LittleEndian.signed 32 (LittleEndian.decode raw) < 0 then
    deserializationErr "q mixed-list length cannot be negative"
  else if (vec.length - pos) / 2 < LittleEndian.decode raw then
    deserializationErr s!"mixed-list count {LittleEndian.decode raw} exceeds the available {vec.length - pos}-byte payload"
  else do
    let (values, pos) ← decodeMany decode vec (depth + 1) (LittleEndian.decode raw) pos
    .ok (.MixedList values, pos)

/-- The list as a series, from its attribute at `pos` to its end. -/
def deserializeSlice (vec : Bytes) (pos stop : Nat) (kType : UInt8) : Exec (K × Nat) := do
  let bytes ← sliceRange vec pos stop
  let k ← deserializeSeries categories bytes kType (kType != 10) encoding
  .ok (k, stop)

/-- The types 0 to 19. -/
def deserializeList (vec : Bytes) (pos : Nat) (kType : UInt8) (isColumn : Bool) (depth : Nat) :
    Exec (K × Nat) :=
  match calculateArrayEndIndex vec pos kType with
  | .ok stop => deserializeSlice categories encoding vec pos stop kType
  | .error (.error e) =>
    if isColumn = false ∧ kType = 0 then deserializeMixedList decode vec pos depth
    else Exec.err e
  | .error .panic => Exec.panicked

def deserializeKeyedTable (vec : Bytes) (pos depth : Nat) : Exec (K × Nat) := do
  let (keys, pos) ← decode vec pos true (depth + 1)
  let keyFrame ← keys.intoDataFrame
  let (values, pos) ← decode vec pos true (depth + 1)
  let valueFrame ← values.intoDataFrame
  let k ← stackFrames keyFrame valueFrame
  .ok (k, pos)

def deserializeSymbolDictionary (vec : Bytes) (pos : Nat) (keyType : UInt8) (isColumn : Bool)
    (depth : Nat) : Exec (K × Nat) := do
  let (keys, pos) ← dictionaryKeys categories encoding vec pos keyType
  let valueType ← Exec.okOr vec[pos]?
    (.DeserializationErr "q dictionary omitted its values")
  if 19 < valueType then
    Exec.err (.Err s!"Not support k type {valueType} values in dictionary")
  else do
    let (values, pos) ← decode vec pos isColumn (depth + 1)
    let k ← buildDictionary keys values
    .ok (k, pos)

/-- Type 99, behind the type byte. -/
def deserializeDictionary (vec : Bytes) (pos : Nat) (isColumn : Bool) (depth : Nat) :
    Exec (K × Nat) := do
  let keyType ← Exec.okOr vec[pos]? (.DeserializationErr "q dictionary omitted its key type")
  if keyType = 98 then deserializeKeyedTable decode vec pos depth
  else if keyType = 11 ∨ keyType = 0 then
    deserializeSymbolDictionary categories encoding decode vec (pos + 1) keyType isColumn depth
  else
    Exec.err (.Err s!"Only support symbol keys dictionary or keyed table, got k type {keyType}")

def deserializeServerError (vec : Bytes) (pos : Nat) : Exec (K × Nat) := do
  let (message, _) ← takeUtf8UntilNul vec pos .Lossy "q error message"
  Exec.err (.ServerErr message.bytes)

/-- The dispatch on the type byte. -/
def deserializeBody (vec : Bytes) (pos : Nat) (kType : UInt8) (isColumn : Bool) (depth : Nat) :
    Exec (K × Nat) :=
  if 237 ≤ kType then deserializeAtom vec pos kType encoding
  else if kType ≤ 19 then deserializeList categories encoding decode vec pos kType isColumn depth
  else if kType = 99 then deserializeDictionary categories encoding decode vec pos isColumn depth
  else if kType = 98 then deserializeTable categories encoding vec pos
  else if kType = 100 then deserializeLambda vec pos encoding
  else if 101 ≤ kType ∧ kType ≤ 103 then deserializePrimitive vec pos kType
  else if kType = 128 then deserializeServerError vec pos
  else Exec.err (.NotSupportedKTypeErr kType)

end Values

def deserializeUnchecked : Nat → Bytes → Nat → Bool → Nat → Exec (K × Nat)
  | 0, _, _, _, _ => Exec.panicked
  | fuel + 1, vec, pos, isColumn, depth =>
    if maxValueDepth < depth then
      deserializationErr s!"q value nesting exceeds {maxValueDepth} levels"
    else do
      let kType ← Exec.okOr vec[pos]? (.DeserializationErr "q value omitted its type byte")
      deserializeBody categories encoding (deserializeUnchecked fuel) vec (pos + 1) kType isColumn
        depth

/-- Fuel for the 65 levels the decoder can enter and the one it refuses. -/
def deserializeFuel : Nat := maxValueDepth + 2

def parserPanic : XqdbError :=
  .DeserializationErr "malformed q value caused an internal parser panic"

/-- `deserialize` from position zero. -/
def deserialize (vec : Bytes) : Except XqdbError K :=
  match Exec.catchUnwind parserPanic
    (deserializeUnchecked categories encoding deserializeFuel vec 0 false 0) with
  | .ok (value, pos) =>
    if pos = vec.length then .ok value
    else .error (.DeserializationErr s!"q value has {vec.length - pos} trailing byte(s)")
  | .error e => .error e

end Decoder

end Xqdb
