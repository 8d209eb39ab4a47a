import Xqdb.Length

/-! The encoder of `serde6.rs`. `serialize_into` only ever appends to its output:
the functions below return what they append, and `K.serializeInto` puts it behind
the output so far. -/

namespace Xqdb

open WireNumber (toLe)

/-- `i32::try_from(length).map(i32::to_le_bytes)`. -/
def qListLength (length : Nat) : Exec Bytes :=
  if length ≤ i32Max then .ok (LittleEndian.encode 4 length) else Exec.err .OverLengthErr

def qTimestampNanoseconds (unixNanoseconds : Int64) : Exec Int64 :=
  Exec.okOr ((checkedI64 (unixNanoseconds.toInt - nanosDiff)).bind finiteTimestamp) timestampRange

/-- Encodes the items one after the other. -/
def writeEach {α : Type} (write : α → Exec Bytes) : List α → Exec Bytes
  | [] => .ok []
  | item :: items => do
    let bytes ← write item
    let rest ← writeEach write items
    .ok (bytes ++ rest)

/-- `&[k_type, 0]` and the count. -/
def seriesHeader (kType : UInt8) (length : Nat) : Bytes :=
  kType :: 0 :: LittleEndian.encode 4 length

/-- A text as a character vector. -/
def charVector (text : Bytes) : Exec Bytes := do
  let length ← qListLength text.length
  .ok ([10, 0] ++ length ++ text)

def boolByte (value : Bool) : UInt8 := if value then 1 else 0

/-! ## Flat columns -/

/-- The type byte of a column of this type. -/
def flatKType : FlatType → UInt8
  | .boolean => 1
  | .uint8 => 4
  | .int16 => 5
  | .int32 => 6
  | .int64 => 7
  | .float32 => 8
  | .float64 => 9
  | .string => 0
  | .date => 14
  | .datetime .milliseconds => 15
  | .datetime _ => 12
  | .duration _ => 16
  | .time => 19
  | .binary => 2
  | .categorical _ => 11

/-- One row of a column, a null as the null of its type. -/
def writeCell (type : FlatType) (cell : Option type.Cell) : Exec Bytes :=
  match type, cell with
  | .boolean, cell => .ok [boolByte (cell.getD false)]
  | .uint8, cell => .ok [cell.getD 0]
  | .int16, cell => .ok (toLe (cell.getD i16Min))
  | .int32, cell => .ok (toLe (cell.getD i32Min))
  | .int64, cell => .ok (toLe (cell.getD i64Min))
  | .float32, cell => .ok (toLe (cell.getD f32Nan))
  | .float64, cell => .ok (toLe (cell.getD f64Nan))
  | .string, some text => charVector text.bytes
  | .string, none => .ok [10, 0, 0, 0, 0, 0]
  | .date, none => .ok (toLe i32Min)
  | .date, some days => do
    let days ← Exec.okOr (checkedI32 (days.toInt - 10957)) dateRange
    .ok (toLe days)
  | .datetime .milliseconds, none => .ok (toLe f64Nan)
  | .datetime .milliseconds, some value => .ok (toLe (msDatetimeDays value))
  | .datetime _, none => .ok (toLe i64Min)
  | .datetime unit, some value => do
    let unixNanoseconds ← Exec.okOr (checkedI64 (value.toInt * timeUnitNanos unit)) timestampRange
    let nanoseconds ← qTimestampNanoseconds unixNanoseconds
    .ok (toLe nanoseconds)
  | .duration _, none => .ok (toLe i64Min)
  | .duration unit, some value => do
    let nanoseconds ← Exec.okOr (checkedI64 (value.toInt * timeUnitNanos unit)) durationRange
    .ok (toLe nanoseconds)
  | .time, none => .ok (toLe i32Min)
  | .time, some value => do
    let milliseconds ← Exec.okOr (checkedI32 (value.toInt.tdiv 1000000))
      (.NotAbleToSerializeErr "time is outside q's representable range")
    .ok (toLe milliseconds)
  | .binary, cell => .ok (cell.getD (List.replicate 16 0))
  -- symbols go through the lookup of `writeSymbol`
  | .categorical _, _ => Exec.panicked

/-- One row of a symbol column: its text, if any, and the terminating NUL. -/
def writeSymbol {mapping : CategoricalMapping} (category : Option Nat)
    (state : SymbolLookup mapping × Bytes) : Exec (SymbolLookup mapping × Bytes) :=
  match category with
  | some category => do
    let (symbol, lookup) ← state.1.resolve category
    .ok (lookup, state.2 ++ symbol.bytes ++ [0])
  | none => .ok (state.1, state.2 ++ [0])

/-- The checks a branch repeats before it writes. -/
def validateCells (type : FlatType) (cells : List (Option type.Cell)) : Exec Unit :=
  match type, cells with
  | .time, cells => validateQTimeSeries [cells]
  | .binary, cells => validateGuidSeries [cells]
  | _, _ => .ok ()

/-- The rows of a column behind its header. -/
def writeCells (type : FlatType) (cells : List (Option type.Cell)) : Exec Bytes :=
  match type, cells with
  | .categorical mapping, cells => do
    let (_, bytes) ← forEachCategory writeSymbol cells (SymbolLookup.new mapping, [])
    .ok bytes
  | type, cells => writeEach (writeCell type) cells

def serializeFlat (type : FlatType) (cells : List (Option type.Cell)) : Exec Bytes := do
  validateCells type cells
  let payload ← writeCells type cells
  .ok (seriesHeader (flatKType type) cells.length ++ payload)

/-! ## List columns -/

/-- One row of a Boolean list column. A bit past the child array reads as null. -/
def writeBooleanRow (values : List (Option Bool)) (range : Int × Int) : Exec Bytes := do
  let start ← Exec.okOr (if 0 ≤ range.1 then some range.1.toNat else none)
    (.NotAbleToSerializeErr "List offsets cannot be negative")
  let stop ← Exec.okOr (if 0 ≤ range.2 then some range.2.toNat else none)
    (.NotAbleToSerializeErr "List offsets cannot be negative")
  let count ← subtract stop start
  let length ← qListLength count
  .ok ([1, 0] ++ length ++
    (List.range' start count).map fun i => boolByte ((values[i]?.join).getD false))

/-- One row of a list column of fixed-width elements. -/
def writeNestedRow {α : Type} (kType : UInt8) (toBytes : Option α → Bytes)
    (negative exceed : String) (values : List (Option α)) (range : Int × Int) : Exec Bytes := do
  let start ← Exec.okOr (if 0 ≤ range.1 then some range.1.toNat else none)
    (.NotAbleToSerializeErr negative)
  let stop ← Exec.okOr (if 0 ≤ range.2 then some range.2.toNat else none)
    (.NotAbleToSerializeErr negative)
  let row ← Exec.okOr
    (if start ≤ stop ∧ stop ≤ values.length then some ((values.drop start).take (stop - start))
      else none)
    (.NotAbleToSerializeErr exceed)
  let length ← qListLength row.length
  .ok ([kType, 0] ++ length ++ row.flatMap toBytes)

/-- `write_nested_wire_lists` for one row. -/
def writeNestedWireList {α : Type} [WireNumber α] (kType : UInt8) (nullValue : α) :
    List (Option α) → Int × Int → Exec Bytes :=
  writeNestedRow kType (fun cell => toLe (cell.getD nullValue))
    "nested-list offsets cannot be negative" "nested-list offsets exceed the child values"

def writeNestedBytes : List (Option UInt8) → Int × Int → Exec Bytes :=
  writeNestedRow 4 (fun cell => [cell.getD 0]) "List offsets cannot be negative"
    "List offsets exceed the child values"

def writeListRow (inner : FlatType) (values : List (Option inner.Cell)) (range : Int × Int) :
    Exec Bytes :=
  match inner, values with
  | .boolean, values => writeBooleanRow values range
  | .uint8, values => writeNestedBytes values range
  | .int16, values => writeNestedWireList 5 i16Min values range
  | .int32, values => writeNestedWireList 6 i32Min values range
  | .int64, values => writeNestedWireList 7 i64Min values range
  | .float32, values => writeNestedWireList 8 f32Nan values range
  | .float64, values => writeNestedWireList 9 f64Nan values range
  | inner, _ => Exec.err (.NotSupportedPolarsNestedListTypeErr inner.dataType)

/-- The match on the element type stands before the loop over the rows. -/
def supportedNested (inner : FlatType) : Exec Unit :=
  if (nestedWidth inner).isSome then .ok ()
  else Exec.err (.NotSupportedPolarsNestedListTypeErr inner.dataType)

def serializeList (length : Nat) (inner : FlatType) (chunk : ListChunk inner.Cell) : Exec Bytes :=
  if chunk.offsets.length ≠ length + 1 then
    Exec.err (.NotAbleToSerializeErr
      s!"List offsets contain {chunk.offsets.length} entries for {length} rows")
  else if 0 < chunk.nullCount then Exec.err nullList
  else do
    supportedNested inner
    let rows ← writeEach (writeListRow inner chunk.values) (windows chunk.offsets)
    .ok (seriesHeader 0 length ++ rows)

/-- Row `row` of a Boolean array column. -/
def writeArrayRow (values : List (Option Bool)) (size row : Nat) : Exec Bytes := do
  let length ← qListLength size
  let start ← Exec.okOr (checkedMul row size) .OverLengthErr
  let _ ← Exec.okOr (checkedAdd start size) .OverLengthErr
  .ok ([1, 0] ++ length ++
    (List.range' start size).map fun i => boolByte ((values[i]?.join).getD false))

def serializeArray (length : Nat) (inner : FlatType) (size : Nat)
    (chunk : ArrayChunk inner.Cell size) : Exec Bytes :=
  if 0 < chunk.nullCount then Exec.err nullArray
  else
    match inner, chunk with
    | .boolean, chunk => do
      let _ ← qListLength size
      let rows ← writeEach (writeArrayRow chunk.values size) (List.range length)
      .ok (seriesHeader 0 length ++ rows)
    | inner, _ => Exec.err (.NotSupportedPolarsNestedListTypeErr inner.dataType)

/-! ## Series and values -/

def serializeOther (dataType : DataType) (nullCount : Nat) : Exec Bytes :=
  match dataType with
  | .list inner =>
    if 0 < nullCount then Exec.err nullList
    else Exec.err (.NotSupportedPolarsNestedListTypeErr inner)
  | .array inner _ =>
    if 0 < nullCount then Exec.err nullArray
    else Exec.err (.NotSupportedPolarsNestedListTypeErr inner)
  | dataType => Exec.err (.NotSupportedSeriesTypeErr dataType)

/-- The branches of `serialize_series_into`, on a series of one chunk. -/
def serializeChunk (series : Series) : Exec Bytes :=
  match series.data with
  | .flat type chunks => serializeFlat type chunks.flatten
  | .list inner chunks nonempty => serializeList series.len inner (chunks.head nonempty)
  | .array inner size chunks nonempty =>
    serializeArray series.len inner size (chunks.head nonempty)
  | .null length =>
    if length = 0 then .ok [0, 0, 0, 0, 0, 0] else Exec.err (.NotSupportedSeriesTypeErr .null)
  | .other dataType _ nullCount => serializeOther dataType nullCount

def serializeSeriesInto (series : Series) : Exec Bytes :=
  let series := if 1 < series.nChunks then series.rechunk else series
  if i32Max < series.len then Exec.err .OverLengthErr else serializeChunk series

/-- A key or name list: its count and the NUL-terminated texts. -/
def writeName (name : Str) : Exec Bytes := do
  validateQSymbol name.bytes
  .ok (name.bytes ++ [0])

def serializeFrame (frame : DataFrame) : Exec Bytes := do
  let count ← qListLength frame.columns.length
  let names ← writeEach writeName (frame.columns.map Series.name)
  let columns ← writeEach serializeSeriesInto frame.columns
  .ok ([98, 0, 99, 11, 0] ++ count ++ names ++ [0, 0] ++ count ++ columns)

namespace K

def appendedLeaf : K → Exec Bytes
  | .Boolean value => .ok [255, boolByte value]
  | .Guid value => .ok (254 :: value.bytes)
  | .U8 value => .ok [252, value]
  | .I16 value => .ok (251 :: toLe value)
  | .I32 value => .ok (250 :: toLe value)
  | .I64 value => .ok (249 :: toLe value)
  | .F32 bits => .ok (248 :: toLe bits)
  | .F64 bits => .ok (247 :: toLe bits)
  | .Char value => .ok [246, value]
  | .Symbol value => do
    validateQSymbol value.bytes
    .ok (245 :: (value.bytes ++ [0]))
  | .CharVector value => charVector value
  | .String value => charVector value.bytes
  | .DateTime value => do
    let unixNanoseconds ← Exec.okOr value.timestampNanosOpt timestampRange
    let qNanoseconds ← qTimestampNanoseconds unixNanoseconds
    .ok (244 :: toLe qNanoseconds)
  | .Date value => do
    let days ← Exec.okOr (checkedI32 (value.numDaysFromCe.toInt - 730120)) dateRange
    .ok (242 :: toLe days)
  | .Time value => .ok (237 :: toLe (Int32.ofInt value.milliseconds))
  | .Duration value => do
    let nanoseconds ← Exec.okOr value.numNanoseconds durationRange
    .ok (240 :: toLe nanoseconds)
  | .Series series => serializeSeriesInto series
  | .DataFrame frame => serializeFrame frame
  | .QValue value => .ok value.bytes
  | .Operator operator => .ok [operator.wireValue.1, operator.wireValue.2]
  | .Lambda lambda => do
    let sourceLength ← qListLength lambda.source.bytes.length
    .ok ([100] ++ lambda.context.bytes ++ [0, 10, 0] ++ sourceLength ++ lambda.source.bytes)
  | .Null => .ok [101, 0]
  -- not leaves
  | .MixedList _ => Exec.panicked
  | .Dict _ => Exec.panicked

mutual

/-- What `serialize_into` appends to its output. -/
def appended : K → Exec Bytes
  | .MixedList values => do
    let count ← qListLength values.length
    let members ← appendedAll values
    .ok ([0, 0] ++ count ++ members)
  | .Dict entries => do
    let count ← qListLength entries.length
    let keys ← writeEach writeName (entries.map Prod.fst)
    let values ← appendedEntries entries
    .ok ([99, 11, 0] ++ count ++ keys ++ [0, 0] ++ count ++ values)
  | k => appendedLeaf k

def appendedAll : List K → Exec Bytes
  | [] => .ok []
  | value :: values => do
    let bytes ← value.appended
    let rest ← appendedAll values
    .ok (bytes ++ rest)

/-- `for value in dict.values()`. -/
def appendedEntries : List (Str × K) → Exec Bytes
  | [] => .ok []
  | (_, value) :: entries => do
    let bytes ← value.appended
    let rest ← appendedEntries entries
    .ok (bytes ++ rest)

end

section

-- the equations, generated here once and not by every proof that unfolds them
attribute [local simp] appendedLeaf appended appendedAll appendedEntries

end

theorem appended_leaf {k : K} (h : k.IsLeaf) : k.appended = appendedLeaf k := by
  rw [appended]
  · rintro values rfl
    exact h
  · rintro entries rfl
    exact h

def serializeInto (k : K) (vec : Bytes) : Exec Bytes := do
  let bytes ← k.appended
  .ok (vec ++ bytes)

/-- `Vec::with_capacity(capacity)`, which panics where no allocation can be that large. -/
def withCapacity (capacity : Nat) : Exec Bytes :=
  if capacity ≤ isizeMax then .ok [] else Exec.panicked

/-- `serialize`: the length is computed first and rejects what cannot be sent. -/
def serialize (k : K) : Exec Bytes := do
  let length ← k.j6Len
  let vec ← withCapacity length
  k.serializeInto vec

theorem serialize_eq_ok {k : K} {bytes : Bytes} :
    k.serialize = .ok bytes ↔
      (∃ n, k.j6Len = .ok n ∧ n ≤ isizeMax) ∧ k.appended = .ok bytes := by
  simp only [serialize, serializeInto, Exec.bind_eq_ok, Except.ok.injEq]
  constructor
  · rintro ⟨n, hn, vec, hvec, appended, happended, rfl⟩
    unfold withCapacity at hvec
    split at hvec
    · cases hvec
      exact ⟨⟨n, hn, by assumption⟩, happended⟩
    · cases hvec
  · rintro ⟨⟨n, hn, hle⟩, happended⟩
    exact ⟨n, hn, [], by simp [withCapacity, hle], bytes, happended, rfl⟩

end K
end Xqdb
