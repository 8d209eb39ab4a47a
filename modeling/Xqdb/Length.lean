import Xqdb.Value

/-! Length prediction: `K::j6_len` and `get_series_len` of `types.rs`, with the
range checks they make on the way. -/

namespace Xqdb

def checkedQCount (length : Nat) : Exec Unit :=
  if length ≤ i32Max then .ok () else Exec.err .OverLengthErr

def checkedSeriesSize (length valueWidth : Nat) : Exec Nat := do
  checkedQCount length
  Exec.okOr ((checkedMul length valueWidth).bind fun size => checkedAdd size 6) .OverLengthErr

def checkedNestedSeriesSize (outerLength valuesLength valueWidth : Nat) : Exec Nat := do
  checkedQCount outerLength
  let valuesSize ← Exec.okOr (checkedMul valuesLength valueWidth) .OverLengthErr
  let headersSize ← Exec.okOr (checkedMul outerLength 6) .OverLengthErr
  Exec.okOr ((checkedAdd valuesSize headersSize).bind fun size => checkedAdd size 6) .OverLengthErr

/-- `for value in values { check }`. -/
def forEach {α : Type} (check : α → Exec Unit) : List α → Exec Unit
  | [] => .ok ()
  | value :: values => do
    check value
    forEach check values

/-! ## Categories -/

/-- A direct-mapped cache over a categorical mapping. -/
structure SymbolLookup (mapping : CategoricalMapping) where
  slots : List (Option (Nat × Str))
  slots_length : slots.length = 256

namespace SymbolLookup

variable {mapping : CategoricalMapping}

def new (mapping : CategoricalMapping) : SymbolLookup mapping where
  slots := List.replicate 256 none
  slots_length := List.length_replicate

def store (lookup : SymbolLookup mapping) (category : Nat) (symbol : Str) : SymbolLookup mapping where
  slots := lookup.slots.set (category % 256) (some (category, symbol))
  slots_length := by simp [lookup.slots_length]

/-- The slot of a category, if it holds this very category. -/
def cached (lookup : SymbolLookup mapping) (category : Nat) : Option Str :=
  match lookup.slots[category % 256]? with
  | some (some (cached, symbol)) => if cached = category then some symbol else none
  | _ => none

def resolve (lookup : SymbolLookup mapping) (category : Nat) :
    Exec (Str × SymbolLookup mapping) :=
  match lookup.cached category with
  | some symbol => .ok (symbol, lookup)
  | none => do
    let symbol ← Exec.okOr (mapping.catToStr category) (.NotAbleToSerializeErr
      s!"categorical value {category} is missing from its category mapping")
    validateQSymbol symbol.bytes
    .ok (symbol, lookup.store category symbol)

end SymbolLookup

/-- `for_each_category` with the lookup and an accumulator threaded through the visits. -/
def forEachCategory {σ : Type} (visit : Option Nat → σ → Exec σ) : List (Option Nat) → σ → Exec σ
  | [], state => .ok state
  | category :: categories, state => do
    let state ← visit category state
    forEachCategory visit categories state

/-! ## Range checks -/

def timeUnitNanos : TimeUnit → Int
  | .nanoseconds => 1
  | .microseconds => 1000
  | .milliseconds => 1000000

def timestampRange : XqdbError :=
  .NotAbleToSerializeErr "timestamp is outside q's representable nanosecond range"

def durationRange : XqdbError :=
  .NotAbleToSerializeErr "duration is outside q's representable nanosecond range"

def dateRange : XqdbError := .NotAbleToSerializeErr "date is outside q's representable range"

/-- A q timestamp: not the null and neither infinity. -/
def finiteTimestamp (value : Int64) : Option Int64 :=
  if -2 ^ 63 + 1 < value.toInt ∧ value.toInt < 2 ^ 63 - 1 then some value else none

/-- The q timestamp of a physical datetime value. -/
def qTimestampOf (unit : TimeUnit) (value : Int64) : Option Int64 :=
  (checkedI64 (value.toInt * timeUnitNanos unit)).bind fun value =>
    (checkedI64 (value.toInt - nanosDiff)).bind finiteTimestamp

def checkTimestamp (unit : TimeUnit) (value : Int64) : Exec Unit := do
  let _ ← Exec.okOr (qTimestampOf unit value) timestampRange
  .ok ()

def checkDate (days : Int32) : Exec Unit :=
  if (checkedI32 (days.toInt - 10957)).isNone then Exec.err dateRange else .ok ()

def checkDuration (unit : TimeUnit) (value : Int64) : Exec Unit :=
  if (checkedI64 (value.toInt * timeUnitNanos unit)).isNone then Exec.err durationRange else .ok ()

def checkTime (nanoseconds : Int64) : Exec Unit :=
  if ¬ (0 ≤ nanoseconds.toInt ∧ nanoseconds.toInt < 86400000000000) then
    Exec.err (.NotAbleToSerializeErr "q time values must be within a single day")
  else if nanoseconds.toInt % 1000000 ≠ 0 then
    Exec.err (.NotAbleToSerializeErr "q time only supports millisecond precision")
  else .ok ()

/-- `values.iter().flatten()` over all chunks. -/
def presentCells {α : Type} (chunks : List (List (Option α))) : List α :=
  chunks.flatten.filterMap id

def validateQTimeSeries (chunks : List (List (Option Int64))) : Exec Unit :=
  forEach checkTime (presentCells chunks)

def validateGuidSeries (chunks : List (List (Option Bytes))) : Exec Unit :=
  if (presentCells chunks).any fun value => value.length ≠ 16 then
    Exec.err (.NotAbleToSerializeErr
      "binary series values must be exactly 16 bytes to encode as GUIDs")
  else .ok ()

/-! ## Series -/

/-- Total bytes of the texts, each within a q count. -/
def stringBytes : List Str → Nat → Exec Nat
  | [], length => .ok length
  | value :: values, length => do
    checkedQCount value.bytes.length
    let length ← Exec.okOr (checkedAdd length value.bytes.length) .OverLengthErr
    stringBytes values length

/-- One row of a symbol column added to the running total. -/
def addSymbolLength {mapping : CategoricalMapping} (category : Option Nat)
    (state : SymbolLookup mapping × Nat) : Exec (SymbolLookup mapping × Nat) :=
  match category with
  | some category => do
    let (symbol, lookup) ← state.1.resolve category
    let total ← Exec.okOr ((checkedAdd state.2 symbol.bytes.length).bind (checkedAdd · 1))
      .OverLengthErr
    .ok (lookup, total)
  | none => do
    let total ← Exec.okOr ((checkedAdd state.2 0).bind (checkedAdd · 1)) .OverLengthErr
    .ok (state.1, total)

/-- `last - first` of each chunk's offsets, summed. -/
def listValuesLength {α : Type} : List (ListChunk α) → Nat → Exec Nat
  | [], total => .ok total
  | chunk :: chunks, total => do
    let first ← Exec.okOr chunk.offsets.head?
      (.NotAbleToSerializeErr "Polars List offsets are empty")
    let last ← Exec.okOr chunk.offsets.getLast?
      (.NotAbleToSerializeErr "Polars List offsets are empty")
    let chunkLength ← Exec.okOr (checkedI64 (last - first))
      (.NotAbleToSerializeErr "Polars List offsets are not monotonically increasing")
    let length ← Exec.okOr (if 0 ≤ chunkLength.toInt then some chunkLength.toInt.toNat else none)
      .OverLengthErr
    let total ← Exec.okOr (checkedAdd total length) .OverLengthErr
    listValuesLength chunks total

/-- Bytes per element of the types a list column can hold. -/
def nestedWidth : FlatType → Option Nat
  | .boolean => some 1
  | .uint8 => some 1
  | .int16 => some 2
  | .int32 => some 4
  | .float32 => some 4
  | .int64 => some 8
  | .float64 => some 8
  | _ => none

def getFlatLen (length : Nat) (type : FlatType) (chunks : List (List (Option type.Cell))) :
    Exec Nat :=
  match type, chunks with
  | .boolean, _ => checkedSeriesSize length 1
  | .int16, _ => checkedSeriesSize length 2
  | .int32, _ => checkedSeriesSize length 4
  | .int64, _ => checkedSeriesSize length 8
  | .uint8, _ => checkedSeriesSize length 1
  | .float32, _ => checkedSeriesSize length 4
  | .float64, _ => checkedSeriesSize length 8
  | .datetime .milliseconds, _ => checkedSeriesSize length 8
  | .datetime unit, chunks => do
    forEach (checkTimestamp unit) (presentCells chunks)
    checkedSeriesSize length 8
  | .date, chunks => do
    forEach checkDate (presentCells chunks)
    checkedSeriesSize length 4
  | .time, chunks => do
    validateQTimeSeries chunks
    checkedSeriesSize length 4
  | .duration unit, chunks => do
    forEach (checkDuration unit) (presentCells chunks)
    checkedSeriesSize length 8
  | .string, chunks => do
    let valueBytes ← stringBytes (presentCells chunks) 0
    checkedNestedSeriesSize length valueBytes 1
  | .binary, chunks => do
    validateGuidSeries chunks
    checkedSeriesSize length 16
  | .categorical mapping, chunks => do
    checkedQCount length
    let (_, total) ← forEachCategory addSymbolLength chunks.flatten (SymbolLookup.new mapping, 6)
    .ok total

def nullList : XqdbError := .NotAbleToSerializeErr "null values in List columns"

def nullArray : XqdbError := .NotAbleToSerializeErr "null values in Array columns"

def getListLen (length : Nat) (inner : FlatType) (chunks : List (ListChunk inner.Cell)) :
    Exec Nat :=
  if 0 < (chunks.map ListChunk.nullCount).sum then Exec.err nullList
  else do
    let valuesLength ← listValuesLength chunks 0
    let valueWidth ← Exec.okOr (nestedWidth inner)
      (.NotSupportedPolarsNestedListTypeErr inner.dataType)
    checkedNestedSeriesSize length valuesLength valueWidth

def getArrayLen (length : Nat) (inner : FlatType) (size nullCount : Nat) : Exec Nat :=
  if size = 0 then
    Exec.err (.NotAbleToSerializeErr "zero-width Array columns cannot be encoded as q lists")
  else if 0 < nullCount then Exec.err nullArray
  else
    match inner with
    | .boolean => do
      let valuesLength ← Exec.okOr (checkedMul length size) .OverLengthErr
      checkedNestedSeriesSize length valuesLength 1
    | inner => Exec.err (.NotSupportedPolarsNestedListTypeErr inner.dataType)

/-- Types without an encoding; lists and arrays of them have errors of their own. -/
def getOtherLen (dataType : DataType) (nullCount : Nat) : Exec Nat :=
  match dataType with
  | .list inner =>
    if 0 < nullCount then Exec.err nullList
    else Exec.err (.NotSupportedPolarsNestedListTypeErr inner)
  | .array inner size =>
    if size = 0 then
      Exec.err (.NotAbleToSerializeErr "zero-width Array columns cannot be encoded as q lists")
    else if 0 < nullCount then Exec.err nullArray
    else Exec.err (.NotSupportedPolarsNestedListTypeErr inner)
  | dataType => Exec.err (.NotSupportedSeriesTypeErr dataType)

def getSeriesLen (series : Series) : Exec Nat :=
  match series.data with
  | .null length =>
    if length = 0 then checkedSeriesSize length 0
    else Exec.err (.NotAbleToSerializeErr "nonempty Null series cannot be encoded as q values")
  | .flat type chunks => getFlatLen series.len type chunks
  | .list inner chunks _ => getListLen series.len inner chunks
  | .array inner size chunks _ =>
    getArrayLen series.len inner size (chunks.map ArrayChunk.nullCount).sum
  | .other dataType _ nullCount => getOtherLen dataType nullCount

/-! ## Values -/

def nestingErr : XqdbError := .NotAbleToSerializeErr s!"q value nesting exceeds {maxValueDepth} levels"

/-- A name or key: its text and the terminating NUL. -/
def addSymbol (length : Nat) (name : Str) : Exec Nat := do
  validateQSymbol name.bytes
  Exec.okOr ((checkedAdd length name.bytes.length).bind (checkedAdd · 1)) .OverLengthErr

/-- The columns of a frame, name and values one after the other. -/
def frameLen : List Series → Nat → Exec Nat
  | [], length => .ok length
  | column :: columns, length => do
    let length ← addSymbol length column.name
    let size ← getSeriesLen column
    let length ← Exec.okOr (checkedAdd length size) .OverLengthErr
    frameLen columns length

/-- Character vectors and strings. -/
def textLen (length : Nat) : Exec Nat := do
  checkedQCount length
  Exec.okOr (checkedAdd length 6) .OverLengthErr

namespace K

def checkDateTime (value : Xqdb.DateTime) : Exec Int64 := do
  let unixNanoseconds ← Exec.okOr value.timestampNanosOpt timestampRange
  Exec.okOr ((checkedI64 (unixNanoseconds.toInt - nanosDiff)).bind finiteTimestamp) timestampRange

/-- The length of a value without values inside, on a level within the limit. -/
def leafLen (depth : Nat) : K → Exec Nat
  | .Boolean _ => .ok 2
  | .Guid _ => .ok 17
  | .U8 _ => .ok 2
  | .I16 _ => .ok 3
  | .I32 _ => .ok 5
  | .I64 _ => .ok 9
  | .F32 _ => .ok 5
  | .F64 _ => .ok 9
  | .Char _ => .ok 2
  | .CharVector value => textLen value.length
  | .Symbol value => do
    validateQSymbol value.bytes
    Exec.okOr (checkedAdd value.bytes.length 2) .OverLengthErr
  | .String value => textLen value.bytes.length
  | .DateTime value => do
    let _ ← checkDateTime value
    .ok 9
  | .Date _ => .ok 5
  | .Time value =>
    if value.frac % 1000000 ≠ 0 then
      Exec.err (.NotAbleToSerializeErr "q time only supports millisecond precision")
    else .ok 5
  | .Duration value => do
    let _ ← Exec.okOr value.numNanoseconds durationRange
    .ok 9
  | .Series series => getSeriesLen series
  | .DataFrame frame => do
    checkedQCount frame.width
    frameLen frame.columns 15
  | .Operator _ => .ok 2
  | .Lambda lambda => do
    checkedQCount lambda.source.bytes.length
    Exec.okOr ((checkedAdd lambda.source.bytes.length lambda.context.bytes.length).bind
      (checkedAdd · 8)) .OverLengthErr
  | .QValue value =>
    if maxValueDepth - depth < value.metadata.maxDepth then Exec.err nestingErr
    else .ok value.bytes.length
  | .Null => .ok 2
  -- not leaves
  | .MixedList _ => Exec.panicked
  | .Dict _ => Exec.panicked

mutual

def j6LenWithDepth : K → Nat → Exec Nat
  | .MixedList values, depth =>
    if maxValueDepth < depth then Exec.err nestingErr
    else do
      checkedQCount values.length
      listLen values (depth + 1) 6
  | .Dict entries, depth =>
    if maxValueDepth < depth then Exec.err nestingErr
    else do
      checkedQCount entries.length
      entriesLen entries (depth + 1) 13
  | k, depth => if maxValueDepth < depth then Exec.err nestingErr else leafLen depth k

/-- The members of a mixed list, added up from `length`. -/
def listLen : List K → Nat → Nat → Exec Nat
  | [], _, length => .ok length
  | value :: values, depth, length => do
    let size ← value.j6LenWithDepth depth
    let length ← Exec.okOr (checkedAdd length size) .OverLengthErr
    listLen values depth length

/-- The entries of a dictionary, key and value one after the other. -/
def entriesLen : List (Str × K) → Nat → Nat → Exec Nat
  | [], _, length => .ok length
  | (key, value) :: entries, depth, length => do
    let length ← addSymbol length key
    let size ← value.j6LenWithDepth depth
    let length ← Exec.okOr (checkedAdd length size) .OverLengthErr
    entriesLen entries depth length

end

section

-- the equations, generated here once and not by every proof that unfolds them
attribute [local simp] leafLen j6LenWithDepth listLen entriesLen

end

theorem j6LenWithDepth_leaf {k : K} (h : k.IsLeaf) (depth : Nat) :
    k.j6LenWithDepth depth =
      if maxValueDepth < depth then Exec.err nestingErr else leafLen depth k := by
  rw [j6LenWithDepth]
  · rintro values rfl
    exact h
  · rintro entries rfl
    exact h

def j6Len (k : K) : Exec Nat := k.j6LenWithDepth 0

end K
end Xqdb
