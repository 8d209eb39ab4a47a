import Mathlib.Logic.Equiv.List
import Xqdb.Types
import Xqdb.Numbers

/-! Polars series as the codec reads and builds them: a type, and rows kept in
chunks. Flat columns are lists of optional values; list columns keep Arrow's
offsets over a child array, which may be sliced, start past zero and hold nulls. -/

namespace Xqdb

/-- A categorical mapping: an injective and stable numbering of texts. -/
structure CategoricalMapping where
  insertCat : Str → Nat
  catToStr : Nat → Option Str
  catToStr_insertCat : ∀ s, catToStr (insertCat s) = some s

/-- Texts numbered by their octets. -/
def numberedTexts : CategoricalMapping where
  insertCat s := Encodable.encode (s.bytes.map UInt8.toNat)
  catToStr n := (Encodable.decode (α := List Nat) n).bind fun codes =>
    Str.fromUtf8 (codes.map UInt8.ofNat)
  catToStr_insertCat s := by simp [Function.comp_def]

/-- The column types with one value per row. -/
inductive FlatType where
  | boolean
  | uint8
  | int16
  | int32
  | int64
  | float32
  | float64
  | string
  | date
  | datetime (unit : TimeUnit)
  | duration (unit : TimeUnit)
  | time
  | binary
  | categorical (mapping : CategoricalMapping)

namespace FlatType

/-- The physical value of one row; floats are bit patterns, categories their ids. -/
@[reducible] def Cell : FlatType → Type
  | boolean => Bool
  | uint8 => UInt8
  | int16 => Int16
  | int32 => Int32
  | int64 => Int64
  | float32 => UInt32
  | float64 => UInt64
  | string => Str
  | date => Int32
  | datetime _ => Int64
  | duration _ => Int64
  | time => Int64
  | binary => Bytes
  | categorical _ => Nat

def dataType : FlatType → DataType
  | boolean => .boolean
  | uint8 => .uint8
  | int16 => .int16
  | int32 => .int32
  | int64 => .int64
  | float32 => .float32
  | float64 => .float64
  | string => .string
  | date => .date
  | datetime unit => .datetime unit
  | duration unit => .duration unit
  | time => .time
  | binary => .binary
  | categorical _ => .categorical

end FlatType

/-! ## List columns -/

/-- `slice.windows(2)`. -/
def windows {α : Type} : List α → List (α × α)
  | a :: b :: rest => (a, b) :: windows (b :: rest)
  | _ => []

/-- Offsets that start at `low` or later, never fall and end within `bound`. -/
def OffsetsWithin (bound : Nat) : Int → List Int → Prop
  | low, [] => low ≤ bound
  | low, offset :: rest => low ≤ offset ∧ OffsetsWithin bound offset rest

instance decidableOffsetsWithin (bound : Nat) :
    ∀ (low : Int) (offsets : List Int), Decidable (OffsetsWithin bound low offsets)
  | low, [] => inferInstanceAs (Decidable (low ≤ bound))
  | low, offset :: rest =>
    have := decidableOffsetsWithin bound offset rest
    inferInstanceAs (Decidable (low ≤ offset ∧ OffsetsWithin bound offset rest))

/-- One Arrow list array: row `i` is `values[offsets[i]..offsets[i + 1]]`. -/
structure ListChunk (α : Type) where
  values : List (Option α)
  offsets : List Int
  validity : List Bool
  offsets_length : offsets.length = validity.length + 1
  offsets_within : OffsetsWithin values.length 0 offsets

/-- `&values[start..end]` for offsets that are known to be in range. -/
def childSlice {α : Type} (values : List α) (range : Int × Int) : List α :=
  (values.drop range.1.toNat).take (range.2.toNat - range.1.toNat)

namespace ListChunk

variable {α : Type}

def len (chunk : ListChunk α) : Nat := chunk.validity.length

def nullCount (chunk : ListChunk α) : Nat := chunk.validity.count false

/-- The logical rows: a row is null when its validity bit is unset. -/
def rows (chunk : ListChunk α) : List (Option (List (Option α))) :=
  List.zipWith (fun range valid => if valid then some (childSlice chunk.values range) else none)
    (windows chunk.offsets) chunk.validity

/-- Running totals of row lengths from `start` on. -/
def offsetsFrom : Int → List (List (Option α)) → List Int
  | start, [] => [start]
  | start, row :: rows => start :: offsetsFrom (start + row.length) rows

theorem offsetsFrom_length (start : Int) (rows : List (List (Option α))) :
    (offsetsFrom start rows).length = rows.length + 1 := by
  induction rows generalizing start with
  | nil => rfl
  | cons row rows ih => simp [offsetsFrom, ih]

theorem offsetsFrom_within (low start : Int) (bound : Nat) (rows : List (List (Option α)))
    (hlow : low ≤ start) (hbound : start + rows.flatten.length ≤ bound) :
    OffsetsWithin bound low (offsetsFrom start rows) := by
  induction rows generalizing low start with
  | nil =>
    refine ⟨hlow, ?_⟩
    simpa [OffsetsWithin] using hbound
  | cons row rows ih =>
    refine ⟨hlow, ?_⟩
    apply ih
    · omega
    · simp only [List.flatten_cons, List.length_append] at hbound
      omega

/-- A list array built row by row, starting at offset zero. -/
def ofRows (rows : List (Option (List (Option α)))) : ListChunk α where
  values := (rows.map (·.getD [])).flatten
  offsets := offsetsFrom 0 (rows.map (·.getD []))
  validity := rows.map (·.isSome)
  offsets_length := by simp [offsetsFrom_length]
  offsets_within := offsetsFrom_within 0 0 _ _ (by omega) (by omega)

end ListChunk

/-- One Arrow fixed-size list array: row `i` is `values[i * size..(i + 1) * size]`. -/
structure ArrayChunk (α : Type) (size : Nat) where
  values : List (Option α)
  validity : List Bool
  values_length : values.length = validity.length * size

namespace ArrayChunk

variable {α : Type} {size : Nat}

def len (chunk : ArrayChunk α size) : Nat := chunk.validity.length

def nullCount (chunk : ArrayChunk α size) : Nat := chunk.validity.count false

def append (a b : ArrayChunk α size) : ArrayChunk α size where
  values := a.values ++ b.values
  validity := a.validity ++ b.validity
  values_length := by simp [a.values_length, b.values_length, Nat.add_mul]

def nil : ArrayChunk α size where
  values := []
  validity := []
  values_length := by simp

end ArrayChunk

/-! ## Series and frames -/

inductive SeriesData where
  | null (length : Nat)
  | flat (type : FlatType) (chunks : List (List (Option type.Cell)))
  | list (inner : FlatType) (chunks : List (ListChunk inner.Cell)) (nonempty : chunks ≠ [])
  | array (inner : FlatType) (size : Nat) (chunks : List (ArrayChunk inner.Cell size))
    (nonempty : chunks ≠ [])
  /-- Any type the encoder has no branch for, with what its error needs. -/
  | other (dataType : DataType) (length nullCount : Nat)

structure Series where
  name : Str
  data : SeriesData

namespace Series

def len (series : Series) : Nat :=
  match series.data with
  | .null length => length
  | .flat _ chunks => (chunks.map List.length).sum
  | .list _ chunks _ => (chunks.map ListChunk.len).sum
  | .array _ _ chunks _ => (chunks.map ArrayChunk.len).sum
  | .other _ length _ => length

def dtype (series : Series) : DataType :=
  match series.data with
  | .null _ => .null
  | .flat type _ => type.dataType
  | .list inner _ _ => .list inner.dataType
  | .array inner size _ _ => .array inner.dataType size
  | .other dataType _ _ => dataType

/-- `series.rename(name)`. -/
def rename (series : Series) (name : Str) : Series := { series with name := name }

@[simp] theorem rename_len (series : Series) (name : Str) : (series.rename name).len = series.len :=
  rfl

@[simp] theorem rename_name (series : Series) (name : Str) : (series.rename name).name = name := rfl

/-- `series.rechunk()`: the same logical rows in one chunk. -/
def rechunk (series : Series) : Series :=
  { series with
    data :=
      match series.data with
      | .flat type chunks => .flat type [chunks.flatten]
      | .list inner chunks _ =>
        .list inner [ListChunk.ofRows (chunks.flatMap ListChunk.rows)] (by simp)
      | .array inner size chunks _ =>
        .array inner size [chunks.foldr ArrayChunk.append ArrayChunk.nil] (by simp)
      | data => data }

/-- `series.n_chunks()`. -/
def nChunks (series : Series) : Nat :=
  match series.data with
  | .flat _ chunks => chunks.length
  | .list _ chunks _ => chunks.length
  | .array _ _ chunks _ => chunks.length
  | _ => 1

/-- A one-chunk series. -/
def ofCells (name : Str) (type : FlatType) (cells : List (Option type.Cell)) : Series :=
  ⟨name, .flat type [cells]⟩

@[simp] theorem ofCells_len (name : Str) (type : FlatType) (cells : List (Option type.Cell)) :
    (ofCells name type cells).len = cells.length := by
  simp [ofCells, len]

def ofRows (name : Str) (inner : FlatType) (rows : List (List (Option inner.Cell))) : Series :=
  ⟨name, .list inner [ListChunk.ofRows (rows.map some)] (by simp)⟩

@[simp] theorem ofRows_len (name : Str) (inner : FlatType)
    (rows : List (List (Option inner.Cell))) : (ofRows name inner rows).len = rows.length := by
  simp [ofRows, len, ListChunk.len, ListChunk.ofRows]

end Series

/-- A frame: columns of one height under different names. -/
structure DataFrame where
  columns : List Series
  height : Nat
  heights : ∀ column ∈ columns, column.len = height
  names : (columns.map Series.name).Nodup

namespace DataFrame

/-- `DataFrame::new(height, columns)`. Polars reports both failures with its own text. -/
def new (height : Nat) (columns : List Series) : Except String DataFrame :=
  if h : ∀ column ∈ columns, column.len = height then
    if hn : (columns.map Series.name).Nodup then .ok ⟨columns, height, h, hn⟩
    else .error "column names must be unique"
  else .error "columns must have the same height"

def newInferHeight (columns : List Series) : Except String DataFrame :=
  new ((columns.map Series.len).headD 0) columns

def hstack (frame : DataFrame) (columns : List Series) : Except String DataFrame :=
  new frame.height (frame.columns ++ columns)

def width (frame : DataFrame) : Nat := frame.columns.length

end DataFrame
end Xqdb
