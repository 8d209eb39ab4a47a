import Xqdb.DecodeLists
import Xqdb.LengthExact
import Xqdb.QValue.Unambiguous

/-! Typed lists of fixed width through the native decoder and back through the encoder.
Each number type is one row of a table: its wire type, its column type and what one
element becomes. -/

namespace Xqdb

open LittleEndian (encode)
open WireNumber (toLe fromLe)

/-! ## Lists of wire numbers -/

section Numbers

variable {α : Type} [WireNumber α]

@[simp] theorem writeWireNumbers_nil : writeWireNumbers ([] : List α) = [] := rfl

@[simp] theorem writeWireNumbers_cons (value : α) (values : List α) :
    writeWireNumbers (value :: values) = toLe value ++ writeWireNumbers values := by
  simp [writeWireNumbers]

theorem chunksExact_write (values : List α) :
    chunksExact (WireNumber.width α) values.length (writeWireNumbers values) = values.map toLe := by
  induction values with
  | nil => rfl
  | cons value values ih =>
    have hlen := WireNumber.toLe_length value
    rw [List.length_cons, chunksExact, writeWireNumbers_cons, ← hlen, List.take_left, List.drop_left,
      hlen, ih]
    rfl

theorem decodeWireNumbers_write (values : List α) (context : String) :
    decodeWireNumbers α (writeWireNumbers values) context = .ok values := by
  have hpos := WireNumber.width_pos (α := α)
  have hback : (values.map toLe).map fromLe = values := by
    rw [List.map_map]
    conv_rhs => rw [← List.map_id values]
    exact List.map_congr_left fun value _ => WireNumber.fromLe_toLe value
  rw [decodeWireNumbers, writeWireNumbers_length, if_neg (by simp), Nat.mul_div_cancel _ hpos,
    chunksExact_write, hback]

/-- A payload of whole elements is a list of numbers. -/
theorem exists_numbers (α : Type) [WireNumber α] {count : Nat} {payload : Bytes}
    (h : payload.length = count * WireNumber.width α) :
    ∃ values : List α, values.length = count ∧ payload = writeWireNumbers values := by
  induction count generalizing payload with
  | zero =>
    obtain rfl := List.length_eq_zero_iff.mp (h.trans (Nat.zero_mul _))
    exact ⟨[], rfl, rfl⟩
  | succ count ih =>
    rw [Nat.add_one_mul] at h
    obtain ⟨values, rfl, hrest⟩ := @ih (payload.drop (WireNumber.width α)) (by simp; omega)
    refine ⟨fromLe (payload.take (WireNumber.width α)) :: values, rfl, ?_⟩
    rw [writeWireNumbers_cons, ← hrest, WireNumber.toLe_fromLe _ (by simp; omega),
      List.take_append_drop]

end Numbers

theorem tryCollect_eq_ok {α β : Type} {convert : α → Exec β} {items : List α} {results : List β} :
    tryCollect convert items = .ok results ↔
      List.Forall₂ (fun item result => convert item = .ok result) items results := by
  induction items generalizing results with
  | nil =>
    simp only [tryCollect, Except.ok.injEq, List.forall₂_nil_left_iff]
    exact eq_comm
  | cons item items ih =>
    simp only [tryCollect, Exec.bind_eq_ok, Except.ok.injEq, List.forall₂_cons_left_iff, ih]
    constructor
    · rintro ⟨result, hresult, results, hresults, rfl⟩
      exact ⟨result, results, hresult, hresults, rfl⟩
    · rintro ⟨result, results, hresult, hresults, rfl⟩
      exact ⟨result, hresult, results, hresults, rfl⟩

theorem tryCollect_length {α β : Type} {convert : α → Exec β} {items : List α} {results : List β}
    (h : tryCollect convert items = .ok results) : results.length = items.length :=
  (tryCollect_eq_ok.mp h).length_eq.symm

/-! ## A typed list where the decoder stands -/

/-- What the decoder makes of a list of one fixed-width type. -/
def typedList (categories : CategoricalMapping) (kType : UInt8) (count : Nat) (payload : Bytes) :
    Exec K :=
  if kType = 10 then .ok (.CharVector payload)
  else if count = 0 then newEmptySeries categories kType
  else decodeFixedList kType payload

section Lists

variable {categories : CategoricalMapping} {encoding : SymbolEncoding}

theorem deserializeSeries_typed {kType attr : UInt8} {count : Nat} {payload : Bytes}
    (hkind : kType ≤ 19) (hzero : kType ≠ 0) (heleven : kType ≠ 11) (hcount : count ≤ i32Max)
    (hlen : payload.length = count * typeSize kType)
    (hsize : (attr :: (encode 4 count ++ payload)).length ≤ usizeMax) :
    deserializeSeries categories (attr :: (encode 4 count ++ payload)) kType (kType != 10) encoding =
      typedList categories kType count payload := by
  rw [deserializeSeries, if_neg (by simpa using hkind), header_at hcount hsize, Exec.ok_bind]
  simp only
  by_cases hnone : count = 0
  · subst hnone
    obtain rfl := List.length_eq_zero_iff.mp (hlen.trans (Nat.zero_mul _))
    rw [if_pos rfl, if_neg (by simp), typedList]
    by_cases hten : kType = 10
    · rw [if_pos ⟨hten, by simp [hten]⟩, if_pos hten]
    · rw [if_neg (fun h => hten h.1), if_neg hten, if_pos rfl]
  · have hmul : checkedMul count (typeSize kType) = some (count * typeSize kType) :=
      checkedMul_eq_some.mpr ⟨rfl, by simp at hsize; omega⟩
    rw [if_neg hnone, payload_at, Exec.okOr_some, Exec.ok_bind, checkPayloadLength,
      if_neg (by simp [hzero, heleven]), hmul, Exec.okOr_some, Exec.ok_bind, if_neg (by simpa using hlen),
      Exec.ok_bind, decodeList, if_neg hzero, typedList]
    by_cases hten : kType = 10
    · rw [if_pos hten, if_pos hten, if_neg (by simp [hten])]
    · rw [if_neg hten, if_neg heleven, if_neg hten, if_neg hnone]

variable {decode : Bytes → Nat → Bool → Nat → Exec (K × Nat)} {vec rest : Bytes} {pos : Nat}

/-- **Typed lists.** The decoder accepts a header, whatever its attribute is, and as many
elements as it counts, if the elements themselves are accepted. -/
theorem deserializeList_typed (h : At vec pos rest) {kType : UInt8} (hkind : kType ≤ 19)
    (hzero : kType ≠ 0) (heleven : kType ≠ 11) {isColumn : Bool} {depth : Nat} {k : K} {stop : Nat} :
    deserializeList categories encoding decode vec pos kType isColumn depth = .ok (k, stop) ↔
      0 < typeSize kType ∧ ∃ attr count payload rest', count ≤ i32Max ∧
        payload.length = count * typeSize kType ∧
        rest = attr :: (encode 4 count ++ (payload ++ rest')) ∧ stop = pos + 5 + payload.length ∧
        typedList categories kType count payload = .ok k := by
  have hnotBoth : ¬ (kType = 0 ∨ kType = 11) := by simp [hzero, heleven]
  have hi32 : i32Max = 2 ^ 31 - 1 := rfl
  have hone : 1 ≤ kType := by
    rw [UInt8.le_iff_toNat_le]
    exact Nat.one_le_iff_ne_zero.mpr fun hc => hzero (UInt8.toNat_inj.mp hc)
  unfold deserializeList
  cases hend : calculateArrayEndIndex vec pos kType with
  | ok stop' =>
    simp only [deserializeSlice, Exec.bind_eq_ok]
    rw [endIndex_fixed h hnotBoth] at hend
    obtain ⟨⟨-, -, hwidth⟩, attr, count, payload, rest', hcount, hlen, rfl, rfl⟩ := hend
    have hat : At vec pos ((attr :: (encode 4 count ++ payload)) ++ rest') := by simpa using h
    have hsize := hat.length_eq
    have hbound := hat.bounded
    have hslice : sliceRange vec pos (pos + 5 + payload.length) =
        .ok (attr :: (encode 4 count ++ payload)) :=
      (sliceRange_at hat).mpr ⟨rest', rfl, by simp; omega⟩
    have hseries := @deserializeSeries_typed categories encoding kType attr count payload hkind hzero
      heleven hcount hlen (by simp at hsize ⊢; omega)
    rw [hslice]
    constructor
    · rintro ⟨bytes, hbytes, value, hvalue, hok⟩
      cases hbytes
      cases hok
      exact ⟨hwidth, attr, count, payload, rest', hcount, hlen, rfl, rfl, hseries ▸ hvalue⟩
    · rintro ⟨-, attr', count', payload', rest'', hcount', hlen', heq, rfl, hvalue⟩
      obtain ⟨rfl, hrest⟩ := List.cons.inj heq
      have hbounds : count < 256 ^ 4 ∧ count' < 256 ^ 4 := by constructor <;> omega
      obtain ⟨rfl, hpayload⟩ := QValue.count_append_inj hbounds.1 hbounds.2 hrest
      obtain ⟨rfl, rfl⟩ := List.append_inj hpayload (hlen.trans hlen'.symm)
      exact ⟨_, rfl, k, hseries.trans hvalue, rfl⟩
  | error e =>
    have hnone : ¬ (isColumn = false ∧ kType = 0) := fun hc => hzero hc.2
    constructor
    · intro hok
      cases e with
      | error e =>
        simp only [if_neg hnone] at hok
        cases hok
      | panic => cases hok
    · rintro ⟨hwidth, attr, count, payload, rest', hcount, hlen, rfl, rfl, -⟩
      have hok := (endIndex_fixed h hnotBoth).mpr
        ⟨⟨hone, hkind, hwidth⟩, attr, count, payload, rest', hcount, hlen, rfl, rfl⟩
      rw [hend] at hok
      cases hok

/-- A typed list that is the whole body. -/
theorem deserialize_typed {kType : UInt8} (hkind : kType ≤ 19) (hzero : kType ≠ 0)
    (heleven : kType ≠ 11) {rest : Bytes} (hsize : (kType :: rest).length ≤ usizeMax) {k : K} :
    deserialize categories encoding (kType :: rest) = .ok k ↔
      0 < typeSize kType ∧ ∃ attr count payload, count ≤ i32Max ∧
        payload.length = count * typeSize kType ∧ rest = attr :: (encode 4 count ++ payload) ∧
        typedList categories kType count payload = .ok k := by
  have hat : At (kType :: rest) 0 (kType :: rest) := At.start hsize
  have hbody : deserializeUnchecked categories encoding deserializeFuel (kType :: rest) 0 false 0 =
      deserializeList categories encoding (deserializeUnchecked categories encoding (maxValueDepth + 1))
        (kType :: rest) 1 kType false 0 := by
    have hlow : ¬ 237 ≤ kType := by
      rw [UInt8.le_iff_toNat_le] at hkind ⊢
      simp only [UInt8.reduceToNat] at hkind ⊢
      omega
    rw [deserializeFuel, deserializeUnchecked, if_neg (by decide), hat.getElem?, Exec.okOr_some,
      Exec.ok_bind, deserializeBody, if_neg hlow, if_pos hkind]
  rw [deserialize_eq_ok, hbody, deserializeList_typed hat.skip_one hkind hzero heleven]
  refine and_congr_right fun _ => ?_
  constructor
  · rintro ⟨attr, count, payload, rest', hcount, hlen, rfl, hend, hvalue⟩
    have hrest : rest' = [] := by
      simp only [List.length_cons, List.length_append, LittleEndian.encode_length] at hend
      exact List.length_eq_zero_iff.mp (by omega)
    subst hrest
    exact ⟨attr, count, payload, hcount, hlen, by simp, hvalue⟩
  · rintro ⟨attr, count, payload, hcount, hlen, rfl, hvalue⟩
    refine ⟨attr, count, payload, [], hcount, hlen, by simp, ?_, hvalue⟩
    simp
    omega

end Lists

/-! ## Number lists -/

/-- A list type whose elements are numbers, and what becomes of one element in a column. -/
structure NumberList where
  kType : UInt8
  Element : Type
  [wire : WireNumber Element]
  column : FlatType
  decodeCell : Element → Exec (Option column.Cell)

attribute [instance] NumberList.wire

namespace NumberList

@[reducible] def short : NumberList where
  kType := 5
  Element := Int16
  column := .int16
  decodeCell v := .ok (if -2 ^ 15 + 1 < v.toInt && v.toInt < 2 ^ 15 - 1 then some v else none)

@[reducible] def int : NumberList where
  kType := 6
  Element := Int32
  column := .int32
  decodeCell v := .ok (if -2 ^ 31 + 1 < v.toInt && v.toInt < 2 ^ 31 - 1 then some v else none)

@[reducible] def long : NumberList where
  kType := 7
  Element := Int64
  column := .int64
  decodeCell v := .ok (if -2 ^ 63 + 1 < v.toInt && v.toInt < 2 ^ 63 - 1 then some v else none)

@[reducible] def real : NumberList where
  kType := 8
  Element := UInt32
  column := .float32
  decodeCell v := .ok (if !f32IsNan v then some v else none)

@[reducible] def float : NumberList where
  kType := 9
  Element := UInt64
  column := .float64
  decodeCell v := .ok (if !f64IsNan v then some v else none)

@[reducible] def timestamp : NumberList where
  kType := 12
  Element := Int64
  column := .datetime .nanoseconds
  decodeCell v := do
    let value ← timestampValue v
    .ok (if value != i64Min then some value else none)

@[reducible] def date : NumberList where
  kType := 14
  Element := Int32
  column := .date
  decodeCell v := do
    let value ← dateValue v
    .ok (if value != i32Min then some value else none)

@[reducible] def datetime : NumberList where
  kType := 15
  Element := UInt64
  column := .datetime .nanoseconds
  decodeCell v := do
    let value ← datetimeValue v
    .ok (if value != i64Min then some value else none)

@[reducible] def timespan : NumberList where
  kType := 16
  Element := Int64
  column := .duration .nanoseconds
  decodeCell v := .ok (if v != i64Min then some v else none)

/-- The three lists of times of day differ in their unit. -/
@[reducible] def clock (kType : UInt8) (multiplier : Int) : NumberList where
  kType := kType
  Element := Int32
  column := .time
  decodeCell v := do
    let value ← timeValue multiplier v
    .ok (if v = i32Min then none else some value)

@[reducible] def minute : NumberList := clock 17 60000000000

@[reducible] def second : NumberList := clock 18 1000000000

@[reducible] def time : NumberList := clock 19 1000000

/-- The number lists of the decoder. -/
inductive Supported : NumberList → Prop
  | short : Supported short
  | int : Supported int
  | long : Supported long
  | real : Supported real
  | float : Supported float
  | timestamp : Supported timestamp
  | date : Supported date
  | datetime : Supported datetime
  | timespan : Supported timespan
  | minute : Supported minute
  | second : Supported second
  | time : Supported time

/-- The column the decoder builds. -/
def series (list : NumberList) (cells : List (Option list.column.Cell)) : K :=
  .Series (.ofCells (typeName list.kType) list.column cells)

end NumberList

theorem tryCollect_pure {α β : Type} (f : α → β) (items : List α) :
    tryCollect (fun item => .ok (f item)) items = .ok (items.map f) := by
  induction items with
  | nil => rfl
  | cons item items ih => rw [tryCollect, ih, Exec.ok_bind, Exec.ok_bind, List.map_cons]

/-- Converting first and finishing afterwards is converting and finishing one by one. -/
theorem tryCollect_finish {α β γ : Type} (convert : α → Exec β) (finish : α → β → γ) (items : List α) :
    tryCollect (fun item => do
        let value ← convert item
        .ok (finish item value)) items =
      (do
        let values ← tryCollect convert items
        .ok (List.zipWith finish items values)) := by
  induction items with
  | nil => rfl
  | cons item items ih =>
    rw [tryCollect, tryCollect, ih]
    cases convert item with
    | error e => rfl
    | ok value =>
      simp only [Exec.ok_bind]
      cases tryCollect convert items with
      | error e => rfl
      | ok values => rfl

theorem tryCollect_map {α β γ : Type} (convert : α → Exec β) (finish : β → γ) (items : List α) :
    tryCollect (fun item => do
        let value ← convert item
        .ok (finish value)) items =
      (do
        let values ← tryCollect convert items
        .ok (values.map finish)) := by
  induction items with
  | nil => rfl
  | cons item items ih =>
    rw [tryCollect, tryCollect, ih]
    cases convert item with
    | error e => rfl
    | ok value =>
      simp only [Exec.ok_bind]
      cases tryCollect convert items with
      | error e => rfl
      | ok values => rfl

namespace NumberList

variable {list : NumberList}

theorem Supported.bounds (h : list.Supported) :
    list.kType ≤ 19 ∧ list.kType ≠ 0 ∧ list.kType ≠ 11 ∧ list.kType ≠ 10 := by
  cases h <;> decide

theorem Supported.width (h : list.Supported) :
    typeSize list.kType = WireNumber.width list.Element := by
  cases h <;> rfl

theorem Supported.size_le (h : list.Supported) : 0 < typeSize list.kType ∧ typeSize list.kType ≤ 8 := by
  cases h <;> decide

theorem Supported.empty (h : list.Supported) (categories : CategoricalMapping) :
    newEmptySeries categories list.kType = .ok (list.series []) := by
  cases h <;> rfl

theorem decodeFixedList_clock {kType : UInt8} {multiplier : Int} (values : List Int32) :
    decodeFixedList.decodeTimes (typeName kType) multiplier (writeWireNumbers values) =
      (do
        let cells ← tryCollect (clock kType multiplier).decodeCell values
        .ok ((clock kType multiplier).series cells)) := by
  rw [decodeFixedList.decodeTimes, decodeWireNumbers_write, Exec.ok_bind]
  simp only [clock]
  rw [tryCollect_finish]
  cases tryCollect (timeValue multiplier) values with
  | error e => rfl
  | ok nanoseconds => rfl

/-- Elements that are all accepted. -/
theorem cells_pure {f : list.Element → Option list.column.Cell}
    (hpure : list.decodeCell = fun value => .ok (f value)) (values : List list.Element) :
    (do
      let cells ← tryCollect list.decodeCell values
      .ok (list.series cells)) = .ok (list.series (values.map f)) := by
  rw [hpure, tryCollect_pure, Exec.ok_bind]

/-- Elements that are converted, with one value that stands for the null. -/
theorem cells_converted {convert : list.Element → Exec list.column.Cell}
    {valid : list.column.Cell → Bool}
    (hconvert : list.decodeCell = fun value => do
      let converted ← convert value
      .ok (if valid converted then some converted else none)) (values : List list.Element) :
    (do
      let cells ← tryCollect list.decodeCell values
      .ok (list.series cells)) =
    (do
      let converted ← tryCollect convert values
      .ok (list.series (withValidity valid converted))) := by
  rw [hconvert, tryCollect_map convert fun converted => if valid converted then some converted else none]
  cases tryCollect convert values with
  | error e => rfl
  | ok converted => rfl

/-- The decoder goes through a list element by element. -/
theorem Supported.decode (h : list.Supported) (values : List list.Element) :
    decodeFixedList list.kType (writeWireNumbers values) =
      (do
        let cells ← tryCollect list.decodeCell values
        .ok (list.series cells)) := by
  cases h with
  | short =>
    rw [cells_pure rfl]
    change (decodeWireNumbers Int16 (writeWireNumbers values) _ >>= _) = _
    rw [decodeWireNumbers_write]
    rfl
  | int =>
    rw [cells_pure rfl]
    change (decodeWireNumbers Int32 (writeWireNumbers values) _ >>= _) = _
    rw [decodeWireNumbers_write]
    rfl
  | long =>
    rw [cells_pure rfl]
    change (decodeWireNumbers Int64 (writeWireNumbers values) _ >>= _) = _
    rw [decodeWireNumbers_write]
    rfl
  | real =>
    rw [cells_pure rfl]
    change (decodeWireNumbers UInt32 (writeWireNumbers values) _ >>= _) = _
    rw [decodeWireNumbers_write]
    rfl
  | float =>
    rw [cells_pure rfl]
    change (decodeWireNumbers UInt64 (writeWireNumbers values) _ >>= _) = _
    rw [decodeWireNumbers_write]
    rfl
  | timestamp =>
    rw [cells_converted rfl]
    change (decodeWireNumbers Int64 (writeWireNumbers values) _ >>= _) = _
    rw [decodeWireNumbers_write]
    rfl
  | date =>
    rw [cells_converted rfl]
    change (decodeWireNumbers Int32 (writeWireNumbers values) _ >>= _) = _
    rw [decodeWireNumbers_write]
    rfl
  | datetime =>
    rw [cells_converted rfl]
    change (decodeWireNumbers UInt64 (writeWireNumbers values) _ >>= _) = _
    rw [decodeWireNumbers_write]
    rfl
  | timespan =>
    rw [cells_pure rfl]
    change (decodeWireNumbers Int64 (writeWireNumbers values) _ >>= _) = _
    rw [decodeWireNumbers_write]
    rfl
  | minute => exact decodeFixedList_clock values
  | second => exact decodeFixedList_clock values
  | time => exact decodeFixedList_clock values

/-- A number list of any length, the empty one with its type's column too. -/
theorem Supported.typedList (h : list.Supported) (categories : CategoricalMapping)
    (values : List list.Element) :
    typedList categories list.kType values.length (writeWireNumbers values) =
      (do
        let cells ← tryCollect list.decodeCell values
        .ok (list.series cells)) := by
  rw [Xqdb.typedList, if_neg h.bounds.2.2.2]
  split
  · next hnone =>
    obtain rfl := List.length_eq_zero_iff.mp hnone
    exact h.empty categories
  · exact h.decode values

end NumberList

def f32IsFinite (bits : UInt32) : Bool := bits.toNat % 2 ^ 31 < 0x7F800000

/-- Neither the null of its type nor one of its infinities. -/
def IsFinite (kType : UInt8) (element : Bytes) : Prop :=
  match kType.toNat with
  | 5 => -2 ^ 15 + 1 < (fromLe element : Int16).toInt ∧ (fromLe element : Int16).toInt < 2 ^ 15 - 1
  | 6 | 14 | 17 | 18 | 19 =>
    -2 ^ 31 + 1 < (fromLe element : Int32).toInt ∧ (fromLe element : Int32).toInt < 2 ^ 31 - 1
  | 7 | 12 | 16 =>
    -2 ^ 63 + 1 < (fromLe element : Int64).toInt ∧ (fromLe element : Int64).toInt < 2 ^ 63 - 1
  | 8 => f32IsFinite (fromLe element)
  | 9 | 15 => f64IsFinite (fromLe element)
  | _ => True

/-! ## Columns of fixed width -/

/-- What the length pass asks of one value of a column. -/
def checkCell (type : FlatType) (value : type.Cell) : Exec Unit :=
  match type, value with
  | .datetime .milliseconds, _ => .ok ()
  | .datetime unit, value => checkTimestamp unit value
  | .date, days => checkDate days
  | .duration unit, value => checkDuration unit value
  | .time, value => checkTime value
  | .binary, value => validateGuidSeries [[some value]]
  | _, _ => .ok ()

section Columns

variable {type : FlatType} {cells : List (Option type.Cell)} {width : Nat}

theorem presentCells_single {α : Type} {cells : List (Option α)} {value : α} :
    value ∈ presentCells [cells] ↔ some value ∈ cells := by
  rw [mem_presentCells, List.flatten_cons, List.flatten_nil, List.append_nil]

theorem validateGuidSeries_cells {cells : List (Option Bytes)}
    (h : ∀ value, some value ∈ cells → validateGuidSeries [[some value]] = .ok ()) :
    validateGuidSeries [cells] = .ok () := by
  rw [validateGuidSeries_eq_ok]
  intro value hvalue
  have hsingle := validateGuidSeries_eq_ok.mp (h value (presentCells_single.mp hvalue))
  exact hsingle value (presentCells_single.mpr (List.mem_singleton.mpr rfl))

/-- The length pass goes through a column value by value. -/
theorem getFlatLen_checked (hwidth : flatWidth type = some width) (hcount : cells.length ≤ i32Max)
    (hcheck : ∀ value, some value ∈ cells → checkCell type value = .ok ()) :
    getFlatLen cells.length type [cells] = .ok (cells.length * width + 6) := by
  have hi32 : i32Max = 2 ^ 31 - 1 := rfl
  have husize : usizeMax = 2 ^ 64 - 1 := rfl
  have hsmall : width ≤ 16 := by
    cases type <;> cases hwidth <;> decide
  have hsize : checkedSeriesSize cells.length width = .ok (cells.length * width + 6) := by
    have hmul : cells.length * width ≤ i32Max * 16 := Nat.mul_le_mul hcount hsmall
    exact checkedSeriesSize_eq_ok.mpr ⟨hcount, rfl, by omega⟩
  have heach : ∀ check : type.Cell → Exec Unit, check = checkCell type →
      forEach check (presentCells [cells]) = .ok () := by
    rintro check rfl
    exact forEach_eq_ok.mpr fun value hvalue => hcheck value (presentCells_single.mp hvalue)
  cases type with
  | boolean | uint8 | int16 | int32 | int64 | float32 | float64 =>
    cases hwidth
    exact hsize
  | date =>
    cases hwidth
    rw [getFlatLen, heach checkDate rfl, Exec.ok_bind, hsize]
  | datetime unit =>
    cases hwidth
    cases unit with
    | milliseconds => exact hsize
    | nanoseconds =>
      rw [getFlatLen, heach (checkTimestamp .nanoseconds) rfl, Exec.ok_bind, hsize]
      simp
    | microseconds =>
      rw [getFlatLen, heach (checkTimestamp .microseconds) rfl, Exec.ok_bind, hsize]
      simp
  | duration unit =>
    cases hwidth
    rw [getFlatLen, heach (checkDuration unit) rfl, Exec.ok_bind, hsize]
  | time =>
    cases hwidth
    rw [getFlatLen, validateQTimeSeries, heach checkTime rfl, Exec.ok_bind, hsize]
  | binary =>
    cases hwidth
    rw [getFlatLen, validateGuidSeries_cells hcheck, Exec.ok_bind, hsize]
  | string => cases hwidth
  | categorical mapping => cases hwidth

theorem validateCells_checked (hcheck : ∀ value, some value ∈ cells → checkCell type value = .ok ()) :
    validateCells type cells = .ok () := by
  cases type with
  | time =>
    exact forEach_eq_ok.mpr fun value hvalue => hcheck value (presentCells_single.mp hvalue)
  | binary => exact validateGuidSeries_cells hcheck
  | _ => rfl

/-- **A column of fixed width is sent** when its values pass the checks: the header and the
values one after the other. -/
theorem serialize_cells {name : Str} {payload : Bytes} (hwidth : flatWidth type = some width)
    (hcount : cells.length ≤ i32Max)
    (hcheck : ∀ value, some value ∈ cells → checkCell type value = .ok ())
    (hpayload : writeEach (writeCell type) cells = .ok payload) :
    (K.Series (.ofCells name type cells)).serialize =
      .ok (seriesHeader (flatKType type) cells.length ++ payload) := by
  have hi32 : i32Max = 2 ^ 31 - 1 := rfl
  have hisize : isizeMax = 2 ^ 63 - 1 := rfl
  have hsmall : width ≤ 16 := by
    cases type <;> cases hwidth <;> decide
  have hmul : cells.length * width ≤ i32Max * 16 := Nat.mul_le_mul hcount hsmall
  have hflat : [cells].flatten = cells := by simp
  have hleaf : (K.Series (.ofCells name type cells)).IsLeaf := trivial
  rw [K.serialize_eq_ok]
  constructor
  · refine ⟨cells.length * width + 6, ?_, by omega⟩
    rw [K.j6Len, K.j6LenWithDepth_leaf hleaf, if_neg (by decide), K.leafLen, getSeriesLen]
    simp only [Series.ofCells_len]
    exact getFlatLen_checked hwidth hcount hcheck
  · rw [K.appended_leaf hleaf, K.appendedLeaf, Series.ofCells,
      serializeSeriesInto_flat (by simpa using hcount), hflat, serializeFlat, validateCells_checked hcheck, Exec.ok_bind, writeCells_fixed hwidth, hpayload,
      Exec.ok_bind]

end Columns

end Xqdb
