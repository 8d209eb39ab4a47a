import Xqdb.NormalForm
import Xqdb.WireNative

/-! Dates, times, timestamps and durations on their way out. q keeps the ends of each integer
type for its null and its infinities; the encoder has to refuse the values that would land on
them. It does for timestamps only. -/

namespace Xqdb

open LittleEndian (encode)
open WireNumber (toLe fromLe)

/-! ## Columns -/

/-- A temporal column type: the list it is sent as, what the receiver should see of a value,
and the values that the encoder treats well. -/
structure TemporalColumn where
  type : FlatType
  list : NumberList
  same : type.Cell → list.column.Cell
  Regular : type.Cell → Prop

namespace TemporalColumn

@[reducible] def datetime (unit : TimeUnit) : TemporalColumn where
  type := .datetime unit
  list := .timestamp
  same value := Int64.ofInt (value.toInt * timeUnitNanos unit)
  Regular _ := True

@[reducible] def date : TemporalColumn where
  type := .date
  list := .date
  same days := days
  Regular days := days.toInt ≠ -2 ^ 31 + 10957 ∧ days.toInt ≠ -2 ^ 31 + 10958

@[reducible] def duration (unit : TimeUnit) : TemporalColumn where
  type := .duration unit
  list := .timespan
  same value := Int64.ofInt (value.toInt * timeUnitNanos unit)
  Regular value := unit = .nanoseconds →
    value.toInt ≠ -2 ^ 63 ∧ value.toInt ≠ -2 ^ 63 + 1 ∧ value.toInt ≠ 2 ^ 63 - 1

@[reducible] def time : TemporalColumn where
  type := .time
  list := .time
  same nanoseconds := nanoseconds
  Regular _ := True

/-- The temporal columns that are sent as q integers. -/
inductive Supported : TemporalColumn → Prop
  | nanoseconds : Supported (datetime .nanoseconds)
  | microseconds : Supported (datetime .microseconds)
  | date : Supported date
  | duration (unit : TimeUnit) : Supported (duration unit)
  | time : Supported time

/-- No value of the column was sent as a null or an infinity, and each one comes back. -/
def Kept (column : TemporalColumn) (categories : CategoricalMapping) (encoding : SymbolEncoding)
    (cells : List (Option column.type.Cell)) (bytes : Bytes) : Prop :=
  (∀ (i : Nat) (value : column.type.Cell), cells[i]? = some (some value) →
    ∃ element, (chunksExact (typeSize column.list.kType) cells.length (bytes.drop 6))[i]? = some element ∧
      IsFinite column.list.kType element) ∧
  ∃ received, deserialize categories encoding bytes = .ok (column.list.series received) ∧
    ∀ (i : Nat) (value : column.type.Cell), cells[i]? = some (some value) → received[i]? = some (some (column.same value))

/-- One cell through the encoder and the decoder. -/
structure Sends (column : TemporalColumn) : Prop where
  supported : column.list.Supported
  kType : flatKType column.type = column.list.kType
  width : ∃ width, flatWidth column.type = some width
  null : ∃ element, writeCell column.type none = .ok (toLe element) ∧
    ∃ cell, column.list.decodeCell element = .ok cell
  value : ∀ value octets, checkCell column.type value = .ok () →
    writeCell column.type (some value) = .ok octets →
    ∃ element cell, octets = toLe element ∧ column.list.decodeCell element = .ok cell ∧
      (IsFinite column.list.kType octets ∧ cell = some (column.same value) ↔ column.Regular value)

theorem sends_datetime {unit : TimeUnit} (hunit : unit ≠ .milliseconds) : Sends (datetime unit) := by
  have hmin : i64Min.toInt = -2 ^ 63 := rfl
  have hdiff : nanosDiff = 946684800000000000 := rfl
  have hkind : flatKType (.datetime unit) = 12 := by
    cases unit with
    | milliseconds => exact absurd rfl hunit
    | nanoseconds => rfl
    | microseconds => rfl
  have hnull : writeCell (.datetime unit) none = .ok (toLe i64Min) := by
    cases unit with
    | milliseconds => exact absurd rfl hunit
    | nanoseconds => rfl
    | microseconds => rfl
  have hwrite : ∀ value : Int64, writeCell (.datetime unit) (some value) = (do
      let unixNanoseconds ← Exec.okOr (checkedI64 (value.toInt * timeUnitNanos unit)) timestampRange
      let nanoseconds ← qTimestampNanoseconds unixNanoseconds
      .ok (toLe nanoseconds)) := by
    intro value
    cases unit with
    | milliseconds => exact absurd rfl hunit
    | nanoseconds => rfl
    | microseconds => rfl
  refine ⟨.timestamp, hkind, ⟨8, rfl⟩, ⟨i64Min, hnull, none, rfl⟩, ?_⟩
  intro value octets _ hoctets
  rw [hwrite] at hoctets
  simp only [Exec.bind_eq_ok, Exec.okOr_eq_ok, qTimestampNanoseconds, Option.bind_eq_some_iff,
    checkedI64_eq_some, Except.ok.injEq] at hoctets
  obtain ⟨unix, hunix, element, ⟨_, hq, hfinite⟩, rfl⟩ := hoctets
  unfold finiteTimestamp at hfinite
  split at hfinite
  · next hrange =>
    cases hfinite
    have hpresent : (unix != i64Min) = true := by
      rw [bne_iff_ne]
      rintro rfl
      omega
    have hback : timestampValue element = .ok unix := by
      refine timestampValue_eq_ok.mpr (.inr ⟨?_, if_pos hrange, by omega⟩)
      rintro rfl
      omega
    refine ⟨element, some unix, rfl, ?_, ?_⟩
    · simp only [hback, Exec.ok_bind, if_pos hpresent]
    · refine iff_of_true ⟨?_, ?_⟩ trivial
      · simpa [IsFinite, WireNumber.fromLe_toLe] using hrange
      · simp only [← hunix, Int64.ofInt_toInt]
  · cases hfinite

theorem sends_date : Sends date := by
  have hmin : i32Min.toInt = -2 ^ 31 := rfl
  refine ⟨.date, rfl, ⟨4, rfl⟩, ⟨i32Min, rfl, none, rfl⟩, ?_⟩
  intro days octets _ hoctets
  simp only [writeCell, Exec.bind_eq_ok, Exec.okOr_eq_ok, checkedI32_eq_some, Except.ok.injEq] at hoctets
  obtain ⟨element, helement, rfl⟩ := hoctets
  have hlow := days.le_toInt
  have hhigh := days.toInt_lt
  have hword := element.le_toInt
  by_cases hnull : element = i32Min
  · subst hnull
    refine ⟨i32Min, none, rfl, rfl, iff_of_false ?_ ?_⟩
    · rintro ⟨-, hc⟩
      cases hc
    · intro hregular
      omega
  have hne : element.toInt ≠ -2 ^ 31 := fun hc => hnull (Int32.toInt_inj.mp (hc.trans hmin.symm))
  have hback : checkedI32 (element.toInt + 10957) = some days := checkedI32_eq_some.mpr (by omega)
  have hpresent : (days != i32Min) = true := by
    rw [bne_iff_ne]
    rintro rfl
    omega
  refine ⟨element, some days, rfl, ?_, ?_⟩
  · simp only [dateValue, if_neg hnull, hback, Exec.okOr_some, Exec.ok_bind, if_pos hpresent]
  · have hfinite : IsFinite 14 (toLe element) ↔ -2 ^ 31 + 1 < element.toInt ∧ element.toInt < 2 ^ 31 - 1 := by
      simp [IsFinite, WireNumber.fromLe_toLe]
    change IsFinite 14 (toLe element) ∧ some days = some days ↔ _
    rw [hfinite]
    constructor
    · rintro ⟨hrange, -⟩
      constructor <;> omega
    · rintro ⟨hfirst, hsecond⟩
      exact ⟨⟨by omega, by omega⟩, rfl⟩

theorem sends_duration (unit : TimeUnit) : Sends (duration unit) := by
  have hmin : i64Min.toInt = -2 ^ 63 := rfl
  refine ⟨.timespan, rfl, ⟨8, rfl⟩, ⟨i64Min, rfl, none, rfl⟩, ?_⟩
  intro value octets _ hoctets
  simp only [writeCell, Exec.bind_eq_ok, Exec.okOr_eq_ok, checkedI64_eq_some, Except.ok.injEq] at hoctets
  obtain ⟨element, helement, rfl⟩ := hoctets
  have hends : (element.toInt ≠ -2 ^ 63 ∧ element.toInt ≠ -2 ^ 63 + 1 ∧ element.toInt ≠ 2 ^ 63 - 1) ↔
      (duration unit).Regular value := by
    -- neither end of the range is a multiple of a thousand
    cases unit with
    | nanoseconds =>
      simp only [timeUnitNanos] at helement
      simp only [forall_const]
      omega
    | microseconds =>
      simp only [timeUnitNanos] at helement
      simp only [reduceCtorEq, false_implies, iff_true]
      omega
    | milliseconds =>
      simp only [timeUnitNanos] at helement
      simp only [reduceCtorEq, false_implies, iff_true]
      omega
  have hlow := element.le_toInt
  have hhigh := element.toInt_lt
  by_cases hnull : element = i64Min
  · subst hnull
    refine ⟨i64Min, none, rfl, rfl, ?_⟩
    rw [← hends]
    refine iff_of_false ?_ fun hc => hc.1 hmin
    rintro ⟨-, hc⟩
    cases hc
  have hne : element.toInt ≠ -2 ^ 63 := fun hc => hnull (Int64.toInt_inj.mp (hc.trans hmin.symm))
  have hpresent : (element != i64Min) = true := bne_iff_ne.mpr hnull
  have hfinite : IsFinite 16 (toLe element) ↔ -2 ^ 63 + 1 < element.toInt ∧ element.toInt < 2 ^ 63 - 1 := by
    simp [IsFinite, WireNumber.fromLe_toLe]
  refine ⟨element, some element, rfl, ?_, ?_⟩
  · simp only [if_pos hpresent]
  · rw [← hends]
    change IsFinite 16 (toLe element) ∧ some element = some (Int64.ofInt _) ↔ _
    rw [hfinite, ← helement, Int64.ofInt_toInt]
    constructor
    · rintro ⟨hrange, -⟩
      exact ⟨hne, by omega, by omega⟩
    · rintro ⟨-, hsecond, hlast⟩
      exact ⟨⟨by omega, by omega⟩, rfl⟩

theorem sends_time : Sends time := by
  have hmin : i32Min.toInt = -2 ^ 31 := rfl
  have hday : nanosPerDay = 86400000000000 := rfl
  refine ⟨.time, rfl, ⟨4, rfl⟩, ⟨i32Min, rfl, none, rfl⟩, ?_⟩
  intro nanoseconds octets hcheck hoctets
  simp only [writeCell, Exec.bind_eq_ok, Exec.okOr_eq_ok, checkedI32_eq_some, Except.ok.injEq] at hoctets
  obtain ⟨element, helement, rfl⟩ := hoctets
  simp only [checkCell, checkTime] at hcheck
  split at hcheck
  · cases hcheck
  next hwithin =>
  split at hcheck
  · cases hcheck
  next hwhole =>
  rw [not_not] at hwithin hwhole
  rw [Int.tdiv_eq_ediv_of_nonneg hwithin.1] at helement
  have hnull : element ≠ i32Min := by
    rintro rfl
    omega
  have hback : timeValue 1000000 element = .ok nanoseconds := by
    refine (timeValue_eq_ok hnull).mpr ⟨by omega, hwithin.1, by omega⟩
  refine ⟨element, some nanoseconds, rfl, ?_, iff_of_true ⟨?_, rfl⟩ trivial⟩
  · simp only [hback, Exec.ok_bind, if_neg hnull]
  · have hrange : -2 ^ 31 + 1 < element.toInt ∧ element.toInt < 2 ^ 31 - 1 := by
      constructor <;> omega
    simpa [IsFinite, WireNumber.fromLe_toLe] using hrange

theorem sends {column : TemporalColumn} (h : column.Supported) : Sends column := by
  cases h with
  | nanoseconds => exact sends_datetime (by decide)
  | microseconds => exact sends_datetime (by decide)
  | date => exact sends_date
  | duration unit => exact sends_duration unit
  | time => exact sends_time

section Columns

variable {column : TemporalColumn} {cells : List (Option column.type.Cell)} {payload : Bytes}

/-- A value that was sent, with what the receiver makes of it. -/
def Outcome (column : TemporalColumn) (cell : Option column.type.Cell)
    (sent : column.list.Element × Option column.list.column.Cell) : Prop :=
  ∀ value, cell = some value →
    (IsFinite column.list.kType (toLe sent.1) ∧ sent.2 = some (column.same value) ↔ column.Regular value)

theorem cells_sent (h : Sends column)
    (hcheck : ∀ value, some value ∈ cells → checkCell column.type value = .ok ())
    (hwrite : writeEach (writeCell column.type) cells = .ok payload) :
    ∃ sent, List.Forall₂ (Outcome column) cells sent ∧
      payload = writeWireNumbers (sent.map Prod.fst) ∧
      tryCollect column.list.decodeCell (sent.map Prod.fst) = .ok (sent.map Prod.snd) := by
  induction cells generalizing payload with
  | nil =>
    cases hwrite
    exact ⟨[], .nil, rfl, rfl⟩
  | cons cell cells ih =>
    simp only [writeEach, Exec.bind_eq_ok, Except.ok.injEq] at hwrite
    obtain ⟨octets, hoctets, rest, hrest, rfl⟩ := hwrite
    obtain ⟨sent, houtcomes, rfl, hcollect⟩ := ih (fun value hvalue => hcheck value (by simp [hvalue])) hrest
    have hcell : ∃ element received, octets = toLe element ∧
        column.list.decodeCell element = .ok received ∧ Outcome column cell (element, received) := by
      cases cell with
      | none =>
        obtain ⟨element, hnull, received, hreceived⟩ := h.null
        rw [hnull] at hoctets
        cases hoctets
        exact ⟨element, received, rfl, hreceived, fun _ hc => by cases hc⟩
      | some value =>
        obtain ⟨element, received, rfl, hreceived, hiff⟩ :=
          h.value value octets (hcheck value (by simp)) hoctets
        refine ⟨element, received, rfl, hreceived, ?_⟩
        rintro _ ⟨⟩
        exact hiff
    obtain ⟨element, received, rfl, hreceived, houtcome⟩ := hcell
    refine ⟨(element, received) :: sent, .cons houtcome houtcomes, ?_, ?_⟩
    · rw [List.map_cons, writeWireNumbers_cons]
    · simp only [List.map_cons, tryCollect, hreceived, hcollect, Exec.ok_bind]

/-- The length pass has looked at every value. -/
theorem checked_of_getFlatLen (h : column.Supported) {length n : Nat}
    {chunks : List (List (Option column.type.Cell))} (hlen : getFlatLen length column.type chunks = .ok n) :
    ∀ value, some value ∈ chunks.flatten → checkCell column.type value = .ok () := by
  intro value hvalue
  have hmem := mem_presentCells.mpr hvalue
  cases h with
  | nanoseconds =>
    simp only [getFlatLen, Exec.bind_eq_ok] at hlen
    obtain ⟨_, heach, -⟩ := hlen
    exact forEach_eq_ok.mp heach value hmem
  | microseconds =>
    simp only [getFlatLen, Exec.bind_eq_ok] at hlen
    obtain ⟨_, heach, -⟩ := hlen
    exact forEach_eq_ok.mp heach value hmem
  | date =>
    simp only [getFlatLen, Exec.bind_eq_ok] at hlen
    obtain ⟨_, heach, -⟩ := hlen
    exact forEach_eq_ok.mp heach value hmem
  | duration unit =>
    simp only [getFlatLen, Exec.bind_eq_ok] at hlen
    obtain ⟨_, heach, -⟩ := hlen
    exact forEach_eq_ok.mp heach value hmem
  | time =>
    simp only [getFlatLen, validateQTimeSeries, Exec.bind_eq_ok] at hlen
    obtain ⟨_, heach, -⟩ := hlen
    exact forEach_eq_ok.mp heach value hmem

/-- The bytes of a column that was sent. -/
theorem column_bytes (h : column.Supported) {name : Str} {chunks : List (List (Option column.type.Cell))}
    {bytes : Bytes} (hbytes : (K.Series ⟨name, .flat column.type chunks⟩).serialize = .ok bytes) :
    chunks.flatten.length ≤ i32Max ∧
    ∃ sent, List.Forall₂ (Outcome column) chunks.flatten sent ∧
      bytes = column.list.kType :: 0 :: (encode 4 sent.length ++ writeWireNumbers (sent.map Prod.fst)) ∧
      tryCollect column.list.decodeCell (sent.map Prod.fst) = .ok (sent.map Prod.snd) := by
  have hsends := sends h
  have hleaf : (K.Series ⟨name, .flat column.type chunks⟩).IsLeaf := trivial
  obtain ⟨⟨n, hlen, -⟩, happended⟩ := K.serialize_eq_ok.mp hbytes
  rw [K.j6Len, K.j6LenWithDepth_leaf hleaf, if_neg (by decide), K.leafLen, getSeriesLen] at hlen
  rw [K.appended_leaf hleaf, K.appendedLeaf] at happended
  have hseries : Series.len ⟨name, .flat column.type chunks⟩ = chunks.flatten.length := by
    rw [List.length_flatten]
    rfl
  simp only [hseries] at hlen
  obtain ⟨hcount, -⟩ := getFlatLen_exact hlen
  rw [serializeSeriesInto_flat hcount, serializeFlat] at happended
  obtain ⟨width, hwidth⟩ := hsends.width
  simp only [Exec.bind_eq_ok, writeCells_fixed hwidth, Except.ok.injEq] at happended
  obtain ⟨-, -, payload, hpayload, rfl⟩ := happended
  obtain ⟨sent, houtcomes, rfl, hcollect⟩ := cells_sent hsends (checked_of_getFlatLen h hlen) hpayload
  refine ⟨hcount, sent, houtcomes, ?_, hcollect⟩
  rw [seriesHeader, hsends.kType, houtcomes.length_eq]
  rfl

theorem column_decoded {categories : CategoricalMapping} {encoding : SymbolEncoding} (h : column.Supported)
    {sent : List (column.list.Element × Option column.list.column.Cell)} (hcount : sent.length ≤ i32Max)
    (hcollect : tryCollect column.list.decodeCell (sent.map Prod.fst) = .ok (sent.map Prod.snd)) :
    deserialize categories encoding
      (column.list.kType :: 0 :: (encode 4 sent.length ++ writeWireNumbers (sent.map Prod.fst))) =
      .ok (column.list.series (sent.map Prod.snd)) := by
  have hlist := (sends h).supported
  have hi32 : i32Max = 2 ^ 31 - 1 := rfl
  have husize : usizeMax = 2 ^ 64 - 1 := rfl
  have hlength : (writeWireNumbers (sent.map Prod.fst)).length =
      sent.length * WireNumber.width column.list.Element := by
    rw [writeWireNumbers_length, List.length_map]
  have hwidth := hlist.size_le
  have hsize : sent.length * WireNumber.width column.list.Element ≤ i32Max * 8 := by
    rw [← hlist.width]
    exact Nat.mul_le_mul hcount hwidth.2
  have htyped := hlist.typedList categories (sent.map Prod.fst)
  rw [hcollect, Exec.ok_bind, List.length_map] at htyped
  refine (deserialize_typed hlist.bounds.1 hlist.bounds.2.1 hlist.bounds.2.2.1 ?_).mpr
    ⟨hwidth.1, 0, sent.length, _, hcount, ?_, rfl, htyped⟩
  · simp only [List.length_cons, List.length_append, LittleEndian.encode_length, hlength]
    omega
  · rw [hlength, hlist.width]

theorem getElem?_of_forall₂ {α β : Type} {R : α → β → Prop} {xs : List α} {ys : List β}
    (h : List.Forall₂ R xs ys) {i : Nat} {x : α} (hx : xs[i]? = some x) : ∃ y, ys[i]? = some y ∧ R x y := by
  induction h generalizing i with
  | nil => cases hx
  | cons hhead _ ih =>
    cases i with
    | zero =>
      cases hx
      exact ⟨_, rfl, hhead⟩
    | succ i => exact ih hx

/-- A column is kept exactly when all its values are regular. -/
theorem kept_iff {categories : CategoricalMapping} {encoding : SymbolEncoding} (h : column.Supported)
    {name : Str} {chunks : List (List (Option column.type.Cell))} {bytes : Bytes}
    (hbytes : (K.Series ⟨name, .flat column.type chunks⟩).serialize = .ok bytes) :
    column.Kept categories encoding chunks.flatten bytes ↔
      ∀ value, some value ∈ chunks.flatten → column.Regular value := by
  obtain ⟨hcount, sent, houtcomes, rfl, hcollect⟩ := column_bytes h hbytes
  have hlength := houtcomes.length_eq
  rw [hlength] at hcount
  have hdecoded := @column_decoded column categories encoding h sent hcount hcollect
  have hpayload : (column.list.kType :: 0 :: (encode 4 sent.length ++
      writeWireNumbers (sent.map Prod.fst))).drop 6 = writeWireNumbers (sent.map Prod.fst) := by
    simp
  have helements : chunksExact (typeSize column.list.kType) chunks.flatten.length
      (writeWireNumbers (sent.map Prod.fst)) = sent.map fun pair => toLe pair.1 := by
    have hchunks := chunksExact_write (sent.map Prod.fst)
    rw [List.length_map, List.map_map] at hchunks
    rw [(sends h).supported.width, hlength, hchunks]
    rfl
  unfold Kept
  rw [hpayload, helements, hdecoded]
  constructor
  · rintro ⟨hfinite, received, hreceived, hsame⟩ value hvalue
    obtain ⟨i, hi⟩ := List.mem_iff_getElem?.mp hvalue
    obtain ⟨pair, hpair, houtcome⟩ := getElem?_of_forall₂ houtcomes hi
    obtain ⟨element, helement, hok⟩ := hfinite i value hi
    rw [List.getElem?_map, hpair] at helement
    cases helement
    have hsent : sent.map Prod.snd = received := by
      simpa [NumberList.series, Series.ofCells] using hreceived
    have hback := hsame i value hi
    rw [← hsent, List.getElem?_map, hpair] at hback
    exact (houtcome value rfl).mp ⟨hok, Option.some.inj hback⟩
  · intro hregular
    have hboth : ∀ (i : Nat) (value : column.type.Cell), chunks.flatten[i]? = some (some value) →
        ∃ pair, sent[i]? = some pair ∧ IsFinite column.list.kType (toLe pair.1) ∧
          pair.2 = some (column.same value) := by
      intro i value hi
      obtain ⟨pair, hpair, houtcome⟩ := getElem?_of_forall₂ houtcomes hi
      exact ⟨pair, hpair, (houtcome value rfl).mpr (hregular value (List.mem_of_getElem? hi))⟩
    refine ⟨?_, sent.map Prod.snd, rfl, ?_⟩
    · intro i value hi
      obtain ⟨pair, hpair, hfinite, -⟩ := hboth i value hi
      exact ⟨toLe pair.1, by rw [List.getElem?_map, hpair]; rfl, hfinite⟩
    · intro i value hi
      obtain ⟨pair, hpair, -, hsame⟩ := hboth i value hi
      rw [List.getElem?_map, hpair, Option.map_some, hsame]

end Columns

end TemporalColumn

/-! ## Atoms -/

section Atoms

variable {categories : CategoricalMapping} {encoding : SymbolEncoding}

/-- The atom was not sent as a null or an infinity, and it comes back. -/
def AtomKept (categories : CategoricalMapping) (encoding : SymbolEncoding) (kType : UInt8) (k : K)
    (bytes : Bytes) : Prop :=
  IsFinite kType (bytes.drop 1) ∧ deserialize categories encoding bytes = .ok k

/-- An atom that is the whole body. -/
theorem deserialize_numberAtom {α : Type} [WireNumber α] {kType : UInt8} {context : String}
    {convert : α → Exec K} (hkind : 237 ≤ kType)
    (hread : ∀ vec pos, deserializeAtom vec pos kType encoding = numberAtom α vec pos context convert)
    (hwidth : WireNumber.width α ≤ 8) {a : α} {k : K} :
    deserialize categories encoding (kType :: toLe a) = .ok k ↔ convert a = .ok k := by
  have hlen := WireNumber.toLe_length a
  have hsize : (kType :: toLe a).length ≤ usizeMax := by
    rw [List.length_cons, hlen]
    exact Nat.le_trans (Nat.add_le_add_right hwidth 1) (by decide)
  have hat : At (kType :: toLe a) 0 (kType :: (toLe a ++ [])) := by
    rw [List.append_nil]
    exact At.start hsize
  rw [deserialize_eq_ok, deserializeFuel, deserializeUnchecked_body (by decide) hat, deserializeBody,
    if_pos hkind, hread, numberAtom, takeNumber, takeBytes_at hat.skip_one hlen]
  simp only [Exec.ok_bind, WireNumber.fromLe_toLe, Exec.bind_eq_ok, Except.ok.injEq, Prod.mk.injEq,
    List.length_cons]
  constructor
  · rintro ⟨_, hconvert, rfl, -⟩
    exact hconvert
  · intro hconvert
    exact ⟨k, hconvert, rfl, by omega⟩

theorem appendedLeaf_of_serialize {k : K} (hleaf : k.IsLeaf) {bytes : Bytes}
    (h : k.serialize = .ok bytes) : (∃ n, K.leafLen 0 k = .ok n) ∧ K.appendedLeaf k = .ok bytes := by
  obtain ⟨⟨n, hlen, -⟩, happended⟩ := K.serialize_eq_ok.mp h
  rw [K.j6Len, K.j6LenWithDepth_leaf hleaf, if_neg (by decide)] at hlen
  rw [K.appended_leaf hleaf] at happended
  exact ⟨⟨n, hlen⟩, happended⟩

theorem fromTimestampNanos_not_leap (nanoseconds : Int64) :
    ¬ (DateTime.fromTimestampNanos nanoseconds).isLeap := by
  simp only [DateTime.isLeap, DateTime.fromTimestampNanos]
  omega

theorem finite_of_qTimestamp {unix element : Int64} (h : qTimestampNanoseconds unix = .ok element) :
    -2 ^ 63 + 1 < element.toInt ∧ element.toInt < 2 ^ 63 - 1 := by
  simp only [qTimestampNanoseconds, Exec.okOr_eq_ok, Option.bind_eq_some_iff] at h
  obtain ⟨_, -, hfinite⟩ := h
  unfold finiteTimestamp at hfinite
  split at hfinite
  · next hrange =>
    cases hfinite
    exact hrange
  · cases hfinite

theorem datetime_kept_iff {value : DateTime} {bytes : Bytes} (h : (K.DateTime value).serialize = .ok bytes) :
    AtomKept categories encoding 12 (.DateTime value) bytes ↔ ¬ value.isLeap := by
  have hleaf : (K.DateTime value).IsLeaf := trivial
  obtain ⟨-, hbytes⟩ := appendedLeaf_of_serialize hleaf h
  simp only [K.appendedLeaf, Exec.bind_eq_ok, Exec.okOr_eq_ok, Except.ok.injEq] at hbytes
  obtain ⟨unix, hunix, element, helement, rfl⟩ := hbytes
  have hatom : deserialize categories encoding (244 :: toLe element) = .ok (.DateTime value) ↔
      timestampAtom element = .ok (.DateTime value) :=
    deserialize_numberAtom (by decide) (fun _ _ => rfl) (by decide)
  unfold AtomKept
  rw [hatom]
  constructor
  · rintro ⟨-, hback⟩
    unfold timestampAtom at hback
    split at hback
    · cases hback
    simp only [Exec.bind_eq_ok, Except.ok.injEq, K.DateTime.injEq] at hback
    obtain ⟨nanoseconds, -, rfl⟩ := hback
    exact fromTimestampNanos_not_leap nanoseconds
  · intro hleap
    refine ⟨?_, timestampAtom_finite hleap hunix helement⟩
    simpa [IsFinite, WireNumber.fromLe_toLe] using finite_of_qTimestamp helement

theorem date_kept {value : NaiveDate} {bytes : Bytes} (h : (K.Date value).serialize = .ok bytes) :
    AtomKept categories encoding 14 (.Date value) bytes := by
  have hleaf : (K.Date value).IsLeaf := trivial
  obtain ⟨-, hbytes⟩ := appendedLeaf_of_serialize hleaf h
  simp only [K.appendedLeaf, Exec.bind_eq_ok, Exec.okOr_eq_ok, Except.ok.injEq] at hbytes
  obtain ⟨element, helement, rfl⟩ := hbytes
  have hdays := checkedI32_eq_some.mp helement
  rw [NaiveDate.numDaysFromCe_toInt] at hdays
  have hlower := value.lower
  have hupper := value.upper
  have hrange : -2 ^ 31 + 1 < element.toInt ∧ element.toInt < 2 ^ 31 - 1 := by constructor <;> omega
  refine ⟨by simpa [IsFinite, WireNumber.fromLe_toLe] using hrange, ?_⟩
  exact (deserialize_numberAtom (by decide) (fun _ _ => rfl) (by decide)).mpr (dateAtom_days helement)

theorem duration_kept_iff {value : Duration} {bytes : Bytes} (h : (K.Duration value).serialize = .ok bytes) :
    AtomKept categories encoding 16 (.Duration value) bytes ↔
      value.nanoseconds ≠ -2 ^ 63 ∧ value.nanoseconds ≠ -2 ^ 63 + 1 ∧ value.nanoseconds ≠ 2 ^ 63 - 1 := by
  have hleaf : (K.Duration value).IsLeaf := trivial
  obtain ⟨-, hbytes⟩ := appendedLeaf_of_serialize hleaf h
  simp only [K.appendedLeaf, Exec.bind_eq_ok, Exec.okOr_eq_ok, Except.ok.injEq] at hbytes
  obtain ⟨element, helement, rfl⟩ := hbytes
  have hback : deserialize categories encoding (240 :: toLe element) = .ok (.Duration value) := by
    have hread : ∀ vec pos, deserializeAtom vec pos 240 encoding =
        numberAtom Int64 vec pos "q timespan atom" fun value =>
          .ok (.Duration (Duration.ofNanoseconds value)) := fun _ _ => rfl
    refine (deserialize_numberAtom (by decide) hread (by decide)).mpr ?_
    rw [Duration.ofNanoseconds_numNanoseconds helement]
  have hnanos : element.toInt = value.nanoseconds := checkedI64_eq_some.mp helement
  have hlow := element.le_toInt
  have hhigh := element.toInt_lt
  have hfinite : IsFinite 16 (toLe element) ↔ -2 ^ 63 + 1 < element.toInt ∧ element.toInt < 2 ^ 63 - 1 := by
    simp [IsFinite, WireNumber.fromLe_toLe]
  unfold AtomKept
  rw [hback, List.drop_one, List.tail_cons, hfinite, ← hnanos]
  constructor
  · rintro ⟨hrange, -⟩
    refine ⟨by omega, by omega, by omega⟩
  · rintro ⟨hfirst, hsecond, hlast⟩
    exact ⟨⟨by omega, by omega⟩, rfl⟩

theorem time_kept_iff {value : NaiveTime} {bytes : Bytes} (h : (K.Time value).serialize = .ok bytes) :
    AtomKept categories encoding 19 (.Time value) bytes ↔ ¬ value.isLeap := by
  have hleaf : (K.Time value).IsLeaf := trivial
  obtain ⟨⟨n, hlen⟩, hbytes⟩ := appendedLeaf_of_serialize hleaf h
  cases hbytes
  have hprecise : value.frac % 1000000 = 0 := by
    rw [K.leafLen] at hlen
    split at hlen
    · cases hlen
    · next hprecise => simpa using hprecise
  have hatom : deserialize categories encoding (237 :: toLe (Int32.ofInt value.milliseconds)) =
        .ok (.Time value) ↔
      timeAtom 237 1000000 (Int32.ofInt value.milliseconds) = .ok (.Time value) :=
    deserialize_numberAtom (by decide) (fun _ _ => rfl) (by decide)
  unfold AtomKept
  rw [hatom]
  constructor
  · rintro ⟨-, hback⟩
    unfold timeAtom at hback
    split at hback
    · cases hback
    simp only [Exec.bind_eq_ok, Exec.okOr_eq_ok, Except.ok.injEq, K.Time.injEq] at hback
    obtain ⟨nanoseconds, -, time, htime, rfl⟩ := hback
    unfold NaiveTime.fromNumSecondsFromMidnightOpt at htime
    split at htime
    · cases htime
      simp only [NaiveTime.isLeap]
      omega
    · cases htime
  · intro hleap
    refine ⟨?_, timeAtom_milliseconds hleap hprecise⟩
    have hlt := value.milliseconds_lt
    have hword : (Int32.ofInt value.milliseconds).toInt = value.milliseconds :=
      Int32.toInt_ofInt_of_le (by omega) (by omega)
    have hrange : -2 ^ 31 + 1 < (Int32.ofInt value.milliseconds).toInt ∧
        (Int32.ofInt value.milliseconds).toInt < 2 ^ 31 - 1 := by
      rw [hword]
      constructor <;> omega
    simpa [IsFinite, WireNumber.fromLe_toLe] using hrange

end Atoms

/-- **Temporal values.** What is accepted is neither sent as a null or an infinity nor changed
on the way, except for two dates and three durations in columns, the same three durations as
atoms, and leap seconds. -/
theorem temporal_values_kept (categories : CategoricalMapping) (encoding : SymbolEncoding) :
    (∀ column : TemporalColumn, column.Supported → ∀ (name : Str)
      (chunks : List (List (Option column.type.Cell))) (bytes : Bytes),
      (K.Series ⟨name, .flat column.type chunks⟩).serialize = .ok bytes →
      (column.Kept categories encoding chunks.flatten bytes ↔
        ∀ value, some value ∈ chunks.flatten → column.Regular value)) ∧
    (∀ (value : DateTime) (bytes : Bytes), (K.DateTime value).serialize = .ok bytes →
      (AtomKept categories encoding 12 (.DateTime value) bytes ↔ ¬ value.isLeap)) ∧
    (∀ (value : NaiveDate) (bytes : Bytes), (K.Date value).serialize = .ok bytes →
      AtomKept categories encoding 14 (.Date value) bytes) ∧
    (∀ (value : Duration) (bytes : Bytes), (K.Duration value).serialize = .ok bytes →
      (AtomKept categories encoding 16 (.Duration value) bytes ↔
        value.nanoseconds ≠ -2 ^ 63 ∧ value.nanoseconds ≠ -2 ^ 63 + 1 ∧
          value.nanoseconds ≠ 2 ^ 63 - 1)) ∧
    ∀ (value : NaiveTime) (bytes : Bytes), (K.Time value).serialize = .ok bytes →
      (AtomKept categories encoding 19 (.Time value) bytes ↔ ¬ value.isLeap) := by
  refine ⟨?_, ?_, ?_, ?_, ?_⟩
  · intro column hcolumn name chunks bytes hbytes
    exact TemporalColumn.kept_iff hcolumn hbytes
  · intro value bytes hbytes
    exact datetime_kept_iff hbytes
  · intro value bytes hbytes
    exact date_kept hbytes
  · intro value bytes hbytes
    exact duration_kept_iff hbytes
  · intro value bytes hbytes
    exact time_kept_iff hbytes

theorem temporal_values_kept_day :
    ∃ bytes, (K.Series ⟨Str.empty, .flat .date [[some 20000]]⟩).serialize = .ok bytes ∧
      TemporalColumn.date.Kept numberedTexts .Strict [some 20000] bytes := by
  refine ⟨[14, 0, 1, 0, 0, 0, 83, 35, 0, 0], rfl, ?_⟩
  apply ((temporal_values_kept numberedTexts .Strict).1 .date .date Str.empty [[some 20000]] _ rfl).mpr
  intro days hdays
  obtain rfl : days = 20000 := by simpa using hdays
  exact ⟨by decide, by decide⟩

/-- The day 10957 days after the first one of the range is sent as the null date. -/
theorem date_becomes_null :
    ∃ days : Int32, days.toInt = -2 ^ 31 + 10957 ∧
      (K.Series ⟨Str.empty, .flat .date [[some days]]⟩).serialize =
        .ok [14, 0, 1, 0, 0, 0, 0, 0, 0, 128] ∧
      deserialize numberedTexts .Strict [14, 0, 1, 0, 0, 0, 0, 0, 0, 128] =
        .ok (.Series (.ofCells (typeName 14) .date [none])) :=
  ⟨-2147472691, by decide, rfl, rfl⟩

end Xqdb
