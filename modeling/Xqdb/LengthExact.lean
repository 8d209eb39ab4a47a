import Xqdb.Serialize

/-! Length prediction is exact: where `j6_len` answers, the encoder appends that
many bytes, unless a row of a list column or the width of an array column is more
than a q count can say. -/

namespace Xqdb

open WireNumber (toLe)

theorem checkedQCount_eq_ok {length : Nat} {u : Unit} :
    checkedQCount length = .ok u ↔ length ≤ i32Max := by
  unfold checkedQCount
  split <;> simp_all

theorem qListLength_of_le {length : Nat} (h : length ≤ i32Max) :
    qListLength length = .ok (LittleEndian.encode 4 length) := by
  simp [qListLength, h]

theorem checkedSeriesSize_eq_ok {length width n : Nat} :
    checkedSeriesSize length width = .ok n ↔
      length ≤ i32Max ∧ n = length * width + 6 ∧ n ≤ usizeMax := by
  simp only [checkedSeriesSize, Exec.bind_eq_ok, checkedQCount_eq_ok, Exec.okOr_eq_ok,
    Option.bind_eq_some_iff, checkedMul_eq_some, checkedAdd_eq_some]
  constructor
  · rintro ⟨-, h, _, ⟨rfl, -⟩, hn⟩
    exact ⟨h, hn⟩
  · rintro ⟨h, rfl, hn⟩
    exact ⟨(), h, _, ⟨rfl, by omega⟩, rfl, hn⟩

theorem checkedNestedSeriesSize_eq_ok {outer values width n : Nat} :
    checkedNestedSeriesSize outer values width = .ok n ↔
      outer ≤ i32Max ∧ n = values * width + outer * 6 + 6 ∧ n ≤ usizeMax := by
  simp only [checkedNestedSeriesSize, Exec.bind_eq_ok, checkedQCount_eq_ok, Exec.okOr_eq_ok,
    Option.bind_eq_some_iff, checkedMul_eq_some, checkedAdd_eq_some]
  constructor
  · rintro ⟨-, h, _, ⟨rfl, -⟩, _, ⟨rfl, -⟩, _, ⟨rfl, -⟩, hn⟩
    exact ⟨h, hn⟩
  · rintro ⟨h, rfl, hn⟩
    exact ⟨(), h, _, ⟨rfl, by omega⟩, _, ⟨rfl, by omega⟩, _, ⟨rfl, by omega⟩, rfl, hn⟩

theorem forEach_eq_ok {α : Type} {check : α → Exec Unit} {values : List α} {u : Unit} :
    forEach check values = .ok u ↔ ∀ value ∈ values, check value = .ok () := by
  induction values with
  | nil => simp [forEach]
  | cons value values ih =>
    simp only [forEach, Exec.bind_eq_ok, ih, List.mem_cons, forall_eq_or_imp]
    constructor
    · rintro ⟨⟨⟩, h, hall⟩
      exact ⟨h, hall⟩
    · rintro ⟨h, hall⟩
      exact ⟨(), h, hall⟩

theorem mem_presentCells {α : Type} {chunks : List (List (Option α))} {a : α} :
    a ∈ presentCells chunks ↔ some a ∈ chunks.flatten := by
  simp [presentCells, List.mem_filterMap]

/-! ## Flat columns -/

/-- Items that all encode to `width` bytes. -/
theorem writeEach_fixed {α : Type} {write : α → Exec Bytes} {items : List α} {width : Nat}
    (h : ∀ item ∈ items, ∃ bytes, write item = .ok bytes ∧ bytes.length = width) :
    ∃ bytes, writeEach write items = .ok bytes ∧ bytes.length = items.length * width := by
  induction items with
  | nil => exact ⟨[], rfl, by simp⟩
  | cons item items ih =>
    obtain ⟨first, hfirst, hlen⟩ := h item (by simp)
    obtain ⟨rest, hrest, hrestLen⟩ := ih fun i hi => h i (by simp [hi])
    refine ⟨first ++ rest, by simp [writeEach, hfirst, hrest], ?_⟩
    rw [List.length_append, hlen, hrestLen, List.length_cons, Nat.add_one_mul]
    omega

/-- The width of a row of the types that have one. -/
def flatWidth : FlatType → Option Nat
  | .boolean => some 1
  | .uint8 => some 1
  | .int16 => some 2
  | .int32 => some 4
  | .int64 => some 8
  | .float32 => some 4
  | .float64 => some 8
  | .date => some 4
  | .datetime _ => some 8
  | .duration _ => some 8
  | .time => some 4
  | .binary => some 16
  | .string => none
  | .categorical _ => none

theorem time_in_range {value : Int64} (h : checkTime value = .ok ()) :
    ∃ milliseconds, checkedI32 (value.toInt.tdiv 1000000) = some milliseconds := by
  unfold checkTime at h
  split at h
  · cases h
  next hday =>
  rw [not_not] at hday
  refine ⟨Int32.ofInt (value.toInt.tdiv 1000000), ?_⟩
  rw [checkedI32, if_pos]
  rw [Int.tdiv_eq_ediv_of_nonneg hday.1]
  omega

theorem seriesHeader_length (kType : UInt8) (length : Nat) :
    (seriesHeader kType length).length = 6 := by
  simp [seriesHeader]

theorem writeCells_fixed {type : FlatType} {width : Nat} (h : flatWidth type = some width)
    (cells : List (Option type.Cell)) :
    writeCells type cells = writeEach (writeCell type) cells := by
  cases type <;> first | rfl | cases h

/-- A column of fixed-width rows. -/
theorem serializeFlat_fixed {type : FlatType} {width : Nat} {cells : List (Option type.Cell)}
    (hwidth : flatWidth type = some width) (hvalid : validateCells type cells = .ok ())
    (hcells : ∀ cell ∈ cells, ∃ bytes, writeCell type cell = .ok bytes ∧ bytes.length = width) :
    ∃ bytes, serializeFlat type cells = .ok bytes ∧ bytes.length = cells.length * width + 6 := by
  obtain ⟨payload, hpayload, hlen⟩ := writeEach_fixed hcells
  refine ⟨seriesHeader (flatKType type) cells.length ++ payload, ?_, ?_⟩
  · simp [serializeFlat, hvalid, writeCells_fixed hwidth, hpayload]
  · rw [List.length_append, seriesHeader_length, hlen]
    omega

theorem qTimestampOf_isSome {unit : TimeUnit} {value : Int64}
    (h : checkTimestamp unit value = .ok ()) :
    ∃ nanoseconds, (do
      let unixNanoseconds ← Exec.okOr (checkedI64 (value.toInt * timeUnitNanos unit)) timestampRange
      qTimestampNanoseconds unixNanoseconds) = .ok nanoseconds := by
  simp only [checkTimestamp, Exec.bind_eq_ok, Exec.okOr_eq_ok, qTimestampOf,
    Option.bind_eq_some_iff] at h
  obtain ⟨nanoseconds, ⟨unixNanoseconds, hmul, q, hsub, hfinite⟩, -⟩ := h
  refine ⟨nanoseconds, ?_⟩
  simp [hmul, qTimestampNanoseconds, hsub, hfinite]

theorem writeCell_datetime {unit : TimeUnit} (hunit : unit ≠ .milliseconds) (cell : Option Int64)
    (h : ∀ value ∈ cell, checkTimestamp unit value = .ok ()) :
    ∃ bytes, writeCell (.datetime unit) cell = .ok bytes ∧ bytes.length = 8 := by
  cases cell with
  | none =>
    cases unit
    · exact ⟨_, rfl, WireNumber.toLe_length _⟩
    · exact ⟨_, rfl, WireNumber.toLe_length _⟩
    · exact absurd rfl hunit
  | some value =>
    obtain ⟨nanoseconds, hok⟩ := qTimestampOf_isSome (h value rfl)
    refine ⟨toLe nanoseconds, ?_, WireNumber.toLe_length _⟩
    simp only [Exec.bind_eq_ok] at hok
    obtain ⟨unixNanoseconds, hmul, hq⟩ := hok
    cases unit
    · simp [writeCell, hmul, hq]
    · simp [writeCell, hmul, hq]
    · exact absurd rfl hunit

theorem writeCell_date (cell : Option Int32) (h : ∀ days ∈ cell, checkDate days = .ok ()) :
    ∃ bytes, writeCell .date cell = .ok bytes ∧ bytes.length = 4 := by
  cases cell with
  | none => exact ⟨_, rfl, WireNumber.toLe_length _⟩
  | some days =>
    have hdays := h days rfl
    unfold checkDate at hdays
    split at hdays
    · cases hdays
    next hsome =>
    rw [Option.isNone_iff_eq_none, ← ne_eq, Option.ne_none_iff_exists'] at hsome
    obtain ⟨q, hq⟩ := hsome
    exact ⟨toLe q, by simp [writeCell, hq], WireNumber.toLe_length _⟩

theorem writeCell_duration {unit : TimeUnit} (cell : Option Int64)
    (h : ∀ value ∈ cell, checkDuration unit value = .ok ()) :
    ∃ bytes, writeCell (.duration unit) cell = .ok bytes ∧ bytes.length = 8 := by
  cases cell with
  | none => exact ⟨_, rfl, WireNumber.toLe_length _⟩
  | some value =>
    have hvalue := h value rfl
    unfold checkDuration at hvalue
    split at hvalue
    · cases hvalue
    next hsome =>
    rw [Option.isNone_iff_eq_none, ← ne_eq, Option.ne_none_iff_exists'] at hsome
    obtain ⟨q, hq⟩ := hsome
    exact ⟨toLe q, by simp [writeCell, hq], WireNumber.toLe_length _⟩

theorem writeCell_time (cell : Option Int64) (h : ∀ value ∈ cell, checkTime value = .ok ()) :
    ∃ bytes, writeCell .time cell = .ok bytes ∧ bytes.length = 4 := by
  cases cell with
  | none => exact ⟨_, rfl, WireNumber.toLe_length _⟩
  | some value =>
    obtain ⟨q, hq⟩ := time_in_range (h value rfl)
    exact ⟨toLe q, by simp [writeCell, hq], WireNumber.toLe_length _⟩

theorem validateGuidSeries_eq_ok {chunks : List (List (Option Bytes))} {u : Unit} :
    validateGuidSeries chunks = .ok u ↔ ∀ value ∈ presentCells chunks, value.length = 16 := by
  unfold validateGuidSeries
  split
  · next h =>
    simp only [List.any_eq_true, decide_eq_true_eq] at h
    simp only [Exec.err_ne_ok, false_iff]
    intro hall
    obtain ⟨value, hmem, hne⟩ := h
    exact hne (hall value hmem)
  · next h =>
    simp only [List.any_eq_true, decide_eq_true_eq, not_exists, not_and, ne_eq, not_not] at h
    simpa using h

/-- Strings: six bytes of header a row, and the texts. -/
theorem stringBytes_exact {cells : List (Option Str)} {start total : Nat}
    (h : stringBytes (cells.filterMap id) start = .ok total) :
    ∃ bytes, writeEach (writeCell .string) cells = .ok bytes ∧
      bytes.length + start = total + cells.length * 6 := by
  induction cells generalizing start with
  | nil =>
    simp only [List.filterMap_nil, stringBytes, Except.ok.injEq] at h
    exact ⟨[], rfl, by simp [h]⟩
  | cons cell cells ih =>
    cases cell with
    | none =>
      obtain ⟨bytes, hbytes, hlen⟩ := ih h
      refine ⟨[10, 0, 0, 0, 0, 0] ++ bytes, by simp [writeEach, writeCell, hbytes], ?_⟩
      simp only [List.length_append, List.length_cons, List.length_nil]
      omega
    | some text =>
      simp only [List.filterMap_cons, id, stringBytes, Exec.bind_eq_ok, checkedQCount_eq_ok,
        Exec.okOr_eq_ok, checkedAdd_eq_some] at h
      obtain ⟨-, hcount, sum, ⟨rfl, -⟩, hrest⟩ := h
      obtain ⟨bytes, hbytes, hlen⟩ := ih hrest
      refine ⟨[10, 0] ++ LittleEndian.encode 4 text.bytes.length ++ text.bytes ++ bytes, ?_, ?_⟩
      · simp [writeEach, writeCell, charVector, qListLength_of_le hcount, hbytes]
      · simp only [List.length_append, List.length_cons, List.length_nil,
          LittleEndian.encode_length]
        omega

/-- Symbols: both passes resolve the same categories through the same cache. -/
theorem symbols_exact {mapping : CategoricalMapping} {cells : List (Option Nat)}
    {lookup lookup' : SymbolLookup mapping} {start total : Nat}
    (h : forEachCategory addSymbolLength cells (lookup, start) = .ok (lookup', total))
    (out : Bytes) :
    ∃ bytes, forEachCategory writeSymbol cells (lookup, out) = .ok (lookup', out ++ bytes) ∧
      bytes.length + start = total := by
  induction cells generalizing lookup start out with
  | nil =>
    simp only [forEachCategory, Except.ok.injEq, Prod.mk.injEq] at h
    obtain ⟨rfl, rfl⟩ := h
    exact ⟨[], by simp [forEachCategory], by simp⟩
  | cons cell cells ih =>
    cases cell with
    | none =>
      simp only [forEachCategory, addSymbolLength, Exec.bind_eq_ok, Exec.okOr_eq_ok,
        Option.bind_eq_some_iff, checkedAdd_eq_some, Except.ok.injEq] at h
      obtain ⟨-, ⟨_, ⟨_, ⟨rfl, -⟩, rfl, -⟩, rfl⟩, hrest⟩ := h
      obtain ⟨bytes, hbytes, hlen⟩ := ih hrest (out ++ [0])
      refine ⟨[0] ++ bytes, ?_, ?_⟩
      · simpa [forEachCategory, writeSymbol] using hbytes
      · simp only [List.length_append, List.length_singleton]
        omega
    | some category =>
      simp only [forEachCategory, addSymbolLength, Exec.bind_eq_ok, Exec.okOr_eq_ok,
        Option.bind_eq_some_iff, checkedAdd_eq_some, Except.ok.injEq, Prod.exists] at h
      obtain ⟨_, _, ⟨symbol, next, hresolve, _, ⟨_, ⟨rfl, -⟩, rfl, -⟩, heq⟩, hrest⟩ := h
      obtain ⟨rfl, rfl⟩ := Prod.mk.inj heq
      obtain ⟨bytes, hbytes, hlen⟩ := ih hrest (out ++ symbol.bytes ++ [0])
      refine ⟨symbol.bytes ++ [0] ++ bytes, ?_, ?_⟩
      · simpa [forEachCategory, writeSymbol, hresolve] using hbytes
      · simp only [List.length_append, List.length_singleton]
        omega

theorem mem_cells_of_present {α : Type} {chunks : List (List (Option α))} {P : α → Prop}
    (h : ∀ value ∈ presentCells chunks, P value) {cell : Option α} (hcell : cell ∈ chunks.flatten) :
    ∀ value ∈ cell, P value := by
  rintro value hvalue
  rw [Option.mem_def] at hvalue
  subst hvalue
  exact h value (mem_presentCells.mpr hcell)

theorem presentCells_flatten {α : Type} (chunks : List (List (Option α))) :
    presentCells [chunks.flatten] = presentCells chunks := by
  simp [presentCells]

/-- **Flat columns.** -/
theorem getFlatLen_exact {type : FlatType} {chunks : List (List (Option type.Cell))} {n : Nat}
    (h : getFlatLen chunks.flatten.length type chunks = .ok n) :
    chunks.flatten.length ≤ i32Max ∧
      ∃ bytes, serializeFlat type chunks.flatten = .ok bytes ∧ bytes.length = n := by
  -- every fixed-width type goes through the same lemma
  have fixed : ∀ {width : Nat}, flatWidth type = some width →
      validateCells type chunks.flatten = .ok () →
      (∀ cell ∈ chunks.flatten, ∃ bytes, writeCell type cell = .ok bytes ∧ bytes.length = width) →
      checkedSeriesSize chunks.flatten.length width = .ok n →
      chunks.flatten.length ≤ i32Max ∧
        ∃ bytes, serializeFlat type chunks.flatten = .ok bytes ∧ bytes.length = n := by
    intro width hwidth hvalid hcells hsize
    obtain ⟨hcount, rfl, -⟩ := checkedSeriesSize_eq_ok.mp hsize
    exact ⟨hcount, serializeFlat_fixed hwidth hvalid hcells⟩
  cases type with
  | boolean => exact fixed rfl rfl (fun cell _ => ⟨_, rfl, rfl⟩) h
  | uint8 => exact fixed rfl rfl (fun cell _ => ⟨_, rfl, rfl⟩) h
  | int16 => exact fixed rfl rfl (fun cell _ => ⟨_, rfl, WireNumber.toLe_length _⟩) h
  | int32 => exact fixed rfl rfl (fun cell _ => ⟨_, rfl, WireNumber.toLe_length _⟩) h
  | int64 => exact fixed rfl rfl (fun cell _ => ⟨_, rfl, WireNumber.toLe_length _⟩) h
  | float32 => exact fixed rfl rfl (fun cell _ => ⟨_, rfl, WireNumber.toLe_length _⟩) h
  | float64 => exact fixed rfl rfl (fun cell _ => ⟨_, rfl, WireNumber.toLe_length _⟩) h
  | date =>
    simp only [getFlatLen, Exec.bind_eq_ok, forEach_eq_ok] at h
    obtain ⟨-, hdates, hsize⟩ := h
    exact fixed rfl rfl (fun cell hcell => writeCell_date cell (mem_cells_of_present hdates hcell)) hsize
  | datetime unit =>
    by_cases hunit : unit = .milliseconds
    · subst hunit
      refine fixed rfl rfl (fun cell _ => ?_) h
      cases cell with
      | none => exact ⟨_, rfl, WireNumber.toLe_length _⟩
      | some value => exact ⟨_, rfl, WireNumber.toLe_length _⟩
    · have hbody : (do
          forEach (checkTimestamp unit) (presentCells chunks)
          checkedSeriesSize chunks.flatten.length 8) = Except.ok n := by
        cases unit
        · exact h
        · exact h
        · exact absurd rfl hunit
      simp only [Exec.bind_eq_ok, forEach_eq_ok] at hbody
      obtain ⟨-, hstamps, hsize⟩ := hbody
      exact fixed rfl rfl
        (fun cell hcell => writeCell_datetime hunit cell (mem_cells_of_present hstamps hcell)) hsize
  | duration unit =>
    simp only [getFlatLen, Exec.bind_eq_ok, forEach_eq_ok] at h
    obtain ⟨-, hdurations, hsize⟩ := h
    exact fixed rfl rfl
      (fun cell hcell => writeCell_duration cell (mem_cells_of_present hdurations hcell)) hsize
  | time =>
    simp only [getFlatLen, Exec.bind_eq_ok] at h
    obtain ⟨⟨⟩, htimes, hsize⟩ := h
    have hvalid : validateCells .time chunks.flatten = .ok () := by
      simp only [validateCells, validateQTimeSeries, presentCells_flatten]
      exact htimes
    rw [validateQTimeSeries, forEach_eq_ok] at htimes
    exact fixed rfl hvalid
      (fun cell hcell => writeCell_time cell (mem_cells_of_present htimes hcell)) hsize
  | binary =>
    simp only [getFlatLen, Exec.bind_eq_ok, validateGuidSeries_eq_ok] at h
    obtain ⟨-, hguids, hsize⟩ := h
    have hvalid : validateCells .binary chunks.flatten = .ok () := by
      simp only [validateCells, validateGuidSeries_eq_ok, presentCells_flatten]
      exact hguids
    refine fixed rfl hvalid (fun cell hcell => ⟨_, rfl, ?_⟩) hsize
    cases cell with
    | none => rfl
    | some value => exact mem_cells_of_present hguids hcell value rfl
  | string =>
    simp only [getFlatLen, Exec.bind_eq_ok, checkedNestedSeriesSize_eq_ok] at h
    obtain ⟨valueBytes, hbytes, hcount, rfl, -⟩ := h
    obtain ⟨payload, hpayload, hlen⟩ := stringBytes_exact hbytes
    refine ⟨hcount, seriesHeader 0 chunks.flatten.length ++ payload, ?_, ?_⟩
    · simp [serializeFlat, validateCells, writeCells, hpayload, flatKType]
    · rw [List.length_append, seriesHeader_length]
      omega
  | categorical mapping =>
    simp only [getFlatLen, Exec.bind_eq_ok, checkedQCount_eq_ok, Prod.exists, Except.ok.injEq] at h
    obtain ⟨-, hcount, lookup, total, hsymbols, rfl⟩ := h
    obtain ⟨payload, hpayload, hlen⟩ := symbols_exact hsymbols []
    refine ⟨hcount, seriesHeader 11 chunks.flatten.length ++ payload, ?_, ?_⟩
    · simp only [List.nil_append] at hpayload
      simp [serializeFlat, validateCells, writeCells, hpayload, flatKType]
    · rw [List.length_append, seriesHeader_length]
      omega

/-! ## List columns -/

/-- Lengths of the rows, as the offsets have them. -/
def ListChunk.rowLengths {α : Type} (chunk : ListChunk α) : List Nat :=
  (windows chunk.offsets).map fun range => (range.2 - range.1).toNat

/-- A range of offsets inside a child array of `bound` elements. -/
def RangeWithin (bound : Nat) (range : Int × Int) : Prop :=
  0 ≤ range.1 ∧ range.1 ≤ range.2 ∧ range.2 ≤ bound

theorem offsets_le_bound {bound : Nat} {low : Int} {offsets : List Int}
    (h : OffsetsWithin bound low offsets) : low ≤ bound := by
  induction offsets generalizing low with
  | nil => exact h
  | cons offset offsets ih => exact le_trans h.1 (ih h.2)

theorem windows_within {bound : Nat} {low : Int} {offsets : List Int} (hlow : 0 ≤ low)
    (h : OffsetsWithin bound low offsets) :
    ∀ range ∈ windows offsets, RangeWithin bound range := by
  induction offsets generalizing low with
  | nil => simp [windows]
  | cons first offsets ih =>
    cases offsets with
    | nil => simp [windows]
    | cons second offsets =>
      intro range hmem
      simp only [windows, List.mem_cons] at hmem
      obtain ⟨hfirst, hsecond, hrest⟩ := h
      obtain rfl | hmem := hmem
      · exact ⟨by omega, hsecond, offsets_le_bound hrest⟩
      · exact ih (by omega : (0 : Int) ≤ first) ⟨hsecond, hrest⟩ range hmem

/-- Row lengths telescope to the distance between the first and the last offset. -/
theorem windows_sum {bound : Nat} {low first : Int} {offsets : List Int}
    (h : OffsetsWithin bound low (first :: offsets)) :
    ((((windows (first :: offsets)).map fun range => (range.2 - range.1).toNat).sum : Nat) : Int) =
      (first :: offsets).getLast (by simp) - first := by
  induction offsets generalizing low first with
  | nil => simp [windows]
  | cons second offsets ih =>
    obtain ⟨-, hsecond, hrest⟩ := h
    have htail := ih (⟨hsecond, hrest⟩ : OffsetsWithin bound first (second :: offsets))
    rw [List.getLast_cons (by simp), windows, List.map_cons, List.sum_cons, Int.natCast_add, htail]
    omega

theorem listValuesLength_exact {α : Type} {chunks : List (ListChunk α)} {start total : Nat}
    (h : listValuesLength chunks start = .ok total) :
    total = start + (chunks.map fun chunk => chunk.rowLengths.sum).sum := by
  induction chunks generalizing start with
  | nil =>
    simp only [listValuesLength, Except.ok.injEq] at h
    simp [h]
  | cons chunk chunks ih =>
    simp only [listValuesLength, Exec.bind_eq_ok, Exec.okOr_eq_ok, checkedI64_eq_some,
      checkedAdd_eq_some] at h
    obtain ⟨first, hfirst, last, hlast, span, hspan, length, hlength, sum, ⟨rfl, -⟩, hrest⟩ := h
    have hwithin := chunk.offsets_within
    obtain ⟨offsets, hoffsets⟩ : ∃ offsets, chunk.offsets = first :: offsets := by
      cases hcases : chunk.offsets with
      | nil => simp [hcases] at hfirst
      | cons o os =>
        rw [hcases, List.head?_cons, Option.some.injEq] at hfirst
        exact ⟨os, by rw [hfirst]⟩
    rw [hoffsets] at hwithin hlast
    have hsum := windows_sum hwithin
    rw [List.getLast?_eq_some_getLast (by simp), Option.some.injEq] at hlast
    rw [hlast] at hsum
    split at hlength
    · rw [Option.some.injEq] at hlength
      rw [ih hrest, List.map_cons, List.sum_cons, ListChunk.rowLengths, hoffsets]
      omega
    · cases hlength

/-- One row: written in full, or refused for its length alone. -/
theorem writeNestedRow_exact {α : Type} {kType : UInt8} {toBytes : Option α → Bytes} {width : Nat}
    (hbytes : ∀ cell, (toBytes cell).length = width) (negative exceed : String)
    {values : List (Option α)} {range : Int × Int} (h : RangeWithin values.length range) :
    (∃ bytes, writeNestedRow kType toBytes negative exceed values range = .ok bytes ∧
      bytes.length = 6 + width * (range.2 - range.1).toNat) ∨
    (writeNestedRow kType toBytes negative exceed values range = Exec.err .OverLengthErr ∧
      i32Max < (range.2 - range.1).toNat) := by
  obtain ⟨h₁, h₂, h₃⟩ := h
  have hstop : 0 ≤ range.2 := by omega
  have hrange : range.1.toNat ≤ range.2.toNat ∧ range.2.toNat ≤ values.length := by omega
  have hsize : (range.2 - range.1).toNat = range.2.toNat - range.1.toNat := by omega
  have hrow : ((values.drop range.1.toNat).take (range.2.toNat - range.1.toNat)).length =
      (range.2 - range.1).toNat := by
    rw [List.length_take, List.length_drop]
    omega
  have hpayload : ∀ cells : List (Option α),
      (cells.flatMap toBytes).length = width * cells.length := by
    intro cells
    induction cells with
    | nil => simp
    | cons cell cells ih =>
      simp only [List.flatMap_cons, List.length_append, hbytes, ih, List.length_cons, Nat.mul_add]
      omega
  simp only [writeNestedRow, h₁, hstop, hrange, if_true, Exec.okOr_some, Exec.ok_bind, and_self]
  by_cases hcount : (range.2 - range.1).toNat ≤ i32Max
  · left
    rw [qListLength_of_le (by rw [hrow]; exact hcount), Exec.ok_bind]
    refine ⟨_, rfl, ?_⟩
    simp only [List.length_append, List.length_cons, List.length_nil, LittleEndian.encode_length,
      hpayload, hrow]
  · right
    refine ⟨?_, by omega⟩
    rw [qListLength, hrow, if_neg hcount]
    rfl

theorem writeBooleanRow_exact {values : List (Option Bool)} {range : Int × Int}
    (h : RangeWithin values.length range) :
    (∃ bytes, writeBooleanRow values range = .ok bytes ∧
      bytes.length = 6 + 1 * (range.2 - range.1).toNat) ∨
    (writeBooleanRow values range = Exec.err .OverLengthErr ∧
      i32Max < (range.2 - range.1).toNat) := by
  obtain ⟨h₁, h₂, h₃⟩ := h
  have hstop : 0 ≤ range.2 := by omega
  have hle : range.1.toNat ≤ range.2.toNat := by omega
  have hsize : range.2.toNat - range.1.toNat = (range.2 - range.1).toNat := by omega
  simp only [writeBooleanRow, h₁, hstop, if_true, Exec.okOr_some, Exec.ok_bind, subtract, hle, hsize]
  by_cases hcount : (range.2 - range.1).toNat ≤ i32Max
  · left
    rw [qListLength_of_le hcount, Exec.ok_bind]
    refine ⟨_, rfl, ?_⟩
    simp only [List.length_append, List.length_cons, List.length_nil, LittleEndian.encode_length,
      List.length_map, List.length_range', Nat.one_mul]
  · right
    refine ⟨?_, by omega⟩
    rw [qListLength, if_neg hcount]
    rfl

theorem writeListRow_exact {inner : FlatType} {width : Nat} (hwidth : nestedWidth inner = some width)
    {values : List (Option inner.Cell)} {range : Int × Int} (h : RangeWithin values.length range) :
    (∃ bytes, writeListRow inner values range = .ok bytes ∧
      bytes.length = 6 + width * (range.2 - range.1).toNat) ∨
    (writeListRow inner values range = Exec.err .OverLengthErr ∧
      i32Max < (range.2 - range.1).toNat) := by
  cases inner with
  | boolean =>
    cases hwidth
    exact writeBooleanRow_exact h
  | uint8 =>
    cases hwidth
    exact @writeNestedRow_exact UInt8 4 (fun cell => [cell.getD 0]) 1 (fun _ => rfl) _ _ _ _ h
  | int16 =>
    cases hwidth
    exact writeNestedRow_exact (fun _ => WireNumber.toLe_length _) _ _ h
  | int32 =>
    cases hwidth
    exact writeNestedRow_exact (fun _ => WireNumber.toLe_length _) _ _ h
  | int64 =>
    cases hwidth
    exact writeNestedRow_exact (fun _ => WireNumber.toLe_length _) _ _ h
  | float32 =>
    cases hwidth
    exact writeNestedRow_exact (fun _ => WireNumber.toLe_length _) _ _ h
  | float64 =>
    cases hwidth
    exact writeNestedRow_exact (fun _ => WireNumber.toLe_length _) _ _ h
  | _ => cases hwidth

/-- A loop over rows of which each is written in full or refused for its length. -/
theorem writeEach_rows {α : Type} {write : α → Exec Bytes} {size : α → Nat} {width : Nat}
    {rows : List α}
    (h : ∀ row ∈ rows, (∃ bytes, write row = .ok bytes ∧ bytes.length = 6 + width * size row) ∨
      (write row = Exec.err .OverLengthErr ∧ i32Max < size row)) :
    (∃ bytes, writeEach write rows = .ok bytes ∧
      bytes.length = rows.length * 6 + (rows.map size).sum * width) ∨
    (writeEach write rows = Exec.err .OverLengthErr ∧ ∃ row ∈ rows, i32Max < size row) := by
  induction rows with
  | nil => exact .inl ⟨[], rfl, by simp⟩
  | cons row rows ih =>
    obtain ⟨first, hfirst, hlen⟩ | ⟨hfirst, hover⟩ := h row (by simp)
    · obtain ⟨rest, hrest, hrestLen⟩ | ⟨hrest, hover⟩ := ih fun r hr => h r (by simp [hr])
      · refine .inl ⟨first ++ rest, by simp [writeEach, hfirst, hrest], ?_⟩
        simp only [List.length_append, hlen, hrestLen, List.length_cons, List.map_cons,
          List.sum_cons, Nat.add_mul, Nat.mul_comm width]
        omega
      · obtain ⟨r, hr, hlong⟩ := hover
        exact .inr ⟨by simp [writeEach, hfirst, hrest], r, by simp [hr], hlong⟩
    · exact .inr ⟨by simp [writeEach, hfirst], row, by simp, hover⟩

theorem windows_length {α : Type} (items : List α) : (windows items).length = items.length - 1 := by
  induction items with
  | nil => rfl
  | cons a items ih =>
    cases items with
    | nil => rfl
    | cons b items => simpa [windows] using ih

/-- **One list chunk.** -/
theorem serializeList_exact {inner : FlatType} {width : Nat} (hwidth : nestedWidth inner = some width)
    (chunk : ListChunk inner.Cell) (hnull : chunk.nullCount = 0) :
    (∃ bytes, serializeList chunk.len inner chunk = .ok bytes ∧
      bytes.length = chunk.rowLengths.sum * width + chunk.len * 6 + 6) ∨
    (serializeList chunk.len inner chunk = Exec.err .OverLengthErr ∧
      ∃ length ∈ chunk.rowLengths, i32Max < length) := by
  have hoffsets : ¬ chunk.offsets.length ≠ chunk.len + 1 := by simp [chunk.offsets_length, ListChunk.len]
  have hsupported : supportedNested inner = .ok () := by simp [supportedNested, hwidth]
  have hrows := writeEach_rows fun range hmem =>
    writeListRow_exact hwidth (windows_within (le_refl 0) chunk.offsets_within range hmem)
  have hcount : (windows chunk.offsets).length = chunk.len := by
    rw [windows_length, chunk.offsets_length, ListChunk.len]
    omega
  simp only [serializeList, if_neg hoffsets, hnull, Nat.lt_irrefl, if_false, hsupported, Exec.ok_bind]
  obtain ⟨bytes, hbytes, hlen⟩ | ⟨herr, range, hmem, hlong⟩ := hrows
  · left
    rw [hbytes, Exec.ok_bind]
    refine ⟨_, rfl, ?_⟩
    rw [List.length_append, seriesHeader_length, hlen, hcount, ListChunk.rowLengths]
    omega
  · right
    rw [herr]
    exact ⟨rfl, _, List.mem_map_of_mem hmem, hlong⟩

/-! ## Several chunks -/

theorem childSlice_length {α : Type} {values : List α} {range : Int × Int}
    (h : RangeWithin values.length range) :
    (childSlice values range).length = (range.2 - range.1).toNat := by
  obtain ⟨h₁, h₂, h₃⟩ := h
  rw [childSlice, List.length_take, List.length_drop]
  omega

theorem zipWith_valid {α β : Type} (f : α → β) (items : List α) (validity : List Bool)
    (hlen : items.length = validity.length) (hall : validity.count false = 0) :
    List.zipWith (fun item valid => if valid then some (f item) else none) items validity =
      items.map fun item => some (f item) := by
  induction items generalizing validity with
  | nil => rfl
  | cons item items ih =>
    cases validity with
    | nil => cases hlen
    | cons valid validity =>
      cases valid with
      | false => simp at hall
      | true =>
        simp only [List.zipWith_cons_cons, if_true, List.map_cons, List.cons.injEq, true_and]
        exact ih validity (by simpa using hlen) (by simpa using hall)

theorem ListChunk.rows_eq {α : Type} (chunk : ListChunk α) (hnull : chunk.nullCount = 0) :
    chunk.rows = (windows chunk.offsets).map fun range => some (childSlice chunk.values range) := by
  refine zipWith_valid _ _ _ ?_ hnull
  rw [windows_length, chunk.offsets_length]
  omega

theorem ListChunk.rows_lengths {α : Type} (chunk : ListChunk α) (hnull : chunk.nullCount = 0) :
    (chunk.rows.map fun row => (row.getD []).length) = chunk.rowLengths := by
  rw [chunk.rows_eq hnull, List.map_map, ListChunk.rowLengths]
  refine List.map_congr_left fun range hmem => ?_
  exact childSlice_length (windows_within (le_refl 0) chunk.offsets_within range hmem)

theorem ListChunk.rows_length {α : Type} (chunk : ListChunk α) : chunk.rows.length = chunk.len := by
  rw [ListChunk.rows, List.length_zipWith, windows_length, chunk.offsets_length, ListChunk.len]
  omega

theorem windows_offsetsFrom {α : Type} (start : Int) (rows : List (List (Option α))) :
    ((windows (ListChunk.offsetsFrom start rows)).map fun range => (range.2 - range.1).toNat) =
      rows.map List.length := by
  induction rows generalizing start with
  | nil => rfl
  | cons row rows ih =>
    have hnext : ∀ next : Int, ∃ tail, ListChunk.offsetsFrom next rows = next :: tail := by
      intro next
      cases rows <;> exact ⟨_, rfl⟩
    obtain ⟨tail, htail⟩ := hnext (start + row.length)
    have ih' := ih (start + row.length)
    rw [htail] at ih'
    rw [ListChunk.offsetsFrom, htail, windows, List.map_cons, ih', List.map_cons]
    congr 1
    omega

theorem ListChunk.rowLengths_ofRows {α : Type} (rows : List (Option (List (Option α)))) :
    (ListChunk.ofRows rows).rowLengths = rows.map fun row => (row.getD []).length := by
  rw [ListChunk.rowLengths, ListChunk.ofRows, windows_offsetsFrom, List.map_map]
  rfl

/-- The chunk the encoder looks at. -/
def encodedChunk {α : Type} (chunks : List (ListChunk α)) (nonempty : chunks ≠ []) : ListChunk α :=
  if 1 < chunks.length then ListChunk.ofRows (chunks.flatMap ListChunk.rows) else chunks.head nonempty

theorem nullCount_of_sum {α : Type} {chunks : List (ListChunk α)}
    (h : (chunks.map ListChunk.nullCount).sum = 0) {chunk : ListChunk α} (hmem : chunk ∈ chunks) :
    chunk.nullCount = 0 :=
  List.sum_eq_zero_iff_forall_eq_nat.mp h _ (List.mem_map_of_mem hmem)

theorem encodedChunk_rowLengths {α : Type} {chunks : List (ListChunk α)} {nonempty : chunks ≠ []}
    (hnull : (chunks.map ListChunk.nullCount).sum = 0) :
    (encodedChunk chunks nonempty).rowLengths = chunks.flatMap ListChunk.rowLengths := by
  unfold encodedChunk
  split
  · rw [ListChunk.rowLengths_ofRows, List.map_flatMap]
    rw [List.flatMap, List.flatMap]
    congr 1
    refine List.map_congr_left fun chunk hmem => ?_
    exact chunk.rows_lengths (nullCount_of_sum hnull hmem)
  · next hlen =>
    obtain ⟨chunk, rfl⟩ : ∃ chunk, chunks = [chunk] := by
      cases chunks with
      | nil => exact absurd rfl nonempty
      | cons chunk chunks =>
        cases chunks with
        | nil => exact ⟨chunk, rfl⟩
        | cons other chunks => simp at hlen
    simp

theorem encodedChunk_nullCount {α : Type} {chunks : List (ListChunk α)} {nonempty : chunks ≠ []}
    (hnull : (chunks.map ListChunk.nullCount).sum = 0) :
    (encodedChunk chunks nonempty).nullCount = 0 := by
  unfold encodedChunk
  split
  · rw [ListChunk.nullCount, List.count_eq_zero]
    intro hmem
    simp only [ListChunk.ofRows, List.mem_map, List.mem_flatMap] at hmem
    obtain ⟨row, ⟨chunk, hchunk, hrow⟩, hfalse⟩ := hmem
    rw [chunk.rows_eq (nullCount_of_sum hnull hchunk), List.mem_map] at hrow
    obtain ⟨range, -, rfl⟩ := hrow
    cases hfalse
  · exact nullCount_of_sum hnull (List.head_mem nonempty)

theorem encodedChunk_len {α : Type} {chunks : List (ListChunk α)} {nonempty : chunks ≠ []} :
    (encodedChunk chunks nonempty).len = (chunks.map ListChunk.len).sum := by
  unfold encodedChunk
  split
  · rw [ListChunk.len, ListChunk.ofRows, List.length_map, List.length_flatMap]
    congr 1
    exact List.map_congr_left fun chunk _ => chunk.rows_length
  · next hlen =>
    cases chunks with
    | nil => exact absurd rfl nonempty
    | cons chunk chunks =>
      cases chunks with
      | nil => simp
      | cons other chunks => simp at hlen

theorem sum_flatMap {α : Type} (f : α → List Nat) (items : List α) :
    (items.flatMap f).sum = (items.map fun item => (f item).sum).sum := by
  induction items with
  | nil => rfl
  | cons item items ih => simp [ih]

/-- A list column with a row, or an array column with a width, past a q count. -/
def Series.HasOverlongRow (series : Series) : Prop :=
  match series.data with
  | .list _ chunks _ => ∃ chunk ∈ chunks, ∃ cells, some cells ∈ chunk.rows ∧ i32Max < cells.length
  | .array _ size _ _ => i32Max < size
  | _ => False

/-- **List columns.** -/
theorem getListLen_exact {inner : FlatType} {chunks : List (ListChunk inner.Cell)}
    (nonempty : chunks ≠ []) {n : Nat}
    (h : getListLen (chunks.map ListChunk.len).sum inner chunks = .ok n) :
    (chunks.map ListChunk.len).sum ≤ i32Max ∧
      ((∃ bytes, serializeList (chunks.map ListChunk.len).sum inner (encodedChunk chunks nonempty) =
          .ok bytes ∧ bytes.length = n) ∨
        (serializeList (chunks.map ListChunk.len).sum inner (encodedChunk chunks nonempty) =
            Exec.err .OverLengthErr ∧
          ∃ chunk ∈ chunks, ∃ cells, some cells ∈ chunk.rows ∧ i32Max < cells.length)) := by
  unfold getListLen at h
  split at h
  · cases h
  next hnulls =>
  have hnull : (chunks.map ListChunk.nullCount).sum = 0 := by omega
  simp only [Exec.bind_eq_ok, Exec.okOr_eq_ok, checkedNestedSeriesSize_eq_ok] at h
  obtain ⟨valuesLength, hvalues, width, hwidth, hcount, rfl, -⟩ := h
  have htotal := listValuesLength_exact hvalues
  have hlengths := @encodedChunk_rowLengths _ chunks nonempty hnull
  have hexact := serializeList_exact hwidth _ (@encodedChunk_nullCount _ chunks nonempty hnull)
  rw [encodedChunk_len, hlengths] at hexact
  refine ⟨hcount, hexact.imp ?_ ?_⟩
  · rintro ⟨bytes, hbytes, hlen⟩
    refine ⟨bytes, hbytes, ?_⟩
    rw [hlen, htotal, Nat.zero_add, sum_flatMap]
  · rintro ⟨herr, length, hmem, hlong⟩
    obtain ⟨chunk, hchunk, hmem⟩ := List.mem_flatMap.mp hmem
    rw [← chunk.rows_lengths (nullCount_of_sum hnull hchunk), List.mem_map] at hmem
    obtain ⟨row, hrow, rfl⟩ := hmem
    cases row with
    | none => simp at hlong
    | some cells => exact ⟨herr, chunk, hchunk, cells, hrow, hlong⟩

/-! ## Array columns -/

theorem writeArrayRow_exact {values : List (Option Bool)} {size length row : Nat}
    (hsize : size ≤ i32Max) (hrow : row < length) (hbound : length * size ≤ usizeMax) :
    ∃ bytes, writeArrayRow values size row = .ok bytes ∧ bytes.length = 6 + size := by
  have hstart : row * size + size ≤ length * size := by
    rw [← Nat.add_one_mul]
    exact Nat.mul_le_mul_right size hrow
  have hmul : checkedMul row size = some (row * size) :=
    checkedMul_eq_some.mpr ⟨rfl, by omega⟩
  have hadd : checkedAdd (row * size) size = some (row * size + size) :=
    checkedAdd_eq_some.mpr ⟨rfl, by omega⟩
  refine ⟨[1, 0] ++ LittleEndian.encode 4 size ++
    (List.range' (row * size) size).map fun i => boolByte ((values[i]?.join).getD false), ?_, ?_⟩
  · simp [writeArrayRow, qListLength_of_le hsize, hmul, hadd]
  · simp only [List.length_append, List.length_cons, List.length_nil, LittleEndian.encode_length,
      List.length_map, List.length_range']

/-- **Array columns.** -/
theorem getArrayLen_exact {length : Nat} {inner : FlatType} {size n nulls : Nat}
    {chunk : ArrayChunk inner.Cell size} (hnulls : chunk.nullCount = nulls)
    (h : getArrayLen length inner size nulls = .ok n) :
    length ≤ i32Max ∧
      ((∃ bytes, serializeArray length inner size chunk = .ok bytes ∧ bytes.length = n) ∨
        (serializeArray length inner size chunk = Exec.err .OverLengthErr ∧ i32Max < size)) := by
  unfold getArrayLen at h
  split at h
  · cases h
  split at h
  · cases h
  next hzero =>
  have hnull : ¬ 0 < chunk.nullCount := by omega
  cases inner with
  | boolean =>
    simp only [Exec.bind_eq_ok, Exec.okOr_eq_ok, checkedMul_eq_some,
      checkedNestedSeriesSize_eq_ok] at h
    obtain ⟨valuesLength, ⟨rfl, hbound⟩, hcount, rfl, -⟩ := h
    refine ⟨hcount, ?_⟩
    simp only [serializeArray, if_neg hnull]
    by_cases hsize : size ≤ i32Max
    · left
      obtain ⟨rows, hrows, hlen⟩ := writeEach_fixed fun row hmem =>
        @writeArrayRow_exact chunk.values size length row hsize (List.mem_range.mp hmem) hbound
      rw [qListLength_of_le hsize, Exec.ok_bind, hrows, Exec.ok_bind]
      refine ⟨_, rfl, ?_⟩
      rw [List.length_append, seriesHeader_length, hlen, List.length_range, Nat.mul_add]
      omega
    · right
      rw [qListLength, if_neg hsize]
      exact ⟨rfl, by omega⟩
  | _ => cases h

theorem ArrayChunk.nullCount_append {α : Type} {size : Nat} (a b : ArrayChunk α size) :
    (a.append b).nullCount = a.nullCount + b.nullCount := by
  simp [ArrayChunk.nullCount, ArrayChunk.append]

theorem ArrayChunk.nullCount_foldr {α : Type} {size : Nat} (chunks : List (ArrayChunk α size)) :
    (chunks.foldr ArrayChunk.append ArrayChunk.nil).nullCount =
      (chunks.map ArrayChunk.nullCount).sum := by
  induction chunks with
  | nil => rfl
  | cons chunk chunks ih => simp [ArrayChunk.nullCount_append, ih]

theorem ArrayChunk.len_foldr {α : Type} {size : Nat} (chunks : List (ArrayChunk α size)) :
    (chunks.foldr ArrayChunk.append ArrayChunk.nil).len = (chunks.map ArrayChunk.len).sum := by
  induction chunks with
  | nil => rfl
  | cons chunk chunks ih =>
    rw [List.map_cons, List.sum_cons, ← ih]
    simp [ArrayChunk.len, ArrayChunk.append]

/-! ## Series -/

theorem Series.rechunk_len (series : Series) : series.rechunk.len = series.len := by
  obtain ⟨name, data⟩ := series
  cases data with
  | flat type chunks => simp [rechunk, len, List.length_flatten]
  | list inner chunks nonempty =>
    simp only [rechunk, len, List.map_cons, List.map_nil, List.sum_cons, List.sum_nil, Nat.add_zero]
    rw [ListChunk.len, ListChunk.ofRows, List.length_map, List.length_flatMap]
    congr 1
    exact List.map_congr_left fun chunk _ => chunk.rows_length
  | array inner size chunks nonempty =>
    simp only [rechunk, len, List.map_cons, List.map_nil, List.sum_cons, List.sum_nil, Nat.add_zero]
    exact ArrayChunk.len_foldr chunks
  | null length => rfl
  | other dataType length nullCount => rfl

theorem serializeSeriesInto_of_le {series : Series} (h : series.len ≤ i32Max) :
    serializeSeriesInto series =
      serializeChunk (if 1 < series.nChunks then series.rechunk else series) := by
  have hlen : (if 1 < series.nChunks then series.rechunk else series).len = series.len := by
    split
    · exact series.rechunk_len
    · rfl
  rw [serializeSeriesInto, if_neg (by rw [hlen]; omega)]

theorem singleton_of_not_lt {α : Type} {chunks : List α} (hne : chunks ≠ [])
    (h : ¬ 1 < chunks.length) : ∃ chunk, chunks = [chunk] := by
  cases chunks with
  | nil => exact absurd rfl hne
  | cons chunk chunks =>
    cases chunks with
    | nil => exact ⟨chunk, rfl⟩
    | cons other chunks => simp at h

theorem serializeSeriesInto_flat {name : Str} {type : FlatType}
    {chunks : List (List (Option type.Cell))} (h : chunks.flatten.length ≤ i32Max) :
    serializeSeriesInto ⟨name, .flat type chunks⟩ = serializeFlat type chunks.flatten := by
  have hlen : Series.len ⟨name, .flat type chunks⟩ = chunks.flatten.length := by
    rw [List.length_flatten]
    rfl
  rw [serializeSeriesInto_of_le (by rw [hlen]; exact h)]
  split
  · simp only [Series.rechunk, serializeChunk, List.flatten_cons, List.flatten_nil, List.append_nil]
  · rfl

theorem serializeSeriesInto_list {name : Str} {inner : FlatType}
    {chunks : List (ListChunk inner.Cell)} {nonempty : chunks ≠ []}
    (h : (chunks.map ListChunk.len).sum ≤ i32Max) :
    serializeSeriesInto ⟨name, .list inner chunks nonempty⟩ =
      serializeList (chunks.map ListChunk.len).sum inner (encodedChunk chunks nonempty) := by
  have hcount : Series.len ⟨name, .list inner chunks nonempty⟩ ≤ i32Max := h
  have hlen := Series.rechunk_len ⟨name, .list inner chunks nonempty⟩
  rw [serializeSeriesInto_of_le hcount]
  by_cases hchunks : 1 < chunks.length
  · rw [if_pos (show 1 < Series.nChunks ⟨name, .list inner chunks nonempty⟩ from hchunks)]
    rw [encodedChunk, if_pos hchunks]
    exact congrArg (fun length => serializeList length inner _) hlen
  · rw [if_neg (show ¬ 1 < Series.nChunks ⟨name, .list inner chunks nonempty⟩ from hchunks)]
    rw [encodedChunk, if_neg hchunks]
    rfl

/-- The array chunk the encoder looks at keeps the count of nulls. -/
theorem serializeSeriesInto_array {name : Str} {inner : FlatType} {size : Nat}
    {chunks : List (ArrayChunk inner.Cell size)} {nonempty : chunks ≠ []}
    (h : (chunks.map ArrayChunk.len).sum ≤ i32Max) :
    ∃ chunk : ArrayChunk inner.Cell size,
      chunk.nullCount = (chunks.map ArrayChunk.nullCount).sum ∧
      serializeSeriesInto ⟨name, .array inner size chunks nonempty⟩ =
        serializeArray (chunks.map ArrayChunk.len).sum inner size chunk := by
  have hcount : Series.len ⟨name, .array inner size chunks nonempty⟩ ≤ i32Max := h
  have hlen := Series.rechunk_len ⟨name, .array inner size chunks nonempty⟩
  rw [serializeSeriesInto_of_le hcount]
  by_cases hchunks : 1 < chunks.length
  · refine ⟨_, ArrayChunk.nullCount_foldr chunks, ?_⟩
    rw [if_pos (show 1 < Series.nChunks ⟨name, .array inner size chunks nonempty⟩ from hchunks)]
    exact congrArg (fun length => serializeArray length inner size _) hlen
  · obtain ⟨chunk, rfl⟩ := singleton_of_not_lt nonempty hchunks
    refine ⟨chunk, by simp, ?_⟩
    rw [if_neg (show ¬ 1 < Series.nChunks ⟨name, .array inner size [chunk] nonempty⟩ from hchunks)]
    rfl

/-- **Series.** The predicted length is what is appended, or a row is too long. -/
theorem getSeriesLen_exact {series : Series} {n : Nat} (h : getSeriesLen series = .ok n) :
    (∃ bytes, serializeSeriesInto series = .ok bytes ∧ bytes.length = n) ∨
      (serializeSeriesInto series = Exec.err .OverLengthErr ∧ series.HasOverlongRow) := by
  obtain ⟨name, data⟩ := series
  cases data with
  | null length =>
    simp only [getSeriesLen] at h
    split at h
    · next hzero =>
      subst hzero
      obtain ⟨-, rfl, -⟩ := checkedSeriesSize_eq_ok.mp h
      refine .inl ⟨[0, 0, 0, 0, 0, 0], ?_, rfl⟩
      rw [serializeSeriesInto_of_le (Nat.zero_le _)]
      rfl
    · cases h
  | flat type chunks =>
    have hlen : (chunks.map List.length).sum = chunks.flatten.length := by
      rw [List.length_flatten]
    simp only [getSeriesLen, Series.len, hlen] at h
    obtain ⟨hcount, hexact⟩ := getFlatLen_exact h
    rw [serializeSeriesInto_flat hcount]
    exact .inl hexact
  | list inner chunks nonempty =>
    obtain ⟨hcount, hexact⟩ := getListLen_exact nonempty h
    rw [serializeSeriesInto_list hcount]
    exact hexact
  | array inner size chunks nonempty =>
    have hcount : (chunks.map ArrayChunk.len).sum ≤ i32Max :=
      (getArrayLen_exact (ArrayChunk.nullCount_foldr chunks) h).1
    obtain ⟨chunk, hnulls, hbytes⟩ := @serializeSeriesInto_array name _ _ _ nonempty hcount
    rw [hbytes]
    exact (getArrayLen_exact hnulls h).2
  | other dataType length nullCount =>
    simp only [getSeriesLen] at h
    unfold getOtherLen at h
    split at h
    · split at h <;> cases h
    · split at h
      · cases h
      · split at h <;> cases h
    · cases h

/-! ## Values -/

theorem addSymbol_eq_ok {length total : Nat} {name : Str} :
    addSymbol length name = .ok total ↔
      0 ∉ name.bytes ∧ total = length + name.bytes.length + 1 ∧ total ≤ usizeMax := by
  simp only [addSymbol, Exec.bind_eq_ok, validateQSymbol_eq_ok, Exec.okOr_eq_ok,
    Option.bind_eq_some_iff, checkedAdd_eq_some]
  constructor
  · rintro ⟨⟨⟩, hnul, _, ⟨rfl, -⟩, htotal⟩
    exact ⟨hnul, htotal⟩
  · rintro ⟨hnul, rfl, hbound⟩
    exact ⟨(), hnul, _, ⟨rfl, by omega⟩, rfl, hbound⟩

theorem writeName_of_no_nul {name : Str} (h : 0 ∉ name.bytes) :
    writeName name = .ok (name.bytes ++ [0]) := by
  simp [writeName, validateQSymbol_of_notMem h]

/-- The columns of a frame. The names are validated, so only a column can fail. -/
theorem frameLen_exact {columns : List Series} {start total : Nat}
    (h : frameLen columns start = .ok total) :
    ∃ names, writeEach writeName (columns.map Series.name) = .ok names ∧
      ((∃ values, writeEach serializeSeriesInto columns = .ok values ∧
          names.length + values.length + start = total) ∨
        (writeEach serializeSeriesInto columns = Exec.err .OverLengthErr ∧
          ∃ column ∈ columns, column.HasOverlongRow)) := by
  induction columns generalizing start with
  | nil =>
    simp only [frameLen, Except.ok.injEq] at h
    exact ⟨[], rfl, .inl ⟨[], rfl, by simp [h]⟩⟩
  | cons column columns ih =>
    simp only [frameLen, Exec.bind_eq_ok, addSymbol_eq_ok, Exec.okOr_eq_ok, checkedAdd_eq_some] at h
    obtain ⟨_, ⟨hnul, rfl, -⟩, size, hsize, _, ⟨rfl, -⟩, hrest⟩ := h
    obtain ⟨names, hnames, hcolumns⟩ := ih hrest
    refine ⟨column.name.bytes ++ [0] ++ names, ?_, ?_⟩
    · simp [writeEach, writeName_of_no_nul hnul, hnames]
    obtain ⟨bytes, hbytes, rfl⟩ | ⟨herr, hlong⟩ := getSeriesLen_exact hsize
    · obtain ⟨values, hvalues, hlen⟩ | ⟨herr, other, hmem, hlong⟩ := hcolumns
      · refine .inl ⟨bytes ++ values, by simp [writeEach, hbytes, hvalues], ?_⟩
        simp only [List.length_append, List.length_singleton]
        omega
      · exact .inr ⟨by simp [writeEach, hbytes, herr], other, by simp [hmem], hlong⟩
    · exact .inr ⟨by simp [writeEach, herr], column, by simp, hlong⟩

namespace K

/-- Somewhere in the value a list column has a row, or an array column a width, past
a q count. -/
inductive HasOverlongRow : K → Prop
  | series {series : Xqdb.Series} : series.HasOverlongRow → HasOverlongRow (.Series series)
  | dataFrame {frame : Xqdb.DataFrame} {column : Xqdb.Series} :
    column ∈ frame.columns → column.HasOverlongRow → HasOverlongRow (.DataFrame frame)
  | mixedList {values : List K} {value : K} :
    value ∈ values → HasOverlongRow value → HasOverlongRow (.MixedList values)
  | dict {entries : List (Str × K)} {entry : Str × K} :
    entry ∈ entries → HasOverlongRow entry.2 → HasOverlongRow (.Dict entries)

/-- The encoder appends `n` bytes, or stops at a list that is too long. -/
def Appends (k : K) (n : Nat) : Prop :=
  (∃ bytes, k.appended = .ok bytes ∧ bytes.length = n) ∨
    (k.appended = Exec.err .OverLengthErr ∧ k.HasOverlongRow)

theorem textLen_exact {text : Bytes} {n : Nat} (h : textLen text.length = .ok n) :
    ∃ bytes, charVector text = .ok bytes ∧ bytes.length = n := by
  simp only [textLen, Exec.bind_eq_ok, checkedQCount_eq_ok, Exec.okOr_eq_ok, checkedAdd_eq_some] at h
  obtain ⟨-, hcount, rfl, -⟩ := h
  refine ⟨[10, 0] ++ LittleEndian.encode 4 text.length ++ text, ?_, ?_⟩
  · simp [charVector, qListLength_of_le hcount]
  · simp only [List.length_append, List.length_cons, List.length_nil, LittleEndian.encode_length]
    omega

/-- A date is far from the ends of the `i32` range. -/
theorem date_in_range (date : NaiveDate) :
    ∃ days, checkedI32 (date.numDaysFromCe.toInt - 730120) = some days := by
  refine ⟨Int32.ofInt (date.numDaysFromCe.toInt - 730120), ?_⟩
  have h₁ := date.lower
  have h₂ := date.upper
  rw [checkedI32, if_pos]
  rw [NaiveDate.numDaysFromCe_toInt]
  omega

theorem leaf_exact {k : K} (hleaf : k.IsLeaf) {depth n : Nat} (h : leafLen depth k = .ok n) :
    k.Appends n := by
  -- everything but a series and a frame is written in full
  have written : ∀ bytes, appendedLeaf k = .ok bytes → bytes.length = n → k.Appends n := by
    intro bytes hbytes hlen
    exact .inl ⟨bytes, by rw [appended_leaf hleaf, hbytes], hlen⟩
  cases k with
  | Boolean value =>
    cases h
    exact written _ rfl rfl
  | Guid value =>
    cases h
    exact written _ rfl (by simp [value.length_eq])
  | U8 value =>
    cases h
    exact written _ rfl rfl
  | I16 value =>
    cases h
    exact written _ rfl (congrArg (· + 1) (WireNumber.toLe_length value))
  | I32 value =>
    cases h
    exact written _ rfl (congrArg (· + 1) (WireNumber.toLe_length value))
  | I64 value =>
    cases h
    exact written _ rfl (congrArg (· + 1) (WireNumber.toLe_length value))
  | F32 bits =>
    cases h
    exact written _ rfl (congrArg (· + 1) (WireNumber.toLe_length bits))
  | F64 bits =>
    cases h
    exact written _ rfl (congrArg (· + 1) (WireNumber.toLe_length bits))
  | Char value =>
    cases h
    exact written _ rfl rfl
  | CharVector value =>
    obtain ⟨bytes, hbytes, hlen⟩ := textLen_exact h
    exact written bytes hbytes hlen
  | Symbol value =>
    simp only [leafLen, Exec.bind_eq_ok, validateQSymbol_eq_ok, Exec.okOr_eq_ok,
      checkedAdd_eq_some] at h
    obtain ⟨⟨⟩, hnul, rfl, -⟩ := h
    refine written (245 :: (value.bytes ++ [0])) ?_ (by simp)
    simp [appendedLeaf, validateQSymbol_of_notMem hnul]
  | String value =>
    obtain ⟨bytes, hbytes, hlen⟩ := textLen_exact h
    exact written bytes hbytes hlen
  | DateTime value =>
    simp only [leafLen, checkDateTime, Exec.bind_eq_ok, Exec.okOr_eq_ok, Except.ok.injEq] at h
    obtain ⟨q, ⟨unixNanoseconds, hunix, hq⟩, rfl⟩ := h
    refine written (244 :: toLe q) ?_ (congrArg (· + 1) (WireNumber.toLe_length q))
    simp [appendedLeaf, hunix, qTimestampNanoseconds, hq]
  | Date value =>
    cases h
    obtain ⟨days, hdays⟩ := date_in_range value
    refine written (242 :: toLe days) ?_ (congrArg (· + 1) (WireNumber.toLe_length days))
    simp [appendedLeaf, hdays]
  | Time value =>
    simp only [leafLen] at h
    split at h
    · cases h
    · cases h
      exact written _ rfl (congrArg (· + 1) (WireNumber.toLe_length _))
  | Duration value =>
    simp only [leafLen, Exec.bind_eq_ok, Exec.okOr_eq_ok, Except.ok.injEq] at h
    obtain ⟨nanoseconds, hnanos, rfl⟩ := h
    refine written (240 :: toLe nanoseconds) ?_ (congrArg (· + 1) (WireNumber.toLe_length _))
    simp [appendedLeaf, hnanos]
  | Series series =>
    have happended : (Series series).appended = serializeSeriesInto series := appended_leaf hleaf
    rw [Appends, happended]
    exact (getSeriesLen_exact h).imp id fun ⟨herr, hlong⟩ => ⟨herr, .series hlong⟩
  | DataFrame frame =>
    simp only [leafLen, Exec.bind_eq_ok, checkedQCount_eq_ok] at h
    obtain ⟨-, hcount, hframe⟩ := h
    rw [DataFrame.width] at hcount
    have happended : (DataFrame frame).appended = serializeFrame frame := appended_leaf hleaf
    obtain ⟨names, hnames, ⟨values, hvalues, hlen⟩ | ⟨herr, column, hmem, hlong⟩⟩ :=
      frameLen_exact hframe
    · refine .inl ⟨_, by
        rw [happended, serializeFrame, qListLength_of_le hcount, Exec.ok_bind, hnames, Exec.ok_bind,
          hvalues, Exec.ok_bind], ?_⟩
      simp only [List.length_append, List.length_cons, List.length_nil, LittleEndian.encode_length]
      omega
    · refine .inr ⟨?_, .dataFrame hmem hlong⟩
      rw [happended, serializeFrame, qListLength_of_le hcount, Exec.ok_bind, hnames, Exec.ok_bind,
        herr, Exec.err_bind]
  | QValue value =>
    simp only [leafLen] at h
    split at h
    · cases h
    · cases h
      exact written _ rfl rfl
  | Operator operator =>
    cases h
    exact written _ rfl rfl
  | Lambda lambda =>
    simp only [leafLen, Exec.bind_eq_ok, checkedQCount_eq_ok, Exec.okOr_eq_ok,
      Option.bind_eq_some_iff, checkedAdd_eq_some] at h
    obtain ⟨-, hcount, _, ⟨rfl, -⟩, rfl, -⟩ := h
    refine written ([100] ++ lambda.context.bytes ++ [0, 10, 0] ++
      LittleEndian.encode 4 lambda.source.bytes.length ++ lambda.source.bytes) ?_ ?_
    · simp [appendedLeaf, qListLength_of_le hcount]
    · simp only [List.length_append, List.length_cons, List.length_nil, LittleEndian.encode_length]
      omega
  | Null =>
    cases h
    exact written _ rfl rfl
  | MixedList values => exact hleaf.elim
  | Dict entries => exact hleaf.elim

/-- Members one after the other, from `start` on. -/
theorem listLen_exact {values : List K} {depth start total : Nat}
    (ih : ∀ value ∈ values, ∀ {n : Nat}, value.j6LenWithDepth depth = .ok n → value.Appends n)
    (h : listLen values depth start = .ok total) :
    (∃ bytes, appendedAll values = .ok bytes ∧ bytes.length + start = total) ∨
      (appendedAll values = Exec.err .OverLengthErr ∧ ∃ value ∈ values, value.HasOverlongRow) := by
  induction values generalizing start with
  | nil =>
    simp only [listLen, Except.ok.injEq] at h
    exact .inl ⟨[], by simp [appendedAll], by simp [h]⟩
  | cons value values ihv =>
    simp only [listLen, Exec.bind_eq_ok, Exec.okOr_eq_ok, checkedAdd_eq_some] at h
    obtain ⟨size, hsize, _, ⟨rfl, -⟩, hrest⟩ := h
    obtain ⟨bytes, hbytes, rfl⟩ | ⟨herr, hlong⟩ := ih value (by simp) hsize
    · obtain ⟨rest, hrestBytes, hlen⟩ | ⟨herr, other, hmem, hlong⟩ :=
        ihv (fun v hv => ih v (by simp [hv])) hrest
      · refine .inl ⟨bytes ++ rest, by simp [appendedAll, hbytes, hrestBytes], ?_⟩
        rw [List.length_append]
        omega
      · exact .inr ⟨by simp [appendedAll, hbytes, herr], other, by simp [hmem], hlong⟩
    · exact .inr ⟨by simp [appendedAll, herr], value, by simp, hlong⟩

/-- The entries of a dictionary: keys are validated, so only a value can fail. -/
theorem entriesLen_exact {entries : List (Str × K)} {depth start total : Nat}
    (ih : ∀ entry ∈ entries, ∀ {n : Nat}, entry.2.j6LenWithDepth depth = .ok n → entry.2.Appends n)
    (h : entriesLen entries depth start = .ok total) :
    ∃ keys, writeEach writeName (entries.map Prod.fst) = .ok keys ∧
      ((∃ bytes, appendedEntries entries = .ok bytes ∧
          keys.length + bytes.length + start = total) ∨
        (appendedEntries entries = Exec.err .OverLengthErr ∧
          ∃ entry ∈ entries, entry.2.HasOverlongRow)) := by
  induction entries generalizing start with
  | nil =>
    simp only [entriesLen, Except.ok.injEq] at h
    exact ⟨[], rfl, .inl ⟨[], by simp [appendedEntries], by simp [h]⟩⟩
  | cons entry entries ihe =>
    obtain ⟨key, value⟩ := entry
    simp only [entriesLen, Exec.bind_eq_ok, addSymbol_eq_ok, Exec.okOr_eq_ok,
      checkedAdd_eq_some] at h
    obtain ⟨_, ⟨hnul, rfl, -⟩, size, hsize, _, ⟨rfl, -⟩, hrest⟩ := h
    obtain ⟨keys, hkeys, hvalues⟩ := ihe (fun e he => ih e (by simp [he])) hrest
    refine ⟨key.bytes ++ [0] ++ keys, ?_, ?_⟩
    · simp [writeEach, writeName_of_no_nul hnul, hkeys]
    obtain ⟨bytes, hbytes, rfl⟩ | ⟨herr, hlong⟩ := ih (key, value) (by simp) hsize
    · obtain ⟨rest, hrestBytes, hlen⟩ | ⟨herr, other, hmem, hlong⟩ := hvalues
      · refine .inl ⟨bytes ++ rest, by simp [appendedEntries, hbytes, hrestBytes], ?_⟩
        simp only [List.length_append, List.length_singleton]
        omega
      · exact .inr ⟨by simp [appendedEntries, hbytes, herr], other, by simp [hmem], hlong⟩
    · exact .inr ⟨by simp [appendedEntries, herr], (key, value), by simp, hlong⟩

/-- **One level of the prediction**, for every value and every level. -/
theorem j6LenWithDepth_exact (k : K) :
    ∀ {depth n : Nat}, k.j6LenWithDepth depth = .ok n → k.Appends n := by
  induction k using K.induct with
  | leaf k hleaf =>
    intro depth n h
    rw [j6LenWithDepth_leaf hleaf] at h
    split at h
    · cases h
    · exact leaf_exact hleaf h
  | mixedList values ih =>
    intro depth n h
    rw [j6LenWithDepth] at h
    split at h
    · cases h
    simp only [Exec.bind_eq_ok, checkedQCount_eq_ok] at h
    obtain ⟨-, hcount, hlist⟩ := h
    obtain ⟨bytes, hbytes, hlen⟩ | ⟨herr, value, hmem, hlong⟩ :=
      listLen_exact (fun value hmem _ h => ih value hmem h) hlist
    · refine .inl ⟨[0, 0] ++ LittleEndian.encode 4 values.length ++ bytes, ?_, ?_⟩
      · simp [appended, qListLength_of_le hcount, hbytes]
      · simp only [List.length_append, List.length_cons, List.length_nil,
          LittleEndian.encode_length]
        omega
    · exact .inr ⟨by simp [appended, qListLength_of_le hcount, herr], .mixedList hmem hlong⟩
  | dict entries ih =>
    intro depth n h
    rw [j6LenWithDepth] at h
    split at h
    · cases h
    simp only [Exec.bind_eq_ok, checkedQCount_eq_ok] at h
    obtain ⟨-, hcount, hentries⟩ := h
    obtain ⟨keys, hkeys, ⟨bytes, hbytes, hlen⟩ | ⟨herr, entry, hmem, hlong⟩⟩ :=
      entriesLen_exact (fun entry hmem _ h => ih entry hmem h) hentries
    · refine .inl ⟨[99, 11, 0] ++ LittleEndian.encode 4 entries.length ++ keys ++ [0, 0] ++
        LittleEndian.encode 4 entries.length ++ bytes, ?_, ?_⟩
      · simp [appended, qListLength_of_le hcount, hkeys, hbytes]
      · simp only [List.length_append, List.length_cons, List.length_nil,
          LittleEndian.encode_length]
        omega
    · exact .inr ⟨by simp [appended, qListLength_of_le hcount, hkeys, herr], .dict hmem hlong⟩

/-- **Length prediction is exact.** Where `j6_len` answers `n`, `serialize_into` appends
`n` bytes, or refuses a list that is longer than a q count. -/
theorem serializeInto_appends_j6Len (k : K) (vec : Bytes) (n : Nat) (h : k.j6Len = .ok n) :
    (∃ bytes, k.serializeInto vec = .ok (vec ++ bytes) ∧ bytes.length = n) ∨
      (k.serializeInto vec = Exec.err .OverLengthErr ∧ k.HasOverlongRow) := by
  obtain ⟨bytes, hbytes, hlen⟩ | ⟨herr, hlong⟩ := j6LenWithDepth_exact k h
  · exact .inl ⟨bytes, by simp [serializeInto, hbytes], hlen⟩
  · exact .inr ⟨by simp [serializeInto, herr], hlong⟩

/-- What `serialize` returns is an allocation. -/
theorem serialize_length_le {k : K} {bytes : Bytes} (h : k.serialize = .ok bytes) :
    bytes.length ≤ isizeMax := by
  obtain ⟨⟨n, hn, hle⟩, happended⟩ := serialize_eq_ok.mp h
  obtain ⟨bytes', hbytes, hlen⟩ | ⟨herr, -⟩ := j6LenWithDepth_exact k hn
  · obtain rfl : bytes = bytes' := Except.ok.inj (happended.symm.trans hbytes)
    omega
  · rw [happended] at herr
    cases herr

/-- A list column of two chunks, the first sliced and with a null inside a row. -/
def slicedLists : Xqdb.Series :=
  ⟨Str.empty, .list .int16
    [⟨[some 7, some 1, none, some 3], [1, 3, 3], [true, true], rfl, by decide⟩,
     ⟨[some 9], [0, 1], [true], rfl, by decide⟩] (by simp)⟩

theorem serializeInto_appends_slicedLists :
    (K.Series slicedLists).j6Len = .ok 30 ∧
      (∃ bytes, (K.Series slicedLists).serializeInto [1, 2] = .ok ([1, 2] ++ bytes) ∧
        bytes.length = 30) := by
  refine ⟨by decide, ?_⟩
  obtain h | ⟨h, -⟩ := serializeInto_appends_j6Len (.Series slicedLists) [1, 2] 30 (by decide)
  · exact h
  · exact absurd h (by decide)

end K
end Xqdb
