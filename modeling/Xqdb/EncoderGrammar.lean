import Xqdb.LengthExact
import Xqdb.QValue.Unambiguous

/-! What the encoder writes is a value of the lossless grammar, and how deep it is.
The encoder counts one level for a list, a dictionary and a table alike. On the wire
a dictionary has its values two levels down, a table its columns three, a nested
column its rows and a lambda its source one. -/

namespace Xqdb

open QValue (Wire)
open WireNumber (toLe)

/-! ## Levels on the wire -/

/-- Texts are lists, one level down. -/
def flatDepth (type : FlatType) (length : Nat) : Nat :=
  match type with
  | .string => if length = 0 then 0 else 1
  | _ => 0

/-- A column of lists or texts has its rows one level down. -/
def Series.wireDepth (series : Series) : Nat :=
  match series.data with
  | .flat type _ => flatDepth type series.len
  | .list _ _ _ => if series.len = 0 then 0 else 1
  | .array _ _ _ _ => if series.len = 0 then 0 else 1
  | _ => 0

/-- Levels of columns one level down. -/
def columnLevels : List Series → Nat
  | [] => 0
  | column :: columns => max (1 + column.wireDepth) (columnLevels columns)

namespace K

mutual

/-- Levels of the encoded value below the value itself. -/
def wireDepth : K → Nat
  | .MixedList values => wireLevels values
  | .Dict entries => 1 + entryLevels entries
  | .Series series => series.wireDepth
  | .DataFrame frame => 2 + columnLevels frame.columns
  | .Lambda _ => 1
  | .QValue value => value.metadata.maxDepth
  | _ => 0

def wireLevels : List K → Nat
  | [] => 0
  | value :: values => max (1 + value.wireDepth) (wireLevels values)

def entryLevels : List (Str × K) → Nat
  | [] => 0
  | (_, value) :: entries => max (1 + value.wireDepth) (entryLevels entries)

end

end K

/-! ## Trees of what is written -/

theorem listHeader_plain (count : Nat) :
    QValue.listHeader 0 count = 0 :: LittleEndian.encode 4 count := by
  simp [QValue.listHeader]

theorem headerOk_plain {count : Nat} : QValue.HeaderOk 0 count ↔ count ≤ i32Max := by
  simp only [QValue.HeaderOk, i32Max]
  constructor
  · rintro ⟨-, h⟩
    simp at h
    omega
  · intro h
    exact ⟨by decide, by simp; omega⟩

theorem qListLength_eq_ok {length : Nat} {bytes : Bytes} :
    qListLength length = .ok bytes ↔ length ≤ i32Max ∧ bytes = LittleEndian.encode 4 length := by
  unfold qListLength
  split
  · next h => simp [h, eq_comm]
  · next h => simp [h]

/-- The bytes are a well-formed list of `len` elements with `depth` levels below it. -/
def IsList (bytes : Bytes) (len depth : Nat) : Prop :=
  ∃ wire : Wire, wire.WF ∧ wire.encode = bytes ∧ wire.depth = depth ∧
    wire.parsed.sequenceLen = some len

/-- The bytes are a well-formed value with `depth` levels below it. -/
def IsValue (bytes : Bytes) (depth : Nat) : Prop :=
  ∃ wire : Wire, wire.WF ∧ wire.encode = bytes ∧ wire.depth = depth

theorem IsList.isValue {bytes : Bytes} {len depth : Nat} (h : IsList bytes len depth) :
    IsValue bytes depth := by
  obtain ⟨wire, hwf, hbytes, hdepth, -⟩ := h
  exact ⟨wire, hwf, hbytes, hdepth⟩

/-- A list of fixed-width elements under a plain header. -/
theorem isList_fixed {kType : UInt8} {count width : Nat} {payload : Bytes}
    (hkind : 1 ≤ kType ∧ kType ≤ 19 ∧ kType ≠ 3 ∧ kType ≠ 11) (hwidth : typeSize kType = width)
    (hcount : count ≤ i32Max) (hlen : payload.length = count * width)
    (hbool : kType = 1 → ∀ b ∈ payload, b ≤ 1) :
    IsList (kType :: 0 :: LittleEndian.encode 4 count ++ payload) count 0 := by
  refine ⟨.fixedList kType 0 count payload, ?_, ?_, rfl, rfl⟩
  · exact ⟨hkind.1, hkind.2.1, hkind.2.2.1, hkind.2.2.2, headerOk_plain.mpr hcount,
      by rw [hlen, hwidth], hbool⟩
  · simp [Wire.encode, listHeader_plain]

theorem isList_charVector {text bytes : Bytes} (h : charVector text = .ok bytes) :
    IsList bytes text.length 0 := by
  simp only [charVector, Exec.bind_eq_ok, qListLength_eq_ok, Except.ok.injEq] at h
  obtain ⟨_, ⟨hcount, rfl⟩, rfl⟩ := h
  exact isList_fixed (by decide) (rfl : typeSize 10 = 1) hcount (Nat.mul_one _).symm
    (fun h => absurd h (by decide))

/-- Items that each write a value write the values of a list. -/
theorem writeEach_values {α : Type} {write : α → Exec Bytes} {P : α → Wire → Prop} {items : List α}
    {bytes : Bytes}
    (hitem : ∀ item ∈ items, ∀ bytes, write item = .ok bytes → ∃ wire, P item wire ∧ wire.encode = bytes)
    (h : writeEach write items = .ok bytes) :
    ∃ wires, List.Forall₂ P items wires ∧ Wire.encodeAll wires = bytes := by
  induction items generalizing bytes with
  | nil =>
    cases h
    exact ⟨[], .nil, rfl⟩
  | cons item items ih =>
    simp only [writeEach, Exec.bind_eq_ok, Except.ok.injEq] at h
    obtain ⟨first, hfirst, rest, hrest, rfl⟩ := h
    obtain ⟨wire, hwire, rfl⟩ := hitem item (by simp) first hfirst
    obtain ⟨wires, hwires, rfl⟩ := ih (fun i hi => hitem i (by simp [hi])) hrest
    exact ⟨wire :: wires, .cons hwire hwires, rfl⟩

/-- Members of which each is a value `depth` levels deep. -/
theorem levels_of_forall₂ {α : Type} {items : List α} {wires : List Wire} {depth : Nat}
    (h : List.Forall₂ (fun _ wire => wire.WF ∧ wire.depth = depth) items wires) :
    Wire.AllWF wires ∧ wires.length = items.length ∧
      Wire.levels wires = if items.length = 0 then 0 else 1 + depth := by
  induction h with
  | nil => exact ⟨trivial, rfl, rfl⟩
  | @cons item wire items wires hwire hrest ih =>
    obtain ⟨hwf, hlen, hlevels⟩ := ih
    refine ⟨⟨hwire.1, hwf⟩, by simp [hlen], ?_⟩
    simp only [Wire.levels, hlevels, hwire.2, List.length_cons, Nat.add_one_ne_zero, if_false]
    split <;> omega

/-- Rows that are plain lists make a general list one level deep. -/
theorem isList_rows {α : Type} {write : α → Exec Bytes} {items : List α} {bytes : Bytes}
    (hcount : items.length ≤ i32Max)
    (hitem : ∀ item ∈ items, ∀ bytes, write item = .ok bytes → IsValue bytes 0)
    (h : writeEach write items = .ok bytes) :
    IsList (seriesHeader 0 items.length ++ bytes) items.length
      (if items.length = 0 then 0 else 1) := by
  obtain ⟨wires, hwires, rfl⟩ := writeEach_values
    (P := fun _ wire => wire.WF ∧ wire.depth = 0) (fun item hmem bytes hbytes => by
      obtain ⟨wire, hwf, hencode, hdepth⟩ := hitem item hmem bytes hbytes
      exact ⟨wire, ⟨hwf, hdepth⟩, hencode⟩) h
  obtain ⟨hwf, hlen, hlevels⟩ := levels_of_forall₂ hwires
  refine ⟨.generalList 0 wires, ⟨by decide, ?_, hwf⟩, ?_, hlevels, by rw [← hlen]; rfl⟩
  · rw [hlen]
    have : i32Max = 2 ^ 31 - 1 := rfl
    omega
  · simp [Wire.encode, seriesHeader, hlen]

/-! ## Columns -/

theorem flatKType_fixed {type : FlatType} {width : Nat} (h : flatWidth type = some width) :
    (1 ≤ flatKType type ∧ flatKType type ≤ 19 ∧ flatKType type ≠ 3 ∧ flatKType type ≠ 11) ∧
      typeSize (flatKType type) = width := by
  cases type with
  | datetime unit =>
    cases h
    cases unit <;> exact ⟨by decide, rfl⟩
  | duration unit =>
    cases h
    cases unit <;> exact ⟨by decide, rfl⟩
  | string => cases h
  | categorical mapping => cases h
  | _ =>
    cases h
    exact ⟨by decide, rfl⟩

theorem boolByte_le (value : Bool) : boolByte value ≤ 1 := by
  cases value <;> decide

/-- A row of a column: as wide as its type says, and 0 or 1 in a Boolean column. -/
def IsCell (kType : UInt8) (width : Nat) (bytes : Bytes) : Prop :=
  bytes.length = width ∧ (kType = 1 → ∀ b ∈ bytes, b ≤ 1)

theorem isCell_toLe {α : Type} [WireNumber α] {kType : UInt8} (h : kType ≠ 1) (value : α) :
    IsCell kType (WireNumber.width α) (toLe value) :=
  ⟨WireNumber.toLe_length value, fun hk => absurd hk h⟩

theorem writeEach_cells {α : Type} {write : α → Exec Bytes} {items : List α} {kType : UInt8}
    {width : Nat} {payload : Bytes}
    (hitem : ∀ item ∈ items, ∀ bytes, write item = .ok bytes → IsCell kType width bytes)
    (h : writeEach write items = .ok payload) : IsCell kType (items.length * width) payload := by
  induction items generalizing payload with
  | nil =>
    cases h
    exact ⟨by simp, by simp⟩
  | cons item items ih =>
    simp only [writeEach, Exec.bind_eq_ok, Except.ok.injEq] at h
    obtain ⟨first, hfirst, rest, hrest, rfl⟩ := h
    have hcell := hitem item (by simp) first hfirst
    have hcells := ih (fun i hi => hitem i (by simp [hi])) hrest
    refine ⟨?_, fun hk b hb => ?_⟩
    · rw [List.length_append, hcell.1, hcells.1, List.length_cons, Nat.add_one_mul]
      omega
    · rcases List.mem_append.mp hb with hb | hb
      · exact hcell.2 hk b hb
      · exact hcells.2 hk b hb

/-- Every row that is written is a row of its type; the width of a GUID is what
`validateCells` checks. -/
theorem writeCell_isCell {type : FlatType} {width : Nat} (hwidth : flatWidth type = some width)
    {cells : List (Option type.Cell)} (hvalid : validateCells type cells = .ok ()) :
    ∀ cell ∈ cells, ∀ bytes, writeCell type cell = .ok bytes →
      IsCell (flatKType type) width bytes := by
  intro cell hmem bytes h
  cases type with
  | boolean =>
    cases hwidth
    cases h
    exact ⟨rfl, fun _ b hb => by
      rw [List.mem_singleton] at hb
      exact hb ▸ boolByte_le _⟩
  | uint8 =>
    cases hwidth
    cases h
    exact ⟨rfl, fun hk => absurd hk (by decide)⟩
  | int16 =>
    cases hwidth
    cases h
    exact isCell_toLe (by decide) _
  | int32 =>
    cases hwidth
    cases h
    exact isCell_toLe (by decide) _
  | int64 =>
    cases hwidth
    cases h
    exact isCell_toLe (by decide) _
  | float32 =>
    cases hwidth
    cases h
    exact isCell_toLe (by decide) _
  | float64 =>
    cases hwidth
    cases h
    exact isCell_toLe (by decide) _
  | date =>
    cases hwidth
    cases cell with
    | none =>
      cases h
      exact isCell_toLe (by decide) _
    | some days =>
      simp only [writeCell, Exec.bind_eq_ok, Except.ok.injEq] at h
      obtain ⟨q, -, rfl⟩ := h
      exact isCell_toLe (by decide) q
  | datetime unit =>
    cases hwidth
    cases unit with
    | milliseconds =>
      cases cell with
      | none =>
        cases h
        exact isCell_toLe (by decide) _
      | some value =>
        cases h
        exact isCell_toLe (by decide) _
    | _ =>
      cases cell with
      | none =>
        cases h
        exact isCell_toLe (by decide) _
      | some value =>
        simp only [writeCell, Exec.bind_eq_ok, Except.ok.injEq] at h
        obtain ⟨_, -, q, -, rfl⟩ := h
        exact isCell_toLe (by decide) q
  | duration unit =>
    cases hwidth
    cases cell with
    | none =>
      cases h
      exact isCell_toLe (by simp [flatKType]) _
    | some value =>
      simp only [writeCell, Exec.bind_eq_ok, Except.ok.injEq] at h
      obtain ⟨q, -, rfl⟩ := h
      exact isCell_toLe (by simp [flatKType]) q
  | time =>
    cases hwidth
    cases cell with
    | none =>
      cases h
      exact isCell_toLe (by decide) _
    | some value =>
      simp only [writeCell, Exec.bind_eq_ok, Except.ok.injEq] at h
      obtain ⟨q, -, rfl⟩ := h
      exact isCell_toLe (by decide) q
  | binary =>
    cases hwidth
    cases h
    refine ⟨?_, fun hk => absurd hk (by decide)⟩
    cases cell with
    | none => rfl
    | some value =>
      rw [validateCells, validateGuidSeries_eq_ok] at hvalid
      exact hvalid value (mem_presentCells.mpr (by simpa using hmem))
  | string => cases hwidth
  | categorical mapping => cases hwidth

/-! ### Symbols -/

/-- The cached texts have passed `validate_q_symbol`. -/
def SymbolLookup.Clean {mapping : CategoricalMapping} (lookup : SymbolLookup mapping) : Prop :=
  ∀ slot ∈ lookup.slots, ∀ entry, slot = some entry → 0 ∉ entry.2.bytes

theorem SymbolLookup.clean_new (mapping : CategoricalMapping) :
    (SymbolLookup.new mapping).Clean := by
  intro slot hslot entry hentry
  rw [List.eq_of_mem_replicate hslot] at hentry
  cases hentry

theorem SymbolLookup.resolve_clean {mapping : CategoricalMapping}
    {lookup lookup' : SymbolLookup mapping} {category : Nat} {symbol : Str} (hclean : lookup.Clean)
    (h : lookup.resolve category = .ok (symbol, lookup')) : 0 ∉ symbol.bytes ∧ lookup'.Clean := by
  unfold resolve at h
  split at h
  · next cached hcached =>
    cases h
    refine ⟨?_, hclean⟩
    unfold SymbolLookup.cached at hcached
    split at hcached
    · next key text hslot =>
      split at hcached
      · cases hcached
        exact hclean _ (List.mem_of_getElem? hslot) _ rfl
      · cases hcached
    · cases hcached
  · simp only [Exec.bind_eq_ok, validateQSymbol_eq_ok, Except.ok.injEq] at h
    obtain ⟨text, -, -, hnul, heq⟩ := h
    obtain ⟨rfl, rfl⟩ := Prod.mk.inj heq
    refine ⟨hnul, ?_⟩
    intro slot hslot entry hentry
    rcases List.mem_or_eq_of_mem_set hslot with hslot | rfl
    · exact hclean slot hslot entry hentry
    · cases hentry
      exact hnul

/-- The rows of a symbol column, a null as the empty symbol. -/
theorem writeSymbol_texts {mapping : CategoricalMapping} {cells : List (Option Nat)}
    {lookup lookup' : SymbolLookup mapping} {out bytes : Bytes} (hclean : lookup.Clean)
    (h : forEachCategory writeSymbol cells (lookup, out) = .ok (lookup', bytes)) :
    ∃ texts, bytes = out ++ QValue.symbolBytes texts ∧ texts.length = cells.length ∧
      ∀ text ∈ texts, 0 ∉ text := by
  induction cells generalizing lookup out with
  | nil =>
    cases h
    exact ⟨[], by simp [QValue.symbolBytes], rfl, by simp⟩
  | cons cell cells ih =>
    cases cell with
    | none =>
      simp only [forEachCategory, writeSymbol, Exec.ok_bind] at h
      obtain ⟨texts, rfl, hlen, hnul⟩ := ih hclean h
      exact ⟨[] :: texts, by simp [QValue.symbolBytes], by simp [hlen], by simpa using hnul⟩
    | some category =>
      simp only [forEachCategory, writeSymbol, Exec.bind_eq_ok, Except.ok.injEq, Prod.exists] at h
      obtain ⟨_, _, ⟨symbol, next, hresolve, heq⟩, hrest⟩ := h
      obtain ⟨rfl, rfl⟩ := Prod.mk.inj heq
      obtain ⟨hsymbol, hnext⟩ := SymbolLookup.resolve_clean hclean hresolve
      obtain ⟨texts, rfl, hlen, hnul⟩ := ih hnext hrest
      refine ⟨symbol.bytes :: texts, by simp [QValue.symbolBytes], by simp [hlen], ?_⟩
      intro text htext
      cases htext with
      | head => exact hsymbol
      | tail _ htext => exact hnul text htext

theorem isList_symbols {texts : List Bytes} (hcount : texts.length ≤ i32Max)
    (hnul : ∀ text ∈ texts, 0 ∉ text) :
    IsList (seriesHeader 11 texts.length ++ QValue.symbolBytes texts) texts.length 0 :=
  ⟨.symbolList 0 texts, ⟨headerOk_plain.mpr hcount, hnul⟩,
    by simp [Wire.encode, seriesHeader, listHeader_plain], rfl, rfl⟩

/-- **Flat columns.** -/
theorem serializeFlat_isList {type : FlatType} {cells : List (Option type.Cell)} {bytes : Bytes}
    (hcount : cells.length ≤ i32Max) (h : serializeFlat type cells = .ok bytes) :
    IsList bytes cells.length (flatDepth type cells.length) := by
  simp only [serializeFlat, Exec.bind_eq_ok, Except.ok.injEq] at h
  obtain ⟨⟨⟩, hvalid, payload, hpayload, rfl⟩ := h
  have fixed : ∀ {width : Nat}, flatWidth type = some width →
      IsList (seriesHeader (flatKType type) cells.length ++ payload) cells.length 0 := by
    intro width hwidth
    rw [writeCells_fixed hwidth] at hpayload
    have hcells := writeEach_cells (writeCell_isCell hwidth hvalid) hpayload
    obtain ⟨hkind, hsize⟩ := flatKType_fixed hwidth
    exact isList_fixed hkind hsize hcount hcells.1 hcells.2
  cases type with
  | string =>
    refine isList_rows hcount (fun cell _ bytes hcell => ?_) hpayload
    cases cell with
    | none =>
      have hempty : charVector [] = .ok bytes := hcell
      exact (isList_charVector hempty).isValue
    | some text => exact (isList_charVector hcell).isValue
  | categorical mapping =>
    simp only [writeCells, Exec.bind_eq_ok, Prod.exists, Except.ok.injEq] at hpayload
    obtain ⟨lookup, _, hsymbols, rfl⟩ := hpayload
    obtain ⟨texts, rfl, hlen, hnul⟩ := writeSymbol_texts (SymbolLookup.clean_new mapping) hsymbols
    rw [List.nil_append, ← hlen]
    exact isList_symbols (by omega) hnul
  | _ => exact fixed rfl

/-! ### Lists and arrays -/

theorem isList_booleans {start count : Nat} {values : List (Option Bool)} {length : Bytes}
    (h : qListLength count = .ok length) :
    IsList ([1, 0] ++ length ++
      (List.range' start count).map fun i => boolByte ((values[i]?.join).getD false)) count 0 := by
  obtain ⟨hcount, rfl⟩ := qListLength_eq_ok.mp h
  have hone : typeSize 1 = 1 := rfl
  refine isList_fixed (by decide) hone hcount (by simp) fun _ b hb => ?_
  obtain ⟨i, -, rfl⟩ := List.mem_map.mp hb
  exact boolByte_le _

theorem writeNestedRow_isValue {α : Type} {kType : UInt8} {toBytes : Option α → Bytes}
    {negative exceed : String} {values : List (Option α)} {range : Int × Int} {bytes : Bytes}
    (hkind : 2 ≤ kType ∧ kType ≤ 19 ∧ kType ≠ 3 ∧ kType ≠ 11)
    (hwidth : ∀ cell, (toBytes cell).length = typeSize kType)
    (h : writeNestedRow kType toBytes negative exceed values range = .ok bytes) :
    IsValue bytes 0 := by
  simp only [writeNestedRow, Exec.bind_eq_ok, qListLength_eq_ok, Except.ok.injEq] at h
  obtain ⟨start, -, stop, -, row, -, _, ⟨hcount, rfl⟩, rfl⟩ := h
  have hpayload : (row.flatMap toBytes).length = row.length * typeSize kType := by
    rw [List.length_flatMap]
    simp only [hwidth, List.map_const', List.sum_replicate_nat]
  have hne : kType ≠ 1 := by
    rintro rfl
    exact absurd hkind.1 (by decide)
  have hone : (1 : UInt8) ≤ 2 := by decide
  exact (isList_fixed ⟨UInt8.le_trans hone hkind.1, hkind.2⟩ rfl hcount hpayload
    fun hk => absurd hk hne).isValue

theorem writeListRow_isValue {inner : FlatType} {values : List (Option inner.Cell)}
    {range : Int × Int} {bytes : Bytes} (h : writeListRow inner values range = .ok bytes) :
    IsValue bytes 0 := by
  cases inner with
  | boolean =>
    simp only [writeListRow, writeBooleanRow, Exec.bind_eq_ok, Except.ok.injEq] at h
    obtain ⟨start, -, stop, -, count, -, length, hlength, rfl⟩ := h
    exact (isList_booleans hlength).isValue
  | uint8 => exact writeNestedRow_isValue (by decide) (fun _ => rfl) h
  | int16 => exact writeNestedRow_isValue (by decide) (fun _ => WireNumber.toLe_length _) h
  | int32 => exact writeNestedRow_isValue (by decide) (fun _ => WireNumber.toLe_length _) h
  | int64 => exact writeNestedRow_isValue (by decide) (fun _ => WireNumber.toLe_length _) h
  | float32 => exact writeNestedRow_isValue (by decide) (fun _ => WireNumber.toLe_length _) h
  | float64 => exact writeNestedRow_isValue (by decide) (fun _ => WireNumber.toLe_length _) h
  | _ => cases h

theorem serializeList_isList {length : Nat} {inner : FlatType} {chunk : ListChunk inner.Cell}
    {bytes : Bytes} (hcount : length ≤ i32Max) (h : serializeList length inner chunk = .ok bytes) :
    IsList bytes length (if length = 0 then 0 else 1) := by
  unfold serializeList at h
  split at h
  · cases h
  next hoffsets =>
  split at h
  · cases h
  simp only [Exec.bind_eq_ok, Except.ok.injEq] at h
  obtain ⟨-, -, rows, hrows, rfl⟩ := h
  have hlen : (windows chunk.offsets).length = length := by
    rw [windows_length]
    omega
  rw [← hlen] at hcount ⊢
  exact isList_rows hcount (fun _ _ _ hrow => writeListRow_isValue hrow) hrows

theorem serializeArray_isList {length : Nat} {inner : FlatType} {size : Nat}
    {chunk : ArrayChunk inner.Cell size} {bytes : Bytes} (hcount : length ≤ i32Max)
    (h : serializeArray length inner size chunk = .ok bytes) :
    IsList bytes length (if length = 0 then 0 else 1) := by
  unfold serializeArray at h
  split at h
  · cases h
  cases inner with
  | boolean =>
    simp only [Exec.bind_eq_ok, Except.ok.injEq] at h
    obtain ⟨-, -, rows, hrows, rfl⟩ := h
    have hlen : (List.range length).length = length := List.length_range
    have hlist := @isList_rows _ _ _ _ (by rwa [hlen]) ?_ hrows
    · rwa [hlen] at hlist
    intro row _ bytes hrow
    simp only [writeArrayRow, Exec.bind_eq_ok, Except.ok.injEq] at hrow
    obtain ⟨count, hsize, start, -, _, -, rfl⟩ := hrow
    exact (isList_booleans hsize).isValue
  | _ => cases h

theorem serializeSeriesInto_len {series : Series} {bytes : Bytes} (h : serializeSeriesInto series = .ok bytes) :
    series.len ≤ i32Max := by
  by_contra hlong
  have hlen : (if 1 < series.nChunks then series.rechunk else series).len = series.len := by
    split
    · exact series.rechunk_len
    · rfl
  rw [serializeSeriesInto, if_pos (by rw [hlen]; omega)] at h
  cases h

theorem serializeOther_ne_ok (dataType : DataType) (nullCount : Nat) (bytes : Bytes) :
    serializeOther dataType nullCount ≠ .ok bytes := by
  intro h
  unfold serializeOther at h
  split at h
  · split at h <;> cases h
  · split at h <;> cases h
  · cases h

/-- **Series.** -/
theorem serializeSeriesInto_isList {series : Series} {bytes : Bytes}
    (h : serializeSeriesInto series = .ok bytes) : IsList bytes series.len series.wireDepth := by
  have hcount : series.len ≤ i32Max := serializeSeriesInto_len h
  obtain ⟨name, data⟩ := series
  cases data with
  | null length =>
    rw [serializeSeriesInto_of_le hcount] at h
    simp only [Series.nChunks, Nat.lt_irrefl, if_false, serializeChunk] at h
    split at h
    · next hzero =>
      cases h
      subst hzero
      exact ⟨.generalList 0 [], ⟨by decide, by decide, trivial⟩, rfl, rfl, rfl⟩
    · cases h
  | flat type chunks =>
    have hlen : Series.len ⟨name, .flat type chunks⟩ = chunks.flatten.length := by
      rw [List.length_flatten]
      rfl
    rw [hlen] at hcount
    rw [serializeSeriesInto_flat hcount] at h
    simp only [Series.wireDepth, hlen]
    exact serializeFlat_isList hcount h
  | list inner chunks nonempty =>
    rw [serializeSeriesInto_list hcount] at h
    exact serializeList_isList hcount h
  | array inner size chunks nonempty =>
    obtain ⟨chunk, -, hchunk⟩ := @serializeSeriesInto_array name _ _ _ nonempty hcount
    rw [hchunk] at h
    exact serializeArray_isList hcount h
  | other dataType length nullCount =>
    rw [serializeSeriesInto_of_le hcount] at h
    simp only [Series.nChunks, Nat.lt_irrefl, if_false, serializeChunk] at h
    exact absurd h (serializeOther_ne_ok _ _ _)

/-! ## Frames -/

theorem writeEach_names {names : List Str} {bytes : Bytes}
    (h : writeEach writeName names = .ok bytes) :
    bytes = QValue.symbolBytes (names.map Str.bytes) ∧ ∀ name ∈ names, 0 ∉ name.bytes := by
  induction names generalizing bytes with
  | nil =>
    cases h
    exact ⟨rfl, by simp⟩
  | cons name names ih =>
    simp only [writeEach, writeName, Exec.bind_eq_ok, validateQSymbol_eq_ok, Except.ok.injEq] at h
    obtain ⟨_, ⟨-, hnul, rfl⟩, rest, hrest, rfl⟩ := h
    obtain ⟨rfl, hall⟩ := ih hrest
    refine ⟨by simp [QValue.symbolBytes], ?_⟩
    intro other hother
    cases hother with
    | head => exact hnul
    | tail _ hother => exact hall other hother

theorem columns_of_forall₂ {columns : List Series} {wires : List Wire} {height : Nat}
    (hheight : ∀ column ∈ columns, column.len = height)
    (h : List.Forall₂ (fun column wire => wire.WF ∧ wire.depth = column.wireDepth ∧
      wire.parsed.sequenceLen = some column.len) columns wires) :
    Wire.AllWF wires ∧ wires.length = columns.length ∧ Wire.levels wires = columnLevels columns ∧
      ∀ wire ∈ wires, wire.parsed.sequenceLen = some height := by
  induction h with
  | nil => exact ⟨trivial, rfl, rfl, by simp⟩
  | @cons column wire columns wires hwire hrest ih =>
    obtain ⟨hwf, hlen, hlevels, hall⟩ := ih fun c hc => hheight c (by simp [hc])
    refine ⟨⟨hwire.1, hwf⟩, by simp [hlen], by simp only [Wire.levels, columnLevels, hlevels, hwire.2.1],
      ?_⟩
    intro other hother
    cases hother with
    | head => rw [hwire.2.2, hheight column (by simp)]
    | tail _ hother => exact hall other hother

theorem sequenceLen_eq {parsed : QValue.Parsed} {len : Nat} (h : parsed.sequenceLen = some len) :
    parsed.len = len := by
  unfold QValue.Parsed.sequenceLen at h
  split at h
  · exact Option.some.inj h
  · cases h

theorem serializeFrame_isValue {frame : DataFrame} {bytes : Bytes}
    (h : serializeFrame frame = .ok bytes) : IsValue bytes (2 + columnLevels frame.columns) := by
  simp only [serializeFrame, Exec.bind_eq_ok, qListLength_eq_ok, Except.ok.injEq] at h
  obtain ⟨_, ⟨hcount, rfl⟩, names, hnames, columns, hcolumns, rfl⟩ := h
  obtain ⟨rfl, hnul⟩ := writeEach_names hnames
  obtain ⟨wires, hwires, rfl⟩ := writeEach_values
    (P := fun column wire => wire.WF ∧ wire.depth = Series.wireDepth column ∧
      wire.parsed.sequenceLen = some column.len) (fun column _ bytes hbytes => by
      obtain ⟨wire, hwf, hencode, hdepth, hlen⟩ := serializeSeriesInto_isList hbytes
      exact ⟨wire, ⟨hwf, hdepth, hlen⟩, hencode⟩) hcolumns
  obtain ⟨hwf, hlen, hlevels, hall⟩ := columns_of_forall₂ frame.heights hwires
  have hi32 : i32Max = 2 ^ 31 - 1 := rfl
  refine ⟨.table 0 0 ((frame.columns.map Series.name).map Str.bytes) 0 wires, ?_, ?_, ?_⟩
  · refine ⟨by decide, headerOk_plain.mpr (by simpa using hcount), ?_, by decide, by simp [hlen],
      by omega, hwf, ?_⟩
    · intro text htext
      obtain ⟨name, hname, rfl⟩ := List.mem_map.mp htext
      exact hnul name hname
    · intro wire hwire
      have hfirst : Wire.firstLen wires = frame.height := by
        cases wires with
        | nil => cases hwire
        | cons first wires => exact sequenceLen_eq (hall first (by simp))
      rw [hall wire hwire, hfirst]
  · simp [Wire.encode, listHeader_plain, hlen]
  · simp only [Wire.depth, hlevels]

/-! ## Values -/

namespace K

theorem isValue_atom {kind : UInt8} {payload bytes : Bytes}
    (hkind : 1 ≤ kind ∧ kind ≤ 19 ∧ kind ≠ 3 ∧ kind ≠ 11) (hlen : payload.length = typeSize kind)
    (hbool : kind = 1 → ∀ b ∈ payload, b ≤ 1) (hbytes : bytes = (0 - kind) :: payload) :
    IsValue bytes 0 :=
  ⟨.atom kind payload,
    ⟨hkind.1, hkind.2.1, hkind.2.2.1, hkind.2.2.2, hlen, hbool⟩, hbytes.symm, rfl⟩

/-- An atom that holds one little-endian number. -/
theorem isValue_number {α : Type} [WireNumber α] {kind : UInt8} (value : α)
    (hkind : 2 ≤ kind ∧ kind ≤ 19 ∧ kind ≠ 3 ∧ kind ≠ 11)
    (hwidth : WireNumber.width α = typeSize kind) : IsValue ((0 - kind) :: toLe value) 0 := by
  have hone : (1 : UInt8) ≤ 2 := by decide
  refine isValue_atom ⟨UInt8.le_trans hone hkind.1, hkind.2⟩ ?_ ?_ rfl
  · rw [WireNumber.toLe_length, hwidth]
  · rintro rfl
    exact absurd hkind.1 (by decide)

theorem primitiveAccepted_operator (operator : QOperator) :
    QValue.primitiveAccepted operator.kType operator.opcode = true := by
  simp [QValue.primitiveAccepted, operator.fromWire_wireValue]

theorem leaf_isValue {k : K} (hleaf : k.IsLeaf) {bytes : Bytes} (h : appendedLeaf k = .ok bytes) :
    IsValue bytes k.wireDepth := by
  cases k with
  | Boolean value =>
    cases h
    refine isValue_atom (by decide : 1 ≤ (1 : UInt8) ∧ _) rfl (fun _ b hb => ?_) rfl
    rw [List.mem_singleton] at hb
    exact hb ▸ boolByte_le value
  | Guid value =>
    cases h
    exact isValue_atom (by decide : 1 ≤ (2 : UInt8) ∧ _) value.length_eq (fun h => absurd h (by decide)) rfl
  | U8 value =>
    cases h
    exact isValue_atom (by decide : 1 ≤ (4 : UInt8) ∧ _) rfl (fun h => absurd h (by decide)) rfl
  | I16 value =>
    cases h
    exact isValue_number value (by decide : 2 ≤ (5 : UInt8) ∧ _) rfl
  | I32 value =>
    cases h
    exact isValue_number value (by decide : 2 ≤ (6 : UInt8) ∧ _) rfl
  | I64 value =>
    cases h
    exact isValue_number value (by decide : 2 ≤ (7 : UInt8) ∧ _) rfl
  | F32 bits =>
    cases h
    exact isValue_number bits (by decide : 2 ≤ (8 : UInt8) ∧ _) rfl
  | F64 bits =>
    cases h
    exact isValue_number bits (by decide : 2 ≤ (9 : UInt8) ∧ _) rfl
  | Char value =>
    cases h
    exact isValue_atom (by decide : 1 ≤ (10 : UInt8) ∧ _) rfl (fun h => absurd h (by decide)) rfl
  | CharVector value => exact (isList_charVector h).isValue
  | Symbol value =>
    simp only [appendedLeaf, Exec.bind_eq_ok, validateQSymbol_eq_ok, Except.ok.injEq] at h
    obtain ⟨-, hnul, rfl⟩ := h
    exact ⟨.symbol value.bytes, hnul, rfl, rfl⟩
  | String value => exact (isList_charVector h).isValue
  | DateTime value =>
    simp only [appendedLeaf, Exec.bind_eq_ok, Except.ok.injEq] at h
    obtain ⟨_, -, q, -, rfl⟩ := h
    exact isValue_number q (by decide : 2 ≤ (12 : UInt8) ∧ _) rfl
  | Date value =>
    simp only [appendedLeaf, Exec.bind_eq_ok, Except.ok.injEq] at h
    obtain ⟨days, -, rfl⟩ := h
    exact isValue_number days (by decide : 2 ≤ (14 : UInt8) ∧ _) rfl
  | Time value =>
    cases h
    exact isValue_number _ (by decide : 2 ≤ (19 : UInt8) ∧ _) rfl
  | Duration value =>
    simp only [appendedLeaf, Exec.bind_eq_ok, Except.ok.injEq] at h
    obtain ⟨nanoseconds, -, rfl⟩ := h
    exact isValue_number nanoseconds (by decide : 2 ≤ (16 : UInt8) ∧ _) rfl
  | Series series => exact (serializeSeriesInto_isList h).isValue
  | DataFrame frame => exact serializeFrame_isValue h
  | QValue value =>
    cases h
    obtain ⟨wire, hwf, -, hbytes, hmetadata⟩ := (QValue.validate_eq_ok value.bounded).mp value.validated
    refine ⟨wire, hwf, hbytes.symm, ?_⟩
    rw [wireDepth, hmetadata]
    rfl
  | Operator operator =>
    cases h
    refine ⟨.primitive operator.kType operator.opcode, ⟨?_, ?_, primitiveAccepted_operator operator⟩,
      rfl, rfl⟩
    · rcases operator.kType_cases with hk | hk | hk <;> rw [hk] <;> decide
    · rcases operator.kType_cases with hk | hk | hk <;> rw [hk] <;> decide
  | Lambda lambda =>
    simp only [appendedLeaf, Exec.bind_eq_ok, qListLength_eq_ok, Except.ok.injEq] at h
    obtain ⟨_, ⟨hcount, rfl⟩, rfl⟩ := h
    have hi32 : i32Max = 2 ^ 31 - 1 := rfl
    exact ⟨.lambda lambda.context.bytes lambda.source.bytes,
      ⟨lambda.zero_notMem_context, by omega⟩, by simp [Wire.encode], rfl⟩
  | Null =>
    cases h
    exact ⟨.primitive 101 0, ⟨by decide, by decide, rfl⟩, rfl, rfl⟩
  | MixedList values => exact hleaf.elim
  | Dict entries => exact hleaf.elim

theorem appendedAll_values {values : List K} {bytes : Bytes}
    (ih : ∀ value ∈ values, ∀ {bytes : Bytes}, value.appended = .ok bytes →
      IsValue bytes value.wireDepth)
    (h : appendedAll values = .ok bytes) :
    ∃ wires, Wire.AllWF wires ∧ wires.length = values.length ∧ Wire.encodeAll wires = bytes ∧
      Wire.levels wires = wireLevels values := by
  induction values generalizing bytes with
  | nil =>
    cases h
    exact ⟨[], trivial, rfl, rfl, rfl⟩
  | cons value values ihv =>
    simp only [appendedAll, Exec.bind_eq_ok, Except.ok.injEq] at h
    obtain ⟨first, hfirst, rest, hrest, rfl⟩ := h
    obtain ⟨wire, hwf, rfl, hdepth⟩ := ih value (by simp) hfirst
    obtain ⟨wires, hall, hlen, rfl, hlevels⟩ := ihv (fun v hv => ih v (by simp [hv])) hrest
    exact ⟨wire :: wires, ⟨hwf, hall⟩, by simp [hlen], rfl, by
      simp only [Wire.levels, wireLevels, hdepth, hlevels]⟩

/-- The values of a dictionary are written as the members of a list are. -/
theorem appendedEntries_eq (entries : List (Str × K)) :
    appendedEntries entries = appendedAll (entries.map Prod.snd) := by
  induction entries with
  | nil => rfl
  | cons entry entries ih =>
    obtain ⟨key, value⟩ := entry
    simp only [appendedEntries, List.map_cons, appendedAll, ih]

theorem entryLevels_eq (entries : List (Str × K)) :
    entryLevels entries = wireLevels (entries.map Prod.snd) := by
  induction entries with
  | nil => rfl
  | cons entry entries ih =>
    obtain ⟨key, value⟩ := entry
    simp only [entryLevels, List.map_cons, wireLevels, ih]

/-- **What is written is a value**, as deep as `wireDepth` says. -/
theorem appended_isValue (k : K) :
    ∀ {bytes : Bytes}, k.appended = .ok bytes → IsValue bytes k.wireDepth := by
  have hi32 : i32Max = 2 ^ 31 - 1 := rfl
  induction k using K.induct with
  | leaf k hleaf =>
    intro bytes h
    rw [appended_leaf hleaf] at h
    exact leaf_isValue hleaf h
  | mixedList values ih =>
    intro bytes h
    simp only [appended, Exec.bind_eq_ok, qListLength_eq_ok, Except.ok.injEq] at h
    obtain ⟨_, ⟨hcount, rfl⟩, members, hmembers, rfl⟩ := h
    obtain ⟨wires, hwf, hlen, rfl, hlevels⟩ := appendedAll_values ih hmembers
    refine ⟨.generalList 0 wires, ⟨by decide, by omega, hwf⟩, by simp [Wire.encode, hlen], ?_⟩
    simp only [Wire.depth, wireDepth, hlevels]
  | dict entries ih =>
    intro bytes h
    simp only [appended, Exec.bind_eq_ok, qListLength_eq_ok, Except.ok.injEq] at h
    obtain ⟨_, ⟨hcount, rfl⟩, keys, hkeys, values, hvalues, rfl⟩ := h
    obtain ⟨rfl, hnul⟩ := writeEach_names hkeys
    rw [appendedEntries_eq] at hvalues
    obtain ⟨wires, hwf, hlen, rfl, hlevels⟩ := appendedAll_values (fun value hvalue => by
      obtain ⟨entry, hentry, rfl⟩ := List.mem_map.mp hvalue
      exact ih entry hentry) hvalues
    rw [List.length_map] at hlen
    refine ⟨.dictionary 99 (.symbolList 0 ((entries.map Prod.fst).map Str.bytes)) (.generalList 0 wires),
      ⟨.inl rfl, ⟨headerOk_plain.mpr (by simpa using hcount), ?_⟩, ⟨by decide, by omega, hwf⟩, ?_⟩, ?_, ?_⟩
    · intro text htext
      obtain ⟨name, hname, rfl⟩ := List.mem_map.mp htext
      exact hnul name hname
    · exact ⟨by simp [Wire.parsed, hlen], .inr ⟨rfl, rfl⟩⟩
    · simp [Wire.encode, listHeader_plain, hlen]
    · simp only [Wire.depth, wireDepth, hlevels, entryLevels_eq, Nat.zero_max]

/-! ## Validation of what is written -/

theorem fromBytes_of_serialize {k : K} {bytes : Bytes} (h : k.serialize = .ok bytes) :
    (∃ value, QValue.fromBytes bytes = .ok value) ↔ k.wireDepth ≤ maxValueDepth := by
  have hlen := serialize_length_le h
  obtain ⟨-, happended⟩ := serialize_eq_ok.mp h
  obtain ⟨wire, hwf, rfl, hdepth⟩ := appended_isValue k happended
  have hmax : isizeMax ≤ usizeMax := by decide
  rw [QValue.fromBytes_encode hwf (le_trans hlen hmax), hdepth, maxValueDepth]

/-- **The encoder stays inside the lossless grammar**: what `serialize` returns is accepted
and kept as it is, exactly when its nesting on the wire is within the limit. -/
theorem fromBytes_serialize (k : K) (bytes : Bytes) (h : k.serialize = .ok bytes) :
    (∃ value, QValue.fromBytes bytes = .ok value ∧ value.bytes = bytes) ↔
      k.wireDepth ≤ maxValueDepth := by
  rw [← fromBytes_of_serialize h]
  constructor
  · rintro ⟨value, hvalue, -⟩
    exact ⟨value, hvalue⟩
  · rintro ⟨value, hvalue⟩
    exact ⟨value, hvalue, QValue.fromBytes_eq_ok.mp hvalue⟩

/-- `levels` dictionaries around a null, each under the key `k`. -/
def nestedDict : Nat → K
  | 0 => .Null
  | levels + 1 => .Dict [(⟨[0x6B], by decide⟩, nestedDict levels)]

theorem fromBytes_serialize_nested :
    ∃ bytes, (nestedDict 2).serialize = .ok bytes ∧
      ∃ value, QValue.fromBytes bytes = .ok value ∧ value.bytes = bytes := by
  refine ⟨_, rfl, ?_⟩
  exact (fromBytes_serialize (nestedDict 2) _ rfl).mpr (by decide)

theorem nestedDict_appended (levels : Nat) : ∃ bytes, (nestedDict levels).appended = .ok bytes := by
  induction levels with
  | zero => exact ⟨_, rfl⟩
  | succ levels ih =>
    obtain ⟨bytes, hbytes⟩ := ih
    have hcount : qListLength 1 = .ok [1, 0, 0, 0] := by decide
    have hname : writeName ⟨[0x6B], by decide⟩ = .ok [0x6B, 0] := by decide
    refine ⟨[99, 11, 0, 1, 0, 0, 0, 0x6B, 0, 0, 0, 1, 0, 0, 0] ++ bytes, ?_⟩
    simp [nestedDict, appended, appendedEntries, hbytes, hcount, writeEach, hname]

theorem nestedDict_len (levels depth : Nat) (h : depth + levels ≤ maxValueDepth) :
    (nestedDict levels).j6LenWithDepth depth = .ok (15 * levels + 2) := by
  induction levels generalizing depth with
  | zero =>
    have hleaf : IsLeaf .Null := trivial
    rw [nestedDict, j6LenWithDepth_leaf hleaf, if_neg (by omega)]
    rfl
  | succ levels ih =>
    have hkey : addSymbol 13 ⟨[0x6B], by decide⟩ = .ok 15 := by decide
    have hcount : checkedQCount 1 = .ok () := by decide
    have hsum : checkedAdd 15 (15 * levels + 2) = some (15 * (levels + 1) + 2) := by
      rw [checkedAdd_eq_some]
      simp only [maxValueDepth, usizeMax] at h ⊢
      omega
    rw [nestedDict, j6LenWithDepth, if_neg (by omega)]
    simp [entriesLen, ih (depth + 1) (by omega), hkey, hcount, hsum]

theorem nestedDict_wireDepth (levels : Nat) : (nestedDict levels).wireDepth = 2 * levels := by
  induction levels with
  | zero => rfl
  | succ levels ih =>
    simp only [nestedDict, wireDepth, entryLevels, ih]
    omega

/-- The encoder writes 64 nested dictionaries, which are 128 levels on the wire. -/
theorem serialize_beyond_grammar :
    ∃ bytes, (nestedDict 64).serialize = .ok bytes ∧ ∀ value, QValue.fromBytes bytes ≠ .ok value := by
  obtain ⟨bytes, hbytes⟩ := nestedDict_appended 64
  have hlen : (nestedDict 64).j6Len = .ok 962 := nestedDict_len 64 0 (by decide)
  have hserialize := serialize_eq_ok.mpr ⟨⟨962, hlen, by decide⟩, hbytes⟩
  refine ⟨bytes, hserialize, fun value hvalue => ?_⟩
  have hdepth := (fromBytes_of_serialize hserialize).mp ⟨value, hvalue⟩
  rw [nestedDict_wireDepth] at hdepth
  exact absurd hdepth (by decide)

end K
end Xqdb
