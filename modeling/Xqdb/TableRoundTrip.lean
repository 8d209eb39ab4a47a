import Xqdb.EncoderGrammar
import Xqdb.LengthExact
import Xqdb.Native.Meaning
import Xqdb.Pipeline

/-! Tables that are sent and read back. What the encoder writes for a column is a list whose
end the decoder finds, so the columns are cut out of the table as they were written. The names
go through a list path of their own, and that one cannot read an empty list. -/

namespace Xqdb

open Native (columnParts)
open QValue (symbolBytes)

/-! ## What a column is written as -/

/-- A row of a general list whose rows have the type `child`. -/
def IsChild (child : UInt8) (bytes : Bytes) : Prop :=
  ∃ row : NestedRow, row.WF ∧ row.kType = child ∧ row.encode = bytes

/-- A list whose end the decoder finds. -/
def IsNativeList (bytes : Bytes) : Prop :=
  ∃ list : NativeList, list.WF ∧ list.encode = bytes

theorem isChild_fixed {kType : UInt8} {count : Nat} {payload : Bytes} (hkind : kType ∈ nestedTypes) (hsymbol : kType ≠ 11)
    (hcount : count ≤ i32Max) (hlength : payload.length = count * typeSize kType) :
    IsChild kType (kType :: 0 :: (LittleEndian.encode 4 count ++ payload)) :=
  ⟨.fixed kType 0 count payload, ⟨hkind, hsymbol, hcount, hlength⟩, rfl, rfl⟩

theorem writeEach_children {α : Type} {write : α → Exec Bytes} {child : UInt8} {items : List α} {bytes : Bytes}
    (hitem : ∀ item ∈ items, ∀ bytes, write item = .ok bytes → IsChild child bytes)
    (h : writeEach write items = .ok bytes) :
    ∃ rows : List NestedRow, rows.length = items.length ∧ (∀ row ∈ rows, row.WF ∧ row.kType = child) ∧
      NestedRow.encodeAll rows = bytes := by
  induction items generalizing bytes with
  | nil =>
    cases h
    exact ⟨[], rfl, by simp, rfl⟩
  | cons item items ih =>
    simp only [writeEach, Exec.bind_eq_ok, Except.ok.injEq] at h
    obtain ⟨first, hfirst, rest, hrest, rfl⟩ := h
    obtain ⟨row, hwf, hkind, rfl⟩ := hitem item List.mem_cons_self first hfirst
    obtain ⟨rows, hlength, hrows, rfl⟩ := ih (fun i hi => hitem i (List.mem_cons_of_mem _ hi)) hrest
    exact ⟨row :: rows, by rw [List.length_cons, hlength, List.length_cons],
      List.forall_mem_cons.mpr ⟨⟨hwf, hkind⟩, hrows⟩, rfl⟩

/-- Rows of one type make a nested list. -/
theorem isNativeList_rows {α : Type} {write : α → Exec Bytes} {child : UInt8} {items : List α} {bytes : Bytes}
    (hchild : child ∈ nestedTypes) (hcount : items.length ≤ i32Max)
    (hitem : ∀ item ∈ items, ∀ bytes, write item = .ok bytes → IsChild child bytes)
    (h : writeEach write items = .ok bytes) : IsNativeList (seriesHeader 0 items.length ++ bytes) := by
  obtain ⟨rows, hlength, hrows, rfl⟩ := writeEach_children hitem h
  have hfit : NativeList.RowsFit rows := by
    cases rows with
    | nil => trivial
    | cons row rows =>
      have hkind : row.kType = child := (hrows row List.mem_cons_self).2
      refine ⟨hkind ▸ hchild, ?_⟩
      intro other hother
      obtain ⟨hwf, hsame⟩ := hrows other hother
      exact ⟨hwf, .inl (hsame.trans hkind.symm)⟩
  refine ⟨.nested 0 rows, ⟨by omega, hfit⟩, ?_⟩
  rw [← hlength]
  rfl

theorem isChild_charVector {text bytes : Bytes} (h : charVector text = .ok bytes) : IsChild 10 bytes := by
  simp only [charVector, Exec.bind_eq_ok, qListLength_eq_ok, Except.ok.injEq] at h
  obtain ⟨_, ⟨hcount, rfl⟩, rfl⟩ := h
  exact isChild_fixed (by decide) (by decide) hcount (Nat.mul_one _).symm

theorem serializeFlat_native {type : FlatType} {cells : List (Option type.Cell)} {bytes : Bytes}
    (hcount : cells.length ≤ i32Max) (h : serializeFlat type cells = .ok bytes) : IsNativeList bytes := by
  simp only [serializeFlat, Exec.bind_eq_ok, Except.ok.injEq] at h
  obtain ⟨⟨⟩, hvalid, payload, hpayload, rfl⟩ := h
  have fixed : ∀ {width : Nat}, flatWidth type = some width → 0 < width →
      IsNativeList (seriesHeader (flatKType type) cells.length ++ payload) := by
    intro width hwidth hpos
    rw [writeCells_fixed hwidth] at hpayload
    have hcells := writeEach_cells (writeCell_isCell hwidth hvalid) hpayload
    obtain ⟨⟨hlow, hhigh, -, hsymbol⟩, hsize⟩ := flatKType_fixed hwidth
    exact ⟨.fixed (flatKType type) 0 cells.length payload,
      ⟨hlow, hhigh, hsymbol, hsize ▸ hpos, hcount, by rw [hcells.1, hsize]⟩, rfl⟩
  cases type with
  | string =>
    refine isNativeList_rows (by decide : (10 : UInt8) ∈ nestedTypes) hcount ?_ hpayload
    intro cell _ bytes hcell
    cases cell with
    | none =>
      have hempty : charVector [] = .ok bytes := hcell
      exact isChild_charVector hempty
    | some text => exact isChild_charVector hcell
  | categorical mapping =>
    simp only [writeCells, Exec.bind_eq_ok, Prod.exists, Except.ok.injEq] at hpayload
    obtain ⟨lookup, _, hsymbols, rfl⟩ := hpayload
    obtain ⟨texts, rfl, hlength, hnul⟩ := writeSymbol_texts (SymbolLookup.clean_new mapping) hsymbols
    refine ⟨.symbols 0 texts, ⟨by omega, hnul⟩, ?_⟩
    rw [List.nil_append, ← hlength]
    rfl
  | _ => exact fixed rfl (by decide)

theorem isChild_booleans {start count : Nat} {values : List (Option Bool)} {length : Bytes}
    (h : qListLength count = .ok length) :
    IsChild 1 ([1, 0] ++ length ++
      (List.range' start count).map fun i => boolByte ((values[i]?.join).getD false)) := by
  obtain ⟨hcount, rfl⟩ := qListLength_eq_ok.mp h
  refine isChild_fixed (by decide) (by decide) hcount ?_
  rw [List.length_map, List.length_range']
  exact (Nat.mul_one count).symm

theorem writeNestedRow_isChild {α : Type} {kType : UInt8} {toBytes : Option α → Bytes} {negative exceed : String}
    {values : List (Option α)} {range : Int × Int} {bytes : Bytes} (hkind : kType ∈ nestedTypes ∧ kType ≠ 11)
    (hwidth : ∀ cell, (toBytes cell).length = typeSize kType)
    (h : writeNestedRow kType toBytes negative exceed values range = .ok bytes) : IsChild kType bytes := by
  simp only [writeNestedRow, Exec.bind_eq_ok, qListLength_eq_ok, Except.ok.injEq] at h
  obtain ⟨start, -, stop, -, row, -, _, ⟨hcount, rfl⟩, rfl⟩ := h
  refine isChild_fixed hkind.1 hkind.2 hcount ?_
  rw [List.length_flatMap]
  simp only [hwidth, List.map_const', List.sum_replicate_nat]

theorem serializeList_native {length : Nat} {inner : FlatType} {chunk : ListChunk inner.Cell} {bytes : Bytes}
    (hcount : length ≤ i32Max) (h : serializeList length inner chunk = .ok bytes) : IsNativeList bytes := by
  rw [serializeList] at h
  by_cases hoffsets : chunk.offsets.length ≠ length + 1
  · rw [if_pos hoffsets] at h
    cases h
  by_cases hnulls : 0 < chunk.nullCount
  · rw [if_neg hoffsets, if_pos hnulls] at h
    cases h
  rw [if_neg hoffsets, if_neg hnulls] at h
  simp only [Exec.bind_eq_ok, Except.ok.injEq] at h
  obtain ⟨⟨⟩, hsupported, rows, hrows, rfl⟩ := h
  have hlength : (windows chunk.offsets).length = length := by
    rw [windows_length]
    omega
  rw [← hlength] at hcount ⊢
  cases inner with
  | boolean =>
    refine isNativeList_rows (by decide : (1 : UInt8) ∈ nestedTypes) hcount ?_ hrows
    intro range _ bytes hrow
    simp only [writeListRow, writeBooleanRow, Exec.bind_eq_ok, Except.ok.injEq] at hrow
    obtain ⟨start, -, stop, -, count, -, length, hsize, rfl⟩ := hrow
    exact isChild_booleans hsize
  | uint8 =>
    exact isNativeList_rows (by decide) hcount
      (fun _ _ _ hrow => writeNestedRow_isChild (by decide) (fun _ => rfl) hrow) hrows
  | int16 =>
    exact isNativeList_rows (by decide) hcount
      (fun _ _ _ hrow => writeNestedRow_isChild (by decide) (fun _ => WireNumber.toLe_length _) hrow) hrows
  | int32 =>
    exact isNativeList_rows (by decide) hcount
      (fun _ _ _ hrow => writeNestedRow_isChild (by decide) (fun _ => WireNumber.toLe_length _) hrow) hrows
  | int64 =>
    exact isNativeList_rows (by decide) hcount
      (fun _ _ _ hrow => writeNestedRow_isChild (by decide) (fun _ => WireNumber.toLe_length _) hrow) hrows
  | float32 =>
    exact isNativeList_rows (by decide) hcount
      (fun _ _ _ hrow => writeNestedRow_isChild (by decide) (fun _ => WireNumber.toLe_length _) hrow) hrows
  | float64 =>
    exact isNativeList_rows (by decide) hcount
      (fun _ _ _ hrow => writeNestedRow_isChild (by decide) (fun _ => WireNumber.toLe_length _) hrow) hrows
  | _ => cases hsupported

theorem serializeArray_native {length : Nat} {inner : FlatType} {size : Nat} {chunk : ArrayChunk inner.Cell size}
    {bytes : Bytes} (hcount : length ≤ i32Max) (h : serializeArray length inner size chunk = .ok bytes) :
    IsNativeList bytes := by
  unfold serializeArray at h
  by_cases hnulls : 0 < chunk.nullCount
  · rw [if_pos hnulls] at h
    cases h
  rw [if_neg hnulls] at h
  cases inner with
  | boolean =>
    simp only [Exec.bind_eq_ok, Except.ok.injEq] at h
    obtain ⟨-, -, rows, hrows, rfl⟩ := h
    have hlength : (List.range length).length = length := List.length_range
    rw [← hlength] at hcount ⊢
    refine isNativeList_rows (by decide : (1 : UInt8) ∈ nestedTypes) hcount ?_ hrows
    intro row _ bytes hrow
    simp only [writeArrayRow, Exec.bind_eq_ok, Except.ok.injEq] at hrow
    obtain ⟨count, hsize, start, -, _, -, rfl⟩ := hrow
    exact isChild_booleans hsize
  | _ => cases h

/-- **What is written for a column is a list whose end the decoder finds.** -/
theorem serializeSeriesInto_native {series : Series} {bytes : Bytes} (h : serializeSeriesInto series = .ok bytes) :
    IsNativeList bytes := by
  have hcount : series.len ≤ i32Max := serializeSeriesInto_len h
  obtain ⟨name, data⟩ := series
  cases data with
  | null length =>
    rw [serializeSeriesInto_of_le hcount] at h
    simp only [Series.nChunks, Nat.lt_irrefl, if_false, serializeChunk] at h
    by_cases hzero : length = 0
    · rw [if_pos hzero] at h
      cases h
      exact ⟨.nested 0 [], ⟨Nat.zero_le _, trivial⟩, rfl⟩
    · rw [if_neg hzero] at h
      cases h
  | flat type chunks =>
    have hlen : Series.len ⟨name, .flat type chunks⟩ = chunks.flatten.length := by
      rw [List.length_flatten]
      rfl
    rw [hlen] at hcount
    rw [serializeSeriesInto_flat hcount] at h
    exact serializeFlat_native hcount h
  | list inner chunks nonempty =>
    rw [serializeSeriesInto_list hcount] at h
    exact serializeList_native hcount h
  | array inner size chunks nonempty =>
    obtain ⟨chunk, -, hchunk⟩ := @serializeSeriesInto_array name _ _ _ nonempty hcount
    rw [hchunk] at h
    exact serializeArray_native hcount h
  | other dataType length nullCount =>
    rw [serializeSeriesInto_of_le hcount] at h
    simp only [Series.nChunks, Nat.lt_irrefl, if_false, serializeChunk] at h
    exact absurd h (serializeOther_ne_ok _ _ _)

/-! ## The columns, cut out again -/

section Columns

variable {categories : CategoricalMapping} {encoding : SymbolEncoding} {vec rest : Bytes} {pos : Nat}

/-- Lists that stand one behind the other are cut where they were written. -/
theorem tableColumns_lists {lists : List NativeList} (hwf : ∀ list ∈ lists, list.WF)
    (h : At vec pos (lists.flatMap NativeList.encode ++ rest)) :
    tableColumns vec lists.length pos = .ok (lists.map columnParts, pos + (lists.flatMap NativeList.encode).length) := by
  induction lists generalizing pos with
  | nil => rfl
  | cons list lists ih =>
    obtain ⟨hlist, hlists⟩ := List.forall_mem_cons.mp hwf
    rw [List.flatMap_cons, NativeList.encode, List.cons_append, List.cons_append, List.append_assoc] at h
    have hkind : index vec pos = .ok list.kType := by
      rw [index_eq_ok, h.getElem?_eq]
      rfl
    have hat := h.skip_one
    have hend : calculateArrayEndIndex vec (pos + 1) list.kType = .ok (pos + 1 + list.body.length) :=
      (calculateArrayEndIndex_eq_ok hat).mpr ⟨list, _, hlist, rfl, rfl, rfl⟩
    have hslice : sliceRange vec (pos + 1) (pos + 1 + list.body.length) = .ok list.body :=
      (sliceRange_at hat).mpr ⟨_, rfl, rfl⟩
    rw [List.length_cons, tableColumns, hkind, Exec.ok_bind, hend, Exec.ok_bind, hslice, Exec.ok_bind,
      ih hlists hat.skip, Exec.ok_bind]
    simp only [columnParts, List.map_cons, List.flatMap_cons, NativeList.encode, List.cons_append, List.length_cons,
      List.length_append]
    congr 2
    omega

/-- A column that is read back, on its own, as what it was: `same` says when two columns are. -/
def ComesBack (categories : CategoricalMapping) (encoding : SymbolEncoding) (same : SeriesData → SeriesData → Prop)
    (column : Series) : Prop :=
  ∃ kType body read, serializeSeriesInto column = .ok (kType :: body) ∧
    decodeColumn categories encoding (kType, body) = .ok read ∧ same read.data column.data

theorem columns_come_back {same : SeriesData → SeriesData → Prop} {columns : List Series}
    (h : ∀ column ∈ columns, ComesBack categories encoding same column) :
    ∃ (lists : List NativeList) (reads : List Series), lists.length = columns.length ∧ (∀ list ∈ lists, list.WF) ∧
      writeEach serializeSeriesInto columns = .ok (lists.flatMap NativeList.encode) ∧
      tryCollect (decodeColumn categories encoding) (lists.map columnParts) = .ok reads ∧
      List.Forall₂ (fun read column => same read.data column.data) reads columns := by
  induction columns with
  | nil => exact ⟨[], [], rfl, by simp, rfl, rfl, .nil⟩
  | cons column columns ih =>
    obtain ⟨hcolumn, hcolumns⟩ := List.forall_mem_cons.mp h
    obtain ⟨kType, body, read, hwritten, hread, hsame⟩ := hcolumn
    obtain ⟨lists, reads, hlength, hwf, hwrittens, hreads, hsames⟩ := ih hcolumns
    obtain ⟨list, hlist, hencode⟩ := serializeSeriesInto_native hwritten
    obtain ⟨rfl, rfl⟩ := List.cons.inj hencode
    refine ⟨list :: lists, read :: reads, ?_, List.forall_mem_cons.mpr ⟨hlist, hwf⟩, ?_, ?_, .cons hsame hsames⟩
    · rw [List.length_cons, hlength, List.length_cons]
    · rw [writeEach, hwritten, Exec.ok_bind, hwrittens, Exec.ok_bind]
      rfl
    · rw [List.map_cons, tryCollect, columnParts, hread, Exec.ok_bind, hreads, Exec.ok_bind]

end Columns

/-! ## Tables -/

section Tables

variable {categories : CategoricalMapping} {encoding : SymbolEncoding}

theorem newFrame_of_heights {columns : List Series} {height : Nat} (hne : columns ≠ [])
    (hheights : ∀ column ∈ columns, column.len = height) (hnames : (columns.map Series.name).Nodup) :
    ∃ frame, newFrame columns = .ok frame ∧ frame.columns = columns ∧ frame.height = height := by
  obtain ⟨first, others, rfl⟩ := List.exists_cons_of_ne_nil hne
  have hfirst : ((first :: others).map Series.len).headD 0 = height := hheights first List.mem_cons_self
  refine ⟨⟨first :: others, height, hheights, hnames⟩, ?_, rfl, rfl⟩
  rw [newFrame, DataFrame.newInferHeight, hfirst, DataFrame.new, dif_pos hheights, dif_pos hnames]

/-- The columns under the names they were sent with. -/
theorem renamed_names {reads columns : List Series} (hlength : reads.length = columns.length) :
    (List.zipWith Series.rename reads (columns.map Series.name)).map Series.name = columns.map Series.name := by
  induction columns generalizing reads with
  | nil => simp
  | cons column columns ih =>
    obtain ⟨read, reads, rfl⟩ := List.exists_cons_of_length_eq_add_one hlength
    rw [List.map_cons, List.zipWith_cons_cons, List.map_cons, ih (Nat.succ.inj hlength)]
    rfl

theorem renamed_same {same : SeriesData → SeriesData → Prop} {reads columns : List Series}
    (h : List.Forall₂ (fun read column => same read.data column.data) reads columns) :
    List.Forall₂ (fun read column => same read.data column.data)
      (List.zipWith Series.rename reads (columns.map Series.name)) columns := by
  induction h with
  | nil => exact .nil
  | cons hsame _ ih => exact .cons hsame ih

/-- A table as it is written, and what the decoder makes of it when its columns come back. -/
theorem deserializeTable_written {same : SeriesData → SeriesData → Prop}
    (hlens : ∀ a b : Series, same a.data b.data → a.len = b.len) {frame : DataFrame} {names : List Str} {bytes : Bytes}
    {lists : List NativeList} {reads : List Series} (hnames : names = frame.columns.map Series.name)
    (hcount : names.length ≤ i32Max) (hne : frame.columns ≠ []) (hclean : ∀ name ∈ names, 0 ∉ name.bytes)
    (hbytes : bytes = [98, 0, 99, 11, 0] ++ LittleEndian.encode 4 names.length ++ symbolBytes (names.map Str.bytes) ++
      [0, 0] ++ LittleEndian.encode 4 names.length ++ lists.flatMap NativeList.encode)
    (hsize : bytes.length ≤ usizeMax) (hlists : lists.length = names.length) (hwf : ∀ list ∈ lists, list.WF)
    (hreads : tryCollect (decodeColumn categories encoding) (lists.map columnParts) = .ok reads)
    (hsame : List.Forall₂ (fun read column => same read.data column.data) reads frame.columns) :
    ∃ read : DataFrame, deserializeTable categories encoding bytes 1 = .ok (.DataFrame read, bytes.length) ∧
      read.columns.map Series.name = names ∧
      List.Forall₂ (fun read column => same read.data column.data) read.columns frame.columns ∧
      read.height = frame.height := by
  have hwhole : At bytes 0 ([98, 0, 99, 11] ++ (0 :: (LittleEndian.encode 4 (names.map Str.bytes).length ++
      (symbolBytes (names.map Str.bytes) ++ ([0, 0] ++ LittleEndian.encode 4 names.length ++
        (lists.flatMap NativeList.encode ++ [])))))) := by
    have hstart := At.start hsize
    rw [List.length_map]
    convert hstart using 1
    rw [hbytes]
    simp
  have hat := hwhole.skip
  have hnamesNe : names ≠ [] := by
    rw [hnames]
    simpa using hne
  have hcount' : (names.map Str.bytes).length ≤ i32Max := by rwa [List.length_map]
  have hclean' : ∀ name ∈ names.map Str.bytes, 0 ∉ name := by
    intro name hname
    obtain ⟨text, htext, rfl⟩ := List.mem_map.mp hname
    exact hclean text htext
  have hsizeNames : ((0 : UInt8) :: (LittleEndian.encode 4 names.length ++ symbolBytes (names.map Str.bytes))).length ≤
      usizeMax := by
    have hlength := hat.length_eq
    simp only [List.length_cons, List.length_append, LittleEndian.encode_length] at hlength ⊢
    omega
  obtain ⟨readNames, hreadNames, htexts⟩ :=
    @Native.tableNames_names categories encoding names 0 hnamesNe hcount hclean hsizeNames
  have hcolumns : At bytes (1 + 3 + 5 + (symbolBytes (names.map Str.bytes)).length + 6)
      (lists.flatMap NativeList.encode ++ []) := hat.header.skip.skip
  have hparts := tableColumns_lists hwf hcolumns
  rw [hlists] at hparts
  -- the frame is built from the columns under their names
  have hrenamed : renameColumns reads (names.map some) =
      List.zipWith Series.rename reads (frame.columns.map Series.name) := by
    rw [Native.renameColumns_names, hnames]
  have hframeNames := renamed_names hsame.length_eq
  have hframeSame := renamed_same hsame
  have hheights : ∀ column ∈ renameColumns reads (names.map some), column.len = frame.height := by
    rw [hrenamed]
    intro column hcolumn
    obtain ⟨i, hi, rfl⟩ := List.mem_iff_getElem.mp hcolumn
    have hi' : i < frame.columns.length := hframeSame.length_eq ▸ hi
    have hlen := hlens _ _ (hframeSame.get hi hi')
    exact hlen.trans (frame.heights _ (List.getElem_mem hi'))
  have hsome : renameColumns reads (names.map some) ≠ [] := by
    rw [hrenamed]
    intro hnone
    rw [hnone] at hframeSame
    exact hne (List.forall₂_nil_left_iff.mp hframeSame)
  obtain ⟨read, hframe, hreadColumns, hreadHeight⟩ :=
    newFrame_of_heights hsome hheights (by rw [hrenamed, hframeNames]; exact frame.names)
  rw [hrenamed] at hreadColumns
  refine ⟨read, ?_, ?_, ?_, hreadHeight⟩
  · have hend : 1 + 3 + 5 + (symbolBytes (names.map Str.bytes)).length + 6 + (lists.flatMap NativeList.encode).length =
        bytes.length := by
      rw [hbytes]
      simp only [List.length_append, List.length_cons, List.length_nil, LittleEndian.encode_length]
    rw [deserializeTable_named hat hcount' hclean', List.length_map, hreadNames, Exec.ok_bind, tableBehindNames, htexts,
      Exec.ok_bind, List.length_map, hparts, Exec.ok_bind]
    simp only
    rw [hreads, Exec.ok_bind, hframe, Exec.ok_bind, hend]
  · rw [hreadColumns, hframeNames, hnames]
  · rw [hreadColumns]
    exact hframeSame

/-- The table is sent and read back: the same names in the same order, the same columns and
the same height. -/
def TableReadBack (categories : CategoricalMapping) (encoding : SymbolEncoding) (same : SeriesData → SeriesData → Prop)
    (frame : DataFrame) : Prop :=
  ∃ bytes read, (K.DataFrame frame).serialize = .ok bytes ∧
    deserialize categories encoding bytes = .ok (.DataFrame read) ∧
    read.columns.map Series.name = frame.columns.map Series.name ∧
    List.Forall₂ (fun read column => same read.data column.data) read.columns frame.columns ∧
    read.height = frame.height

/-- The table without columns, as it is written. -/
theorem serializeFrame_noColumns {frame : DataFrame} (hnone : frame.columns = []) :
    serializeFrame frame = .ok [98, 0, 99, 11, 0, 0, 0, 0, 0, 0, 0, 0, 0, 0, 0] := by
  rw [serializeFrame, hnone]
  rfl

theorem deserialize_noColumns :
    deserialize categories encoding [98, 0, 99, 11, 0, 0, 0, 0, 0, 0, 0, 0, 0, 0, 0] = .error parserPanic := by
  have hat : At [98, 0, 99, 11, 0, 0, 0, 0, 0, 0, 0, 0, 0, 0, 0] (1 + 3)
      (0 :: (LittleEndian.encode 4 ([] : List Bytes).length ++ (symbolBytes [] ++ [0, 0, 0, 0, 0, 0]))) :=
    ⟨rfl, by decide, by decide⟩
  have hpanic : deserializeTable categories encoding [98, 0, 99, 11, 0, 0, 0, 0, 0, 0, 0, 0, 0, 0, 0] 1 =
      .error .panic := (deserializeTable_panic_at (by decide) hat (by decide) (by simp)).mpr (.inl rfl)
  rw [deserialize, Pipeline.deserializeUnchecked_table categories encoding rfl, hpanic]
  rfl

/-- The bytes of a table whose columns can be written, in the length that was announced. -/
theorem serializeFrame_accepted {frame : DataFrame} {n : Nat} {lists : List NativeList}
    (haccepted : (K.DataFrame frame).j6Len = .ok n)
    (hwritten : writeEach serializeSeriesInto frame.columns = .ok (lists.flatMap NativeList.encode)) :
    ∃ bytes, serializeFrame frame = .ok bytes ∧ bytes.length = n ∧ frame.columns.length ≤ i32Max ∧
      (∀ name ∈ frame.columns.map Series.name, 0 ∉ name.bytes) ∧
      bytes = [98, 0, 99, 11, 0] ++ LittleEndian.encode 4 frame.columns.length ++
        symbolBytes ((frame.columns.map Series.name).map Str.bytes) ++ [0, 0] ++
          LittleEndian.encode 4 frame.columns.length ++ lists.flatMap NativeList.encode := by
  have hleaf : (K.DataFrame frame).IsLeaf := trivial
  rw [K.j6Len, K.j6LenWithDepth_leaf hleaf, if_neg (Nat.not_lt_zero _)] at haccepted
  simp only [K.leafLen, Exec.bind_eq_ok, checkedQCount_eq_ok] at haccepted
  obtain ⟨-, hcount, hlength⟩ := haccepted
  obtain ⟨names, hnames, ⟨values, hvalues, hsum⟩ | ⟨herr, -⟩⟩ := frameLen_exact hlength
  · obtain rfl := Except.ok.inj (hwritten.symm.trans hvalues)
    obtain ⟨rfl, hclean⟩ := writeEach_names hnames
    have hq : qListLength frame.columns.length = .ok (LittleEndian.encode 4 frame.columns.length) :=
      qListLength_eq_ok.mpr ⟨hcount, rfl⟩
    refine ⟨_, ?_, ?_, hcount, hclean, rfl⟩
    · rw [serializeFrame, hq, Exec.ok_bind, hnames, Exec.ok_bind, hwritten, Exec.ok_bind]
    · simp only [List.length_append, List.length_cons, List.length_nil, LittleEndian.encode_length]
      omega
  · cases hwritten.symm.trans herr

/-- **Tables come back**, if they have a column: for every frame that `j6_len` accepts and
whose columns each come back on their own. `n` is the length it is sent with. -/
theorem table_comes_back_iff (categories : CategoricalMapping) (encoding : SymbolEncoding)
    (same : SeriesData → SeriesData → Prop) (hlens : ∀ a b : Series, same a.data b.data → a.len = b.len)
    (frame : DataFrame) (n : Nat) (haccepted : (K.DataFrame frame).j6Len = .ok n)
    (hcolumns : ∀ column ∈ frame.columns, ComesBack categories encoding same column) :
    TableReadBack categories encoding same frame ↔ frame.columns ≠ [] ∧ n ≤ isizeMax := by
  have happended : (K.DataFrame frame).appended = serializeFrame frame := rfl
  constructor
  · rintro ⟨bytes, read, hserialize, hread, -⟩
    obtain ⟨⟨_, hlength, hfits⟩, hwritten⟩ := K.serialize_eq_ok.mp hserialize
    obtain rfl := Except.ok.inj (haccepted.symm.trans hlength)
    refine ⟨?_, hfits⟩
    intro hnone
    rw [happended, serializeFrame_noColumns hnone] at hwritten
    obtain rfl := Except.ok.inj hwritten
    rw [deserialize_noColumns] at hread
    cases hread
  · rintro ⟨hne, hfits⟩
    obtain ⟨lists, reads, hlists, hwf, hwritten, hreads, hsame⟩ := columns_come_back hcolumns
    obtain ⟨bytes, hframe, hlength, hcount, hclean, hbytes⟩ := serializeFrame_accepted haccepted hwritten
    have hserialize : (K.DataFrame frame).serialize = .ok bytes :=
      K.serialize_eq_ok.mpr ⟨⟨n, haccepted, hfits⟩, happended.trans hframe⟩
    have hsize : bytes.length ≤ usizeMax := by
      rw [hlength]
      exact hfits.trans (by decide)
    have hnames : (frame.columns.map Series.name).length = frame.columns.length := List.length_map _
    obtain ⟨read, hread, hsameNames, hsameColumns, hheight⟩ :=
      deserializeTable_written hlens rfl (hnames ▸ hcount) hne hclean (hnames ▸ hbytes) hsize (hnames ▸ hlists) hwf
        hreads hsame
    have hfirst : bytes.head? = some 98 := by
      rw [hbytes]
      rfl
    refine ⟨bytes, read, hserialize, ?_, hsameNames, hsameColumns, hheight⟩
    rw [deserialize, Pipeline.deserializeUnchecked_table categories encoding hfirst, hread]
    simp only [Exec.catchUnwind, if_true]

/-- One column of one number. -/
def oneColumn : DataFrame :=
  ⟨[.ofCells ⟨[97], by decide⟩ .int32 [some 7]], 1, by simp, by simp⟩

theorem table_comes_back_iff_oneColumn :
    (K.DataFrame oneColumn).j6Len = .ok 27 ∧ TableReadBack numberedTexts .Strict Eq oneColumn := by
  have haccepted : (K.DataFrame oneColumn).j6Len = .ok 27 := by rfl
  have hcolumns : ∀ column ∈ oneColumn.columns, ComesBack numberedTexts .Strict Eq column := by
    intro column hcolumn
    obtain rfl := List.mem_singleton.mp hcolumn
    exact ⟨6, [0, 1, 0, 0, 0, 7, 0, 0, 0], .ofCells (typeName 6) .int32 [some 7], by rfl, by rfl, by rfl⟩
  have hlens : ∀ a b : Series, a.data = b.data → a.len = b.len := by
    rintro ⟨_, _⟩ ⟨_, _⟩ h
    cases h
    rfl
  exact ⟨haccepted, (table_comes_back_iff numberedTexts .Strict Eq hlens oneColumn 27 haccepted hcolumns).mpr
    ⟨by simp [oneColumn], by decide⟩⟩

/-- No columns: accepted, and none of them is lost, but the table is not read back. -/
def noColumns : DataFrame := ⟨[], 0, by simp, by simp⟩

theorem table_without_columns_lost :
    (K.DataFrame noColumns).j6Len = .ok 15 ∧
      (∀ column ∈ noColumns.columns, ComesBack numberedTexts .Strict Eq column) ∧
      ¬ TableReadBack numberedTexts .Strict Eq noColumns := by
  refine ⟨by rfl, by simp [noColumns], ?_⟩
  rintro ⟨bytes, read, hserialize, hread, -⟩
  have hwritten := (K.serialize_eq_ok.mp hserialize).2
  rw [show (K.DataFrame noColumns).appended = serializeFrame noColumns from rfl, serializeFrame_noColumns rfl] at hwritten
  obtain rfl := Except.ok.inj hwritten
  rw [deserialize_noColumns] at hread
  cases hread

end Tables

end Xqdb
