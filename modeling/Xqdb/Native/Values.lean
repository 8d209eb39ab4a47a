import Xqdb.LengthExact
import Xqdb.Native.Reading

/-! Whole values that the native decoder has read, each as one tree. The levels below are a
parameter; at the end they are the decoder itself, by induction over its fuel. -/

namespace Xqdb.Native

open QValue (symbolBytes)

/-! ## Leaves -/

section Leaves

variable {vec rest : Bytes} {pos : Nat} {encoding : SymbolEncoding} {k : K} {stop : Nat}

theorem read_symbol (h : At vec (pos + 1) rest)
    (hok : deserializeAtom vec (pos + 1) 245 encoding = .ok (k, stop)) :
    ∃ tree, ReadAs (245 :: rest) pos (deserializeAtom vec (pos + 1) 245) encoding k stop tree := by
  obtain ⟨text, rest', hclean, hread, rfl, rfl, rfl⟩ := (deserializeAtom_symbol h).mp hok
  refine ⟨.symbol text, hclean, trivial, ⟨rest', by simp [Native.encode]⟩, ?_, ?_, ?_⟩
  · simp [Native.encode]
    omega
  · rintro rfl
    exact hread.resolve_left (by decide)
  · intro htext other
    exact (deserializeAtom_symbol h).mpr ⟨text, rest', hclean, .inr htext, rfl, rfl, rfl⟩

theorem read_atom {kType : UInt8} (hlow : 237 ≤ kType) (h : At vec (pos + 1) rest)
    (hok : deserializeAtom vec (pos + 1) kType encoding = .ok (k, stop)) :
    ∃ tree, ReadAs (kType :: rest) pos (deserializeAtom vec (pos + 1) kType) encoding k stop tree := by
  by_cases hsymbol : kType = 245
  · subst hsymbol
    exact read_symbol h hok
  obtain ⟨⟨hscalar, payload, rest', hlength, rfl, rfl, hbooleans⟩, hthree⟩ :=
    deserializeAtom_reads hsymbol h hok
  refine ⟨.atom kType payload, ⟨hlow, hsymbol, hthree, hlength, hbooleans⟩, hscalar, ⟨rest', rfl⟩, ?_,
    fun _ => trivial, ?_⟩
  · simp [Native.encode]
    omega
  · intro _ other
    exact (deserializeAtom_alike hsymbol encoding other).trans hok

theorem read_lambda (h : At vec (pos + 1) rest)
    (hok : deserializeLambda vec (pos + 1) encoding = .ok (k, stop)) :
    ∃ tree, ReadAs (100 :: rest) pos (deserializeLambda vec (pos + 1)) encoding k stop tree := by
  obtain ⟨context, source, rest', lambda, hclean, hcount, hcontext, hsource, hlambda, rfl, rfl, rfl⟩ :=
    (deserializeLambda_eq_ok h).mp hok
  refine ⟨.lambda context source, ⟨hclean, hcount⟩, trivial, ⟨rest', by simp [Native.encode]⟩, ?_, ?_, ?_⟩
  · simp [Native.encode]
    omega
  · rintro rfl
    exact ⟨hcontext.resolve_left (by decide), hsource.resolve_left (by decide)⟩
  · rintro ⟨htext, htext'⟩ other
    exact (deserializeLambda_eq_ok h).mpr
      ⟨context, source, rest', lambda, hclean, hcount, .inr htext, .inr htext', hlambda, rfl, rfl, rfl⟩

theorem read_primitive {kType : UInt8} (hlow : 101 ≤ kType) (hhigh : kType ≤ 103) (h : At vec (pos + 1) rest)
    (hok : deserializePrimitive vec (pos + 1) kType = .ok (k, stop)) :
    ∃ tree, ReadAs (kType :: rest) pos (fun _ => deserializePrimitive vec (pos + 1) kType) encoding k stop
      tree := by
  obtain ⟨hscalar, opcode, rest', haccepted, rfl, rfl⟩ := deserializePrimitive_reads h hok
  exact ⟨.primitive kType opcode, ⟨hlow, hhigh, haccepted⟩, hscalar, ⟨rest', rfl⟩, rfl, fun _ => trivial,
    fun _ _ => hok⟩

end Leaves

/-! ## Lists -/

section Lists

variable {categories : CategoricalMapping} {vec rest : Bytes} {pos : Nat} {encoding : SymbolEncoding} {k : K}
  {stop : Nat}

/-- A list whose end was found. -/
theorem read_slice {kType : UInt8} (h : At vec (pos + 1) rest)
    (hend : calculateArrayEndIndex vec (pos + 1) kType = .ok stop)
    (hok : deserializeSlice categories encoding vec (pos + 1) stop kType = .ok (k, stop)) :
    ∃ tree, ReadAs (kType :: rest) pos
      (fun other => deserializeSlice categories other vec (pos + 1) stop kType) encoding k stop tree := by
  obtain ⟨list, rest', hwf, rfl, rfl, rfl⟩ := (calculateArrayEndIndex_eq_ok h).mp hend
  have hslice : sliceRange vec (pos + 1) (pos + 1 + list.body.length) = .ok list.body :=
    (sliceRange_at h).mpr ⟨rest', rfl, rfl⟩
  have hsize : list.body.length ≤ usizeMax := by
    have hlength := h.length_eq
    have hbound := h.bounded
    rw [List.length_append] at hlength
    omega
  simp only [deserializeSlice, hslice, Exec.ok_bind, Exec.bind_eq_ok, Except.ok.injEq, Prod.mk.injEq] at hok
  obtain ⟨_, hseries, rfl, -⟩ := hok
  obtain ⟨hlength, hbooleans, hstrict, halike⟩ := deserializeSeries_reads hwf hsize hseries
  refine ⟨.uniform list, ⟨hwf, hbooleans⟩, hlength, ⟨rest', rfl⟩, ?_, hstrict, ?_⟩
  · simp [Native.encode, NativeList.encode]
    omega
  · intro htexts other
    simp only [deserializeSlice, hslice, Exec.ok_bind, halike htexts other]

/-- A decoder that reads trees, at every place and level. -/
def Reads (decode : SymbolEncoding → Bytes → Nat → Bool → Nat → Exec (K × Nat)) (vec : Bytes)
    (encoding : SymbolEncoding) : Prop :=
  ∀ {pos : Nat} {rest : Bytes} {isColumn : Bool} {depth : Nat} {k : K} {stop : Nat}, At vec pos rest →
    decode encoding vec pos isColumn depth = .ok (k, stop) →
    ∃ tree, ReadAs rest pos (fun other => decode other vec pos isColumn depth) encoding k stop tree

variable {decode : SymbolEncoding → Bytes → Nat → Bool → Nat → Exec (K × Nat)}

theorem decodeMany_reads (hdecode : Reads decode vec encoding) {depth count : Nat} {values : List K}
    (h : At vec pos rest) (hok : decodeMany (decode encoding) vec depth count pos = .ok (values, stop)) :
    ∃ trees, trees.length = count ∧ AllWF trees ∧ AllShow trees values ∧
      (∃ rest', rest = encodeAll trees ++ rest') ∧ stop = pos + (encodeAll trees).length ∧
      (encoding = .Strict → AllTextsOk trees) ∧
      (AllTextsOk trees → ∀ other, decodeMany (decode other) vec depth count pos = .ok (values, stop)) := by
  induction count generalizing pos rest values with
  | zero =>
    cases hok
    exact ⟨[], rfl, trivial, rfl, ⟨rest, rfl⟩, rfl, fun _ => trivial, fun _ _ => rfl⟩
  | succ count ih =>
    simp only [decodeMany, Exec.bind_eq_ok, Prod.exists, Except.ok.injEq, Prod.mk.injEq] at hok
    obtain ⟨value, next, hvalue, others, _, hothers, rfl, rfl⟩ := hok
    obtain ⟨tree, hwf, hshown, ⟨rest₁, rfl⟩, rfl, hstrict, halike⟩ := hdecode h hvalue
    obtain ⟨trees, rfl, hwfs, hshows, ⟨rest₂, rfl⟩, rfl, hstricts, halikes⟩ := ih h.skip hothers
    refine ⟨tree :: trees, rfl, ⟨hwf, hwfs⟩, ⟨value, others, rfl, hshown, hshows⟩,
      ⟨rest₂, by simp [encodeAll]⟩, ?_, fun hs => ⟨hstrict hs, hstricts hs⟩, ?_⟩
    · simp [encodeAll]
      omega
    · rintro ⟨htext, htexts⟩ other
      rw [decodeMany, halike htext other, Exec.ok_bind]
      simp only
      rw [halikes htexts other, Exec.ok_bind]

theorem mixedHeader_eq_ok {count start : Nat} (h : At vec pos rest)
    (hok : mixedHeader vec pos = .ok (count, start)) :
    ∃ attr rest', rest = attr :: (LittleEndian.encode 4 count ++ rest') ∧ count ≤ i32Max ∧ start = pos + 5 := by
  have hi32 : i32Max = 2 ^ 31 - 1 := rfl
  rw [mixedHeader, Exec.bind_eq_ok] at hok
  obtain ⟨⟨attr, next⟩, hattr, hok⟩ := hok
  obtain ⟨hone, rest₁, rfl, rfl⟩ := (takeBytes_eq_ok h).mp hattr
  obtain ⟨attr, rfl⟩ := List.length_eq_one_iff.mp hone
  simp only [Exec.bind_eq_ok, Prod.exists, takeBytes_eq_ok h.skip_one] at hok
  obtain ⟨raw, _, ⟨hfour, rest', rfl, rfl⟩, hok⟩ := hok
  split at hok
  · cases hok
  next hneg =>
  split at hok
  · cases hok
  cases hok
  have hlt := LittleEndian.decode_lt raw
  have hround := LittleEndian.encode_decode raw
  rw [hfour] at hlt hround
  refine ⟨attr, rest', by rw [hround]; rfl, ?_, rfl⟩
  by_contra hbig
  exact hneg (LittleEndian.signed_neg hlt (by omega))

/-- A general list of values. -/
theorem read_mixed (hdecode : Reads decode vec encoding) {depth : Nat} (h : At vec (pos + 1) rest)
    (hok : deserializeMixedList (decode encoding) vec (pos + 1) depth = .ok (k, stop)) :
    ∃ tree, ReadAs (0 :: rest) pos (fun other => deserializeMixedList (decode other) vec (pos + 1) depth)
      encoding k stop tree := by
  rw [deserializeMixedList_eq, Exec.bind_eq_ok] at hok
  obtain ⟨⟨count, start⟩, hheader, hok⟩ := hok
  simp only [Exec.bind_eq_ok, Prod.exists, Except.ok.injEq, Prod.mk.injEq] at hok
  obtain ⟨values, _, hvalues, rfl, rfl⟩ := hok
  obtain ⟨attr, rest₁, rfl, hcount, rfl⟩ := mixedHeader_eq_ok h hheader
  obtain ⟨trees, rfl, hwfs, hshows, ⟨rest', rfl⟩, rfl, hstricts, halikes⟩ :=
    decodeMany_reads hdecode h.header hvalues
  refine ⟨.mixed attr trees, ⟨hcount, hwfs⟩, ⟨values, rfl, hshows⟩, ⟨rest', by simp [Native.encode]⟩, ?_,
    hstricts, ?_⟩
  · simp [Native.encode]
    omega
  · intro htexts other
    rw [deserializeMixedList_eq, hheader, Exec.ok_bind]
    simp only
    rw [halikes htexts other, Exec.ok_bind]

/-- **Lists.** -/
theorem read_list (hsize : vec.length < usizeMax) (hdecode : Reads decode vec encoding) {kType : UInt8}
    {isColumn : Bool} {depth : Nat} (h : At vec (pos + 1) rest)
    (hok : deserializeList categories encoding (decode encoding) vec (pos + 1) kType isColumn depth =
      .ok (k, stop)) :
    ∃ tree, ReadAs (kType :: rest) pos
      (fun other => deserializeList categories other (decode other) vec (pos + 1) kType isColumn depth)
      encoding k stop tree := by
  cases hend : calculateArrayEndIndex vec (pos + 1) kType with
  | ok found =>
    simp only [deserializeList, hend] at hok ⊢
    obtain rfl : found = stop := by
      simp only [deserializeSlice, Exec.bind_eq_ok, Except.ok.injEq, Prod.mk.injEq] at hok
      obtain ⟨_, -, _, -, -, hstop⟩ := hok
      exact hstop
    exact read_slice h hend hok
  | error failure =>
    cases failure with
    | panic => exact absurd hend (noPanic_calculateArrayEndIndex hsize)
    | error e =>
      simp only [deserializeList, hend] at hok ⊢
      split at hok
      · next hmixed =>
        obtain ⟨rfl, rfl⟩ := hmixed
        exact read_mixed hdecode h hok
      · cases hok

end Lists

/-! ## Tables -/

section Tables

variable {categories : CategoricalMapping} {vec rest : Bytes} {pos : Nat} {encoding : SymbolEncoding} {k : K}
  {stop : Nat}

/-- The type and the bytes of a column, as the decoder keeps them. -/
def columnParts (list : NativeList) : UInt8 × Bytes := (list.kType, list.body)

theorem tableColumns_reads {count : Nat} {columns : List (UInt8 × Bytes)} (h : At vec pos rest)
    (hok : tableColumns vec count pos = .ok (columns, stop)) :
    ∃ lists : List NativeList, lists.length = count ∧ (∀ list ∈ lists, list.WF) ∧
      columns = lists.map columnParts ∧ (∃ rest', rest = lists.flatMap NativeList.encode ++ rest') ∧
      stop = pos + (lists.flatMap NativeList.encode).length := by
  induction count generalizing pos rest columns with
  | zero =>
    cases hok
    exact ⟨[], rfl, by simp, rfl, ⟨rest, rfl⟩, rfl⟩
  | succ count ih =>
    simp only [tableColumns, Exec.bind_eq_ok, Prod.exists, Except.ok.injEq, Prod.mk.injEq] at hok
    obtain ⟨kType, hkind, next, hend, bytes, hbytes, others, _, hothers, rfl, rfl⟩ := hok
    rw [index_eq_ok, h.getElem?_eq] at hkind
    obtain ⟨rest₁, rfl⟩ := List.head?_eq_some_iff.mp hkind
    have hat := h.skip_one
    obtain ⟨list, rest₂, hwf, rfl, rfl, rfl⟩ := (calculateArrayEndIndex_eq_ok hat).mp hend
    obtain ⟨rest₃, hsplit, hlength⟩ := (sliceRange_at hat).mp hbytes
    obtain ⟨rfl, -⟩ := List.append_inj hsplit (by omega)
    obtain ⟨lists, rfl, hwfs, rfl, ⟨rest', rfl⟩, rfl⟩ := ih hat.skip hothers
    refine ⟨list :: lists, rfl, List.forall_mem_cons.mpr ⟨hwf, hwfs⟩, rfl, ⟨rest', ?_⟩, ?_⟩
    · simp [NativeList.encode]
    · simp [NativeList.encode]
      omega

theorem decodeColumn_reads {list : NativeList} (hwf : list.WF) (hsize : list.body.length ≤ usizeMax)
    {column : Series} (hok : decodeColumn categories encoding (columnParts list) = .ok column) :
    column.len = list.count ∧ list.BooleansOk ∧ (encoding = .Strict → list.TextsOk true) ∧
      (list.TextsOk true → ∀ other, decodeColumn categories other (columnParts list) = .ok column) := by
  simp only [decodeColumn, columnParts, Exec.bind_eq_ok] at hok
  obtain ⟨k, hk, hcolumn⟩ := hok
  obtain ⟨hlength, hbooleans, hstrict, halike⟩ := deserializeSeries_reads hwf hsize hk
  cases k with
  | Series series =>
    cases hcolumn
    refine ⟨?_, hbooleans, hstrict, fun htexts other => ?_⟩
    · obtain ⟨_, hsame, hlen⟩ | ⟨_, hsame, -⟩ := hlength
      · cases hsame
        exact hlen
      · cases hsame
    · rw [decodeColumn, columnParts, halike htexts other, Exec.ok_bind]
      rfl
  | _ => cases hcolumn

theorem decodeColumns_reads {lists : List NativeList} (hwf : ∀ list ∈ lists, list.WF)
    (hsize : ∀ list ∈ lists, list.body.length ≤ usizeMax) {columns : List Series}
    (hok : tryCollect (decodeColumn categories encoding) (lists.map columnParts) = .ok columns) :
    columns.map Series.len = lists.map NativeList.count ∧ (∀ list ∈ lists, list.BooleansOk) ∧
      (encoding = .Strict → ∀ list ∈ lists, list.TextsOk true) ∧
      ((∀ list ∈ lists, list.TextsOk true) → ∀ other,
        tryCollect (decodeColumn categories other) (lists.map columnParts) = .ok columns) := by
  induction lists generalizing columns with
  | nil =>
    cases hok
    exact ⟨rfl, by simp, by simp, fun _ _ => rfl⟩
  | cons list lists ih =>
    simp only [List.map_cons, tryCollect, Exec.bind_eq_ok, Except.ok.injEq] at hok
    obtain ⟨column, hcolumn, others, hothers, rfl⟩ := hok
    obtain ⟨hlen, hbooleans, hstrict, halike⟩ :=
      decodeColumn_reads (hwf list (by simp)) (hsize list (by simp)) hcolumn
    obtain ⟨hlens, hbooleans', hstricts, halikes⟩ :=
      ih (fun other hother => hwf other (by simp [hother])) (fun other hother => hsize other (by simp [hother]))
        hothers
    refine ⟨by simp [hlen, hlens], List.forall_mem_cons.mpr ⟨hbooleans, hbooleans'⟩,
      fun hs => List.forall_mem_cons.mpr ⟨hstrict hs, hstricts hs⟩, fun htexts other => ?_⟩
    obtain ⟨htext, htexts⟩ := List.forall_mem_cons.mp htexts
    rw [List.map_cons, tryCollect, halike htext other, Exec.ok_bind, halikes htexts other, Exec.ok_bind]

theorem new_eq_ok {height : Nat} {columns : List Series} {frame : DataFrame}
    (h : DataFrame.new height columns = .ok frame) :
    frame.columns = columns ∧ frame.height = height ∧ ∀ column ∈ columns, column.len = height := by
  unfold DataFrame.new at h
  split at h
  · next hheights =>
    split at h
    · cases h
      exact ⟨rfl, rfl, hheights⟩
    · cases h
  · cases h

theorem newFrame_eq_ok {columns : List Series} {frame : DataFrame} (h : newFrame columns = .ok frame) :
    frame.columns = columns ∧ frame.height = (columns.map Series.len).headD 0 ∧
      ∀ column ∈ columns, column.len = (columns.map Series.len).headD 0 := by
  unfold newFrame at h
  split at h
  · next hnew =>
    cases h
    exact new_eq_ok hnew
  · cases h

theorem renameColumns_lens {columns : List Series} {names : List (Option Str)}
    (h : columns.length = names.length) : (renameColumns columns names).map Series.len = columns.map Series.len := by
  induction columns generalizing names with
  | nil => rfl
  | cons column columns ih =>
    cases names with
    | nil => cases h
    | cons name names =>
      have hrest := ih (Nat.succ.inj h)
      simp only [renameColumns, List.zipWith_cons_cons, List.map_cons, Series.rename_len] at hrest ⊢
      rw [hrest]

/-- The names of a table are texts, so there is one. -/
theorem tableNames_reads {attr : UInt8} {names : List Bytes} {texts : List (Option Str)}
    (hlength : HasLength names.length k)
    (hk : deserializeSeries categories (NativeList.symbols attr names).body 11 false encoding = .ok k)
    (hok : tableNames k = .ok texts) : texts.length = names.length ∧ names ≠ [] := by
  constructor
  · unfold tableNames at hok
    split at hok
    · next name chunks =>
      cases hok
      obtain ⟨_, hsame, hlen⟩ | ⟨_, hsame, -⟩ := hlength
      · cases hsame
        rw [← hlen, Series.len, List.length_flatten]
      · cases hsame
    · cases hok
    · cases hok
  · rintro rfl
    change deserializeSeries categories (attr :: (LittleEndian.encode 4 0 ++ symbolBytes [])) 11 false encoding = _ at hk
    rw [deserializeSeries_noSymbols] at hk
    cases hk
    cases hok

/-- The bytes that are stepped over. -/
theorem stepped_over {count : Nat} (h : At vec pos rest) (hwithin : pos + count ≤ vec.length) :
    ∃ front rest', front.length = count ∧ rest = front ++ rest' := by
  have hlength := h.length_eq
  exact ⟨rest.take count, rest.drop count, by rw [List.length_take]; omega, (List.take_append_drop _ _).symm⟩

theorem flatMap_encode_length {lists : List NativeList} {list : NativeList} (h : list ∈ lists) :
    list.body.length ≤ (lists.flatMap NativeList.encode).length := by
  induction lists with
  | nil => cases h
  | cons head tail ih =>
    simp only [List.flatMap_cons, List.length_append, NativeList.encode, List.length_cons]
    cases h with
    | head => omega
    | tail _ hmem =>
      have := ih hmem
      omega

/-- The columns of a table, behind its names. -/
theorem tableBehindNames_reads {names : List Bytes} {texts : List (Option Str)} {start : Nat} {read : K}
    (hnames : tableNames read = .ok texts) (hlength : texts.length = names.length) (hne : names ≠ [])
    (h : At vec start rest) (hok : tableBehindNames categories encoding vec start read = .ok (k, stop)) :
    ∃ (gap : Bytes) (columns : List NativeList) (frame : DataFrame) (rest' : Bytes), gap.length = 6 ∧
      columns.length = names.length ∧
      (∀ column ∈ columns, column.WF ∧ column.BooleansOk ∧
        column.count = (columns.map NativeList.count).headD 0) ∧
      k = .DataFrame frame ∧ frame.height = (columns.map NativeList.count).headD 0 ∧
      frame.columns.length = columns.length ∧
      rest = gap ++ (columns.flatMap NativeList.encode ++ rest') ∧
      stop = start + 6 + (columns.flatMap NativeList.encode).length ∧
      (encoding = .Strict → ∀ column ∈ columns, column.TextsOk true) ∧
      ((∀ column ∈ columns, column.TextsOk true) → ∀ other,
        tableBehindNames categories other vec start read = .ok (k, stop)) := by
  simp only [tableBehindNames, hnames, Exec.ok_bind, Exec.bind_eq_ok, Prod.exists, Except.ok.injEq,
    Prod.mk.injEq] at hok
  obtain ⟨columns, _, hcolumns, decoded, hdecoded, frame, hframe, rfl, rfl⟩ := hok
  have hwithin : start + 6 ≤ vec.length := by
    -- the type byte of the first column was read
    obtain ⟨count, hcount⟩ := Nat.exists_eq_add_one_of_ne_zero
      (fun hzero => hne (List.length_eq_zero_iff.mp (hlength.symm.trans hzero)))
    rw [hcount, tableColumns, Exec.bind_eq_ok] at hcolumns
    obtain ⟨kType, hkind, -⟩ := hcolumns
    have hlt := (List.getElem?_eq_some_iff.mp (index_eq_ok.mp hkind)).1
    omega
  obtain ⟨gap, rest₁, hgap, rfl⟩ := stepped_over h hwithin
  have hat : At vec (start + 6) rest₁ := by
    rw [← hgap]
    exact h.skip
  obtain ⟨lists, hcount, hwf, rfl, ⟨rest', rfl⟩, rfl⟩ := tableColumns_reads hat hcolumns
  have hsize : ∀ list ∈ lists, list.body.length ≤ usizeMax := by
    intro list hmem
    have hbody := flatMap_encode_length hmem
    have hlen := hat.length_eq
    have hbound := hat.bounded
    rw [List.length_append] at hlen
    omega
  obtain ⟨hlens, hbooleans, hstrict, halike⟩ := decodeColumns_reads hwf hsize hdecoded
  obtain ⟨hframeColumns, hheight, hheights⟩ := newFrame_eq_ok hframe
  have hdecodedLength : decoded.length = lists.length := by
    simpa using congrArg List.length hlens
  have hrenamed := @renameColumns_lens decoded texts (hdecodedLength.trans hcount)
  rw [hrenamed, hlens] at hheight hheights
  have hcounts : ∀ count ∈ lists.map NativeList.count, count = (lists.map NativeList.count).headD 0 := by
    intro count hmem
    rw [← hlens, ← hrenamed] at hmem
    obtain ⟨column, hcolumn, rfl⟩ := List.mem_map.mp hmem
    exact hheights column hcolumn
  refine ⟨gap, lists, frame, rest', hgap, hcount.trans hlength, ?_, rfl, hheight, ?_, rfl, rfl, hstrict, ?_⟩
  · intro column hcolumn
    exact ⟨hwf column hcolumn, hbooleans column hcolumn, hcounts _ (List.mem_map_of_mem hcolumn)⟩
  · rw [hframeColumns]
    simpa [hdecodedLength] using congrArg List.length hrenamed
  · intro htexts other
    rw [tableBehindNames, hnames, Exec.ok_bind, hcolumns, Exec.ok_bind]
    simp only
    rw [halike htexts other, Exec.ok_bind, hframe, Exec.ok_bind]

/-- **Tables.** -/
theorem read_table (hsize : vec.length < usizeMax) (h : At vec (pos + 1) rest)
    (hok : deserializeTable categories encoding vec (pos + 1) = .ok (k, stop)) :
    ∃ tree, ReadAs (98 :: rest) pos (fun other => deserializeTable categories other vec (pos + 1)) encoding k
      stop tree := by
  have hends := hok
  rw [deserializeTable, Exec.bind_eq_ok] at hends
  obtain ⟨namesEnd, hend, -⟩ := hends
  obtain ⟨hle, hwithin⟩ := endIndex_within hsize hend
  obtain ⟨preamble, rest₁, hthree, rfl⟩ := stepped_over h (show pos + 1 + 3 ≤ vec.length by omega)
  have hat : At vec (pos + 1 + 3) rest₁ := by
    rw [← hthree]
    exact h.skip
  obtain ⟨attr, names, rest₂, hcount, hclean, rfl, rfl⟩ := (endIndex_symbols hat).mp hend
  have hnamed : ∀ other, deserializeTable categories other vec (pos + 1) = _ := fun other =>
    deserializeTable_named hat hcount hclean
  rw [hnamed encoding, Exec.bind_eq_ok] at hok
  obtain ⟨read, hread, hok⟩ := hok
  have hbody : (NativeList.symbols attr names).body.length ≤ usizeMax := by
    have hlen := hat.length_eq
    simp only [NativeList.body, List.length_cons, List.length_append] at hlen ⊢
    omega
  obtain ⟨hlength, -, hstrict, halike⟩ :=
    @deserializeSeries_reads _ _ _ (.symbols attr names) ⟨hcount, hclean⟩ hbody _ hread
  obtain ⟨texts, hnames, -⟩ := Exec.bind_eq_ok.mp hok
  obtain ⟨htexts, hne⟩ := tableNames_reads hlength hread hnames
  obtain ⟨gap, columns, frame, rest', hgap, hcolumns, hall, rfl, hheight, hwidth, rfl, rfl, hstricts, halikes⟩ :=
    tableBehindNames_reads hnames htexts hne hat.header.skip hok
  refine ⟨.table preamble attr names gap columns,
    ⟨hthree, hne, hcount, hclean, hgap, hcolumns, hall⟩, ⟨frame, rfl, hheight, hwidth⟩,
    ⟨rest', by simp [Native.encode]⟩, ?_, fun hs => ⟨hstrict hs, hstricts hs⟩, ?_⟩
  · simp [Native.encode]
    omega
  · rintro ⟨htext, hcolumnTexts⟩ other
    rw [hnamed other]
    have hsame := halike htext other
    simp only [NativeList.body, NativeList.kType] at hsame
    rw [hsame, Exec.ok_bind]
    exact halikes hcolumnTexts other

end Tables

/-! ## What the first byte and the value say of a tree -/

section Heads

variable {tree : Native} {r s : Bytes} {k : K}

theorem uniform_head {list : NativeList} (h : list.WF) : list.kType ≤ 19 := by
  cases list with
  | fixed kType attr count payload => exact h.2.1
  | symbols attr texts => exact (by decide : (11 : UInt8) ≤ 19)
  | nested attr rows => exact (by decide : (0 : UInt8) ≤ 19)

theorem table_of_head (hwf : tree.WF) (h : tree.encode ++ r = 98 :: s) :
    ∃ preamble namesAttr names gap columns, tree = .table preamble namesAttr names gap columns := by
  cases tree with
  | table preamble namesAttr names gap columns => exact ⟨_, _, _, _, _, rfl⟩
  | atom kType payload =>
    obtain rfl : kType = 98 := (List.cons.inj h).1
    exact absurd hwf.1 (by decide)
  | uniform list =>
    have hkind : list.kType = 98 := (List.cons.inj h).1
    exact absurd (hkind ▸ uniform_head hwf.1) (by decide)
  | primitive kType opcode =>
    obtain rfl : kType = 98 := (List.cons.inj h).1
    exact absurd hwf.1 (by decide)
  | symbol text => exact absurd (List.cons.inj h).1 (by decide)
  | mixed attr members => exact absurd (List.cons.inj h).1 (by decide)
  | keyedTable keys values => exact absurd (List.cons.inj h).1 (by decide)
  | dictionary keys values => exact absurd (List.cons.inj h).1 (by decide)
  | lambda context source => exact absurd (List.cons.inj h).1 (by decide)

theorem isList_of_head {kType : UInt8} (hlow : ¬ 19 < kType) (hwf : tree.WF)
    (h : tree.encode ++ r = kType :: s) : tree.IsList := by
  cases tree with
  | uniform list => trivial
  | mixed attr members => trivial
  | atom kType' payload =>
    obtain rfl : kType' = kType := (List.cons.inj h).1
    exact absurd (UInt8.lt_of_lt_of_le (by decide) hwf.1) hlow
  | primitive kType' opcode =>
    obtain rfl : kType' = kType := (List.cons.inj h).1
    exact absurd (UInt8.lt_of_lt_of_le (by decide) hwf.1) hlow
  | symbol text =>
    obtain rfl : 245 = kType := (List.cons.inj h).1
    exact absurd (by decide) hlow
  | keyedTable keys values =>
    obtain rfl : 99 = kType := (List.cons.inj h).1
    exact absurd (by decide) hlow
  | dictionary keys values =>
    obtain rfl : 99 = kType := (List.cons.inj h).1
    exact absurd (by decide) hlow
  | table preamble namesAttr names gap columns =>
    obtain rfl : 98 = kType := (List.cons.inj h).1
    exact absurd (by decide) hlow
  | lambda context source =>
    obtain rfl : 100 = kType := (List.cons.inj h).1
    exact absurd (by decide) hlow

/-- A frame comes from a table. -/
theorem isTable_of_shows {frame : DataFrame} (hwf : tree.WF) (h : tree.Shows (.DataFrame frame)) :
    tree.IsTable ∧ frame.height = tree.count ∧ frame.columns ≠ [] := by
  cases tree with
  | table preamble namesAttr names gap columns =>
    obtain ⟨_, hsame, hheight, hwidth⟩ := h
    cases hsame
    obtain ⟨-, hne, -, -, -, hcolumns, -⟩ := hwf
    refine ⟨trivial, hheight, fun hnone => hne ?_⟩
    rw [hnone, List.length_nil] at hwidth
    exact List.length_eq_zero_iff.mp (hcolumns.symm.trans hwidth.symm)
  | keyedTable keys values =>
    obtain ⟨_, hsame, hheight, hcolumns⟩ := h
    cases hsame
    exact ⟨trivial, hheight, hcolumns⟩
  | uniform list =>
    obtain ⟨_, hsame, -⟩ | ⟨_, hsame, -⟩ := h
    · cases hsame
    · cases hsame
  | mixed attr members =>
    obtain ⟨_, hsame, -⟩ := h
    cases hsame
  | dictionary keys values =>
    obtain ⟨_, hsame, -⟩ := h
    cases hsame
  | atom kType payload => exact h.elim
  | symbol text => exact h.elim
  | lambda context source => exact h.elim
  | primitive kType opcode => exact h.elim

/-- The values of a dictionary are as many as their tree has. -/
theorem valueLength_shows {length : Nat} (hlist : tree.IsList) (h : tree.Shows k)
    (hok : valueLength k = .ok length) : length = tree.count := by
  cases tree with
  | uniform list =>
    obtain ⟨series, rfl, hlen⟩ | ⟨text, rfl, hlen⟩ := h
    · cases hok
      exact hlen
    · cases hok
      exact hlen
  | mixed attr members =>
    obtain ⟨values, rfl, hshow⟩ := h
    cases hok
    exact allShow_length hshow
  | atom kType payload => exact hlist.elim
  | symbol text => exact hlist.elim
  | keyedTable keys values => exact hlist.elim
  | dictionary keys values => exact hlist.elim
  | table preamble namesAttr names gap columns => exact hlist.elim
  | lambda context source => exact hlist.elim
  | primitive kType opcode => exact hlist.elim

end Heads

/-! ## Dictionaries -/

section Dictionaries

variable {categories : CategoricalMapping} {vec rest : Bytes} {pos : Nat} {encoding : SymbolEncoding} {k : K}
  {stop : Nat}

theorem seriesValues_length {series : Series} {values : List K} (h : K.seriesValues series = .ok values) :
    values.length = series.len := by
  unfold K.seriesValues at h
  unfold Series.len
  cases hdata : series.data with
  | null length =>
    simp only [hdata, Except.ok.injEq] at h
    simp [← h]
  | flat type chunks =>
    simp only [hdata] at h
    rw [tryCollect_length h, List.length_flatten]
  | list inner chunks _ =>
    simp only [hdata, Except.ok.injEq] at h
    simp [← h, List.length_flatMap, ListChunk.rows_length]
  | array _ _ _ _ =>
    rw [hdata] at h
    cases h
  | other _ _ _ =>
    rw [hdata] at h
    cases h

theorem dictionaryValues_length {values : List K} {length : Nat} (hlength : valueLength k = .ok length)
    (h : dictionaryValues k = .ok values) : values.length = length := by
  cases k with
  | Series series =>
    cases hlength
    exact seriesValues_length h
  | MixedList members =>
    cases hlength
    cases h
    rfl
  | CharVector text =>
    cases hlength
    cases h
    simp
  | _ => cases h

theorem keyTexts_length {keys : Series} {texts : List Str} (h : keyTexts keys = .ok texts) :
    texts.length = keys.len := by
  unfold keyTexts at h
  unfold Series.len
  split at h
  · next hdata =>
    cases h
    rw [List.length_map, List.length_flatten, hdata]
  · cases h

theorem insertEntries_length {dict entries result : List (Str × K)}
    (h : insertEntries dict entries = .ok result) : result.length = dict.length + entries.length := by
  induction entries generalizing dict with
  | nil =>
    cases h
    rfl
  | cons entry entries ih =>
    rw [insertEntries] at h
    split at h
    · cases h
    · have hlength := ih h
      simp only [List.length_append, List.length_cons, List.length_nil] at hlength ⊢
      omega

theorem buildDictionary_reads {keys : Series} {values : K} (h : buildDictionary keys values = .ok k) :
    valueLength values = .ok keys.len ∧ ∃ entries, k = .Dict entries ∧ entries.length = keys.len := by
  simp only [buildDictionary, Exec.bind_eq_ok] at h
  obtain ⟨texts, htexts, length, hlength, h⟩ := h
  split at h
  · cases h
  next hsame =>
  obtain rfl := not_not.mp hsame
  simp only [Exec.bind_eq_ok, Except.ok.injEq] at h
  obtain ⟨items, hitems, entries, hentries, rfl⟩ := h
  refine ⟨hlength, entries, rfl, ?_⟩
  rw [insertEntries_length hentries, List.length_zip, keyTexts_length htexts,
    dictionaryValues_length hlength hitems]
  simp

/-- The keys of a dictionary. -/
theorem dictionaryKeys_reads (hsize : vec.length < usizeMax) {kType : UInt8}
    (hkind : kType = 11 ∨ kType = 0) {keys : Series} (h : At vec pos rest)
    (hok : dictionaryKeys categories encoding vec pos kType = .ok (keys, stop)) :
    ∃ list : NativeList, list.kType = kType ∧ KeysOk list ∧ keys.len = list.count ∧
      (∃ rest', rest = list.body ++ rest') ∧ stop = pos + list.body.length ∧
      (encoding = .Strict → list.TextsOk true) ∧
      (list.TextsOk true → ∀ other,
        dictionaryKeys categories other vec pos kType = .ok (keys, stop)) := by
  obtain rfl | rfl := hkind
  · simp only [dictionaryKeys, if_pos, Exec.bind_eq_ok, Except.ok.injEq, Prod.mk.injEq] at hok
    obtain ⟨_, hend, bytes, hbytes, read, hread, column, hkeys, rfl, rfl⟩ := hok
    obtain ⟨attr, texts, rest', hcount, hclean, rfl, rfl⟩ := (endIndex_symbols h).mp hend
    have hat : At vec pos ((NativeList.symbols attr texts).body ++ rest') := by
      simpa [NativeList.body] using h
    have hend' : pos + 5 + (symbolBytes texts).length = pos + (NativeList.symbols attr texts).body.length := by
      simp [NativeList.body]
      omega
    rw [hend'] at hbytes
    have hslice := (sliceRange_at hat).mpr ⟨rest', rfl, rfl⟩
    obtain rfl : (NativeList.symbols attr texts).body = bytes := Except.ok.inj (hslice.symm.trans hbytes)
    have hbody : (NativeList.symbols attr texts).body.length ≤ usizeMax := by
      have hlen := hat.length_eq
      rw [List.length_append] at hlen
      omega
    obtain ⟨hlength, -, hstrict, halike⟩ :=
      @deserializeSeries_reads _ _ _ (.symbols attr texts) ⟨hcount, hclean⟩ hbody _ hread
    have hlen : column.len = texts.length := by
      cases read with
      | Series series =>
        cases hkeys
        obtain ⟨_, hsame, hlen⟩ | ⟨_, hsame, -⟩ := hlength
        · cases hsame
          exact hlen
        · cases hsame
      | _ => cases hkeys
    refine ⟨.symbols attr texts, rfl, ⟨hcount, hclean⟩, hlen, ⟨rest', by simp [NativeList.body]⟩, hend', hstrict,
      fun htexts other => ?_⟩
    have hsame : deserializeSeries categories (NativeList.symbols attr texts).body 11 true other = .ok read :=
      halike htexts other
    rw [dictionaryKeys, if_pos rfl, hend, Exec.ok_bind, hend', hslice, Exec.ok_bind, hsame, Exec.ok_bind, hkeys,
      Exec.ok_bind]
  · rw [dictionaryKeys, if_neg (by decide), Exec.bind_eq_ok] at hok
    obtain ⟨⟨length, next⟩, hheader, hok⟩ := hok
    simp only at hok
    obtain ⟨attr, rest', rfl, -, rfl⟩ := (takeListLength_eq_ok h).mp hheader
    split at hok
    · next hzero =>
      subst hzero
      cases hok
      refine ⟨.nested attr [], rfl, rfl, rfl, ⟨rest', by simp [NativeList.body, NestedRow.encodeAll]⟩, ?_,
        fun _ => by simp [NativeList.TextsOk], fun _ other => ?_⟩
      · simp [NativeList.body, NestedRow.encodeAll]
      · rw [dictionaryKeys, if_neg (by decide), hheader, Exec.ok_bind]
        simp only [if_true]
        rfl
    · cases hok

variable {decode : SymbolEncoding → Bytes → Nat → Bool → Nat → Exec (K × Nat)}

/-- Two tables side by side. -/
theorem stackFrames_eq_ok {keys values : DataFrame} (hne : values.columns ≠ [])
    (h : stackFrames keys values = .ok k) :
    ∃ frame, k = .DataFrame frame ∧ frame.height = keys.height ∧ frame.columns ≠ [] ∧
      keys.height = values.height := by
  unfold stackFrames at h
  split at h
  · next frame hframe =>
    cases h
    obtain ⟨hcolumns, hheight, hheights⟩ := new_eq_ok hframe
    obtain ⟨column, hcolumn⟩ := List.exists_mem_of_ne_nil _ hne
    refine ⟨frame, rfl, hheight, ?_, ?_⟩
    · rw [hcolumns]
      simp [hne]
    · rw [← hheights column (by simp [hcolumn]), values.heights column hcolumn]
  · cases h

theorem intoDataFrame_eq_ok {frame : DataFrame} (h : k.intoDataFrame = .ok frame) : k = .DataFrame frame := by
  cases k with
  | DataFrame frame' =>
    cases h
    rfl
  | _ => cases h

/-- A keyed table. -/
theorem read_keyedTable (hdecode : Reads decode vec encoding) {depth : Nat} (hkind : rest.head? = some 98)
    (h : At vec (pos + 1) rest)
    (hok : deserializeKeyedTable (decode encoding) vec (pos + 1) depth = .ok (k, stop)) :
    ∃ tree, ReadAs (99 :: rest) pos (fun other => deserializeKeyedTable (decode other) vec (pos + 1) depth)
      encoding k stop tree := by
  simp only [deserializeKeyedTable, Exec.bind_eq_ok, Prod.exists, Except.ok.injEq, Prod.mk.injEq] at hok
  obtain ⟨_, next, hkeys, keyFrame, hkeyFrame, _, _, hvalues, valueFrame, hvalueFrame, _, hstack, rfl, rfl⟩ := hok
  obtain rfl := intoDataFrame_eq_ok hkeyFrame
  obtain rfl := intoDataFrame_eq_ok hvalueFrame
  obtain ⟨keys, hwf, hshown, ⟨rest₁, rfl⟩, rfl, hstrict, halike⟩ := hdecode h hkeys
  obtain ⟨values, hwf', hshown', ⟨rest', rfl⟩, rfl, hstrict', halike'⟩ := hdecode h.skip hvalues
  obtain ⟨tail, hhead⟩ := List.head?_eq_some_iff.mp hkind
  obtain ⟨-, hheight, -⟩ := isTable_of_shows hwf hshown
  obtain ⟨htable, hheight', hne⟩ := isTable_of_shows hwf' hshown'
  obtain ⟨frame, rfl, hframe, hcolumns, hsame⟩ := stackFrames_eq_ok hne hstack
  refine ⟨.keyedTable keys values, ⟨hwf, hwf', table_of_head hwf hhead, htable, ?_⟩,
    ⟨frame, rfl, hframe.trans hheight, hcolumns⟩, ⟨rest', by simp [Native.encode]⟩, ?_,
    fun hs => ⟨hstrict hs, hstrict' hs⟩, ?_⟩
  · rw [← hheight, ← hheight', hsame]
  · simp [Native.encode]
    omega
  · rintro ⟨htexts, htexts'⟩ other
    have hsecond := halike' htexts' other
    rw [deserializeKeyedTable, halike htexts other, Exec.ok_bind]
    simp only [K.intoDataFrame, Exec.ok_bind]
    rw [hsecond, Exec.ok_bind]
    simp only [Exec.ok_bind]
    rw [hstack, Exec.ok_bind]

/-- A dictionary with symbols as keys. -/
theorem read_symbolDictionary (hsize : vec.length < usizeMax) (hdecode : Reads decode vec encoding)
    {kType : UInt8} (hkind : kType = 11 ∨ kType = 0) {isColumn : Bool} {depth : Nat}
    (h : At vec (pos + 1) (kType :: rest))
    (hok : deserializeSymbolDictionary categories encoding (decode encoding) vec (pos + 1 + 1) kType isColumn
      depth = .ok (k, stop)) :
    ∃ tree, ReadAs (99 :: kType :: rest) pos
      (fun other => deserializeSymbolDictionary categories other (decode other) vec (pos + 1 + 1) kType isColumn
        depth) encoding k stop tree := by
  rw [deserializeSymbolDictionary, Exec.bind_eq_ok] at hok
  obtain ⟨⟨keys, next⟩, hkeys, hok⟩ := hok
  simp only [Exec.bind_eq_ok, Exec.okOr_eq_ok] at hok
  obtain ⟨valueType, hvalueType, hok⟩ := hok
  split at hok
  · cases hok
  next hlow =>
  simp only [Exec.bind_eq_ok, Prod.exists, Except.ok.injEq, Prod.mk.injEq] at hok
  obtain ⟨value, _, hvalue, _, hbuild, rfl, rfl⟩ := hok
  obtain ⟨list, rfl, hkeysOk, hlen, ⟨rest₁, rfl⟩, rfl, hstrict, halike⟩ :=
    dictionaryKeys_reads hsize hkind h.skip_one hkeys
  have hat := h.skip_one.skip
  obtain ⟨tree, hwf, hshown, ⟨rest', rfl⟩, rfl, hstrict', halike'⟩ := hdecode hat hvalue
  obtain ⟨tail, hhead⟩ := List.head?_eq_some_iff.mp (hat.getElem?_eq.symm.trans hvalueType)
  have hlist := isList_of_head hlow hwf hhead
  obtain ⟨hlength, entries, rfl, hentries⟩ := buildDictionary_reads hbuild
  have hcount := valueLength_shows hlist hshown hlength
  refine ⟨.dictionary list tree, ⟨hkeysOk, hwf, hlist, hlen.symm.trans hcount⟩,
    ⟨entries, rfl, hentries.trans hlen⟩, ⟨rest', by simp [Native.encode, NativeList.encode]⟩, ?_,
    fun hs => ⟨hstrict hs, hstrict' hs⟩, ?_⟩
  · simp [Native.encode, NativeList.encode]
    omega
  · rintro ⟨htexts, htexts'⟩ other
    rw [deserializeSymbolDictionary, halike htexts other, Exec.ok_bind]
    simp only [hvalueType, Exec.okOr_some, Exec.ok_bind]
    rw [if_neg hlow, halike' htexts' other, Exec.ok_bind]
    simp only
    rw [hbuild, Exec.ok_bind]

/-- **Dictionaries.** -/
theorem read_dictionary (hsize : vec.length < usizeMax) (hdecode : Reads decode vec encoding) {isColumn : Bool}
    {depth : Nat} (h : At vec (pos + 1) rest)
    (hok : deserializeDictionary categories encoding (decode encoding) vec (pos + 1) isColumn depth =
      .ok (k, stop)) :
    ∃ tree, ReadAs (99 :: rest) pos
      (fun other => deserializeDictionary categories other (decode other) vec (pos + 1) isColumn depth) encoding
      k stop tree := by
  rw [deserializeDictionary, Exec.bind_eq_ok] at hok
  obtain ⟨kType, hkind, hok⟩ := hok
  rw [Exec.okOr_eq_ok] at hkind
  simp only [deserializeDictionary, hkind, Exec.okOr_some, Exec.ok_bind]
  rw [h.getElem?_eq] at hkind
  obtain ⟨rest₁, rfl⟩ := List.head?_eq_some_iff.mp hkind
  by_cases htable : kType = 98
  · simp only [if_pos htable] at hok ⊢
    subst htable
    exact read_keyedTable hdecode rfl h hok
  · simp only [if_neg htable] at hok ⊢
    by_cases hsymbols : kType = 11 ∨ kType = 0
    · simp only [if_pos hsymbols] at hok ⊢
      exact read_symbolDictionary hsize hdecode hsymbols h hok
    · rw [if_neg hsymbols] at hok
      cases hok

end Dictionaries

/-! ## The decoder -/

section Decoder

variable {categories : CategoricalMapping} {vec : Bytes} {encoding : SymbolEncoding}

/-- **The decoder reads trees.** -/
theorem deserializeUnchecked_reads (hsize : vec.length < usizeMax) (fuel : Nat) :
    Reads (fun encoding => deserializeUnchecked categories encoding fuel) vec encoding := by
  induction fuel with
  | zero =>
    intro pos rest isColumn depth k stop h hok
    cases hok
  | succ fuel ih =>
    intro pos rest isColumn depth k stop h hok
    have hdepth : depth ≤ maxValueDepth := by
      by_contra hdeep
      simp only [deserializeUnchecked] at hok
      rw [if_pos (by omega)] at hok
      cases hok
    have hkind : ∃ kType tail, rest = kType :: tail := by
      simp only [deserializeUnchecked] at hok
      rw [if_neg (by omega), Exec.bind_eq_ok] at hok
      obtain ⟨kType, hkind, -⟩ := hok
      rw [Exec.okOr_eq_ok, h.getElem?_eq] at hkind
      exact ⟨kType, List.head?_eq_some_iff.mp hkind⟩
    obtain ⟨kType, tail, rfl⟩ := hkind
    have hbody : ∀ other, deserializeUnchecked categories other (fuel + 1) vec pos isColumn depth = _ :=
      fun other => deserializeUnchecked_body hdepth h
    simp only [hbody, deserializeBody] at hok ⊢
    have hat := h.skip_one
    split at hok
    · next hlow =>
      simp only [if_pos hlow]
      exact read_atom hlow hat hok
    next hatom =>
    simp only [if_neg hatom]
    split at hok
    · next hlist =>
      simp only [if_pos hlist]
      exact read_list hsize ih hat hok
    next hlist =>
    simp only [if_neg hlist]
    split at hok
    · next hdict =>
      simp only [if_pos hdict]
      subst hdict
      exact read_dictionary hsize ih hat hok
    next hdict =>
    simp only [if_neg hdict]
    split at hok
    · next htable =>
      simp only [if_pos htable]
      subst htable
      exact read_table hsize hat hok
    next htable =>
    simp only [if_neg htable]
    split at hok
    · next hlambda =>
      simp only [if_pos hlambda]
      subst hlambda
      exact read_lambda hat hok
    next hlambda =>
    simp only [if_neg hlambda]
    split at hok
    · next hprimitive =>
      simp only [if_pos hprimitive]
      exact read_primitive hprimitive.1 hprimitive.2 hat hok
    split at hok
    · rw [deserializeServerError, Exec.bind_eq_ok] at hok
      obtain ⟨_, -, hok⟩ := hok
      cases hok
    · cases hok

/-- A body that is decoded is the encoding of a tree. -/
theorem deserialize_reads {body : Bytes} {k : K} (hsize : body.length ≤ isizeMax)
    (hok : deserialize categories encoding body = .ok k) :
    ∃ tree : Native, tree.WF ∧ tree.encode = body ∧ tree.Shows k ∧ (encoding = .Strict → tree.TextsOk) ∧
      (tree.TextsOk → ∀ other, deserialize categories other body = .ok k) := by
  have hisize : isizeMax < usizeMax := by decide
  rw [deserialize_eq_ok] at hok
  have hat : At body 0 body := At.start (by omega)
  obtain ⟨tree, hwf, hshown, ⟨rest', hrest⟩, hstop, hstrict, halike⟩ :=
    deserializeUnchecked_reads (by omega) deserializeFuel hat hok
  have hnone : rest' = [] := by
    have hlength := congrArg List.length hrest
    rw [List.length_append] at hlength
    exact List.length_eq_zero_iff.mp (by omega)
  rw [hnone, List.append_nil] at hrest
  refine ⟨tree, hwf, hrest.symm, hshown, hstrict, fun htexts other => ?_⟩
  rw [deserialize_eq_ok]
  exact halike htexts other

end Decoder

/-! ## Encodings -/

/-- Every text in the body is valid on its own, whichever tree the body is read as. -/
def BodyTextsOk (body : Bytes) : Prop :=
  ∀ tree : Native, tree.WF → tree.encode = body → tree.TextsOk

/-- **Lossy extends strict.** What the strict encoding decodes, the lossy one decodes to the same
value; where all texts are valid the two encodings cannot be told apart. -/
theorem lossy_extends_strict (categories : CategoricalMapping) (body : Bytes) (hsize : body.length ≤ isizeMax) :
    (∀ k, deserialize categories .Strict body = .ok k → deserialize categories .Lossy body = .ok k) ∧
      (BodyTextsOk body → ∀ k,
        deserialize categories .Strict body = .ok k ↔ deserialize categories .Lossy body = .ok k) := by
  have hextends : ∀ k, deserialize categories .Strict body = .ok k →
      deserialize categories .Lossy body = .ok k := by
    intro k hok
    obtain ⟨tree, -, -, -, hstrict, halike⟩ := deserialize_reads hsize hok
    exact halike (hstrict rfl) .Lossy
  refine ⟨hextends, fun htexts k => ⟨hextends k, fun hok => ?_⟩⟩
  obtain ⟨tree, hwf, hbytes, -, -, halike⟩ := deserialize_reads hsize hok
  exact halike (htexts tree hwf hbytes) .Strict

theorem lossy_extends_strict_column :
    ∃ k, deserialize numberedTexts .Lossy
      [98, 0, 99, 11, 0, 1, 0, 0, 0, 97, 0, 0, 0, 1, 0, 0, 0, 10, 0, 1, 0, 0, 0, 65] = .ok k := by
  obtain ⟨k, hk⟩ := @exists_ok _ _ (deserialize numberedTexts .Strict
    [98, 0, 99, 11, 0, 1, 0, 0, 0, 97, 0, 0, 0, 1, 0, 0, 0, 10, 0, 1, 0, 0, 0, 65]) (by decide +kernel)
  exact ⟨k, (lossy_extends_strict numberedTexts
    [98, 0, 99, 11, 0, 1, 0, 0, 0, 97, 0, 0, 0, 1, 0, 0, 0, 10, 0, 1, 0, 0, 0, 65] (by decide)).1 k hk⟩

end Xqdb.Native
