import Xqdb.DecoderPanics

/-! The panics of the native decoder, exactly. A table breaks when it names no column, or when
the bytes end before the type byte of one of its columns; every value above it that the decoder
has entered breaks with it, and nothing else does. -/

namespace Xqdb

open LittleEndian (encode)
open QValue (symbolBytes)

theorem Exec.bind_eq_panic {α β : Type} {run : Exec α} {next : α → Exec β} :
    run >>= next = .error .panic ↔
      run = .error .panic ∨ ∃ a, run = .ok a ∧ next a = .error .panic := by
  cases run with
  | error e =>
    constructor
    · intro h
      exact .inl (congrArg Except.error (Except.error.inj h))
    · rintro (h | ⟨a, h, -⟩)
      · cases h
        rfl
      · cases h
  | ok a =>
    constructor
    · intro h
      exact .inr ⟨a, rfl, h⟩
    · rintro (h | ⟨_, h, hnext⟩)
      · cases h
      · cases h
        exact hnext

/-- The part of a run before a panic that is not in it. -/
theorem NoPanic.bind_eq_panic {α β : Type} {run : Exec α} {next : α → Exec β} (h : NoPanic run) :
    run >>= next = .error .panic ↔ ∃ a, run = .ok a ∧ next a = .error .panic := by
  rw [Exec.bind_eq_panic]
  constructor
  · rintro (hrun | hnext)
    · exact absurd hrun h
    · exact hnext
  · exact .inr

/-- A run followed by one that cannot panic. -/
theorem Exec.bind_eq_panic_left {α β : Type} {run : Exec α} {next : α → Exec β}
    (h : ∀ a, NoPanic (next a)) : run >>= next = .error .panic ↔ run = .error .panic := by
  rw [Exec.bind_eq_panic]
  constructor
  · rintro (hrun | ⟨a, -, hnext⟩)
    · exact hrun
    · exact absurd hnext (h a)
  · exact .inl

/-! ## Column names -/

/-- The symbols of a payload, cut at their NULs. -/
theorem symbolTexts_front {texts : List Bytes} (hclean : ∀ text ∈ texts, 0 ∉ text) (front : Bytes) :
    symbolTexts (front ++ symbolBytes texts) texts.length front.length =
      .ok (texts, front.length + (symbolBytes texts).length) := by
  induction texts generalizing front with
  | nil => rfl
  | cons text texts ih =>
    have hnul : memchr (text ++ 0 :: symbolBytes texts) = some text.length :=
      memchr_append_zero (hclean text (by simp))
    have hnext : nextSymbol (front ++ symbolBytes (text :: texts)) front.length =
        .ok (text, (front ++ text ++ [0]).length) := by
      rw [nextSymbol, sliceFrom, if_pos (by simp), List.drop_left, Exec.ok_bind]
      simp only [symbolBytes]
      rw [hnul, Exec.okOr_some, Exec.ok_bind, sliceRange, getRange, if_pos (by simp),
        List.drop_left, Nat.add_sub_cancel_left, List.take_left]
      simp
    have hrest := ih (fun text htext => hclean text (by simp [htext])) (front ++ text ++ [0])
    have hsplit : front ++ symbolBytes (text :: texts) = front ++ text ++ [0] ++ symbolBytes texts := by
      simp [symbolBytes]
    rw [List.length_cons, symbolTexts, hnext, Exec.ok_bind]
    simp only
    rw [hsplit, hrest, Exec.ok_bind]
    have hstop : (front ++ text ++ [0]).length + (symbolBytes texts).length =
        front.length + (symbolBytes (text :: texts)).length := by
      simp only [symbolBytes, List.length_append, List.length_cons, List.length_nil]
      omega
    rw [hstop]

section Names

variable {categories : CategoricalMapping} {encoding : SymbolEncoding} {attr : UInt8} {names : List Bytes}

theorem symbolBytes_valid_iff : Utf8.Valid (symbolBytes names) ↔ ∀ name ∈ names, Utf8.Valid name := by
  induction names with
  | nil => simp [symbolBytes, Utf8.valid_ascii]
  | cons name names ih => rw [symbolBytes, Utf8.valid_split, ih, List.forall_mem_cons]

/-- Symbols that are not a column. -/
theorem decodeSymbolList_texts (hclean : ∀ name ∈ names, 0 ∉ name) (hread : Readable encoding names) :
    ∃ texts, texts.length = names.length ∧
      decodeSymbolList categories (symbolBytes names) names.length false encoding =
        .ok (.Series (textSeries (typeName 11) texts)) := by
  have hlossy : decodeUtf8 (symbolBytes names) encoding "q symbol-list value" =
      .ok (lossyText (symbolBytes names)) := by
    rcases hread with rfl | hvalid
    · exact decodeUtf8_lossy _ _
    · have hbytes := symbolBytes_valid_iff.mpr hvalid
      have htext : lossyText (symbolBytes names) = ⟨symbolBytes names, hbytes⟩ :=
        Str.ext_bytes (Utf8.lossy_valid hbytes)
      rw [htext]
      exact @decodeUtf8_valid ⟨symbolBytes names, hbytes⟩ _ _
  have hbytes : (lossyText (symbolBytes names)).bytes = symbolBytes (names.map Utf8.lossy) :=
    lossy_symbolBytes names
  have htexts := @symbolTexts_front (names.map Utf8.lossy)
    (by
      intro text htext
      obtain ⟨name, hname, rfl⟩ := List.mem_map.mp htext
      exact Utf8.zero_notMem_lossy (hclean name hname)) []
  rw [List.length_map] at htexts
  refine ⟨names.map Utf8.lossy, by simp, ?_⟩
  rw [decodeSymbolList, hlossy, Exec.ok_bind, if_neg (by decide), hbytes]
  rw [List.nil_append, List.length_nil, Nat.zero_add] at htexts
  rw [htexts, Exec.ok_bind]
  simp only [checkSymbolListConsumed, if_pos, Exec.ok_bind]

theorem decodeSymbolList_unreadable (hread : ¬ Readable encoding names) (asColumn : Bool) (k : K) :
    decodeSymbolList categories (symbolBytes names) names.length asColumn encoding ≠ .ok k := by
  have hstrict : encoding = .Strict := by
    cases encoding with
    | Strict => rfl
    | Lossy => exact absurd (.inl rfl) hread
  have hinvalid : Str.fromUtf8 (symbolBytes names) = none := by
    rw [Str.fromUtf8_eq_none]
    exact fun hvalid => hread (.inr (symbolBytes_valid_iff.mp hvalid))
  subst hstrict
  simp [decodeSymbolList, decodeUtf8, hinvalid, deserializationErr]

/-- Symbols, of which there are some. -/
theorem deserializeSeries_symbolList {asColumn : Bool} (hcount : names.length ≤ i32Max) (hne : names ≠ [])
    (hsize : (attr :: (encode 4 names.length ++ symbolBytes names)).length ≤ usizeMax) :
    deserializeSeries categories (attr :: (encode 4 names.length ++ symbolBytes names)) 11 asColumn encoding =
      decodeSymbolList categories (symbolBytes names) names.length asColumn encoding := by
  have hlength : names.length ≠ 0 := fun h => hne (List.length_eq_zero_iff.mp h)
  rw [deserializeSeries, if_neg (by decide), header_at hcount hsize, Exec.ok_bind]
  simp only
  rw [if_neg hlength, payload_at, Exec.okOr_some, Exec.ok_bind, checkPayloadLength,
    if_pos (.inr rfl), Exec.ok_bind, decodeList, if_neg (by decide), if_neg (by decide), if_pos rfl]

/-- No symbols are a column of symbols, also where no column is asked for. -/
theorem deserializeSeries_noSymbols {asColumn : Bool} :
    deserializeSeries categories (attr :: (encode 4 0 ++ symbolBytes [])) 11 asColumn encoding =
      .ok (.Series (.ofCells (typeName 11) (.categorical categories) [])) := by
  rw [deserializeSeries, if_neg (by decide), header_at (by decide) (by simp [symbolBytes, usizeMax]), Exec.ok_bind]
  simp only [if_true]
  rw [if_neg (by simp [symbolBytes]), if_neg (by simp)]
  rfl

end Names

/-! ## Tables -/

section Tables

variable {vec : Bytes}

/-- A column has no type byte: the bytes end where the columns before it do. -/
def ColumnsBreak (vec : Bytes) : Nat → Nat → Prop
  | 0, _ => False
  | count + 1, pos => vec.length ≤ pos ∨
    ∃ kType stop, vec[pos]? = some kType ∧ calculateArrayEndIndex vec (pos + 1) kType = .ok stop ∧
      ColumnsBreak vec count stop

theorem tableColumns_eq_panic (hsize : vec.length < usizeMax) {count pos : Nat} :
    tableColumns vec count pos = .error .panic ↔ ColumnsBreak vec count pos := by
  induction count generalizing pos with
  | zero =>
    simp only [ColumnsBreak, iff_false]
    exact noPanic_ok _
  | succ count ih =>
    rw [tableColumns, ColumnsBreak]
    by_cases hpos : vec.length ≤ pos
    · have hindex : index vec pos = .error .panic := by
        rw [index, List.getElem?_eq_none hpos]
        rfl
      rw [hindex]
      exact ⟨fun _ => .inl hpos, fun _ => rfl⟩
    have hget : vec[pos]? = some (vec.get ⟨pos, by omega⟩) := List.getElem?_eq_getElem (by omega)
    have hindex : index vec pos = .ok (vec.get ⟨pos, by omega⟩) := by rw [index, hget]
    rw [hindex, Exec.ok_bind, (noPanic_calculateArrayEndIndex hsize).bind_eq_panic]
    constructor
    · rintro ⟨stop, hstop, hpanic⟩
      obtain ⟨hle, hwithin⟩ := endIndex_within hsize hstop
      obtain ⟨bytes, -, hpanic⟩ := ((noPanic_sliceRange hle hwithin).bind_eq_panic).mp hpanic
      have hrest := (Exec.bind_eq_panic_left fun _ => noPanic_ok _).mp hpanic
      exact .inr ⟨_, stop, hget, hstop, ih.mp hrest⟩
    · rintro (hpast | ⟨kType, stop, hkind, hstop, hrest⟩)
      · exact absurd hpast hpos
      · obtain rfl : vec.get ⟨pos, by omega⟩ = kType := Option.some.inj (hget.symm.trans hkind)
        obtain ⟨hle, hwithin⟩ := endIndex_within hsize hstop
        obtain ⟨bytes, hbytes⟩ : ∃ bytes, sliceRange vec (pos + 1) stop = .ok bytes := by
          rw [sliceRange, getRange, if_pos ⟨hle, hwithin⟩]
          exact ⟨_, rfl⟩
        refine ⟨stop, hstop, ?_⟩
        rw [hbytes, Exec.ok_bind, Exec.bind_eq_panic_left fun _ => noPanic_ok _]
        exact ih.mpr hrest

/-- A table, behind its type byte, that makes the decoder panic: it names no column, or it ends
before the type byte of one of its columns. -/
def TableBreaks (encoding : SymbolEncoding) (vec : Bytes) (pos : Nat) : Prop :=
  ∃ attr names rest, names.length ≤ i32Max ∧ (∀ name ∈ names, 0 ∉ name) ∧
    vec.drop (pos + 3) = attr :: (encode 4 names.length ++ (symbolBytes names ++ rest)) ∧
    (names = [] ∨ Readable encoding names ∧
      ColumnsBreak vec names.length (pos + 3 + 5 + (symbolBytes names).length + 6))

variable {categories : CategoricalMapping} {encoding : SymbolEncoding} {pos : Nat}

/-- What is done with the names of a table. -/
def tableBehindNames (categories : CategoricalMapping) (encoding : SymbolEncoding) (vec : Bytes)
    (stop : Nat) (k : K) : Exec (K × Nat) := do
  let names ← tableNames k
  let (columns, pos) ← tableColumns vec names.length (stop + 6)
  let decoded ← tryCollect (decodeColumn categories encoding) columns
  let frame ← newFrame (renameColumns decoded names)
  .ok (.DataFrame frame, pos)

theorem noPanic_newFrame (columns : List Series) : NoPanic (newFrame columns) := by
  unfold newFrame
  split
  · exact noPanic_ok _
  · exact noPanic_err _

theorem noPanic_decodeColumn (column : UInt8 × Bytes) : NoPanic (decodeColumn categories encoding column) :=
  (noPanic_deserializeSeries _ _ _ _ _).bind fun _ _ => noPanic_intoSeries _

/-- A table behind names that were read. -/
theorem deserializeTable_named {attr : UInt8} {names : List Bytes} {rest : Bytes}
    (hat : At vec (pos + 3) (attr :: (encode 4 names.length ++ (symbolBytes names ++ rest))))
    (hcount : names.length ≤ i32Max) (hclean : ∀ name ∈ names, 0 ∉ name) :
    deserializeTable categories encoding vec pos =
      deserializeSeries categories (attr :: (encode 4 names.length ++ symbolBytes names)) 11 false encoding >>=
        tableBehindNames categories encoding vec (pos + 3 + 5 + (symbolBytes names).length) := by
  have hstop := (endIndex_symbols hat).mpr ⟨attr, names, rest, hcount, hclean, rfl, rfl⟩
  have hslice : sliceRange vec (pos + 3) (pos + 3 + 5 + (symbolBytes names).length) =
      .ok (attr :: (encode 4 names.length ++ symbolBytes names)) := by
    rw [sliceRange_at hat]
    refine ⟨rest, by simp, ?_⟩
    simp only [List.length_cons, List.length_append, LittleEndian.encode_length]
    omega
  rw [deserializeTable, hstop, Exec.ok_bind, hslice, Exec.ok_bind]
  rfl

theorem tableBehindNames_texts (hsize : vec.length < usizeMax) {stop : Nat} {texts : List Bytes} :
    tableBehindNames categories encoding vec stop (.Series (textSeries (typeName 11) texts)) =
        .error .panic ↔ ColumnsBreak vec texts.length (stop + 6) := by
  have hnames : ∃ names, tableNames (.Series (textSeries (typeName 11) texts)) = .ok names ∧
      names.length = texts.length := by
    refine ⟨texts.map fun text => some ((Str.fromUtf8 text).getD Str.empty), ?_, by simp⟩
    simp [tableNames, textSeries, Series.ofCells]
  obtain ⟨names, hnames, hlength⟩ := hnames
  rw [tableBehindNames, hnames, Exec.ok_bind, hlength, ← tableColumns_eq_panic hsize]
  refine Exec.bind_eq_panic_left fun columns => ?_
  exact (noPanic_tryCollect noPanic_decodeColumn _).bind fun _ _ =>
    (noPanic_newFrame _).bind fun _ _ => noPanic_ok _

theorem deserializeTable_panic_at (hsize : vec.length < usizeMax) {attr : UInt8} {names : List Bytes}
    {rest : Bytes} (hat : At vec (pos + 3) (attr :: (encode 4 names.length ++ (symbolBytes names ++ rest))))
    (hcount : names.length ≤ i32Max) (hclean : ∀ name ∈ names, 0 ∉ name) :
    deserializeTable categories encoding vec pos = .error .panic ↔
      names = [] ∨ Readable encoding names ∧
        ColumnsBreak vec names.length (pos + 3 + 5 + (symbolBytes names).length + 6) := by
  rw [deserializeTable_named hat hcount hclean]
  by_cases hne : names = []
  · -- `symbols.str()` is asked of a column of symbols
    subst hne
    rw [List.length_nil, deserializeSeries_noSymbols, Exec.ok_bind]
    exact ⟨fun _ => .inl rfl, fun _ => rfl⟩
  have hsize' : (attr :: (encode 4 names.length ++ symbolBytes names)).length ≤ usizeMax := by
    have hlength := hat.length_eq
    simp only [List.length_cons, List.length_append] at hlength ⊢
    omega
  rw [deserializeSeries_symbolList hcount hne hsize']
  by_cases hread : Readable encoding names
  · obtain ⟨texts, hlength, htexts⟩ := @decodeSymbolList_texts categories _ _ hclean hread
    rw [htexts, Exec.ok_bind, tableBehindNames_texts hsize, hlength]
    simp only [hne, hread, false_or, true_and]
  · simp only [hne, hread, false_or, false_and, iff_false]
    refine (noPanic_decodeSymbolList _ _ _ _ _).bind fun k hk => ?_
    exact absurd hk (decodeSymbolList_unreadable hread _ _)

/-- **Tables.** -/
theorem deserializeTable_eq_panic (hsize : vec.length < usizeMax) :
    deserializeTable categories encoding vec pos = .error .panic ↔ TableBreaks encoding vec pos := by
  constructor
  · intro hpanic
    have hends := hpanic
    rw [deserializeTable, (noPanic_calculateArrayEndIndex hsize).bind_eq_panic] at hends
    obtain ⟨stop, hstop, -⟩ := hends
    obtain ⟨hle, hwithin⟩ := endIndex_within hsize hstop
    have hat : At vec (pos + 3) (vec.drop (pos + 3)) := ⟨rfl, by omega, hsize.le⟩
    obtain ⟨attr, names, rest, hcount, hclean, hahead, -⟩ := (endIndex_symbols hat).mp hstop
    rw [hahead] at hat
    exact ⟨attr, names, rest, hcount, hclean, hahead,
      (deserializeTable_panic_at hsize hat hcount hclean).mp hpanic⟩
  · rintro ⟨attr, names, rest, hcount, hclean, hahead, hbreak⟩
    have hpos : pos + 3 ≤ vec.length := by
      by_contra hpast
      rw [List.drop_eq_nil_of_le (by omega)] at hahead
      cases hahead
    exact (deserializeTable_panic_at hsize ⟨hahead, hpos, hsize.le⟩ hcount hclean).mpr hbreak

end Tables

/-! ## Values -/

section Values

variable {categories : CategoricalMapping} {encoding : SymbolEncoding} {vec : Bytes}

/-- The header of a mixed list: the count and the position of the first value. -/
def mixedHeader (vec : Bytes) (pos : Nat) : Exec (Nat × Nat) := do
  let (_, pos) ← takeBytes vec pos 1 "q mixed-list attribute"
  let (raw, pos) ← takeBytes vec pos 4 "q mixed-list length"
  if LittleEndian.signed 32 (LittleEndian.decode raw) < 0 then
    deserializationErr "q mixed-list length cannot be negative"
  else if (vec.length - pos) / 2 < LittleEndian.decode raw then
    deserializationErr s!"mixed-list count {LittleEndian.decode raw} exceeds the available {vec.length - pos}-byte payload"
  else .ok (LittleEndian.decode raw, pos)

theorem noPanic_mixedHeader (vec : Bytes) (pos : Nat) : NoPanic (mixedHeader vec pos) := by
  refine (noPanic_takeBytes _ _ _ _).bind fun _ _ => (noPanic_takeBytes _ _ _ _).bind fun _ _ => ?_
  simp only
  split
  · exact noPanic_err _
  split
  · exact noPanic_err _
  · exact noPanic_ok _

section Levels

variable (decode : Bytes → Nat → Bool → Nat → Exec (K × Nat))

theorem deserializeMixedList_eq (pos depth : Nat) :
    deserializeMixedList decode vec pos depth =
      mixedHeader vec pos >>= fun header =>
        decodeMany decode vec (depth + 1) header.1 header.2 >>= fun values =>
          .ok (.MixedList values.1, values.2) := by
  simp only [deserializeMixedList, mixedHeader, bind_assoc]
  refine bind_congr fun taken => bind_congr fun raw => ?_
  split
  · rfl
  split
  · rfl
  · rfl

theorem decodeMany_eq_panic {depth count pos : Nat} :
    decodeMany decode vec depth count pos = .error .panic ↔
      ∃ before values next, before < count ∧
        decodeMany decode vec depth before pos = .ok (values, next) ∧
        decode vec next false depth = .error .panic := by
  induction count generalizing pos with
  | zero =>
    simp only [Nat.not_lt_zero, false_and, exists_false, iff_false]
    exact noPanic_ok _
  | succ count ih =>
    rw [decodeMany, Exec.bind_eq_panic]
    constructor
    · rintro (hhead | ⟨⟨value, next⟩, hvalue, hrest⟩)
      · exact ⟨0, [], pos, by omega, rfl, hhead⟩
      · simp only at hrest
        rw [Exec.bind_eq_panic_left fun _ => noPanic_ok _] at hrest
        obtain ⟨before, values, stop, hlt, hvalues, hpanic⟩ := ih.mp hrest
        refine ⟨before + 1, value :: values, stop, by omega, ?_, hpanic⟩
        rw [decodeMany, hvalue, Exec.ok_bind]
        simp only
        rw [hvalues, Exec.ok_bind]
    · rintro ⟨before, values, stop, hlt, hvalues, hpanic⟩
      cases before with
      | zero =>
        cases hvalues
        exact .inl hpanic
      | succ before =>
        simp only [decodeMany, Exec.bind_eq_ok, Prod.exists, Except.ok.injEq, Prod.mk.injEq] at hvalues
        obtain ⟨value, next, hvalue, values, _, hvalues, rfl, rfl⟩ := hvalues
        refine .inr ⟨(value, next), hvalue, ?_⟩
        simp only
        rw [Exec.bind_eq_panic_left fun _ => noPanic_ok _]
        exact ih.mpr ⟨before, values, _, by omega, hvalues, hpanic⟩

/-- The values that the decoder enters from a value at `pos`, and whether as a column. `decode` is
the decoder at the level below; it has read what stands before the value entered. -/
inductive Child (categories : CategoricalMapping) (encoding : SymbolEncoding)
    (decode : Bytes → Nat → Bool → Nat → Exec (K × Nat)) (vec : Bytes) (depth : Nat) :
    Nat → Bool → Nat → Bool → Prop
  | member {pos count start before next : Nat} {values : List K} {e : XqdbError}
      (kind : vec[pos]? = some 0) (mixed : calculateArrayEndIndex vec (pos + 1) 0 = .error (.error e))
      (header : mixedHeader vec (pos + 1) = .ok (count, start)) (within : before < count)
      (read : decodeMany decode vec (depth + 1) before start = .ok (values, next)) :
      Child categories encoding decode vec depth pos false next false
  | keyTable {pos : Nat} {isColumn : Bool} (kind : vec[pos]? = some 99)
      (keys : vec[pos + 1]? = some 98) :
      Child categories encoding decode vec depth pos isColumn (pos + 1) true
  | valueTable {pos next : Nat} {isColumn : Bool} {frame : DataFrame} (kind : vec[pos]? = some 99)
      (keys : vec[pos + 1]? = some 98)
      (read : decode vec (pos + 1) true (depth + 1) = .ok (.DataFrame frame, next)) :
      Child categories encoding decode vec depth pos isColumn next true
  | dictionary {pos next : Nat} {isColumn : Bool} {keyType valueType : UInt8} {keys : Series}
      (kind : vec[pos]? = some 99) (key : vec[pos + 1]? = some keyType)
      (symbols : keyType = 11 ∨ keyType = 0)
      (read : dictionaryKeys categories encoding vec (pos + 2) keyType = .ok (keys, next))
      (value : vec[next]? = some valueType) (list : valueType ≤ 19) :
      Child categories encoding decode vec depth pos isColumn next isColumn

variable {decode} {pos depth : Nat} {isColumn : Bool}

theorem deserializeSlice_noPanic (hsize : vec.length < usizeMax) {stop : Nat} {kType : UInt8}
    (hstop : calculateArrayEndIndex vec pos kType = .ok stop) :
    NoPanic (deserializeSlice categories encoding vec pos stop kType) := by
  obtain ⟨hle, hwithin⟩ := endIndex_within hsize hstop
  exact (noPanic_sliceRange hle hwithin).bind fun _ _ =>
    (noPanic_deserializeSeries _ _ _ _ _).bind fun _ _ => noPanic_ok _

theorem deserializeMixedList_eq_panic :
    deserializeMixedList decode vec pos depth = .error .panic ↔
      ∃ count start before values next, mixedHeader vec pos = .ok (count, start) ∧ before < count ∧
        decodeMany decode vec (depth + 1) before start = .ok (values, next) ∧
        decode vec next false (depth + 1) = .error .panic := by
  rw [deserializeMixedList_eq, (noPanic_mixedHeader vec pos).bind_eq_panic]
  constructor
  · rintro ⟨⟨count, start⟩, hheader, hpanic⟩
    rw [Exec.bind_eq_panic_left fun _ => noPanic_ok _, decodeMany_eq_panic] at hpanic
    obtain ⟨before, values, next, hpanic⟩ := hpanic
    exact ⟨count, start, before, values, next, hheader, hpanic⟩
  · rintro ⟨count, start, before, values, next, hheader, hpanic⟩
    refine ⟨(count, start), hheader, ?_⟩
    rw [Exec.bind_eq_panic_left fun _ => noPanic_ok _, decodeMany_eq_panic]
    exact ⟨before, values, next, hpanic⟩

theorem deserializeList_eq_panic (hsize : vec.length < usizeMax) {kType : UInt8}
    (hkind : vec[pos]? = some kType) (hlist : kType ≤ 19) :
    deserializeList categories encoding decode vec (pos + 1) kType isColumn depth = .error .panic ↔
      ∃ next asColumn, Child categories encoding decode vec depth pos isColumn next asColumn ∧
        decode vec next asColumn (depth + 1) = .error .panic := by
  have hdict : vec[pos]? ≠ some 99 := by
    rw [hkind]
    intro h
    cases h
    exact absurd hlist (by decide)
  unfold deserializeList
  constructor
  · intro hpanic
    split at hpanic
    · next stop hstop => exact absurd hpanic (deserializeSlice_noPanic hsize hstop)
    · next e hstop =>
      split at hpanic
      · next hmixed =>
        obtain ⟨rfl, rfl⟩ := hmixed
        obtain ⟨count, start, before, values, next, hheader, hlt, hread, hpanic⟩ :=
          deserializeMixedList_eq_panic.mp hpanic
        exact ⟨next, false, .member hkind hstop hheader hlt hread, hpanic⟩
      · exact absurd hpanic (noPanic_err _)
    · next hstop => exact absurd hstop (noPanic_calculateArrayEndIndex hsize)
  · rintro ⟨next, asColumn, hchild, hpanic⟩
    cases hchild with
    | member kind mixed header within read =>
      obtain rfl : kType = 0 := Option.some.inj (hkind.symm.trans kind)
      rw [mixed]
      simp only [and_self, if_true]
      exact deserializeMixedList_eq_panic.mpr ⟨_, _, _, _, _, header, within, read, hpanic⟩
    | keyTable kind => exact absurd kind hdict
    | valueTable kind => exact absurd kind hdict
    | dictionary kind => exact absurd kind hdict

theorem deserializeKeyedTable_eq_panic :
    deserializeKeyedTable decode vec pos depth = .error .panic ↔
      decode vec pos true (depth + 1) = .error .panic ∨
      ∃ frame next, decode vec pos true (depth + 1) = .ok (.DataFrame frame, next) ∧
        decode vec next true (depth + 1) = .error .panic := by
  rw [deserializeKeyedTable, Exec.bind_eq_panic]
  refine or_congr_right ?_
  constructor
  · rintro ⟨⟨keys, next⟩, hkeys, hpanic⟩
    simp only at hpanic
    rw [(noPanic_intoDataFrame keys).bind_eq_panic] at hpanic
    obtain ⟨frame, hframe, hpanic⟩ := hpanic
    rw [Exec.bind_eq_panic_left fun values => (noPanic_intoDataFrame _).bind fun _ _ =>
      (noPanic_stackFrames _ _).bind fun _ _ => noPanic_ok _] at hpanic
    obtain rfl : keys = .DataFrame frame := by
      cases keys <;> cases hframe
      rfl
    exact ⟨frame, next, hkeys, hpanic⟩
  · rintro ⟨frame, next, hkeys, hpanic⟩
    refine ⟨_, hkeys, ?_⟩
    simp only [K.intoDataFrame, Exec.ok_bind]
    rw [hpanic]
    rfl

theorem deserializeSymbolDictionary_eq_panic (hsize : vec.length < usizeMax) {keyType : UInt8} :
    deserializeSymbolDictionary categories encoding decode vec pos keyType isColumn depth = .error .panic ↔
      ∃ keys next valueType, dictionaryKeys categories encoding vec pos keyType = .ok (keys, next) ∧
        vec[next]? = some valueType ∧ valueType ≤ 19 ∧
        decode vec next isColumn (depth + 1) = .error .panic := by
  rw [deserializeSymbolDictionary, (noPanic_dictionaryKeys _ _ hsize _).bind_eq_panic]
  constructor
  · rintro ⟨⟨keys, next⟩, hkeys, hpanic⟩
    simp only at hpanic
    rw [(noPanic_okOr _ _).bind_eq_panic] at hpanic
    obtain ⟨valueType, hvalue, hpanic⟩ := hpanic
    split at hpanic
    · exact absurd hpanic (noPanic_err _)
    next hlist =>
    rw [Exec.bind_eq_panic_left fun values => (noPanic_buildDictionary _ _).bind fun _ _ =>
      noPanic_ok _] at hpanic
    exact ⟨keys, next, valueType, hkeys, Exec.okOr_eq_ok.mp hvalue, UInt8.not_lt.mp hlist, hpanic⟩
  · rintro ⟨keys, next, valueType, hkeys, hvalue, hlist, hpanic⟩
    refine ⟨_, hkeys, ?_⟩
    simp only
    rw [hvalue, Exec.okOr_some, Exec.ok_bind, if_neg (UInt8.not_lt.mpr hlist), hpanic]
    rfl

theorem deserializeDictionary_eq_panic (hsize : vec.length < usizeMax) (hkind : vec[pos]? = some 99) :
    deserializeDictionary categories encoding decode vec (pos + 1) isColumn depth = .error .panic ↔
      ∃ next asColumn, Child categories encoding decode vec depth pos isColumn next asColumn ∧
        decode vec next asColumn (depth + 1) = .error .panic := by
  rw [deserializeDictionary, (noPanic_okOr _ _).bind_eq_panic]
  constructor
  · rintro ⟨keyType, hkey, hpanic⟩
    rw [Exec.okOr_eq_ok] at hkey
    split at hpanic
    · next htable =>
      subst htable
      rcases deserializeKeyedTable_eq_panic.mp hpanic with hpanic | ⟨frame, next, hread, hpanic⟩
      · exact ⟨_, true, .keyTable hkind hkey, hpanic⟩
      · exact ⟨next, true, .valueTable hkind hkey hread, hpanic⟩
    split at hpanic
    · next hsymbols =>
      obtain ⟨keys, next, valueType, hread, hvalue, hlist, hpanic⟩ :=
        (deserializeSymbolDictionary_eq_panic hsize).mp hpanic
      exact ⟨next, isColumn, .dictionary hkind hkey hsymbols hread hvalue hlist, hpanic⟩
    · exact absurd hpanic (noPanic_err _)
  · rintro ⟨next, asColumn, hchild, hpanic⟩
    cases hchild with
    | member kind =>
      rw [hkind] at kind
      cases kind
    | keyTable kind keys =>
      refine ⟨98, Exec.okOr_eq_ok.mpr keys, ?_⟩
      rw [if_pos rfl]
      exact deserializeKeyedTable_eq_panic.mpr (.inl hpanic)
    | valueTable kind keys read =>
      refine ⟨98, Exec.okOr_eq_ok.mpr keys, ?_⟩
      rw [if_pos rfl]
      exact deserializeKeyedTable_eq_panic.mpr (.inr ⟨_, _, read, hpanic⟩)
    | dictionary kind key symbols read value list =>
      refine ⟨_, Exec.okOr_eq_ok.mpr key, ?_⟩
      rw [if_neg (by rcases symbols with rfl | rfl <;> decide), if_pos symbols]
      exact (deserializeSymbolDictionary_eq_panic hsize).mpr ⟨_, _, _, read, value, list, hpanic⟩

/-- Only lists and dictionaries have values below them. -/
theorem Child.kind_cases {next : Nat} {asColumn : Bool}
    (h : Child categories encoding decode vec depth pos isColumn next asColumn) :
    vec[pos]? = some 0 ∨ vec[pos]? = some 99 := by
  cases h with
  | member kind => exact .inl kind
  | keyTable kind => exact .inr kind
  | valueTable kind => exact .inr kind
  | dictionary kind => exact .inr kind

/-- **One level.** A value panics when it is a table that breaks, or when a value does that is
entered from it. -/
theorem deserializeBody_eq_panic (hsize : vec.length < usizeMax) {kType : UInt8}
    (hkind : vec[pos]? = some kType) :
    deserializeBody categories encoding decode vec (pos + 1) kType isColumn depth = .error .panic ↔
      (vec[pos]? = some 98 ∧ TableBreaks encoding vec (pos + 1)) ∨
      ∃ next asColumn, Child categories encoding decode vec depth pos isColumn next asColumn ∧
        decode vec next asColumn (depth + 1) = .error .panic := by
  have hother : ∀ run : Exec (K × Nat), NoPanic run → kType ≠ 98 → kType ≠ 0 → kType ≠ 99 →
      (run = .error .panic ↔ (vec[pos]? = some 98 ∧ TableBreaks encoding vec (pos + 1)) ∨
        ∃ next asColumn, Child categories encoding decode vec depth pos isColumn next asColumn ∧
          decode vec next asColumn (depth + 1) = .error .panic) := by
    intro run hrun htable hlist hdict
    refine ⟨fun hpanic => absurd hpanic hrun, ?_⟩
    rintro (⟨h, -⟩ | ⟨next, asColumn, hchild, -⟩)
    · exact absurd (Option.some.inj (hkind.symm.trans h)) htable
    · rcases hchild.kind_cases with h | h
      · exact absurd (Option.some.inj (hkind.symm.trans h)) hlist
      · exact absurd (Option.some.inj (hkind.symm.trans h)) hdict
  unfold deserializeBody
  split
  · next hatom => exact hother _ (noPanic_deserializeAtom _ _ _ _) (by grind) (by grind) (by grind)
  split
  · next hlist =>
    have htable : ¬ (vec[pos]? = some 98 ∧ TableBreaks encoding vec (pos + 1)) := by
      rintro ⟨h, -⟩
      have := Option.some.inj (hkind.symm.trans h)
      subst this
      exact absurd hlist (by decide)
    rw [deserializeList_eq_panic hsize hkind hlist, or_iff_right htable]
  split
  · next hdict =>
    subst hdict
    have htable : ¬ (vec[pos]? = some 98 ∧ TableBreaks encoding vec (pos + 1)) := by
      rintro ⟨h, -⟩
      rw [hkind] at h
      cases h
    rw [deserializeDictionary_eq_panic hsize hkind, or_iff_right htable]
  split
  · next htable =>
    subst htable
    rw [deserializeTable_eq_panic hsize]
    refine ⟨fun hbreaks => .inl ⟨hkind, hbreaks⟩, ?_⟩
    rintro (⟨-, hbreaks⟩ | ⟨next, asColumn, hchild, -⟩)
    · exact hbreaks
    · rcases hchild.kind_cases with h | h <;>
      · rw [hkind] at h
        cases h
  next hlist hdict htable =>
  have hzero : kType ≠ 0 := by
    rintro rfl
    exact absurd (by decide) hlist
  split
  · exact hother _ (noPanic_deserializeLambda _ _ _) htable hzero hdict
  split
  · exact hother _ (noPanic_deserializePrimitive _ _ _) htable hzero hdict
  split
  · refine hother _ ?_ htable hzero hdict
    exact (noPanic_takeUtf8UntilNul _ _ _ _).bind fun _ _ => noPanic_err _
  · exact hother _ (noPanic_err _) htable hzero hdict

end Levels

/-- The decoder, with the fuel that is left at a level. -/
def decodeAt (categories : CategoricalMapping) (encoding : SymbolEncoding) (depth : Nat) :
    Bytes → Nat → Bool → Nat → Exec (K × Nat) :=
  deserializeUnchecked categories encoding (deserializeFuel - depth)

/-- The values that are entered while a body is decoded, with their levels. -/
inductive Enters (categories : CategoricalMapping) (encoding : SymbolEncoding) (vec : Bytes) :
    Nat → Bool → Nat → Prop
  | body : Enters categories encoding vec 0 false 0
  | child {pos next depth : Nat} {isColumn asColumn : Bool}
      (entered : Enters categories encoding vec pos isColumn depth) (within : depth ≤ maxValueDepth)
      (child : Child categories encoding (decodeAt categories encoding (depth + 1)) vec depth pos isColumn
        next asColumn) :
      Enters categories encoding vec next asColumn (depth + 1)

variable {pos depth : Nat} {isColumn : Bool}

theorem decodeAt_eq_panic (hsize : vec.length < usizeMax) (hdepth : depth ≤ maxValueDepth) :
    decodeAt categories encoding depth vec pos isColumn depth = .error .panic ↔
      (vec[pos]? = some 98 ∧ TableBreaks encoding vec (pos + 1)) ∨
      ∃ next asColumn,
        Child categories encoding (decodeAt categories encoding (depth + 1)) vec depth pos isColumn next asColumn ∧
        decodeAt categories encoding (depth + 1) vec next asColumn (depth + 1) = .error .panic := by
  have hfuel : deserializeFuel - depth = deserializeFuel - (depth + 1) + 1 := by
    have : deserializeFuel = maxValueDepth + 2 := rfl
    omega
  rw [decodeAt, hfuel, deserializeUnchecked, if_neg (by omega)]
  cases hkind : vec[pos]? with
  | none =>
    rw [Exec.okOr_none, Exec.err_bind]
    refine ⟨fun hpanic => absurd hpanic (noPanic_err _), ?_⟩
    rintro (⟨h, -⟩ | ⟨next, asColumn, hchild, -⟩)
    · cases h
    · rcases hchild.kind_cases with h | h <;>
      · rw [hkind] at h
        cases h
  | some kType =>
    rw [Exec.okOr_some, Exec.ok_bind, ← hkind]
    exact deserializeBody_eq_panic hsize hkind

/-- The level that is refused. -/
theorem decodeAt_beyond (hdepth : depth = maxValueDepth + 1) :
    NoPanic (decodeAt categories encoding depth vec pos isColumn depth) := by
  have hfuel : deserializeFuel - depth = 0 + 1 := by
    have : deserializeFuel = maxValueDepth + 2 := rfl
    omega
  rw [decodeAt, hfuel, deserializeUnchecked, if_pos (by omega)]
  exact noPanic_err _

/-- A panic comes from a table that the decoder has entered. -/
theorem exists_table_of_panic (hsize : vec.length < usizeMax) (hdepth : depth ≤ maxValueDepth + 1)
    (hentered : Enters categories encoding vec pos isColumn depth)
    (hpanic : decodeAt categories encoding depth vec pos isColumn depth = .error .panic) :
    ∃ pos isColumn depth, Enters categories encoding vec pos isColumn depth ∧ depth ≤ maxValueDepth ∧
      vec[pos]? = some 98 ∧ TableBreaks encoding vec (pos + 1) := by
  -- on the levels that are left
  induction hleft : maxValueDepth + 1 - depth generalizing pos isColumn depth with
  | zero => exact absurd hpanic (decodeAt_beyond (by omega))
  | succ left ih =>
    have hwithin : depth ≤ maxValueDepth := by omega
    rcases (decodeAt_eq_panic hsize hwithin).mp hpanic with ⟨hkind, hbreaks⟩ | ⟨next, asColumn, hchild, hpanic⟩
    · exact ⟨pos, isColumn, depth, hentered, hwithin, hkind, hbreaks⟩
    · exact ih (by omega) (.child hentered hwithin hchild) hpanic (by omega)

/-- A panic goes up to the body. -/
theorem Enters.panic_body (hsize : vec.length < usizeMax)
    (hentered : Enters categories encoding vec pos isColumn depth)
    (hpanic : decodeAt categories encoding depth vec pos isColumn depth = .error .panic) :
    decodeAt categories encoding 0 vec 0 false 0 = .error .panic := by
  induction hentered with
  | body => exact hpanic
  | child entered within child ih =>
    apply ih
    exact (decodeAt_eq_panic hsize within).mpr (.inr ⟨_, _, child, hpanic⟩)

/-- **Panics.** The decoder does not panic on a body unless one of the tables that it enters names
no column or ends before the type byte of one of its columns. -/
theorem noPanic_iff_tables (categories : CategoricalMapping) (encoding : SymbolEncoding) (vec : Bytes)
    (hsize : vec.length ≤ isizeMax) :
    NoPanic (deserializeUnchecked categories encoding deserializeFuel vec 0 false 0) ↔
      ∀ pos isColumn depth, Enters categories encoding vec pos isColumn depth → depth ≤ maxValueDepth →
        vec[pos]? = some 98 → ¬ TableBreaks encoding vec (pos + 1) := by
  have hisize : isizeMax < usizeMax := by decide
  have hbound : vec.length < usizeMax := by omega
  constructor
  · intro hnone pos isColumn depth hentered hwithin hkind hbreaks
    apply hnone
    apply hentered.panic_body hbound
    exact (decodeAt_eq_panic hbound hwithin).mpr (.inl ⟨hkind, hbreaks⟩)
  · intro hall hpanic
    obtain ⟨pos, isColumn, depth, hentered, hwithin, hkind, hbreaks⟩ :=
      exists_table_of_panic hbound (Nat.zero_le _) .body hpanic
    exact hall pos isColumn depth hentered hwithin hkind hbreaks

/-- A table that is cut off behind its column names. -/
theorem table_panics :
    ¬ NoPanic (deserializeUnchecked numberedTexts .Strict deserializeFuel
      [98, 0, 99, 11, 0, 1, 0, 0, 0, 97, 0] 0 false 0) := by
  intro h
  exact h rfl

theorem noPanic_of_isOk {α : Type} {run : Exec α} (h : run.isOk = true) : NoPanic run := by
  cases run with
  | ok a => exact noPanic_ok a
  | error e => cases h

/-- A table with one column, which is there. -/
theorem noPanic_iff_tables_column :
    ¬ TableBreaks .Strict
      [98, 0, 99, 11, 0, 1, 0, 0, 0, 97, 0, 0, 0, 1, 0, 0, 0, 6, 0, 1, 0, 0, 0, 7, 0, 0, 0] 1 :=
  (noPanic_iff_tables numberedTexts .Strict
    [98, 0, 99, 11, 0, 1, 0, 0, 0, 97, 0, 0, 0, 1, 0, 0, 0, 6, 0, 1, 0, 0, 0, 7, 0, 0, 0]
    (by decide)).mp (noPanic_of_isOk (by decide +kernel)) 0 false 0 .body (by decide) rfl

end Values

end Xqdb
