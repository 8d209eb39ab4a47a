import Xqdb.Native.Values

/-! What the strict decoder makes of a tree, at the level it stands on. A general list is read
value by value only where it could not be read as rows of one type. -/

namespace Xqdb

open LittleEndian (encode)
open QValue (symbolBytes)

/-! ## Rows -/

/-- A list whose members are rows of the first member's type, or empty general lists behind it;
`none` is a member that is no row. -/
def RowsLike : List (Option UInt8) → Prop
  | [] => True
  | first :: rest => ∃ kType ∈ nestedTypes, first = some kType ∧ ∀ row ∈ rest, row = some kType ∨ row = some 0

/-- The bytes are a row of the type. -/
def IsRow (bytes : Bytes) (kType : UInt8) : Prop :=
  ∃ row : NestedRow, row.WF ∧ row.kType = kType ∧ bytes = row.encode

theorem rows_of_types {parts : List Bytes} {kinds : List (Option UInt8)}
    (hrows : List.Forall₂ (fun bytes kind => ∀ kType, kind = some kType → IsRow bytes kType) parts kinds)
    {child : UInt8} (hlike : ∀ kind ∈ kinds, kind = some child ∨ kind = some 0) :
    ∃ rows : List NestedRow, rows.length = parts.length ∧ (∀ row ∈ rows, row.Fits child) ∧
      parts.flatten = NestedRow.encodeAll rows := by
  induction hrows with
  | nil => exact ⟨[], rfl, by simp, rfl⟩
  | @cons bytes kind parts kinds hrow hrows ih =>
    obtain ⟨rows, hlength, hfits, hbytes⟩ := ih fun kind hkind => hlike kind (by simp [hkind])
    have hfirst : ∃ row : NestedRow, row.Fits child ∧ bytes = row.encode := by
      rcases hlike kind (by simp) with rfl | rfl
      · obtain ⟨row, hwf, hkind, rfl⟩ := hrow _ rfl
        exact ⟨row, ⟨hwf, .inl hkind⟩, rfl⟩
      · obtain ⟨row, hwf, hkind, rfl⟩ := hrow _ rfl
        exact ⟨row, ⟨hwf, .inr hkind⟩, rfl⟩
    obtain ⟨row, hfit, rfl⟩ := hfirst
    refine ⟨row :: rows, by simp [hlength], ?_, by simp [hbytes, NestedRow.encodeAll]⟩
    intro other hother
    cases hother with
    | head => exact hfit
    | tail _ hother => exact hfits other hother

/-- Members that look like rows are the rows of a nested list. -/
theorem rowsFit_of_types {parts : List Bytes} {kinds : List (Option UInt8)}
    (hrows : List.Forall₂ (fun bytes kind => ∀ kType, kind = some kType → IsRow bytes kType) parts kinds)
    (hlike : RowsLike kinds) :
    ∃ rows : List NestedRow, rows.length = parts.length ∧ NativeList.RowsFit rows ∧
      parts.flatten = NestedRow.encodeAll rows := by
  cases hrows with
  | nil => exact ⟨[], rfl, trivial, rfl⟩
  | @cons bytes kind parts kinds hrow hrows =>
    obtain ⟨child, hchild, rfl, hrest⟩ := hlike
    obtain ⟨row, hwf, hkind, rfl⟩ := hrow _ rfl
    obtain ⟨rows, hlength, hfits, hbytes⟩ := rows_of_types hrows hrest
    refine ⟨row :: rows, by simp [hlength], ⟨hkind ▸ hchild, ?_⟩, by simp [hbytes, NestedRow.encodeAll]⟩
    intro other hother
    rw [hkind]
    cases hother with
    | head => exact ⟨hwf, .inl hkind⟩
    | tail _ hother => exact hfits other hother

namespace Native

/-! ## Meaning -/

/-- The type of the row that a value is, if it is one. -/
def row : Native → Option UInt8
  | .uniform (.fixed kType _ _ _) => if kType ∈ nestedTypes then some kType else none
  | .uniform (.symbols _ _) => some 11
  | .uniform (.nested _ []) => some 0
  | _ => none

section

variable (categories : CategoricalMapping)

mutual

/-- The value of a tree that stands `depth` levels down. -/
def Means : Nat → Native → K → Prop
  | depth, .atom kType payload, k => depth ≤ maxValueDepth ∧ 237 ≤ kType ∧ kType ≠ 245 ∧
      ∃ vec pos rest, At vec pos (payload ++ rest) ∧
        deserializeAtom vec pos kType .Strict = .ok (k, pos + payload.length)
  | depth, .symbol text, k =>
    depth ≤ maxValueDepth ∧ 0 ∉ text ∧ ∃ symbol : Str, symbol.bytes = text ∧ k = .Symbol symbol
  | depth, .uniform list, k => depth ≤ maxValueDepth ∧ list.WF ∧ list.body.length ≤ usizeMax ∧
      deserializeSeries categories list.body list.kType (list.kType != 10) .Strict = .ok k
  | depth, .mixed _ members, k => depth ≤ maxValueDepth ∧ members.length ≤ i32Max ∧
      ¬ RowsLike (members.map row) ∧ ∃ values, k = .MixedList values ∧ AllMean (depth + 1) members values
  | depth, .keyedTable keys values, k => depth ≤ maxValueDepth ∧ ∃ keyFrame valueFrame frame : Xqdb.DataFrame,
      Means (depth + 1) keys (.DataFrame keyFrame) ∧ Means (depth + 1) values (.DataFrame valueFrame) ∧
        k = .DataFrame frame ∧ frame.columns = keyFrame.columns ++ valueFrame.columns
  | depth, .dictionary keys values, k => depth ≤ maxValueDepth ∧ KeysOk keys ∧
      ∃ (decoded : K) (items : List K) (names : List Str), Means (depth + 1) values decoded ∧
        dictionaryValues decoded = .ok items ∧ k = .Dict (names.zip items) ∧ names.length = items.length ∧
        names.length = keys.count ∧ names.Nodup ∧ ∀ name ∈ names, 0 ∉ name.bytes
  | depth, .table _ _ names _ columns, k => depth ≤ maxValueDepth ∧ names.length ≤ i32Max ∧
      ∃ (frame : Xqdb.DataFrame) (decoded : List Series) (texts : List Str), k = .DataFrame frame ∧
        texts.map Str.bytes = names ∧ (∀ name ∈ names, 0 ∉ name) ∧ decoded.length = texts.length ∧
        (∀ column ∈ columns, column.WF ∧ column.body.length ≤ usizeMax) ∧
        List.Forall₂ (fun column series => decodeColumn categories .Strict (columnParts column) = .ok series)
          columns decoded ∧
        frame.columns = List.zipWith Series.rename decoded texts ∧ frame.columns ≠ []
  | depth, .lambda context source, k => depth ≤ maxValueDepth ∧ source.length ≤ i32Max ∧
      ∃ lambda, k = .Lambda lambda ∧ lambda.context.bytes = context ∧ lambda.source.bytes = source
  | depth, .primitive _ _, k => depth ≤ maxValueDepth ∧ (k = .Null ∨ ∃ operator, k = .Operator operator)

def AllMean : Nat → List Native → List K → Prop
  | _, [], values => values = []
  | depth, tree :: trees, values =>
    ∃ value rest, values = value :: rest ∧ Means depth tree value ∧ AllMean depth trees rest

end

end

/-! ## The decoder -/

section Decoder

variable {categories : CategoricalMapping} {vec rest : Bytes} {pos : Nat} {k : K} {stop depth : Nat}

/-- A tree in front of the rest, and its value. -/
def Understood (categories : CategoricalMapping) (depth : Nat) (rest : Bytes) (pos : Nat) (k : K)
    (stop : Nat) : Prop :=
  ∃ tree : Native, Means categories depth tree k ∧ (∃ rest', rest = tree.encode ++ rest') ∧
    stop = pos + tree.encode.length

theorem understood_atom {kType : UInt8} (hlow : 237 ≤ kType) (hdepth : depth ≤ maxValueDepth)
    (h : At vec (pos + 1) rest) (hok : deserializeAtom vec (pos + 1) kType .Strict = .ok (k, stop)) :
    Understood categories depth (kType :: rest) pos k stop := by
  by_cases hsymbol : kType = 245
  · subst hsymbol
    obtain ⟨text, rest', hclean, hread, rfl, rfl, rfl⟩ := (deserializeAtom_symbol h).mp hok
    have hvalid := hread.resolve_left (by decide)
    refine ⟨.symbol text, ⟨hdepth, hclean, lossyText text, Utf8.lossy_valid hvalid, rfl⟩,
      ⟨rest', by simp [Native.encode]⟩, ?_⟩
    simp [Native.encode]
    omega
  obtain ⟨⟨-, payload, rest', -, rfl, rfl, -⟩, -⟩ := deserializeAtom_reads hsymbol h hok
  refine ⟨.atom kType payload, ⟨hdepth, hlow, hsymbol, vec, pos + 1, rest', h, hok⟩, ⟨rest', rfl⟩, ?_⟩
  simp [Native.encode]
  omega

theorem understood_lambda (hdepth : depth ≤ maxValueDepth) (h : At vec (pos + 1) rest)
    (hok : deserializeLambda vec (pos + 1) .Strict = .ok (k, stop)) :
    Understood categories depth (100 :: rest) pos k stop := by
  obtain ⟨context, source, rest', lambda, hclean, hcount, hcontext, hsource, hlambda, rfl, rfl, rfl⟩ :=
    (deserializeLambda_eq_ok h).mp hok
  have hparts : lambda.context = lossyText context ∧ lambda.source = lossyText source := by
    unfold QLambda.withContext at hlambda
    split at hlambda
    · cases hlambda
      exact ⟨rfl, rfl⟩
    · cases hlambda
  refine ⟨.lambda context source, ⟨hdepth, hcount, lambda, rfl, ?_, ?_⟩, ⟨rest', by simp [Native.encode]⟩, ?_⟩
  · rw [hparts.1]
    exact Utf8.lossy_valid (hcontext.resolve_left (by decide))
  · rw [hparts.2]
    exact Utf8.lossy_valid (hsource.resolve_left (by decide))
  · simp [Native.encode]
    omega

theorem understood_primitive {kType : UInt8} (hdepth : depth ≤ maxValueDepth) (h : At vec (pos + 1) rest)
    (hok : deserializePrimitive vec (pos + 1) kType = .ok (k, stop)) :
    Understood categories depth (kType :: rest) pos k stop := by
  simp only [deserializePrimitive, Exec.bind_eq_ok, Exec.okOr_eq_ok, h.getElem?_eq] at hok
  obtain ⟨opcode, hhead, hok⟩ := hok
  obtain ⟨rest', rfl⟩ := List.head?_eq_some_iff.mp hhead
  split at hok
  · cases hok
    exact ⟨.primitive kType opcode, ⟨hdepth, .inl rfl⟩, ⟨rest', rfl⟩, rfl⟩
  · simp only [Exec.bind_eq_ok, Except.ok.injEq, Prod.mk.injEq] at hok
    obtain ⟨operator, -, rfl, rfl⟩ := hok
    exact ⟨.primitive kType opcode, ⟨hdepth, .inr ⟨operator, rfl⟩⟩, ⟨rest', rfl⟩, rfl⟩

/-- A decoder that understands what it reads, at every place and level. -/
def Understands (categories : CategoricalMapping) (decode : Bytes → Nat → Bool → Nat → Exec (K × Nat))
    (vec : Bytes) : Prop :=
  ∀ {pos : Nat} {rest : Bytes} {isColumn : Bool} {depth : Nat} {k : K} {stop : Nat}, At vec pos rest →
    decode vec pos isColumn depth = .ok (k, stop) → Understood categories depth rest pos k stop

variable {decode : Bytes → Nat → Bool → Nat → Exec (K × Nat)}

theorem understood_many (hdecode : Understands categories decode vec) {count : Nat} {values : List K}
    (h : At vec pos rest) (hok : decodeMany decode vec depth count pos = .ok (values, stop)) :
    ∃ trees, trees.length = count ∧ AllMean categories depth trees values ∧
      (∃ rest', rest = encodeAll trees ++ rest') ∧ stop = pos + (encodeAll trees).length := by
  induction count generalizing pos rest values with
  | zero =>
    cases hok
    exact ⟨[], rfl, rfl, ⟨rest, rfl⟩, rfl⟩
  | succ count ih =>
    simp only [decodeMany, Exec.bind_eq_ok, Prod.exists, Except.ok.injEq, Prod.mk.injEq] at hok
    obtain ⟨value, next, hvalue, others, _, hothers, rfl, rfl⟩ := hok
    obtain ⟨tree, hmeans, ⟨rest₁, rfl⟩, rfl⟩ := hdecode h hvalue
    obtain ⟨trees, rfl, hmeanings, ⟨rest₂, rfl⟩, rfl⟩ := ih h.skip hothers
    refine ⟨tree :: trees, rfl, ⟨value, others, rfl, hmeans, hmeanings⟩, ⟨rest₂, by simp [encodeAll]⟩, ?_⟩
    simp [encodeAll]
    omega

/-- A member that is a row is written as one. -/
theorem isRow_of_row {tree : Native} {kType : UInt8} (h : Means categories depth tree k)
    (hrow : tree.row = some kType) : IsRow tree.encode kType := by
  unfold row at hrow
  split at hrow
  · next kind attr count payload =>
    split at hrow
    · next hmem =>
      obtain rfl := Option.some.inj hrow
      obtain ⟨-, ⟨-, -, hsymbol, -, hcount, hlength⟩, -⟩ := h
      exact ⟨.fixed kind attr count payload, ⟨hmem, hsymbol, hcount, hlength⟩, rfl, rfl⟩
    · cases hrow
  · next attr texts =>
    obtain rfl := Option.some.inj hrow
    exact ⟨.symbols attr texts, h.2.1, rfl, rfl⟩
  · next attr =>
    obtain rfl := Option.some.inj hrow
    exact ⟨.empty attr, trivial, rfl, by simp [Native.encode, NativeList.encode, NativeList.kType,
      NativeList.body, NestedRow.encode, NestedRow.encodeAll]⟩
  · cases hrow

theorem rows_of_allMean {trees : List Native} {values : List K} (h : AllMean categories depth trees values) :
    List.Forall₂ (fun bytes kind => ∀ kType, kind = some kType → IsRow bytes kType)
      (trees.map encode) (trees.map row) := by
  induction trees generalizing values with
  | nil => exact .nil
  | cons tree trees ih =>
    obtain ⟨value, rest, rfl, hvalue, hrest⟩ := h
    exact .cons (fun kType hkind => isRow_of_row hvalue hkind) (ih hrest)

/-- A general list that could not be read as rows does not look like rows. -/
theorem not_rowsLike {attr : UInt8} {trees : List Native} {values : List K} {e : XqdbError}
    (hcount : trees.length ≤ i32Max) (hmeans : AllMean categories depth trees values)
    (h : At vec pos (attr :: (LittleEndian.encode 4 trees.length ++ (encodeAll trees ++ rest))))
    (hend : calculateArrayEndIndex vec pos 0 = .error (.error e)) : ¬ RowsLike (trees.map row) := by
  intro hlike
  obtain ⟨rows, hlength, hfit, hbytes⟩ := rowsFit_of_types (rows_of_allMean hmeans) hlike
  rw [List.length_map] at hlength
  rw [encodeAll_eq, List.flatMap_def, hbytes, ← hlength] at h
  have hok := (endIndex_nested h).mpr ⟨attr, rows, rest, hlength ▸ hcount, hfit, rfl, rfl⟩
  rw [hok] at hend
  cases hend

theorem understood_list (hsize : vec.length < usizeMax) (hdecode : Understands categories decode vec)
    {kType : UInt8} {isColumn : Bool} (hdepth : depth ≤ maxValueDepth) (h : At vec (pos + 1) rest)
    (hok : deserializeList categories .Strict decode vec (pos + 1) kType isColumn depth = .ok (k, stop)) :
    Understood categories depth (kType :: rest) pos k stop := by
  cases hend : calculateArrayEndIndex vec (pos + 1) kType with
  | ok found =>
    obtain ⟨list, rest', hwf, rfl, rfl, rfl⟩ := (calculateArrayEndIndex_eq_ok h).mp hend
    have hslice : sliceRange vec (pos + 1) (pos + 1 + list.body.length) = .ok list.body :=
      (sliceRange_at h).mpr ⟨rest', rfl, rfl⟩
    simp only [deserializeList, hend, deserializeSlice, hslice, Exec.ok_bind, Exec.bind_eq_ok,
      Except.ok.injEq, Prod.mk.injEq] at hok
    obtain ⟨_, hk, rfl, rfl⟩ := hok
    have hbody : list.body.length ≤ usizeMax := by
      have hlength := h.length_eq
      rw [List.length_append] at hlength
      omega
    refine ⟨.uniform list, ⟨hdepth, hwf, hbody, hk⟩, ⟨rest', rfl⟩, ?_⟩
    simp [Native.encode, NativeList.encode]
    omega
  | error failure =>
    cases failure with
    | panic => exact absurd hend (noPanic_calculateArrayEndIndex hsize)
    | error e =>
      simp only [deserializeList, hend] at hok
      split at hok
      · next hmixed =>
        obtain ⟨-, rfl⟩ := hmixed
        rw [deserializeMixedList_eq, Exec.bind_eq_ok] at hok
        obtain ⟨⟨count, start⟩, hheader, hok⟩ := hok
        simp only [Exec.bind_eq_ok, Prod.exists, Except.ok.injEq, Prod.mk.injEq] at hok
        obtain ⟨values, _, hvalues, rfl, rfl⟩ := hok
        obtain ⟨attr, rest₁, rfl, hcount, rfl⟩ := mixedHeader_eq_ok h hheader
        obtain ⟨trees, rfl, hmeans, ⟨rest', rfl⟩, rfl⟩ := understood_many hdecode h.header hvalues
        refine ⟨.mixed attr trees, ⟨hdepth, hcount, not_rowsLike hcount hmeans h hend, values, rfl, hmeans⟩,
          ⟨rest', by simp [Native.encode]⟩, ?_⟩
        simp [Native.encode]
        omega
      · cases hok

/-! ## Tables -/

/-- The names of a table, read back. -/
theorem tableNames_names (encoding : SymbolEncoding) {names : List Str} {attr : UInt8} (hne : names ≠ [])
    (hcount : names.length ≤ i32Max)
    (hclean : ∀ name ∈ names, 0 ∉ name.bytes)
    (hsize : (attr :: (LittleEndian.encode 4 names.length ++ symbolBytes (names.map Str.bytes))).length ≤
      usizeMax) :
    ∃ read, deserializeSeries categories
        (attr :: (LittleEndian.encode 4 names.length ++ symbolBytes (names.map Str.bytes))) 11 false encoding =
          .ok read ∧ tableNames read = .ok (names.map some) := by
  have hvalid : Utf8.Valid (symbolBytes (names.map Str.bytes)) := by
    rw [symbolBytes_valid_iff]
    intro name hname
    obtain ⟨text, -, rfl⟩ := List.mem_map.mp hname
    exact text.valid
  have hclean' : ∀ name ∈ names.map Str.bytes, 0 ∉ name := by
    intro name hname
    obtain ⟨text, htext, rfl⟩ := List.mem_map.mp hname
    exact hclean text htext
  have hseries := @deserializeSeries_symbolList categories encoding attr (names.map Str.bytes) false
    (by simpa using hcount) (by simpa using hne) (by simpa using hsize)
  rw [List.length_map] at hseries
  have htexts := symbolTexts_front hclean' []
  rw [List.nil_append, List.length_nil, Nat.zero_add, List.length_map] at htexts
  refine ⟨.Series (textSeries (typeName 11) (names.map Str.bytes)), ?_, ?_⟩
  · rw [hseries, decodeSymbolList, @decodeUtf8_valid ⟨_, hvalid⟩, Exec.ok_bind, if_neg (by decide), htexts,
      Exec.ok_bind]
    simp only [checkSymbolListConsumed, if_pos, Exec.ok_bind]
  · simp only [tableNames, textSeries, Series.ofCells, List.flatten_cons, List.flatten_nil, List.append_nil,
      List.map_map, Function.comp_def, Str.fromUtf8_bytes, Option.getD_some]

/-- Names that were read are texts. -/
theorem exists_names {attr : UInt8} {names : List Bytes} {read : K} {texts : List (Option Str)}
    (hcount : names.length ≤ i32Max) (hclean : ∀ name ∈ names, 0 ∉ name)
    (hsize : (attr :: (LittleEndian.encode 4 names.length ++ symbolBytes names)).length ≤ usizeMax)
    (hread : deserializeSeries categories (attr :: (LittleEndian.encode 4 names.length ++ symbolBytes names)) 11
      false .Strict = .ok read) (hok : tableNames read = .ok texts) :
    names ≠ [] ∧ ∃ strs : List Str, strs.map Str.bytes = names ∧ texts = strs.map some := by
  have hne : names ≠ [] := by
    rintro rfl
    rw [List.length_nil, deserializeSeries_noSymbols] at hread
    cases hread
    cases hok
  have hvalid : Utf8.Valid (symbolBytes names) := by
    by_contra hinvalid
    rw [deserializeSeries_symbolList hcount hne hsize] at hread
    refine decodeSymbolList_unreadable ?_ false read hread
    rintro (hlossy | hnames)
    · cases hlossy
    · exact hinvalid (symbolBytes_valid_iff.mpr hnames)
  obtain ⟨strs, rfl⟩ := exists_texts hvalid
  refine ⟨hne, strs, rfl, ?_⟩
  rw [List.length_map] at hcount hsize hread
  obtain ⟨read', hread', hnames⟩ := @tableNames_names categories .Strict strs attr (by simpa using hne) hcount
    (fun name hname => hclean _ (List.mem_map_of_mem hname)) hsize
  obtain rfl : read = read' := Except.ok.inj (hread.symm.trans hread')
  exact Except.ok.inj (hok.symm.trans hnames)

theorem renameColumns_names {columns : List Series} {names : List Str} :
    renameColumns columns (names.map some) = List.zipWith Series.rename columns names := by
  induction columns generalizing names with
  | nil => rfl
  | cons column columns ih =>
    cases names with
    | nil => rfl
    | cons name names =>
      simp only [renameColumns, List.map_cons, List.zipWith_cons_cons, Option.getD_some, List.cons.injEq,
        true_and]
      exact ih

theorem understood_table (hsize : vec.length < usizeMax) (hdepth : depth ≤ maxValueDepth)
    (h : At vec (pos + 1) rest) (hok : deserializeTable categories .Strict vec (pos + 1) = .ok (k, stop)) :
    Understood categories depth (98 :: rest) pos k stop := by
  have hends := hok
  rw [deserializeTable, Exec.bind_eq_ok] at hends
  obtain ⟨namesEnd, hend, -⟩ := hends
  obtain ⟨hle, hwithin⟩ := endIndex_within hsize hend
  obtain ⟨preamble, rest₁, hthree, rfl⟩ := stepped_over h (show pos + 1 + 3 ≤ vec.length by omega)
  have hat : At vec (pos + 1 + 3) rest₁ := by
    rw [← hthree]
    exact h.skip
  obtain ⟨attr, names, rest₂, hcount, hclean, rfl, rfl⟩ := (endIndex_symbols hat).mp hend
  rw [deserializeTable_named hat hcount hclean, Exec.bind_eq_ok] at hok
  obtain ⟨read, hread, hok⟩ := hok
  simp only [tableBehindNames, Exec.bind_eq_ok, Prod.exists, Except.ok.injEq, Prod.mk.injEq] at hok
  obtain ⟨texts, hnames, parts, _, hparts, decoded, hdecoded, frame, hframe, rfl, rfl⟩ := hok
  have hbody : (attr :: (LittleEndian.encode 4 names.length ++ symbolBytes names)).length ≤ usizeMax := by
    have hlen := hat.length_eq
    simp only [List.length_cons, List.length_append] at hlen ⊢
    omega
  obtain ⟨hne, strs, rfl, rfl⟩ := exists_names hcount hclean hbody hread hnames
  have hbehind := hat.header.skip
  rw [List.length_map] at hparts hcount
  have hwithin : pos + 1 + 3 + 5 + (symbolBytes (strs.map Str.bytes)).length + 6 ≤ vec.length := by
    -- the type byte of the first column was read
    obtain ⟨count, hstrs⟩ := Nat.exists_eq_add_one_of_ne_zero (n := strs.length) (by simpa using hne)
    rw [hstrs, tableColumns, Exec.bind_eq_ok] at hparts
    obtain ⟨kType, hkind, -⟩ := hparts
    have hlt := (List.getElem?_eq_some_iff.mp (index_eq_ok.mp hkind)).1
    omega
  obtain ⟨gap, rest₃, hgap, rfl⟩ := stepped_over hbehind hwithin
  have hcolumns := hbehind.skip
  rw [hgap] at hcolumns
  obtain ⟨lists, hlists, hwf, rfl, ⟨rest', rfl⟩, rfl⟩ := tableColumns_reads hcolumns hparts
  have hsizes : ∀ list ∈ lists, list.body.length ≤ usizeMax := by
    intro list hmem
    have hlist := flatMap_encode_length hmem
    have hlen := hcolumns.length_eq
    rw [List.length_append] at hlen
    omega
  rw [tryCollect_eq_ok, List.forall₂_map_left_iff] at hdecoded
  obtain ⟨hframeColumns, -, -⟩ := newFrame_eq_ok hframe
  rw [renameColumns_names] at hframeColumns
  have hlength : decoded.length = strs.length := hdecoded.length_eq.symm.trans hlists
  have hnonempty : frame.columns ≠ [] := by
    rw [hframeColumns]
    intro hnone
    have hzero := congrArg List.length hnone
    rw [List.length_zipWith, hlength, Nat.min_self] at hzero
    exact hne (by simpa using hzero)
  refine ⟨.table preamble attr (strs.map Str.bytes) gap lists,
    ⟨hdepth, by simpa using hcount, frame, decoded, strs, rfl, rfl, hclean, hlength,
      fun list hmem => ⟨hwf list hmem, hsizes list hmem⟩, hdecoded, hframeColumns, hnonempty⟩,
    ⟨rest', by simp [Native.encode]⟩, ?_⟩
  simp [Native.encode]
  omega

/-! ## Dictionaries -/

/-- A symbol list read as a column. -/
theorem symbols_strict {attr : UInt8} {texts : List Bytes} (hcount : texts.length ≤ i32Max)
    (hclean : ∀ text ∈ texts, 0 ∉ text) (hsize : (NativeList.symbols attr texts).body.length ≤ usizeMax)
    (hok : deserializeSeries categories (NativeList.symbols attr texts).body 11 true .Strict = .ok k) :
    ∃ names : List Str, names.map Str.bytes = texts ∧ (∀ name ∈ names, 0 ∉ name.bytes) ∧
      k = symbolColumn categories names := by
  have hvalid : Utf8.Valid (symbolBytes texts) := by
    by_cases hne : texts = []
    · subst hne
      exact Utf8.valid_ascii (by simp [symbolBytes])
    by_contra hinvalid
    rw [NativeList.body, deserializeSeries_symbolList hcount hne hsize] at hok
    refine decodeSymbolList_unreadable ?_ true k hok
    rintro (hlossy | hnames)
    · cases hlossy
    · exact hinvalid (symbolBytes_valid_iff.mpr hnames)
  obtain ⟨names, rfl⟩ := exists_texts hvalid
  have hclean' : ∀ name ∈ names, 0 ∉ name.bytes := fun name hname => hclean _ (List.mem_map_of_mem hname)
  refine ⟨names, rfl, hclean', ?_⟩
  rw [NativeList.body, List.length_map] at hok hsize
  rw [List.length_map] at hcount
  rw [deserializeSeries_symbols hcount hclean' hsize] at hok
  exact (Except.ok.inj hok).symm

theorem dictionaryKeys_strict {kType : UInt8} (hkind : kType = 11 ∨ kType = 0) {keys : Series}
    (h : At vec pos rest) (hok : dictionaryKeys categories .Strict vec pos kType = .ok (keys, stop)) :
    ∃ (list : NativeList) (names : List Str), list.kType = kType ∧ KeysOk list ∧
      names.length = list.count ∧ (∀ name ∈ names, 0 ∉ name.bytes) ∧ keys = K.keyColumn categories names ∧
      (∃ rest', rest = list.body ++ rest') ∧ stop = pos + list.body.length := by
  obtain rfl | rfl := hkind
  · simp only [dictionaryKeys, if_pos, Exec.bind_eq_ok, Except.ok.injEq, Prod.mk.injEq] at hok
    obtain ⟨_, hend, bytes, hbytes, read, hread, column, hkeys, rfl, rfl⟩ := hok
    obtain ⟨attr, texts, rest', hcount, hclean, rfl, rfl⟩ := (endIndex_symbols h).mp hend
    have hat : At vec pos ((NativeList.symbols attr texts).body ++ rest') := by
      simpa [NativeList.body] using h
    have hstop : pos + 5 + (symbolBytes texts).length = pos + (NativeList.symbols attr texts).body.length := by
      simp [NativeList.body]
      omega
    rw [hstop] at hbytes
    have hslice := (sliceRange_at hat).mpr ⟨rest', rfl, rfl⟩
    obtain rfl : (NativeList.symbols attr texts).body = bytes := Except.ok.inj (hslice.symm.trans hbytes)
    have hbody : (NativeList.symbols attr texts).body.length ≤ usizeMax := by
      have hlen := hat.length_eq
      have hbound := hat.bounded
      rw [List.length_append] at hlen
      omega
    obtain ⟨names, rfl, hnames, rfl⟩ := symbols_strict hcount hclean hbody hread
    cases hkeys
    exact ⟨.symbols attr (names.map Str.bytes), names, rfl, ⟨hcount, hclean⟩, by simp [NativeList.count], hnames,
      rfl, ⟨rest', by simp [NativeList.body]⟩, hstop⟩
  · rw [dictionaryKeys, if_neg (by decide), Exec.bind_eq_ok] at hok
    obtain ⟨⟨length, next⟩, hheader, hok⟩ := hok
    simp only at hok
    obtain ⟨attr, rest', rfl, -, rfl⟩ := (takeListLength_eq_ok h).mp hheader
    split at hok
    · next hzero =>
      subst hzero
      cases hok
      refine ⟨.nested attr [], [], rfl, rfl, rfl, by simp, rfl,
        ⟨rest', by simp [NativeList.body, NestedRow.encodeAll]⟩, ?_⟩
      simp [NativeList.body, NestedRow.encodeAll]
    · cases hok

/-- A key that is there already is refused. -/
theorem insertEntries_eq_ok {dict entries result : List (Str × K)} (hdict : (dict.map Prod.fst).Nodup)
    (h : insertEntries dict entries = .ok result) :
    result = dict ++ entries ∧ (result.map Prod.fst).Nodup := by
  induction entries generalizing dict with
  | nil =>
    cases h
    exact ⟨by simp, hdict⟩
  | cons entry entries ih =>
    obtain ⟨key, value⟩ := entry
    rw [insertEntries] at h
    split at h
    · cases h
    next hfresh =>
    have hnodup : ((dict ++ [(key, value)]).map Prod.fst).Nodup := by
      rw [List.map_append]
      refine List.nodup_append.mpr ⟨hdict, List.nodup_singleton _, ?_⟩
      rintro other hmem _ hsame rfl
      obtain rfl : other = key := List.mem_singleton.mp hsame
      exact hfresh hmem
    obtain ⟨rfl, hkeys⟩ := ih hnodup h
    exact ⟨by simp, hkeys⟩

theorem buildDictionary_eq_ok {names : List Str} {values : K}
    (h : buildDictionary (K.keyColumn categories names) values = .ok k) :
    ∃ items, dictionaryValues values = .ok items ∧ k = .Dict (names.zip items) ∧
      names.length = items.length ∧ names.Nodup := by
  simp only [buildDictionary, K.keyTexts_keyColumn, Exec.ok_bind, Exec.bind_eq_ok] at h
  obtain ⟨length, hlength, h⟩ := h
  split at h
  · cases h
  next hsame =>
  rw [not_not, K.keyColumn_len] at hsame
  simp only [Exec.bind_eq_ok, Except.ok.injEq] at h
  obtain ⟨items, hitems, entries, hentries, rfl⟩ := h
  have hcount : names.length = items.length := hsame.trans (dictionaryValues_length hlength hitems).symm
  obtain ⟨rfl, hnodup⟩ := insertEntries_eq_ok (by simp) hentries
  rw [List.nil_append] at hnodup ⊢
  rw [List.map_fst_zip (by omega)] at hnodup
  exact ⟨items, hitems, rfl, hcount, hnodup⟩

theorem understood_dictionary (hdecode : Understands categories decode vec) {isColumn : Bool}
    (hdepth : depth ≤ maxValueDepth) (h : At vec (pos + 1) rest)
    (hok : deserializeDictionary categories .Strict decode vec (pos + 1) isColumn depth = .ok (k, stop)) :
    Understood categories depth (99 :: rest) pos k stop := by
  rw [deserializeDictionary, Exec.bind_eq_ok] at hok
  obtain ⟨kType, hkind, hok⟩ := hok
  rw [Exec.okOr_eq_ok, h.getElem?_eq] at hkind
  obtain ⟨rest₁, rfl⟩ := List.head?_eq_some_iff.mp hkind
  split at hok
  · simp only [deserializeKeyedTable, Exec.bind_eq_ok, Prod.exists, Except.ok.injEq, Prod.mk.injEq] at hok
    obtain ⟨_, next, hkeys, keyFrame, hkeyFrame, _, _, hvalues, valueFrame, hvalueFrame, _, hstack, rfl, rfl⟩ :=
      hok
    obtain rfl := intoDataFrame_eq_ok hkeyFrame
    obtain rfl := intoDataFrame_eq_ok hvalueFrame
    obtain ⟨keys, hkeyMeans, ⟨rest₂, hrest⟩, rfl⟩ := hdecode h hkeys
    rw [hrest] at h
    obtain ⟨values, hvalueMeans, ⟨rest', rfl⟩, rfl⟩ := hdecode h.skip hvalues
    unfold stackFrames at hstack
    split at hstack
    · next frame hframe =>
      cases hstack
      obtain ⟨hcolumns, -, -⟩ := new_eq_ok hframe
      refine ⟨.keyedTable keys values, ⟨hdepth, keyFrame, valueFrame, frame, hkeyMeans, hvalueMeans, rfl, hcolumns⟩,
        ⟨rest', by simp [Native.encode, hrest]⟩, ?_⟩
      simp [Native.encode]
      omega
    · cases hstack
  split at hok
  · next hsymbols =>
    rw [deserializeSymbolDictionary, Exec.bind_eq_ok] at hok
    obtain ⟨⟨keys, next⟩, hkeys, hok⟩ := hok
    simp only [Exec.bind_eq_ok, Exec.okOr_eq_ok] at hok
    obtain ⟨valueType, -, hok⟩ := hok
    split at hok
    · cases hok
    simp only [Exec.bind_eq_ok, Prod.exists, Except.ok.injEq, Prod.mk.injEq] at hok
    obtain ⟨value, _, hvalue, _, hbuild, rfl, rfl⟩ := hok
    obtain ⟨list, names, rfl, hkeysOk, hcount, hclean, rfl, ⟨rest₂, rfl⟩, rfl⟩ :=
      dictionaryKeys_strict hsymbols h.skip_one hkeys
    obtain ⟨tree, hmeans, ⟨rest', rfl⟩, rfl⟩ := hdecode h.skip_one.skip hvalue
    obtain ⟨items, hitems, rfl, hlength, hnodup⟩ := buildDictionary_eq_ok hbuild
    refine ⟨.dictionary list tree,
      ⟨hdepth, hkeysOk, value, items, names, hmeans, hitems, rfl, hlength, hcount, hnodup, hclean⟩,
      ⟨rest', by simp [Native.encode, NativeList.encode]⟩, ?_⟩
    simp [Native.encode, NativeList.encode]
    omega
  · cases hok

/-! ## Whole values -/

theorem deserializeUnchecked_understands (hsize : vec.length < usizeMax) (fuel : Nat) :
    Understands categories (deserializeUnchecked categories .Strict fuel) vec := by
  induction fuel with
  | zero =>
    intro pos rest isColumn depth k stop h hok
    cases hok
  | succ fuel ih =>
    intro pos rest isColumn depth k stop h hok
    rw [deserializeUnchecked] at hok
    split at hok
    · cases hok
    next hdepth =>
    rw [Nat.not_lt] at hdepth
    rw [Exec.bind_eq_ok] at hok
    obtain ⟨kType, hkind, hok⟩ := hok
    rw [Exec.okOr_eq_ok, h.getElem?_eq] at hkind
    obtain ⟨rest₁, rfl⟩ := List.head?_eq_some_iff.mp hkind
    have hat := h.skip_one
    unfold deserializeBody at hok
    by_cases hatom : 237 ≤ kType
    · rw [if_pos hatom] at hok
      exact understood_atom hatom hdepth hat hok
    rw [if_neg hatom] at hok
    by_cases hlist : kType ≤ 19
    · rw [if_pos hlist] at hok
      exact understood_list hsize ih hdepth hat hok
    rw [if_neg hlist] at hok
    by_cases hdict : kType = 99
    · rw [if_pos hdict] at hok
      subst hdict
      exact understood_dictionary ih hdepth hat hok
    rw [if_neg hdict] at hok
    by_cases htable : kType = 98
    · rw [if_pos htable] at hok
      subst htable
      exact understood_table hsize hdepth hat hok
    rw [if_neg htable] at hok
    by_cases hlambda : kType = 100
    · rw [if_pos hlambda] at hok
      subst hlambda
      exact understood_lambda hdepth hat hok
    rw [if_neg hlambda] at hok
    by_cases hprimitive : 101 ≤ kType ∧ kType ≤ 103
    · rw [if_pos hprimitive] at hok
      exact understood_primitive hdepth hat hok
    rw [if_neg hprimitive] at hok
    by_cases herror : kType = 128
    · rw [if_pos herror, deserializeServerError, Exec.bind_eq_ok] at hok
      obtain ⟨⟨_, _⟩, -, hok⟩ := hok
      cases hok
    rw [if_neg herror] at hok
    cases hok

/-- **What the strict decoder accepts is a tree that means its value.** -/
theorem deserialize_means {body : Bytes} (hsize : body.length ≤ isizeMax)
    (hok : deserialize categories .Strict body = .ok k) :
    ∃ tree : Native, tree.encode = body ∧ Means categories 0 tree k := by
  have hisize : isizeMax < usizeMax := by decide
  rw [deserialize_eq_ok] at hok
  have hat : At body 0 body := At.start (by omega)
  obtain ⟨tree, hmeans, ⟨rest', hrest⟩, hstop⟩ :=
    deserializeUnchecked_understands (by omega) deserializeFuel hat hok
  have hnone : rest' = [] := by
    have hlength := congrArg List.length hrest
    rw [List.length_append] at hlength
    exact List.length_eq_zero_iff.mp (by omega)
  subst hnone
  exact ⟨tree, by simpa using hrest.symm, hmeans⟩

end Decoder

end Native

end Xqdb
