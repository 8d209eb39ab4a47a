import Xqdb.FixedLists

/-! Rows of nested lists. A nested row of integers is decoded by code of its own, which
drops the null only; the flat list drops the infinities too. -/

namespace Xqdb

open LittleEndian (encode)
open WireNumber (toLe fromLe)

section Rows

variable {categories : CategoricalMapping} {encoding : SymbolEncoding} {attr kType : UInt8}
  {rows : List NestedRow}

theorem rowsFit_of_child (hmem : kType ∈ nestedTypes)
    (hchild : (rows.map NestedRow.kType).head? = some kType) (hfits : ∀ row ∈ rows, row.Fits kType) :
    NativeList.RowsFit rows := by
  cases rows with
  | nil => trivial
  | cons row rows =>
    have hk : row.kType = kType := by simpa using hchild
    exact ⟨hk ▸ hmem, hk ▸ hfits⟩

/-- A nested list as a whole body. -/
theorem deserialize_nested (hmem : kType ∈ nestedTypes) (hcount : rows.length ≤ i32Max)
    (hchild : (rows.map NestedRow.kType).head? = some kType) (hfits : ∀ row ∈ rows, row.Fits kType)
    (hsize : (0 :: attr :: (encode 4 rows.length ++ NestedRow.encodeAll rows)).length ≤ usizeMax)
    {k : K} :
    deserialize categories encoding (0 :: attr :: (encode 4 rows.length ++ NestedRow.encodeAll rows)) =
        .ok k ↔
      nestedChild categories (attr :: (encode 4 rows.length ++ NestedRow.encodeAll rows)) kType rows.length
        5 encoding = .ok k := by
  have hsmall : (attr :: (encode 4 rows.length ++ NestedRow.encodeAll rows)).length ≤ usizeMax := by
    simp only [List.length_cons] at hsize ⊢
    omega
  have hstart : At (0 :: attr :: (encode 4 rows.length ++ NestedRow.encodeAll rows)) 0
      (0 :: attr :: (encode 4 rows.length ++ NestedRow.encodeAll rows)) := At.start hsize
  have hlist := @deserializeList_nested categories encoding
    (deserializeUnchecked categories encoding (maxValueDepth + 1)) _ [] 1 0 false attr rows hcount
    (rowsFit_of_child hmem hchild hfits) (by simpa using hstart.skip_one)
  rw [deserializeSeries_nested hmem hcount hchild hsmall] at hlist
  rw [deserialize_eq_ok, deserializeFuel, deserializeUnchecked, if_neg (by decide), hstart.getElem?,
    Exec.okOr_some, Exec.ok_bind, deserializeBody, if_neg (by decide), if_pos (by decide), hlist]
  simp only [Exec.bind_eq_ok, Except.ok.injEq, Prod.mk.injEq]
  constructor
  · rintro ⟨value, hvalue, rfl, -⟩
    exact hvalue
  · intro hvalue
    refine ⟨k, hvalue, rfl, ?_⟩
    simp
    omega

/-- The rows of a nested list that is a whole slice, given what is read of each. -/
theorem wholeNestedRows_of {α : Type} {empty : α} {read : Nat → Nat → Exec (α × Nat)}
    {value : NestedRow → α} {vec : Bytes} {pos : Nat} (hfits : ∀ row ∈ rows, row.Fits kType)
    (hread : ∀ row ∈ rows, ∀ pos rest, At vec pos (row.payload ++ rest) →
      rowValues empty read row.kType row.count pos = .ok (value row, pos + row.payload.length))
    (hchildren : childCount rows ≤ i32Max) (h : At vec pos (NestedRow.encodeAll rows)) :
    wholeNestedRows empty read vec kType rows.length pos = .ok (rows.map value) := by
  rw [wholeNestedRows, nestedArrayRows_of hfits hread (Nat.zero_le _)
    (by simpa using h : At vec pos (NestedRow.encodeAll rows ++ [])), if_pos (by simpa using hchildren),
    Exec.ok_bind]
  simp only
  rw [if_neg (not_not.mpr h.length_eq)]

/-- A nested list of a fixed-width type other than characters, as a whole body. -/
theorem deserialize_nestedFixed (hmem : kType ∈ nestedTypes) (hten : kType ≠ 10) (heleven : kType ≠ 11)
    (hcount : rows.length ≤ i32Max) (hchild : (rows.map NestedRow.kType).head? = some kType)
    (hfits : ∀ row ∈ rows, row.Fits kType) (hchildren : childCount rows ≤ i32Max)
    (hsize : (0 :: attr :: (encode 4 rows.length ++ NestedRow.encodeAll rows)).length ≤ usizeMax)
    {k : K} :
    deserialize categories encoding (0 :: attr :: (encode 4 rows.length ++ NestedRow.encodeAll rows)) =
        .ok k ↔
      nestedFixedSeries kType (rows.map NestedRow.payload) encoding = .ok k := by
  have hat : At (attr :: (encode 4 rows.length ++ NestedRow.encodeAll rows)) 5
      (NestedRow.encodeAll rows) := (At.start (by simp only [List.length_cons] at hsize ⊢; omega)).header
  rw [deserialize_nested hmem hcount hchild hfits hsize, nestedChild, if_neg hten, nestedGeneral,
    if_neg heleven, wholeNestedRows_of hfits
      (fun row hrow _ _ hrest => fixedRow_at heleven (hfits row hrow) hrest) hchildren hat, Exec.ok_bind]

end Rows

/-! ## Integers -/

/-- The two infinities of a type of integers. -/
def infinite (kType : UInt8) (element : Bytes) : Prop :=
  match kType.toNat with
  | 5 => (fromLe element : Int16).toInt = -2 ^ 15 + 1 ∨ (fromLe element : Int16).toInt = 2 ^ 15 - 1
  | 6 => (fromLe element : Int32).toInt = -2 ^ 31 + 1 ∨ (fromLe element : Int32).toInt = 2 ^ 31 - 1
  | 7 => (fromLe element : Int64).toInt = -2 ^ 63 + 1 ∨ (fromLe element : Int64).toInt = 2 ^ 63 - 1
  | _ => False

/-- The numbers of a payload. -/
def numbersOf (α : Type) [WireNumber α] (payload : Bytes) : List α :=
  (chunksExact (WireNumber.width α) (payload.length / WireNumber.width α) payload).map fromLe

theorem numbersOf_write {α : Type} [WireNumber α] (values : List α) :
    numbersOf α (writeWireNumbers values) = values := by
  have hdecode := decodeWireNumbers_write values ""
  rw [decodeWireNumbers, writeWireNumbers_length, if_neg (by simp)] at hdecode
  rw [numbersOf, writeWireNumbers_length]
  exact Except.ok.inj hdecode

/-- A nested list of numbers that are all accepted. -/
theorem nestedNumbers_rows {α : Type} [WireNumber α] {kType : UInt8} {inner : FlatType}
    {cell : α → Option inner.Cell} {payloads : List Bytes} {context : String}
    (h : ∀ payload ∈ payloads, ∃ values : List α, payload = writeWireNumbers values) :
    nestedNumbers kType inner (fun value => .ok (cell value)) payloads context =
      .ok (.Series (.ofRows (typeName kType) inner
        (payloads.map fun payload => (numbersOf α payload).map cell))) := by
  have hrows : tryCollect (fun payload => do
      let values ← decodeWireNumbers α payload context
      tryCollect (fun value => .ok (cell value)) values) payloads =
      .ok (payloads.map fun payload => (numbersOf α payload).map cell) := by
    induction payloads with
    | nil => rfl
    | cons payload payloads ih =>
      obtain ⟨values, rfl⟩ := h payload (by simp)
      rw [tryCollect, ih fun other hother => h other (by simp [hother]), decodeWireNumbers_write,
        Exec.ok_bind, tryCollect_pure, Exec.ok_bind, Exec.ok_bind, List.map_cons, numbersOf_write]
  rw [nestedNumbers, hrows, Exec.ok_bind]

/-- A cell that only the null empties, against one that the infinities empty too. -/
theorem cells_agree {α : Type} [DecidableEq α] {kept infinity : Prop} [Decidable kept] {value null : α}
    (hkept : kept ↔ value ≠ null ∧ ¬ infinity) (hinfinity : infinity → value ≠ null) :
    (if value = null then none else some value) = (if kept then some value else none) ↔
      ¬ infinity := by
  by_cases hnull : value = null
  · rw [if_pos hnull, if_neg fun h => (hkept.mp h).1 hnull]
    exact iff_of_true rfl fun h => hinfinity h hnull
  rw [if_neg hnull]
  by_cases h : infinity
  · rw [if_neg fun hc => (hkept.mp hc).2 h]
    exact iff_of_false (by simp) (not_not.mpr h)
  · rw [if_pos (hkept.mpr ⟨hnull, h⟩)]
    exact iff_of_true rfl h

/-- What the nested decoder makes of an integer, against the flat one. -/
structure NestedInteger (list : NumberList) (nestedCell flatCell : list.Element → Option list.column.Cell) :
    Prop where
  supported : list.Supported
  nested : list.kType ∈ nestedTypes
  decodes : ∀ rows encoding, ∃ context, nestedFixedSeries list.kType rows encoding =
    nestedNumbers list.kType list.column (fun value => .ok (nestedCell value)) rows context
  flat : list.decodeCell = fun value => .ok (flatCell value)
  agrees : ∀ value, nestedCell value = flatCell value ↔ ¬ infinite list.kType (toLe value)

theorem nestedInteger_short :
    NestedInteger .short (fun value => if value = i16Min then none else some value)
      fun value => if -2 ^ 15 + 1 < value.toInt && value.toInt < 2 ^ 15 - 1 then some value else none where
  supported := .short
  nested := by decide
  decodes rows encoding := ⟨_, rfl⟩
  flat := rfl
  agrees value := by
    have hmin : i16Min.toInt = -2 ^ 15 := rfl
    have h₁ := value.le_toInt
    have h₂ := value.toInt_lt
    simp only [infinite, UInt8.reduceToNat, WireNumber.fromLe_toLe]
    apply cells_agree
    · simp only [Bool.and_eq_true, decide_eq_true_eq, ne_eq, ← Int16.toInt_inj]
      omega
    · rw [ne_eq, ← Int16.toInt_inj]
      omega

theorem nestedInteger_int :
    NestedInteger .int (fun value => if value = i32Min then none else some value)
      fun value => if -2 ^ 31 + 1 < value.toInt && value.toInt < 2 ^ 31 - 1 then some value else none where
  supported := .int
  nested := by decide
  decodes rows encoding := ⟨_, rfl⟩
  flat := rfl
  agrees value := by
    have hmin : i32Min.toInt = -2 ^ 31 := rfl
    have h₁ := value.le_toInt
    have h₂ := value.toInt_lt
    simp only [infinite, UInt8.reduceToNat, WireNumber.fromLe_toLe]
    apply cells_agree
    · simp only [Bool.and_eq_true, decide_eq_true_eq, ne_eq, ← Int32.toInt_inj]
      omega
    · rw [ne_eq, ← Int32.toInt_inj]
      omega

theorem nestedInteger_long :
    NestedInteger .long (fun value => if value = i64Min then none else some value)
      fun value => if -2 ^ 63 + 1 < value.toInt && value.toInt < 2 ^ 63 - 1 then some value else none where
  supported := .long
  nested := by decide
  decodes rows encoding := ⟨_, rfl⟩
  flat := rfl
  agrees value := by
    have hmin : i64Min.toInt = -2 ^ 63 := rfl
    have h₁ := value.le_toInt
    have h₂ := value.toInt_lt
    simp only [infinite, UInt8.reduceToNat, WireNumber.fromLe_toLe]
    apply cells_agree
    · simp only [Bool.and_eq_true, decide_eq_true_eq, ne_eq, ← Int64.toInt_inj]
      omega
    · rw [ne_eq, ← Int64.toInt_inj]
      omega

section Agreement

variable {categories : CategoricalMapping} {encoding : SymbolEncoding}

/-- The row of a nested list as a list of its own. -/
theorem deserialize_row {list : NumberList} {nestedCell flatCell : list.Element → Option list.column.Cell}
    (h : NestedInteger list nestedCell flatCell) {row : NestedRow} (hfits : row.Fits list.kType)
    (hkind : row.kType = list.kType) (hsize : row.encode.length ≤ usizeMax) :
    ∃ values : List list.Element, row.payload = writeWireNumbers values ∧ row.count = values.length ∧
      deserialize categories encoding row.encode = .ok (list.series (values.map flatCell)) := by
  obtain ⟨hle, hzero, heleven, -⟩ := h.supported.bounds
  have hlen : row.payload.length = row.count * typeSize list.kType := by
    cases row with
    | empty attr => exact absurd hkind.symm hzero
    | symbols attr texts => exact absurd hkind.symm heleven
    | fixed kType attr count payload =>
      obtain rfl : kType = list.kType := hkind
      exact hfits.1.2.2.2
  obtain ⟨values, hcount, hpayload⟩ :=
    exists_numbers list.Element (hlen.trans (by rw [h.supported.width]))
  refine ⟨values, hpayload, hcount.symm, ?_⟩
  rw [row.encode_eq, hkind] at hsize ⊢
  rw [deserialize_typed hle hzero heleven hsize]
  refine ⟨?_, row.attr, row.count, row.payload, row.count_le hfits.1, hlen, rfl, ?_⟩
  · rw [h.supported.width]
    exact WireNumber.width_pos
  · rw [hpayload, ← hcount, h.supported.typedList, h.flat, tryCollect_pure, Exec.ok_bind]

theorem encode_length_le {row : NestedRow} {rows : List NestedRow} (h : row ∈ rows) :
    row.encode.length ≤ (NestedRow.encodeAll rows).length := by
  induction rows with
  | nil => cases h
  | cons head tail ih =>
    rw [NestedRow.encodeAll, List.length_append]
    cases h with
    | head => omega
    | tail _ h =>
      have := ih h
      omega

/-- One type of integers: the nested list, and each of its rows as a list of its own. -/
theorem rows_agree {list : NumberList} {nestedCell flatCell : list.Element → Option list.column.Cell}
    (h : NestedInteger list nestedCell flatCell) (hten : list.kType ≠ 10) {attr : UInt8}
    {rows : List NestedRow} (hcount : rows.length ≤ i32Max)
    (hchild : (rows.map NestedRow.kType).head? = some list.kType)
    (hfits : ∀ row ∈ rows, row.Fits list.kType) (hchildren : childCount rows ≤ i32Max)
    (hsize : (0 :: attr :: (encode 4 rows.length ++ NestedRow.encodeAll rows)).length ≤ usizeMax) :
    ∃ cells : List (List (Option list.column.Cell)),
      deserialize categories encoding (0 :: attr :: (encode 4 rows.length ++ NestedRow.encodeAll rows)) =
        .ok (.Series (.ofRows (typeName list.kType) list.column cells)) ∧
      ∀ (i : Nat) (row : NestedRow), rows[i]? = some row → row.kType = list.kType →
        ∃ flat, deserialize categories encoding row.encode =
            .ok (.Series (.ofCells (typeName list.kType) list.column flat)) ∧
          (cells[i]? = some flat ↔
            ∀ element ∈ chunksExact (typeSize list.kType) row.count row.payload,
              ¬ infinite list.kType element) := by
  obtain ⟨-, -, heleven, -⟩ := h.supported.bounds
  have hnumbers : ∀ row ∈ rows, ∃ values : List list.Element, row.payload = writeWireNumbers values := by
    intro row hrow
    have hfit := hfits row hrow
    cases row with
    | empty attr => exact ⟨[], rfl⟩
    | symbols attr texts =>
      rcases hfit.2 with hk | hk
      · exact absurd hk.symm heleven
      · exact absurd hk (by simp [NestedRow.kType])
    | fixed kType attr count payload =>
      obtain rfl : kType = list.kType := hfit.2.resolve_right (nestedTypes_cases hfit.1.1)
      obtain ⟨values, -, hvalues⟩ :=
        exists_numbers list.Element (hfit.1.2.2.2.trans (by rw [h.supported.width]))
      exact ⟨values, hvalues⟩
  refine ⟨(rows.map NestedRow.payload).map fun payload => (numbersOf list.Element payload).map nestedCell,
    ?_, ?_⟩
  · rw [deserialize_nestedFixed h.nested hten heleven hcount hchild hfits hchildren hsize]
    obtain ⟨context, hdecodes⟩ := h.decodes (rows.map NestedRow.payload) encoding
    rw [hdecodes]
    apply nestedNumbers_rows
    intro payload hpayload
    obtain ⟨row, hrow, rfl⟩ := List.mem_map.mp hpayload
    exact hnumbers row hrow
  · intro i row hrow hkind
    have hmem := List.mem_of_getElem? hrow
    have hshort : row.encode.length ≤ usizeMax := by
      have hle := encode_length_le hmem
      simp only [List.length_cons, List.length_append] at hsize
      omega
    obtain ⟨values, hpayload, hlength, hflat⟩ :=
      @deserialize_row categories encoding _ _ _ h row (hfits row hmem) hkind hshort
    refine ⟨_, hflat, ?_⟩
    rw [List.getElem?_map, List.getElem?_map, hrow, Option.map_some, Option.map_some, hpayload,
      numbersOf_write, hlength, h.supported.width, chunksExact_write, Option.some_inj,
      List.map_inj_left]
    simp only [List.mem_map, forall_exists_index, and_imp, forall_apply_eq_imp_iff₂]
    exact forall₂_congr fun value _ => h.agrees value

end Agreement

/-- **Integers in rows.** A row of a nested list of integers is decoded as it is decoded alone
exactly when none of its elements is an infinity. -/
theorem nested_integers_flat (categories : CategoricalMapping) (encoding : SymbolEncoding)
    (kType : UInt8) (hkind : kType ∈ [5, 6, 7]) (attr : UInt8) (rows : List NestedRow)
    (hcount : rows.length ≤ i32Max) (hchild : (rows.map NestedRow.kType).head? = some kType)
    (hfits : ∀ row ∈ rows, row.Fits kType) (hchildren : childCount rows ≤ i32Max)
    (hsize : (0 :: attr :: (encode 4 rows.length ++ NestedRow.encodeAll rows)).length ≤ usizeMax) :
    ∃ (inner : FlatType) (cells : List (List (Option inner.Cell))),
      deserialize categories encoding (0 :: attr :: (encode 4 rows.length ++ NestedRow.encodeAll rows)) =
        .ok (.Series (.ofRows (typeName kType) inner cells)) ∧
      ∀ (i : Nat) (row : NestedRow), rows[i]? = some row → row.kType = kType →
        ∃ flat, deserialize categories encoding row.encode =
            .ok (.Series (.ofCells (typeName kType) inner flat)) ∧
          (cells[i]? = some flat ↔
            ∀ element ∈ chunksExact (typeSize kType) row.count row.payload, ¬ infinite kType element) := by
  simp only [List.mem_cons, List.not_mem_nil, or_false] at hkind
  obtain rfl | rfl | rfl := hkind
  · exact ⟨_, rows_agree nestedInteger_short (by decide) hcount hchild hfits hchildren hsize⟩
  · exact ⟨_, rows_agree nestedInteger_int (by decide) hcount hchild hfits hchildren hsize⟩
  · exact ⟨_, rows_agree nestedInteger_long (by decide) hcount hchild hfits hchildren hsize⟩

theorem nested_integers_flat_short :
    ∃ (inner : FlatType) (cells : List (List (Option inner.Cell))),
      deserialize numberedTexts .Strict
          (0 :: 0 :: (encode 4 1 ++ NestedRow.encodeAll [.fixed 5 0 2 [1, 0, 0, 128]])) =
        .ok (.Series (.ofRows (typeName 5) inner cells)) ∧
      ∀ (i : Nat) (row : NestedRow), [NestedRow.fixed 5 0 2 [1, 0, 0, 128]][i]? = some row → row.kType = 5 →
        ∃ flat, deserialize numberedTexts .Strict row.encode =
            .ok (.Series (.ofCells (typeName 5) inner flat)) ∧
          (cells[i]? = some flat ↔
            ∀ element ∈ chunksExact (typeSize 5) row.count row.payload, ¬ infinite 5 element) := by
  apply nested_integers_flat numberedTexts .Strict 5 (by decide) 0 [.fixed 5 0 2 [1, 0, 0, 128]]
  · decide
  · rfl
  · intro row hrow
    obtain rfl := List.mem_singleton.mp hrow
    exact ⟨⟨by decide, by decide, by decide, rfl⟩, .inl rfl⟩
  · decide
  · decide

/-- `0Wh` is null alone and a value in a row. -/
theorem nested_infinity_kept :
    deserialize numberedTexts .Strict [5, 0, 1, 0, 0, 0, 255, 127] =
        .ok (.Series (.ofCells (typeName 5) .int16 [none])) ∧
      deserialize numberedTexts .Strict [0, 0, 1, 0, 0, 0, 5, 0, 1, 0, 0, 0, 255, 127] =
        .ok (.Series (.ofRows (typeName 5) .int16 [[some 32767]])) ∧
      [none] ≠ [some (32767 : Int16)] :=
  ⟨rfl, rfl, by decide⟩

end Xqdb
