import Xqdb.Native.Tree
import Xqdb.StringRows
import Xqdb.TablePanics
import Xqdb.WireNative

/-! Lists that the native decoder has read: how long the value is, and what the encoding has to
do with it. A list is read alike under both encodings as soon as each of its texts is valid on
its own, and under the strict one it is read only then. -/

namespace Xqdb

open LittleEndian (encode)
open QValue (symbolBytes)

/-! ## Texts -/

namespace NestedRow

/-- The texts of a row are valid, each on its own. -/
def TextsOk : NestedRow → Prop
  | .empty _ => True
  | .symbols _ texts => ∀ text ∈ texts, Utf8.Valid text
  | .fixed kType _ _ payload => kType = 10 → Utf8.Valid payload

end NestedRow

namespace NativeList

/-- The texts of a list are valid, each on its own; the characters of a column are texts. -/
def TextsOk (asColumn : Bool) : NativeList → Prop
  | .fixed kType _ _ payload => kType = 10 → asColumn = true → ∀ b ∈ payload, Utf8.Valid [b]
  | .symbols _ texts => ∀ text ∈ texts, Utf8.Valid text
  | .nested _ rows => ∀ row ∈ rows, row.TextsOk

end NativeList

/-! ## Lengths -/

theorem hasLength_cells {name : Str} {type : FlatType} {cells : List (Option type.Cell)} {count : Nat}
    (h : cells.length = count) : HasLength count (.Series (.ofCells name type cells)) :=
  .inl ⟨_, rfl, by rw [Series.ofCells_len, h]⟩

theorem hasLength_rows {name : Str} {type : FlatType} {rows : List (List (Option type.Cell))} {count : Nat}
    (h : rows.length = count) : HasLength count (.Series (.ofRows name type rows)) :=
  .inl ⟨_, rfl, by rw [Series.ofRows_len, h]⟩

theorem decodeWireNumbers_count {α : Type} [WireNumber α] {payload : Bytes} {context : String} {count : Nat}
    {values : List α} (hlen : payload.length = count * WireNumber.width α)
    (h : decodeWireNumbers α payload context = .ok values) : values.length = count := by
  obtain ⟨values', hcount, rfl⟩ := exists_numbers α hlen
  rw [decodeWireNumbers_write] at h
  cases h
  exact hcount

theorem newEmptySeries_hasLength {categories : CategoricalMapping} {kType : UInt8} {k : K}
    (h : newEmptySeries categories kType = .ok k) : HasLength 0 k := by
  unfold newEmptySeries at h
  simp only at h
  split at h
  all_goals cases h
  · exact .inl ⟨_, rfl, rfl⟩
  all_goals exact hasLength_cells rfl

theorem decodeTimes_hasLength {name : Str} {multiplier : Int} {payload : Bytes} {count : Nat} {k : K}
    (hlen : payload.length = count * 4) (h : decodeFixedList.decodeTimes name multiplier payload = .ok k) :
    HasLength count k := by
  simp only [decodeFixedList.decodeTimes, Exec.bind_eq_ok, Except.ok.injEq] at h
  obtain ⟨qValues, hvalues, values, hcollect, rfl⟩ := h
  have hcount := decodeWireNumbers_count hlen hvalues
  have hsame := tryCollect_length hcollect
  refine hasLength_cells ?_
  rw [List.length_zipWith]
  omega

section Numbers

variable {α : Type} [WireNumber α] {payload : Bytes} {context : String} {count : Nat} {name : Str} {k : K}

theorem hasLength_numbers {type : FlatType} {cells : List α → List (Option type.Cell)}
    (hcells : ∀ values, (cells values).length = values.length)
    (hlen : payload.length = count * WireNumber.width α)
    (h : (decodeWireNumbers α payload context >>= fun values =>
      .ok (.Series (.ofCells name type (cells values)))) = .ok k) : HasLength count k := by
  simp only [Exec.bind_eq_ok, Except.ok.injEq] at h
  obtain ⟨values, hvalues, rfl⟩ := h
  apply hasLength_cells
  rw [hcells]
  exact decodeWireNumbers_count hlen hvalues

theorem hasLength_converted {β : Type} {convert : α → Exec β} {type : FlatType}
    {cells : List β → List (Option type.Cell)} (hcells : ∀ values, (cells values).length = values.length)
    (hlen : payload.length = count * WireNumber.width α)
    (h : (decodeWireNumbers α payload context >>= fun qValues => tryCollect convert qValues >>= fun values =>
      .ok (.Series (.ofCells name type (cells values)))) = .ok k) : HasLength count k := by
  simp only [Exec.bind_eq_ok, Except.ok.injEq] at h
  obtain ⟨qValues, hvalues, values, hcollect, rfl⟩ := h
  apply hasLength_cells
  rw [hcells, tryCollect_length hcollect]
  exact decodeWireNumbers_count hlen hvalues

end Numbers

theorem withValidity_length {α : Type} (valid : α → Bool) (values : List α) :
    (withValidity valid values).length = values.length := List.length_map _

/-- A list of fixed width. -/
theorem decodeFixedList_hasLength {kType : UInt8} {payload : Bytes} {count : Nat} {k : K}
    (hlen : payload.length = count * typeSize kType) (h : decodeFixedList kType payload = .ok k) :
    HasLength count k := by
  have hsize : ∀ {n width : Nat}, kType.toNat = n → kTypeSize.getD n 0 = width →
      payload.length = count * width := by
    rintro n width hkind rfl
    rw [← hkind]
    exact hlen
  unfold decodeFixedList at h
  simp only at h
  split at h
  · next hkind =>
    simp only [Exec.bind_eq_ok, Except.ok.injEq] at h
    obtain ⟨_, -, rfl⟩ := h
    have hwhole : payload.length = count * 1 := hsize hkind rfl
    exact hasLength_cells (by simpa using hwhole)
  · next hkind =>
    cases h
    have hwhole : payload.length = count * 16 := hsize hkind rfl
    exact hasLength_cells (by rw [List.length_map, chunksExact_length]; omega)
  · next hkind =>
    cases h
    have hwhole : payload.length = count * 1 := hsize hkind rfl
    exact hasLength_cells (by simpa using hwhole)
  · next hkind =>
    refine hasLength_numbers (fun values => ?_) ?_ h
    · exact withValidity_length _ values
    · exact hsize hkind rfl
  · next hkind =>
    refine hasLength_numbers (fun values => ?_) ?_ h
    · exact withValidity_length _ values
    · exact hsize hkind rfl
  · next hkind =>
    refine hasLength_numbers (fun values => ?_) ?_ h
    · exact withValidity_length _ values
    · exact hsize hkind rfl
  · next hkind =>
    refine hasLength_numbers (fun values => ?_) ?_ h
    · exact withValidity_length _ values
    · exact hsize hkind rfl
  · next hkind =>
    refine hasLength_numbers (fun values => ?_) ?_ h
    · exact withValidity_length _ values
    · exact hsize hkind rfl
  · next hkind =>
    refine hasLength_converted (fun values => ?_) ?_ h
    · exact withValidity_length _ values
    · exact hsize hkind rfl
  · next hkind =>
    refine hasLength_converted (fun values => ?_) ?_ h
    · exact withValidity_length _ values
    · exact hsize hkind rfl
  · next hkind =>
    refine hasLength_converted (fun values => ?_) ?_ h
    · exact withValidity_length _ values
    · exact hsize hkind rfl
  · next hkind =>
    refine hasLength_numbers (fun values => ?_) ?_ h
    · exact withValidity_length _ values
    · exact hsize hkind rfl
  · next hkind => exact decodeTimes_hasLength (hsize hkind rfl) h
  · next hkind => exact decodeTimes_hasLength (hsize hkind rfl) h
  · next hkind => exact decodeTimes_hasLength (hsize hkind rfl) h
  · cases h

/-! ## Lists of fixed width -/

section Lists

variable {categories : CategoricalMapping} {encoding : SymbolEncoding} {asColumn : Bool} {attr : UInt8}

/-- What becomes of a list of fixed width. -/
def fixedSeries (categories : CategoricalMapping) (kType : UInt8) (count : Nat) (payload : Bytes)
    (asColumn : Bool) (encoding : SymbolEncoding) : Exec K :=
  if count = 0 then
    if kType = 10 ∧ asColumn = false then .ok (.CharVector []) else newEmptySeries categories kType
  else if kType = 10 then
    if asColumn then decodeCharColumn payload encoding else .ok (.CharVector payload)
  else decodeFixedList kType payload

theorem deserializeSeries_fixed {kType : UInt8} {count : Nat} {payload : Bytes}
    (hwf : (NativeList.fixed kType attr count payload).WF)
    (hsize : (attr :: (encode 4 count ++ payload)).length ≤ usizeMax) :
    deserializeSeries categories (attr :: (encode 4 count ++ payload)) kType asColumn encoding =
      fixedSeries categories kType count payload asColumn encoding := by
  obtain ⟨hone, hkind, heleven, -, hcount, hlen⟩ := hwf
  have hzero : kType ≠ 0 := by
    rintro rfl
    exact absurd hone (by decide)
  rw [deserializeSeries, if_neg (by simpa using hkind), header_at hcount hsize, Exec.ok_bind, fixedSeries]
  simp only
  by_cases hnone : count = 0
  · subst hnone
    obtain rfl := List.length_eq_zero_iff.mp (hlen.trans (Nat.zero_mul _))
    rw [if_pos rfl, if_pos rfl, if_neg (by simp)]
  · have hmul : checkedMul count (typeSize kType) = some (count * typeSize kType) :=
      checkedMul_eq_some.mpr ⟨rfl, by simp at hsize; omega⟩
    rw [if_neg hnone, if_neg hnone, payload_at, Exec.okOr_some, Exec.ok_bind, checkPayloadLength,
      if_neg (by simp [hzero, heleven]), hmul, Exec.okOr_some, Exec.ok_bind, if_neg (by simpa using hlen),
      Exec.ok_bind, decodeList, if_neg hzero]
    by_cases hten : kType = 10
    · rw [if_pos hten, if_pos hten]
    · rw [if_neg hten, if_neg heleven, if_neg hten]

/-- A byte is a text of its own when it is ASCII. -/
theorem isAscii_iff {payload : Bytes} : isAscii payload = true ↔ ∀ b ∈ payload, Utf8.Valid [b] := by
  have hbyte : ∀ n : Fin 256, (UInt8.ofNat n.val < 0x80 ↔ Utf8.Valid [UInt8.ofNat n.val]) := by
    decide +kernel
  rw [isAscii, List.all_eq_true]
  refine forall₂_congr fun b _ => ?_
  have hb := hbyte ⟨b.toNat, b.toNat_lt⟩
  simp only [UInt8.ofNat_toNat] at hb
  rw [decide_eq_true_iff, hb]

theorem decodeCharColumn_eq_ok {payload : Bytes} {k : K} :
    decodeCharColumn payload encoding = .ok k ↔
      (encoding = .Lossy ∨ ∀ b ∈ payload, Utf8.Valid [b]) ∧
        k = .Series (.ofCells (typeName 10) .string (payload.map fun byte => some (charText byte))) := by
  rw [← isAscii_iff]
  unfold decodeCharColumn
  split
  · next hread =>
    simp only [Except.ok.injEq, hread.symm, true_and]
    exact eq_comm
  · next hread =>
    refine iff_of_false (fun h => by cases h) ?_
    rintro ⟨hc, -⟩
    exact hread hc.symm

/-- A list of fixed width is read under one encoding as under the other. -/
theorem fixedSeries_reads {kType : UInt8} {count : Nat} {payload : Bytes}
    (hlen : payload.length = count * typeSize kType) {k : K}
    (hok : fixedSeries categories kType count payload asColumn encoding = .ok k) :
    HasLength count k ∧ (kType = 1 → ∀ b ∈ payload, b ≤ 1) ∧
      (encoding = .Strict → kType = 10 → asColumn = true → ∀ b ∈ payload, Utf8.Valid [b]) ∧
      ((kType = 10 → asColumn = true → ∀ b ∈ payload, Utf8.Valid [b]) →
        ∀ other, fixedSeries categories kType count payload asColumn other = .ok k) := by
  unfold fixedSeries at hok ⊢
  by_cases hnone : count = 0
  · subst hnone
    obtain rfl := List.length_eq_zero_iff.mp (hlen.trans (Nat.zero_mul _))
    rw [if_pos rfl] at hok
    simp only [if_true]
    refine ⟨?_, by simp, by simp, fun _ _ => hok⟩
    split at hok
    · cases hok
      exact .inr ⟨[], rfl, rfl⟩
    · exact newEmptySeries_hasLength hok
  rw [if_neg hnone] at hok
  simp only [if_neg hnone]
  by_cases hten : kType = 10
  · subst hten
    have hwhole : payload.length = count := hlen.trans (Nat.mul_one _)
    rw [if_pos rfl] at hok
    simp only [if_true]
    cases asColumn with
    | false =>
      cases hok
      exact ⟨.inr ⟨payload, rfl, hwhole⟩, by simp, by simp, fun _ _ => rfl⟩
    | true =>
      rw [if_pos rfl, decodeCharColumn_eq_ok] at hok
      obtain ⟨hread, rfl⟩ := hok
      refine ⟨hasLength_cells (by simpa using hwhole), by simp, ?_, ?_⟩
      · rintro rfl - -
        rcases hread with hread | hread
        · cases hread
        · exact hread
      · intro hvalid other
        rw [if_pos rfl, decodeCharColumn_eq_ok]
        exact ⟨.inr (hvalid trivial rfl), rfl⟩
  · rw [if_neg hten] at hok
    simp only [if_neg hten]
    refine ⟨decodeFixedList_hasLength hlen hok, ?_, by simp [hten], fun _ _ => hok⟩
    rintro rfl
    simp only [decodeFixedList, UInt8.reduceToNat, Exec.bind_eq_ok] at hok
    obtain ⟨_, hvalid, -⟩ := hok
    exact validateBooleans_eq_ok.mp hvalid

/-! ## Lists of symbols -/

theorem symbolCategories_length {payload : Bytes} {count cursor stop : Nat} {interner : SymbolInterner}
    {ids : List Nat} (h : symbolCategories categories payload count cursor interner = .ok (ids, stop)) :
    ids.length = count := by
  induction count generalizing cursor interner ids with
  | zero =>
    cases h
    rfl
  | succ count ih =>
    simp only [symbolCategories, Exec.bind_eq_ok, Prod.exists, Except.ok.injEq, Prod.mk.injEq] at h
    obtain ⟨_, _, -, _, _, hrest, rfl, rfl⟩ := h
    rw [List.length_cons, ih hrest]

theorem symbolTexts_length {payload : Bytes} {count cursor stop : Nat} {texts : List Bytes}
    (h : symbolTexts payload count cursor = .ok (texts, stop)) : texts.length = count := by
  induction count generalizing cursor texts with
  | zero =>
    cases h
    rfl
  | succ count ih =>
    simp only [symbolTexts, Exec.bind_eq_ok, Prod.exists, Except.ok.injEq, Prod.mk.injEq] at h
    obtain ⟨_, _, -, _, _, hrest, rfl, rfl⟩ := h
    rw [List.length_cons, ih hrest]

theorem decodeSymbolList_hasLength {payload : Bytes} {count : Nat} {k : K}
    (h : decodeSymbolList categories payload count asColumn encoding = .ok k) : HasLength count k := by
  rw [decodeSymbolList, Exec.bind_eq_ok] at h
  obtain ⟨text, -, h⟩ := h
  split at h
  · simp only [decodeSymbolColumn, Exec.bind_eq_ok, Prod.exists, Except.ok.injEq] at h
    obtain ⟨ids, _, hids, _, -, rfl⟩ := h
    exact hasLength_cells (by rw [List.length_map, symbolCategories_length hids])
  · simp only [Exec.bind_eq_ok, Prod.exists, Except.ok.injEq] at h
    obtain ⟨texts, _, htexts, _, -, rfl⟩ := h
    exact hasLength_cells (by rw [List.length_map, symbolTexts_length htexts])

theorem decodeSymbolList_reads {texts : List Bytes} {k : K}
    (hok : decodeSymbolList categories (symbolBytes texts) texts.length asColumn encoding = .ok k) :
    (encoding = .Strict → ∀ text ∈ texts, Utf8.Valid text) ∧
      ((∀ text ∈ texts, Utf8.Valid text) → ∀ other,
        decodeSymbolList categories (symbolBytes texts) texts.length asColumn other = .ok k) := by
  rw [decodeSymbolList, Exec.bind_eq_ok] at hok
  obtain ⟨text, htext, hok⟩ := hok
  obtain ⟨hread, rfl⟩ := decodeUtf8_eq_ok.mp htext
  constructor
  · rintro rfl
    rcases hread with hread | hread
    · cases hread
    · exact symbolBytes_valid_iff.mp hread
  · intro hvalid other
    have hother : decodeUtf8 (symbolBytes texts) other "q symbol-list value" =
        .ok (lossyText (symbolBytes texts)) :=
      decodeUtf8_eq_ok.mpr ⟨.inr (symbolBytes_valid_iff.mpr hvalid), rfl⟩
    rw [decodeSymbolList, hother, Exec.ok_bind]
    exact hok

/-- A list of symbols is read under one encoding as under the other. -/
theorem symbolSeries_reads {texts : List Bytes} (hcount : texts.length ≤ i32Max)
    (hsize : (attr :: (encode 4 texts.length ++ symbolBytes texts)).length ≤ usizeMax) {k : K}
    (hok : deserializeSeries categories (attr :: (encode 4 texts.length ++ symbolBytes texts)) 11 asColumn
      encoding = .ok k) :
    HasLength texts.length k ∧ (encoding = .Strict → ∀ text ∈ texts, Utf8.Valid text) ∧
      ((∀ text ∈ texts, Utf8.Valid text) → ∀ other,
        deserializeSeries categories (attr :: (encode 4 texts.length ++ symbolBytes texts)) 11 asColumn
          other = .ok k) := by
  by_cases hne : texts = []
  · subst hne
    rw [List.length_nil, deserializeSeries_noSymbols] at hok
    cases hok
    exact ⟨hasLength_cells rfl, by simp, fun _ _ => deserializeSeries_noSymbols⟩
  · rw [deserializeSeries_symbolList hcount hne hsize] at hok
    obtain ⟨hstrict, hother⟩ := decodeSymbolList_reads hok
    refine ⟨decodeSymbolList_hasLength hok, hstrict, fun hvalid other => ?_⟩
    rw [deserializeSeries_symbolList hcount hne hsize]
    exact hother hvalid other

/-! ## Nested lists -/

variable {vec rest : Bytes} {pos : Nat} {rows : List NestedRow}

/-- Every row of a nested list that was read was read where it stands. -/
theorem nestedArrayRows_reads {α : Type} {empty : α} {read : Nat → Nat → Exec (α × Nat)} {kType : UInt8}
    (hwf : ∀ row ∈ rows, row.WF)
    (hstop : ∀ row ∈ rows, ∀ pos rest value stop, At vec pos (row.payload ++ rest) →
      rowValues empty read row.kType row.count pos = .ok (value, stop) → stop = pos + row.payload.length)
    {offset stop : Nat} {values : List α} (h : At vec pos (NestedRow.encodeAll rows ++ rest))
    (hok : nestedArrayRows empty read vec kType rows.length pos offset = .ok (values, stop)) :
    ∀ row ∈ rows, ∃ pos rest value, At vec pos (row.payload ++ rest) ∧
      rowValues empty read row.kType row.count pos = .ok (value, pos + row.payload.length) := by
  induction rows generalizing pos offset values with
  | nil => simp
  | cons row rows ih =>
    simp only [NestedRow.encodeAll, List.append_assoc] at h
    obtain ⟨hkind, hheader, hpayload, hnext⟩ := h.row
    have hlength := (@takeListLength_eq_ok _ _ _ hheader _ _ "q nested-list element").mpr
      ⟨_, _, rfl, row.count_le (hwf row (by simp)), rfl⟩
    simp only [List.length_cons, nestedArrayRows, hkind, Exec.okOr_some, Exec.ok_bind, hlength,
      Exec.bind_eq_ok, Prod.exists] at hok
    obtain ⟨_, -, _, -, value, next, hvalue, others, _, hrest, hvalues⟩ := hok
    cases hvalues
    obtain rfl := hstop row (by simp) _ _ _ _ hpayload hvalue
    intro other hother
    cases hother with
    | head => exact ⟨_, _, _, hpayload, hvalue⟩
    | tail _ hother =>
      rw [hnext] at hrest
      exact ih (fun row hrow => hwf row (by simp [hrow])) (fun row hrow => hstop row (by simp [hrow])) h.skip
        hrest other hother

/-- Rows of symbols. -/
theorem nestedGeneral_symbols (hfits : ∀ row ∈ rows, row.Fits 11)
    (h : At vec pos (NestedRow.encodeAll rows)) {k : K} :
    nestedGeneral categories vec 11 rows.length pos encoding = .ok k ↔
      (∀ row ∈ rows, Readable encoding (rowSymbols row)) ∧ childCount rows ≤ i32Max ∧
        k = .Series (.ofRows (typeName 11) (.categorical categories)
          (rows.map fun row => (lossySymbols row).map fun text => some (categories.insertCat text))) := by
  have hat : At vec pos (NestedRow.encodeAll rows ++ []) := by simpa using h
  have hend : pos + (NestedRow.encodeAll rows).length = vec.length := h.length_eq
  have hvalues : (∀ row ∈ rows, Readable encoding (rowSymbols row)) →
      nestedArrayRows [] (symbolRow vec encoding) vec 11 rows.length pos 0 =
        if 0 + childCount rows ≤ i32Max then
          .ok (rows.map lossySymbols, pos + (NestedRow.encodeAll rows).length)
        else Exec.err childOverflow := by
    intro hread
    exact nestedArrayRows_of hfits (fun row hrow pos rest hrowAt =>
      (symbolValues_eq_ok (hfits row hrow) hrowAt).mpr ⟨hread row hrow, rfl, rfl⟩) (Nat.zero_le _) hat
  rw [nestedGeneral, if_pos rfl, wholeNestedRows]
  simp only [Exec.bind_eq_ok, Prod.exists, Except.ok.injEq]
  constructor
  · rintro ⟨values, ⟨read, stop, hrun, hwhole⟩, rfl⟩
    have hread : ∀ row ∈ rows, Readable encoding (rowSymbols row) := by
      intro row hrow
      obtain ⟨_, _, _, hrowAt, hvalue⟩ := nestedArrayRows_reads (fun row hrow => (hfits row hrow).1)
        (fun row hrow _ _ _ _ hrowAt hvalue => ((symbolValues_eq_ok (hfits row hrow) hrowAt).mp hvalue).2.2)
        hat hrun row hrow
      exact ((symbolValues_eq_ok (hfits row hrow) hrowAt).mp hvalue).1
    rw [hvalues hread, Nat.zero_add] at hrun
    split at hrun
    · next hchildren =>
      cases hrun
      rw [if_neg (not_not.mpr hend)] at hwhole
      cases hwhole
      exact ⟨hread, hchildren, by rw [List.map_map]; rfl⟩
    · cases hrun
  · rintro ⟨hread, hchildren, rfl⟩
    refine ⟨rows.map lossySymbols, ⟨_, _, ?_, if_neg (not_not.mpr hend)⟩, by rw [List.map_map]; rfl⟩
    rw [hvalues hread, Nat.zero_add, if_pos hchildren]

theorem nestedNumbers_hasLength {α : Type} [WireNumber α] {kType : UInt8} {inner : FlatType}
    {convert : α → Exec (Option inner.Cell)} {payloads : List Bytes} {context : String} {k : K}
    (h : nestedNumbers kType inner convert payloads context = .ok k) : HasLength payloads.length k := by
  rw [nestedNumbers, Exec.bind_eq_ok] at h
  obtain ⟨cells, hcells, h⟩ := h
  cases h
  exact hasLength_rows (tryCollect_length hcells)

/-- Rows of fixed width other than characters. -/
theorem nestedFixedSeries_reads {kType : UInt8} (hten : kType ≠ 10) {payloads : List Bytes} {k : K}
    (h : nestedFixedSeries kType payloads encoding = .ok k) :
    HasLength payloads.length k ∧ (kType = 1 → ∀ payload ∈ payloads, ∀ b ∈ payload, b ≤ 1) ∧
      ∀ other, nestedFixedSeries kType payloads other = .ok k := by
  have hbooleans : kType = 1 → ∀ payload ∈ payloads, ∀ b ∈ payload, b ≤ 1 := by
    rintro rfl payload hpayload b hb
    simp only [nestedFixedSeries, UInt8.reduceToNat, Exec.bind_eq_ok] at h
    obtain ⟨_, hvalid, -⟩ := h
    exact validateBooleans_eq_ok.mp hvalid b (List.mem_flatten.mpr ⟨payload, hpayload, hb⟩)
  refine ⟨?_, hbooleans, ?_⟩
  · unfold nestedFixedSeries at h
    split at h
    · simp only [Exec.bind_eq_ok, Except.ok.injEq] at h
      obtain ⟨_, -, rfl⟩ := h
      exact hasLength_rows (List.length_map _)
    · cases h
      exact hasLength_rows (List.length_map _)
    · exact nestedNumbers_hasLength h
    · exact nestedNumbers_hasLength h
    · exact nestedNumbers_hasLength h
    · exact nestedNumbers_hasLength h
    · exact nestedNumbers_hasLength h
    · next hkind => exact absurd (UInt8.toNat_inj.mp hkind) hten
    · exact nestedNumbers_hasLength h
    · cases h
  · intro other
    rw [← h]
    unfold nestedFixedSeries
    split
    all_goals first
      | rfl
      | next hkind => exact absurd (UInt8.toNat_inj.mp hkind) hten

/-- Rows of characters. -/
theorem nestedChild_chars (hfits : ∀ row ∈ rows, row.Fits 10) (h : At vec pos (NestedRow.encodeAll rows))
    {k : K} (hok : nestedChild categories vec 10 rows.length pos encoding = .ok k) :
    HasLength rows.length k ∧ (encoding = .Strict → ∀ row ∈ rows, Utf8.Valid row.payload) ∧
      ((∀ row ∈ rows, Utf8.Valid row.payload) → ∀ other,
        nestedChild categories vec 10 rows.length pos other = .ok k) := by
  obtain ⟨texts, htexts, rfl⟩ := nestedChild_rows hfits h hok
  have hlength : texts.length = rows.length := by
    rw [tryCollect_length htexts, List.length_map]
  refine ⟨hasLength_cells (by rw [List.length_map, hlength]), ?_, ?_⟩
  · rintro rfl row hrow
    have hbytes := decodedRows_strict.mp htexts
    exact valid_texts _ (hbytes ▸ List.mem_map_of_mem hrow)
  · intro hvalid other
    obtain ⟨names, hnames⟩ : ∃ names : List Str, rows.map NestedRow.payload = names.map Str.bytes := by
      cases hrows : rowTexts (rows.map NestedRow.payload) with
      | some names => exact ⟨names, rowTexts_eq_some.mp hrows⟩
      | none =>
        obtain ⟨payload, hpayload, hinvalid⟩ := rowTexts_eq_none.mp hrows
        obtain ⟨row, hrow, rfl⟩ := List.mem_map.mp hpayload
        exact absurd (hvalid row hrow) hinvalid
    obtain rfl : names = texts := by
      rw [hnames, decodedRows_texts] at htexts
      exact Except.ok.inj htexts
    rw [nestedChild, if_pos rfl, Exec.bind_eq_ok] at hok ⊢
    obtain ⟨outcome, hpass, hok⟩ := hok
    refine ⟨outcome, hpass, ?_⟩
    cases outcome with
    | some _ => exact hok
    | none =>
      simp only at hok ⊢
      rw [nestedGeneral_eq_ok hfits h] at hok ⊢
      rw [nestedCharSeries_eq_ok, hnames]
      refine ⟨hok.1, ⟨names, decodedRows_texts other names, rfl⟩, ?_⟩
      rintro ⟨payload, hpayload, hinvalid⟩
      exact absurd (valid_texts payload hpayload) hinvalid

theorem NestedRow.textsOk_chars {row : NestedRow} (hfits : row.Fits 10) :
    row.TextsOk ↔ Utf8.Valid row.payload := by
  cases row with
  | empty attr => exact ⟨fun _ => Utf8.valid_nil, fun _ => trivial⟩
  | symbols attr texts =>
    rcases hfits.2 with hk | hk
    · cases hk
    · cases hk
  | fixed kType attr count payload =>
    obtain ⟨⟨hmem, -⟩, hkind⟩ := hfits
    obtain rfl : kType = 10 := hkind.resolve_right (nestedTypes_cases hmem)
    exact ⟨fun h => h rfl, fun h _ => h⟩

theorem NestedRow.textsOk_symbols {row : NestedRow} (hfits : row.Fits 11) :
    row.TextsOk ↔ ∀ text ∈ rowSymbols row, Utf8.Valid text := by
  cases row with
  | empty attr => exact ⟨fun _ => by simp [rowSymbols], fun _ => trivial⟩
  | symbols attr texts => exact Iff.rfl
  | fixed kType attr count payload =>
    obtain ⟨⟨hmem, heleven, -⟩, hkind⟩ := hfits
    exact absurd (hkind.resolve_right (nestedTypes_cases hmem)) heleven

/-- Rows of other types have no texts. -/
theorem NestedRow.textsOk_fixed {kType : UInt8} (hten : kType ≠ 10) (heleven : kType ≠ 11) {row : NestedRow}
    (hfits : row.Fits kType) : row.TextsOk := by
  cases row with
  | empty attr => exact trivial
  | symbols attr texts =>
    rcases hfits.2 with hk | hk
    · exact absurd hk.symm heleven
    · cases hk
  | fixed child attr count payload =>
    obtain ⟨⟨hmem, -⟩, hkind⟩ := hfits
    obtain rfl : child = kType := hkind.resolve_right (nestedTypes_cases hmem)
    exact fun hchild => absurd hchild hten

theorem NestedRow.booleansOk_of_ne {kType : UInt8} (hone : kType ≠ 1) {row : NestedRow}
    (hfits : row.Fits kType) : row.BooleansOk := by
  cases row with
  | empty attr => exact trivial
  | symbols attr texts => exact trivial
  | fixed child attr count payload =>
    obtain ⟨⟨hmem, -⟩, hkind⟩ := hfits
    obtain rfl : child = kType := hkind.resolve_right (nestedTypes_cases hmem)
    exact fun hchild => absurd hchild hone

theorem NestedRow.booleansOk_of_payload {row : NestedRow} (h : ∀ b ∈ row.payload, b ≤ 1) : row.BooleansOk := by
  cases row with
  | empty attr => exact trivial
  | symbols attr texts => exact trivial
  | fixed child attr count payload => exact fun _ => h

/-- What a nested list is read to, behind its header. -/
theorem nestedChild_reads {kType : UInt8} (hfits : ∀ row ∈ rows, row.Fits kType)
    (h : At vec pos (NestedRow.encodeAll rows)) {k : K}
    (hok : nestedChild categories vec kType rows.length pos encoding = .ok k) :
    HasLength rows.length k ∧ (∀ row ∈ rows, row.BooleansOk) ∧
      (encoding = .Strict → ∀ row ∈ rows, row.TextsOk) ∧
      ((∀ row ∈ rows, row.TextsOk) → ∀ other,
        nestedChild categories vec kType rows.length pos other = .ok k) := by
  by_cases hten : kType = 10
  · subst hten
    obtain ⟨hlength, hstrict, hother⟩ := nestedChild_chars hfits h hok
    refine ⟨hlength, fun row hrow => NestedRow.booleansOk_of_ne (by decide) (hfits row hrow), ?_, ?_⟩
    · intro hencoding row hrow
      exact (NestedRow.textsOk_chars (hfits row hrow)).mpr (hstrict hencoding row hrow)
    · intro htexts
      exact hother fun row hrow => (NestedRow.textsOk_chars (hfits row hrow)).mp (htexts row hrow)
  rw [nestedChild, if_neg hten] at hok
  simp only [nestedChild, if_neg hten]
  by_cases heleven : kType = 11
  · subst heleven
    obtain ⟨hread, hchildren, rfl⟩ := (nestedGeneral_symbols hfits h).mp hok
    refine ⟨hasLength_rows (List.length_map _), ?_, ?_, ?_⟩
    · exact fun row hrow => NestedRow.booleansOk_of_ne (by decide) (hfits row hrow)
    · rintro rfl row hrow
      rcases hread row hrow with hlossy | hvalid
      · cases hlossy
      · exact (NestedRow.textsOk_symbols (hfits row hrow)).mpr hvalid
    · intro htexts other
      refine (nestedGeneral_symbols hfits h).mpr ⟨fun row hrow => .inr ?_, hchildren, rfl⟩
      exact (NestedRow.textsOk_symbols (hfits row hrow)).mp (htexts row hrow)
  · obtain ⟨hchildren, hseries⟩ := (nestedGeneral_fixed heleven hfits h).mp hok
    obtain ⟨hlength, hbooleans, hother⟩ := nestedFixedSeries_reads hten hseries
    rw [List.length_map] at hlength
    refine ⟨hlength, ?_, ?_, ?_⟩
    · intro row hrow
      by_cases hone : kType = 1
      · exact NestedRow.booleansOk_of_payload (hbooleans hone _ (List.mem_map_of_mem hrow))
      · exact NestedRow.booleansOk_of_ne hone (hfits row hrow)
    · exact fun _ row hrow => NestedRow.textsOk_fixed hten heleven (hfits row hrow)
    · exact fun _ other => (nestedGeneral_fixed heleven hfits h).mpr ⟨hchildren, hother other⟩

/-- A nested list is read under one encoding as under the other. -/
theorem nestedSeries_reads (hcount : rows.length ≤ i32Max) (hfit : NativeList.RowsFit rows)
    (hsize : (attr :: (encode 4 rows.length ++ NestedRow.encodeAll rows)).length ≤ usizeMax) {k : K}
    (hok : deserializeSeries categories (attr :: (encode 4 rows.length ++ NestedRow.encodeAll rows)) 0
      asColumn encoding = .ok k) :
    HasLength rows.length k ∧ (∀ row ∈ rows, row.BooleansOk) ∧
      (encoding = .Strict → ∀ row ∈ rows, row.TextsOk) ∧
      ((∀ row ∈ rows, row.TextsOk) → ∀ other,
        deserializeSeries categories (attr :: (encode 4 rows.length ++ NestedRow.encodeAll rows)) 0 asColumn
          other = .ok k) := by
  cases rows with
  | nil =>
    have hempty : ∀ other, deserializeSeries categories
        (attr :: (encode 4 ([] : List NestedRow).length ++ NestedRow.encodeAll [])) 0 asColumn other =
          newEmptySeries categories 0 := by
      intro other
      rw [deserializeSeries, if_neg (by decide), header_at hcount hsize, Exec.ok_bind]
      simp only [List.length_nil, if_true]
      rw [if_neg (by simp [NestedRow.encodeAll]), if_neg (by simp)]
    rw [hempty] at hok
    exact ⟨newEmptySeries_hasLength hok, by simp, by simp, fun _ other => (hempty other).trans hok⟩
  | cons row others =>
    obtain ⟨hmem, hfits⟩ := hfit
    have hchild : ((row :: others).map NestedRow.kType).head? = some row.kType := rfl
    have hat : At (attr :: (encode 4 (row :: others).length ++ NestedRow.encodeAll (row :: others))) 5
        (NestedRow.encodeAll (row :: others)) := (At.start hsize).header
    rw [deserializeSeries_nested hmem hcount hchild hsize] at hok
    simp only [deserializeSeries_nested hmem hcount hchild hsize]
    exact nestedChild_reads hfits hat hok

/-- **Lists.** The value of a list is as long as the list. Under the strict encoding its texts are
valid, and when they are, every encoding gives the same value. -/
theorem deserializeSeries_reads {list : NativeList} (hwf : list.WF) (hsize : list.body.length ≤ usizeMax) {k : K}
    (hok : deserializeSeries categories list.body list.kType asColumn encoding = .ok k) :
    HasLength list.count k ∧ list.BooleansOk ∧ (encoding = .Strict → list.TextsOk asColumn) ∧
      (list.TextsOk asColumn → ∀ other,
        deserializeSeries categories list.body list.kType asColumn other = .ok k) := by
  cases list with
  | fixed kType attr count payload =>
    change deserializeSeries categories (attr :: (encode 4 count ++ payload)) kType asColumn encoding = _ at hok
    rw [deserializeSeries_fixed hwf hsize] at hok
    obtain ⟨hlength, hbooleans, hstrict, hother⟩ := fixedSeries_reads hwf.2.2.2.2.2 hok
    refine ⟨hlength, hbooleans, hstrict, fun htexts other => ?_⟩
    exact (deserializeSeries_fixed hwf hsize).trans (hother htexts other)
  | symbols attr texts =>
    obtain ⟨hlength, hstrict, hother⟩ := symbolSeries_reads hwf.1 hsize hok
    exact ⟨hlength, trivial, hstrict, hother⟩
  | nested attr rows => exact nestedSeries_reads hwf.1 hwf.2 hsize hok

end Lists

end Xqdb
