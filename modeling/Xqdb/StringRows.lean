import Xqdb.SymbolLists

/-! Nested character lists. A single pass copies the rows while they are texts; a row that is
none sends the whole list to the general decoder, which looks at the rows end to end. Both
give the rows as they are decoded one at a time. -/

namespace Xqdb

open LittleEndian (encode)

/-! ## Rows end to end -/

/-- A text does not start inside a code point. -/
theorem head_of_valid {b : UInt8} {bs : Bytes} (h : Utf8.Valid (b :: bs)) :
    (b &&& 0xC0 == 0x80) = false := by
  have hall : ∀ n : Fin 256, (Utf8.step .start (UInt8.ofNat n.val)).isSome = true →
      (UInt8.ofNat n.val &&& 0xC0 == 0x80) = false := by
    decide +kernel
  obtain ⟨next, hnext, -⟩ := Option.bind_eq_some_iff.mp h
  have hb := hall ⟨b.toNat, b.toNat_lt⟩
  simp only [UInt8.ofNat_toNat] at hb
  exact hb (by rw [hnext]; rfl)

theorem valid_flatten {rows : List Bytes} (h : ∀ row ∈ rows, Utf8.Valid row) :
    Utf8.Valid rows.flatten := by
  induction rows with
  | nil => exact Utf8.valid_nil
  | cons row rows ih =>
    rw [List.flatten_cons]
    exact (h row (by simp)).append (ih fun other hother => h other (by simp [hother]))

theorem splitsCodePoint_of_valid {rows : List Bytes} (h : ∀ row ∈ rows, Utf8.Valid row) :
    splitsCodePoint rows = false := by
  induction rows with
  | nil => rfl
  | cons row rows ih =>
    have hvalid := valid_flatten h
    rw [List.flatten_cons] at hvalid
    rw [splitsCodePoint, ih fun other hother => h other (by simp [hother]), Bool.or_false]
    cases hhead : row ++ rows.flatten with
    | nil => rfl
    | cons b bs =>
      rw [hhead] at hvalid
      exact head_of_valid hvalid

/-- One validation covers every row. -/
theorem validateNestedChar_eq_ok {rows : List Bytes} :
    validateNestedChar rows = .ok () ↔ ∀ row ∈ rows, Utf8.Valid row := by
  constructor
  · exact valid_of_validateNestedChar
  · intro h
    rw [validateNestedChar, if_neg (not_not.mpr (valid_flatten h)),
      if_neg (by simp [splitsCodePoint_of_valid h])]

/-! ## Rows one at a time -/

def decodedRows (encoding : SymbolEncoding) (rows : List Bytes) : Exec (List Str) :=
  tryCollect (fun row => decodeUtf8 row encoding "q nested char value") rows

/-- The column of these texts. -/
def textColumn (texts : List Str) : K :=
  .Series (.ofCells (typeName 10) .string (texts.map some))

theorem decodedRows_lossy (rows : List Bytes) : decodedRows .Lossy rows = .ok (rows.map lossyText) := by
  have hrow : (fun row => decodeUtf8 row .Lossy "q nested char value") = fun row => .ok (lossyText row) :=
    funext fun row => decodeUtf8_lossy row _
  rw [decodedRows, hrow, tryCollect_pure]

theorem rowTexts_eq_some {rows : List Bytes} {texts : List Str} :
    rowTexts rows = some texts ↔ rows = texts.map Str.bytes := by
  induction rows generalizing texts with
  | nil =>
    cases texts with
    | nil => simp [rowTexts]
    | cons text texts => simp [rowTexts]
  | cons row rows ih =>
    simp only [rowTexts, Option.bind_eq_some_iff, Option.map_eq_some_iff]
    constructor
    · rintro ⟨text, htext, rest, hrest, rfl⟩
      rw [List.map_cons, Str.fromUtf8_eq_some.mp htext, ← ih.mp hrest]
    · intro h
      cases texts with
      | nil => cases h
      | cons text texts =>
        obtain ⟨rfl, hrest⟩ := List.cons.inj h
        exact ⟨text, Str.fromUtf8_bytes text, texts, ih.mpr hrest, rfl⟩

theorem decodedRows_texts (encoding : SymbolEncoding) (texts : List Str) :
    decodedRows encoding (texts.map Str.bytes) = .ok texts := by
  rw [decodedRows, tryCollect_eq_ok, List.forall₂_map_left_iff]
  exact List.forall₂_same.mpr fun text _ => decodeUtf8_valid

theorem decodedRows_strict {rows : List Bytes} {texts : List Str} :
    decodedRows .Strict rows = .ok texts ↔ rows = texts.map Str.bytes := by
  constructor
  · intro h
    rw [decodedRows, tryCollect_eq_ok] at h
    induction h with
    | nil => rfl
    | cons hhead _ ih => rw [List.map_cons, decodeUtf8_strict.mp hhead, ih]
  · rintro rfl
    exact decodedRows_texts .Strict texts

theorem valid_texts {texts : List Str} : ∀ row ∈ texts.map Str.bytes, Utf8.Valid row := by
  intro row hrow
  obtain ⟨text, -, rfl⟩ := List.mem_map.mp hrow
  exact text.valid

theorem textSeries_texts (texts : List Str) :
    K.Series (textSeries (typeName 10) (texts.map Str.bytes)) = textColumn texts := by
  simp [textSeries, textColumn, Function.comp_def]

/-! ## The two decoders -/

section Decoders

variable {categories : CategoricalMapping} {encoding : SymbolEncoding} {vec : Bytes} {pos : Nat}
  {rows : List NestedRow}

/-- The bytes of the rows after replacing what is no text. -/
def lossyTotal (rows : List Bytes) : Nat := (rows.map fun row => (Utf8.lossy row).length).sum

theorem transcodeNestedCharLossy_eq (rows : List Bytes) {used : Nat} (hused : used ≤ i32Max) :
    transcodeNestedCharLossy rows used =
      if used + lossyTotal rows ≤ i32Max then .ok (rows.map Utf8.lossy)
      else deserializationErr "q nested char values exceed i32::MAX bytes after transcoding" := by
  induction rows generalizing used with
  | nil =>
    rw [if_pos (by simpa [lossyTotal] using hused)]
    rfl
  | cons row rows ih =>
    have hsum : lossyTotal (row :: rows) = (Utf8.lossy row).length + lossyTotal rows := by
      simp [lossyTotal]
    have hbytes : (lossyText row).bytes = Utf8.lossy row := rfl
    rw [transcodeNestedCharLossy, decodeUtf8_lossy, Exec.ok_bind, hsum, hbytes]
    by_cases hnext : used + (Utf8.lossy row).length ≤ i32Max
    · have hroom : ¬ i32Max < used + (Utf8.lossy row).length := by omega
      rw [if_neg hroom, ih hnext, ← Nat.add_assoc]
      split
      · rfl
      · rfl
    · have hfull : i32Max < used + (Utf8.lossy row).length := by omega
      rw [if_pos hfull, if_neg (by omega)]

/-- The rows that the general decoder has collected. -/
theorem nestedCharSeries_eq_ok {rows : List Bytes} {k : K} :
    nestedCharSeries rows encoding = .ok k ↔
      (∃ texts, decodedRows encoding rows = .ok texts ∧ k = textColumn texts) ∧
        ((∃ row ∈ rows, ¬ Utf8.Valid row) → lossyTotal rows ≤ i32Max) := by
  unfold nestedCharSeries
  cases htexts : rowTexts rows with
  | some texts =>
    obtain rfl := rowTexts_eq_some.mp htexts
    have hnone : ¬ ∃ row ∈ texts.map Str.bytes, ¬ Utf8.Valid row := by
      rintro ⟨row, hrow, hinvalid⟩
      exact hinvalid (valid_texts row hrow)
    simp only [validateNestedChar_eq_ok.mpr valid_texts, decodedRows_texts, textSeries_texts,
      Except.ok.injEq, exists_eq_left', hnone, false_implies, and_true]
    exact eq_comm
  | none =>
    have hsome := rowTexts_eq_none.mp htexts
    have herror : ∃ e, validateNestedChar rows = .error e := by
      cases hvalidate : validateNestedChar rows with
      | error e => exact ⟨e, rfl⟩
      | ok u =>
        obtain ⟨row, hrow, hinvalid⟩ := hsome
        exact absurd (valid_of_validateNestedChar hvalidate row hrow) hinvalid
    obtain ⟨e, herror⟩ := herror
    rw [herror]
    cases encoding with
    | Strict =>
      refine iff_of_false (fun h => by cases h) ?_
      rintro ⟨⟨texts, hdecoded, -⟩, -⟩
      rw [rowTexts_eq_some.mpr (decodedRows_strict.mp hdecoded)] at htexts
      cases htexts
    | Lossy =>
      have hbytes : (rows.map lossyText).map Str.bytes = rows.map Utf8.lossy := by
        rw [List.map_map]
        rfl
      simp only [transcodeNestedCharLossy_eq rows (Nat.zero_le _), Nat.zero_add, decodedRows_lossy,
        hsome, forall_const, Except.ok.injEq, exists_eq_left']
      split
      · next hfits =>
        rw [Exec.ok_bind, ← hbytes, textSeries_texts]
        simp only [Except.ok.injEq, hfits, and_true]
        exact eq_comm
      · next hfits =>
        refine iff_of_false (fun h => by cases h) ?_
        rintro ⟨-, hc⟩
        exact hfits hc

/-- The general decoder on rows of fixed width, under any encoding. -/
theorem nestedGeneral_fixed {kType : UInt8} (heleven : kType ≠ 11) (hfits : ∀ row ∈ rows, row.Fits kType)
    (h : At vec pos (NestedRow.encodeAll rows)) {k : K} :
    nestedGeneral categories vec kType rows.length pos encoding = .ok k ↔
      childCount rows ≤ i32Max ∧ nestedFixedSeries kType (rows.map NestedRow.payload) encoding = .ok k := by
  have hend : pos + (NestedRow.encodeAll rows).length = vec.length := h.length_eq
  rw [nestedGeneral, if_neg heleven, wholeNestedRows, nestedArrayRows_at heleven hfits
    (Nat.zero_le _) (by simpa using h : At vec pos (NestedRow.encodeAll rows ++ [])), Nat.zero_add]
  split
  · next hchildren =>
    rw [Exec.ok_bind]
    simp only [hend, ne_eq, not_true_eq_false, if_false, Exec.ok_bind, hchildren, true_and]
  · next hchildren =>
    refine iff_of_false (fun hc => by cases hc) ?_
    rintro ⟨hc, -⟩
    exact hchildren hc

theorem nestedGeneral_eq_ok (hfits : ∀ row ∈ rows, row.Fits 10)
    (h : At vec pos (NestedRow.encodeAll rows)) {k : K} :
    nestedGeneral categories vec 10 rows.length pos encoding = .ok k ↔
      childCount rows ≤ i32Max ∧ nestedCharSeries (rows.map NestedRow.payload) encoding = .ok k :=
  nestedGeneral_fixed (by decide) hfits h

/-- Within the view buffer the single pass stops at a row that is no text and nowhere else. -/
theorem charRows_none {rest : Bytes} (hfits : ∀ row ∈ rows, row.Fits 10) {used : Nat}
    (hview : FitsViewBuffer used (rows.map NestedRow.payload))
    (htexts : rowTexts (rows.map NestedRow.payload) = none)
    (h : At vec pos (NestedRow.encodeAll rows ++ rest)) :
    charRows vec rows.length pos used = .ok none := by
  induction rows generalizing pos used with
  | nil => cases htexts
  | cons row rows ih =>
    simp only [NestedRow.encodeAll, List.append_assoc] at h
    obtain ⟨hkind, hheader, hpayload, hstop⟩ := h.row
    have hwf := (hfits row (by simp)).1
    have hlength := (@takeListLength_eq_ok _ _ _ hheader _ _ "q nested-list element").mpr
      ⟨_, _, rfl, row.count_le hwf, rfl⟩
    have hread := charRowPayload_at (hfits row (by simp)) hpayload
    simp only [List.map_cons, FitsViewBuffer] at hview
    simp only [List.length_cons, charRows, hkind, Exec.okOr_some, Exec.ok_bind, hlength, hread, hstop]
    cases htext : Str.fromUtf8 row.payload with
    | none => rfl
    | some text =>
      have hrest : rowTexts (rows.map NestedRow.payload) = none := by
        simpa [rowTexts, htext] using htexts
      simp only
      rw [if_neg (by omega), ih (fun r hr => hfits r (by simp [hr])) hview.2 hrest h.skip]
      rfl

/-- What the single pass returns are the rows. -/
theorem decodeCharRows_some (hfits : ∀ row ∈ rows, row.Fits 10)
    (h : At vec pos (NestedRow.encodeAll rows)) {texts : List Str}
    (hpass : decodeCharRows vec pos rows.length = .ok (some texts)) :
    rows.map NestedRow.payload = texts.map Str.bytes := by
  have hscan := decodeCharRows_at hfits h
  cases hview : viewTexts (rows.map NestedRow.payload) with
  | some texts' =>
    rw [hview] at hscan
    simp only at hscan
    rw [hpass] at hscan
    cases hscan
    unfold viewTexts at hview
    split at hview
    · exact rowTexts_eq_some.mp hview
    · cases hview
  | none =>
    rw [hview] at hscan
    rcases hscan with ⟨-, hnone⟩ | ⟨e, herr⟩
    · rw [hpass] at hnone
      cases hnone
    · rw [hpass] at herr
      cases herr

theorem decodeCharRows_none (hfits : ∀ row ∈ rows, row.Fits 10)
    (h : At vec pos (NestedRow.encodeAll rows))
    (hview : FitsViewBuffer 0 (rows.map NestedRow.payload))
    (htexts : rowTexts (rows.map NestedRow.payload) = none) :
    decodeCharRows vec pos rows.length = .ok none := by
  rw [decodeCharRows, charRows_none hfits hview htexts
    (by simpa using h : At vec pos (NestedRow.encodeAll rows ++ [])), Exec.ok_bind]

theorem nestedChild_rows (hfits : ∀ row ∈ rows, row.Fits 10)
    (h : At vec pos (NestedRow.encodeAll rows)) {k : K}
    (hok : nestedChild categories vec 10 rows.length pos encoding = .ok k) :
    ∃ texts, decodedRows encoding (rows.map NestedRow.payload) = .ok texts ∧ k = textColumn texts := by
  rw [nestedChild, if_pos rfl, Exec.bind_eq_ok] at hok
  obtain ⟨outcome, hpass, hok⟩ := hok
  cases outcome with
  | some texts =>
    cases hok
    rw [decodeCharRows_some hfits h hpass]
    exact ⟨texts, decodedRows_texts encoding texts, rfl⟩
  | none =>
    simp only at hok
    rw [nestedGeneral_eq_ok hfits h, nestedCharSeries_eq_ok] at hok
    exact hok.2.1

/-- Within the limits, the list is accepted as soon as its rows are. -/
theorem nestedChild_accepts (hfits : ∀ row ∈ rows, row.Fits 10)
    (h : At vec pos (NestedRow.encodeAll rows))
    (hview : FitsViewBuffer 0 (rows.map NestedRow.payload))
    (hlimits : (∃ row ∈ rows, ¬ Utf8.Valid row.payload) →
      childCount rows ≤ i32Max ∧ lossyTotal (rows.map NestedRow.payload) ≤ i32Max)
    {texts : List Str} (htexts : decodedRows encoding (rows.map NestedRow.payload) = .ok texts) :
    nestedChild categories vec 10 rows.length pos encoding = .ok (textColumn texts) := by
  rw [nestedChild, if_pos rfl]
  cases hrows : rowTexts (rows.map NestedRow.payload) with
  | some texts' =>
    have hpass := decodeCharRows_at hfits h
    rw [viewTexts, if_pos hview, hrows] at hpass
    simp only at hpass
    rw [rowTexts_eq_some.mp hrows, decodedRows_texts] at htexts
    cases htexts
    rw [hpass]
    rfl
  | none =>
    obtain ⟨row, hrow, hinvalid⟩ := rowTexts_eq_none.mp hrows
    obtain ⟨row, hmem, rfl⟩ := List.mem_map.mp hrow
    obtain ⟨hchildren, htotal⟩ := hlimits ⟨row, hmem, hinvalid⟩
    rw [decodeCharRows_none hfits h hview hrows, Exec.ok_bind]
    simp only
    rw [nestedGeneral_eq_ok hfits h, nestedCharSeries_eq_ok]
    exact ⟨hchildren, ⟨texts, htexts, rfl⟩, fun _ => htotal⟩

theorem nestedChild_strict (hfits : ∀ row ∈ rows, row.Fits 10)
    (h : At vec pos (NestedRow.encodeAll rows))
    (hview : FitsViewBuffer 0 (rows.map NestedRow.payload)) :
    (∃ e, nestedChild categories vec 10 rows.length pos .Strict = .error e) ↔
      ∃ row ∈ rows, ¬ Utf8.Valid row.payload := by
  cases hrows : rowTexts (rows.map NestedRow.payload) with
  | some texts =>
    have hbytes := rowTexts_eq_some.mp hrows
    have hvalid : ¬ ∃ row ∈ rows, ¬ Utf8.Valid row.payload := by
      rintro ⟨row, hmem, hinvalid⟩
      have hpayload := List.mem_map_of_mem (f := NestedRow.payload) hmem
      rw [hbytes] at hpayload
      exact hinvalid (valid_texts _ hpayload)
    have hok := @nestedChild_accepts categories .Strict vec pos rows hfits h hview
      (fun hc => absurd hc hvalid) texts (decodedRows_strict.mpr hbytes)
    refine iff_of_false ?_ hvalid
    rintro ⟨e, herr⟩
    rw [hok] at herr
    cases herr
  | none =>
    obtain ⟨row, hrow, hinvalid⟩ := rowTexts_eq_none.mp hrows
    obtain ⟨row, hmem, rfl⟩ := List.mem_map.mp hrow
    refine iff_of_true ?_ ⟨row, hmem, hinvalid⟩
    cases hrun : nestedChild categories vec 10 rows.length pos .Strict with
    | error e => exact ⟨e, rfl⟩
    | ok k =>
      obtain ⟨texts, hdecoded, -⟩ := nestedChild_rows hfits h hrun
      rw [rowTexts_eq_some.mpr (decodedRows_strict.mp hdecoded)] at hrows
      cases hrows

/-! ## Whole lists -/

/-- The scan for the end of a nested list, which runs before its rows are decoded, refuses a first
row that has no type of its own. -/
theorem firstRow_nested {rows : List NestedRow} {attr : UInt8} {rest : Bytes} {stop : Nat}
    (h : At vec pos (attr :: (encode 4 rows.length ++ (NestedRow.encodeAll rows ++ rest))))
    (hcount : rows.length ≤ i32Max) (hscan : calculateArrayEndIndex vec pos 0 = .ok stop)
    {row : NestedRow} (hrow : rows.head? = some row) : row.kType ∈ nestedTypes := by
  have hi32 : i32Max < 256 ^ 4 := by decide
  obtain ⟨_, others, _, hcount', hfit, hsame, -⟩ := (endIndex_nested h).mp hscan
  obtain ⟨-, hsame⟩ := List.cons.inj hsame
  obtain ⟨hlength, hrows⟩ := List.append_inj hsame (by simp)
  have hlength : rows.length = others.length :=
    LittleEndian.encode_inj (by omega) (by omega) hlength
  cases rows with
  | nil => cases hrow
  | cons first rows =>
    cases others with
    | nil => cases hlength
    | cons other others =>
      obtain rfl := Option.some.inj hrow
      simp only [NestedRow.encodeAll, NestedRow.encode_eq, List.cons_append, List.cons.injEq] at hrows
      rw [hrows.1]
      exact hfit.1

end Decoders

/-- The column of rows that have these texts; a list without rows has no type. -/
def rowsColumn (texts : List Str) : K :=
  if texts = [] then .Series ⟨typeName 0, .null 0⟩ else textColumn texts

/-- What `deserialize_nested_array` is given of a list: everything behind its type byte. -/
def rowsBody (attr : UInt8) (rows : List NestedRow) : Bytes :=
  attr :: (encode 4 rows.length ++ NestedRow.encodeAll rows)

theorem rowsColumn_texts {encoding : SymbolEncoding} {rows : List NestedRow} (hne : rows ≠ []) {texts : List Str}
    (h : decodedRows encoding (rows.map NestedRow.payload) = .ok texts) : rowsColumn texts = textColumn texts := by
  have hlength := tryCollect_length h
  have hrows := List.length_pos_iff.mpr hne
  rw [List.length_map] at hlength
  exact if_neg (List.length_pos_iff.mp (by omega))

theorem deserializeNestedArray_noRows (categories : CategoricalMapping) (attr : UInt8) (encoding : SymbolEncoding) :
    deserializeNestedArray categories (rowsBody attr []) encoding = .ok (rowsColumn []) := by
  have hsize : (attr :: (encode 4 0 ++ [])).length ≤ usizeMax := by
    rw [List.append_nil, List.length_cons, LittleEndian.encode_length]
    decide
  rw [rowsBody, List.length_nil, NestedRow.encodeAll, deserializeNestedArray,
    header_at (Nat.zero_le _) hsize, Exec.ok_bind]
  rfl

/-- Of a list of character rows that the scan has accepted, the decoder is given exactly the list,
and its first row is a character vector. -/
theorem scanned_rows {before after : Bytes} {attr : UInt8} {rows : List NestedRow} {stop : Nat}
    (hcount : rows.length ≤ i32Max) (hfits : ∀ row ∈ rows, row.Fits 10)
    (hsize : (before ++ (rowsBody attr rows ++ after)).length ≤ usizeMax)
    (hscan : calculateArrayEndIndex (before ++ (rowsBody attr rows ++ after)) before.length 0 = .ok stop) :
    sliceRange (before ++ (rowsBody attr rows ++ after)) before.length stop = .ok (rowsBody attr rows) ∧
      (rows = [] ∨ (rows.map NestedRow.kType).head? = some 10) := by
  have hat : At (before ++ (rowsBody attr rows ++ after)) before.length
      (attr :: (encode 4 rows.length ++ (NestedRow.encodeAll rows ++ after))) := by
    have := (At.start hsize).skip
    simpa [rowsBody] using this
  have hhead : ∀ row, rows.head? = some row → row.kType = 10 ∧ row.kType ∈ nestedTypes := by
    intro row hrow
    have hnested := firstRow_nested hat hcount hscan hrow
    have hkind := (hfits row (List.mem_of_head? hrow)).2
    exact ⟨hkind.resolve_right (nestedTypes_cases hnested), hnested⟩
  have hfit : NativeList.RowsFit rows := by
    cases rows with
    | nil => trivial
    | cons row rows =>
      obtain ⟨hten, hnested⟩ := hhead row rfl
      refine ⟨hnested, ?_⟩
      rw [hten]
      exact hfits
  have hstop := (endIndex_nested hat).mpr ⟨attr, rows, after, hcount, hfit, rfl, rfl⟩
  rw [hscan] at hstop
  obtain rfl := Except.ok.inj hstop
  constructor
  · refine (sliceRange_at hat).mpr ⟨after, by simp [rowsBody], ?_⟩
    simp [rowsBody]
    omega
  · cases rows with
    | nil => exact .inl rfl
    | cons row rows => exact .inr (congrArg some (hhead row rfl).1)

/-- **Rows of characters**, in a list anywhere in a body whose end the scan has found: the decoder is
given the list, and each row is decoded as it is alone, whatever way the decoder takes. Strict
decoding fails exactly when a row is no text, apart from the limits on the view buffer, the child
count and the transcoded bytes. -/
theorem string_rows (categories : CategoricalMapping) (before after : Bytes) (attr : UInt8) (rows : List NestedRow)
    (stop : Nat) (hcount : rows.length ≤ i32Max) (hfits : ∀ row ∈ rows, row.Fits 10)
    (hsize : (before ++ (rowsBody attr rows ++ after)).length ≤ usizeMax)
    (hscan : calculateArrayEndIndex (before ++ (rowsBody attr rows ++ after)) before.length 0 = .ok stop) :
    sliceRange (before ++ (rowsBody attr rows ++ after)) before.length stop = .ok (rowsBody attr rows) ∧
    (∀ encoding k, deserializeNestedArray categories (rowsBody attr rows) encoding = .ok k →
      ∃ texts, decodedRows encoding (rows.map NestedRow.payload) = .ok texts ∧ k = rowsColumn texts) ∧
    (FitsViewBuffer 0 (rows.map NestedRow.payload) →
      ((∃ e, deserializeNestedArray categories (rowsBody attr rows) .Strict = .error e) ↔
        ∃ row ∈ rows, ¬ Utf8.Valid row.payload)) ∧
    (FitsViewBuffer 0 (rows.map NestedRow.payload) →
      ((∃ row ∈ rows, ¬ Utf8.Valid row.payload) →
        childCount rows ≤ i32Max ∧ lossyTotal (rows.map NestedRow.payload) ≤ i32Max) →
      ∃ k, deserializeNestedArray categories (rowsBody attr rows) .Lossy = .ok k) ∧
    (∀ payloads : List Bytes,
      validateNestedChar payloads = .ok () ↔ ∀ payload ∈ payloads, Utf8.Valid payload) ∧
    ∀ texts, decodeCharRows (rowsBody attr rows) 5 rows.length = .ok (some texts) → childCount rows ≤ i32Max →
      ∀ encoding, nestedGeneral categories (rowsBody attr rows) 10 rows.length 5 encoding = .ok (textColumn texts) := by
  obtain ⟨hslice, hhead⟩ := scanned_rows hcount hfits hsize hscan
  have hwithin : (attr :: (encode 4 rows.length ++ NestedRow.encodeAll rows)).length ≤ usizeMax := by
    rw [List.length_append, List.length_append, rowsBody] at hsize
    omega
  have hat : At (rowsBody attr rows) 5 (NestedRow.encodeAll rows) := (At.start hwithin).header
  refine ⟨hslice, ?_, ?_, ?_, fun payloads => validateNestedChar_eq_ok, ?_⟩
  · intro encoding k hok
    rcases hhead with rfl | hchild
    · rw [deserializeNestedArray_noRows] at hok
      exact ⟨[], rfl, (Except.ok.inj hok).symm⟩
    · rw [rowsBody, deserializeNestedArray_rows (by decide) hcount hchild hwithin] at hok
      obtain ⟨texts, htexts, rfl⟩ := nestedChild_rows hfits hat hok
      have hne : rows ≠ [] := by
        rintro rfl
        cases hchild
      exact ⟨texts, htexts, (rowsColumn_texts hne htexts).symm⟩
  · intro hview
    rcases hhead with rfl | hchild
    · simp [deserializeNestedArray_noRows]
    · rw [rowsBody, deserializeNestedArray_rows (by decide) hcount hchild hwithin]
      exact nestedChild_strict hfits hat hview
  · intro hview hlimits
    rcases hhead with rfl | hchild
    · exact ⟨_, deserializeNestedArray_noRows categories attr .Lossy⟩
    · rw [rowsBody, deserializeNestedArray_rows (by decide) hcount hchild hwithin]
      exact ⟨_, nestedChild_accepts hfits hat hview hlimits (decodedRows_lossy _)⟩
  · intro texts hpass hchildren encoding
    have hrows := decodeCharRows_some hfits hat hpass
    rw [nestedGeneral_eq_ok hfits hat, nestedCharSeries_eq_ok, hrows]
    refine ⟨hchildren, ⟨texts, decodedRows_texts encoding texts, rfl⟩, ?_⟩
    rintro ⟨row, hrow, hinvalid⟩
    exact absurd (valid_texts row hrow) hinvalid

/-- A code point over the boundary of two rows, in a list behind its type byte. -/
theorem string_rows_split :
    (∃ e, deserializeNestedArray numberedTexts [0, 2, 0, 0, 0, 10, 0, 1, 0, 0, 0, 0xC3, 10, 0, 1, 0, 0, 0, 0xA9]
      .Strict = .error e) ∧
    ∃ k, deserializeNestedArray numberedTexts [0, 2, 0, 0, 0, 10, 0, 1, 0, 0, 0, 0xC3, 10, 0, 1, 0, 0, 0, 0xA9]
      .Lossy = .ok k := by
  have hfits : ∀ row ∈ [NestedRow.fixed 10 0 1 [0xC3], .fixed 10 0 1 [0xA9]], row.Fits 10 := by
    intro row hrow
    simp only [List.mem_cons, List.not_mem_nil, or_false] at hrow
    obtain rfl | rfl := hrow
    · exact ⟨⟨by decide, by decide, by decide, rfl⟩, .inl rfl⟩
    · exact ⟨⟨by decide, by decide, by decide, rfl⟩, .inl rfl⟩
  have h := string_rows numberedTexts [0] [] 0 [.fixed 10 0 1 [0xC3], .fixed 10 0 1 [0xA9]] 20 (by decide) hfits
    (by decide) rfl
  have hview : FitsViewBuffer 0 [[0xC3], [0xA9]] := by decide
  exact ⟨(h.2.2.1 hview).mpr ⟨_, List.mem_cons_self, by decide⟩, h.2.2.2.1 hview fun _ => by decide⟩

end Xqdb
