import Xqdb.ListGrammar

/-! What the decoder makes of the lists the encoder writes: character vectors, symbol
lists and nested character lists, each under a plain header. -/

namespace Xqdb

open LittleEndian (encode decode)
open QValue (symbolBytes)

/-! ## Symbols through the interner -/

/-- A text without NUL is determined by its little-endian value. -/
theorem decode_inj_of_no_nul {a b : Bytes} (ha : 0 ∉ a) (hb : 0 ∉ b) (h : decode a = decode b) :
    a = b := by
  induction a generalizing b with
  | nil =>
    cases b with
    | nil => rfl
    | cons y b =>
      have hy : y.toNat ≠ 0 := fun hzero => hb (by simp [← UInt8.toNat_inj, hzero])
      simp only [decode] at h
      omega
  | cons x a ih =>
    have hx : x.toNat ≠ 0 := fun hzero => ha (by simp [← UInt8.toNat_inj, hzero])
    cases b with
    | nil =>
      simp only [decode] at h
      omega
    | cons y b =>
      have hxlt := x.toNat_lt
      have hylt := y.toNat_lt
      simp only [decode] at h
      obtain rfl : x = y := UInt8.toNat_inj.mp (by omega)
      have htail : a = b := ih (fun hmem => ha (by simp [hmem])) (fun hmem => hb (by simp [hmem]))
        (by omega)
      rw [htail]

namespace SymbolInterner

variable {categories : CategoricalMapping}

/-- Everything remembered is what the shared mapping says. -/
structure Faithful (categories : CategoricalMapping) (interner : SymbolInterner) : Prop where
  last : ∀ symbol category, interner.last = some (symbol, category) →
    category = insertGlobalCategory categories symbol
  short : ∀ key category, (key, category) ∈ interner.short →
    ∃ symbol, 0 ∉ symbol ∧ word symbol = key ∧ category = insertGlobalCategory categories symbol
  long : ∀ symbol category, (symbol, category) ∈ interner.long →
    category = insertGlobalCategory categories symbol

theorem new_faithful : Faithful categories .new where
  last _ _ h := nomatch h
  short _ _ h := nomatch h
  long _ _ h := nomatch h

theorem mem_of_lookup {κ : Type} [BEq κ] [LawfulBEq κ] {map : List (κ × Nat)} {key : κ}
    {category : Nat} (h : map.lookup key = some category) : (key, category) ∈ map := by
  induction map with
  | nil => cases h
  | cons entry map ih =>
    obtain ⟨first, value⟩ := entry
    rw [List.lookup_cons] at h
    split at h
    · next heq =>
      cases h
      rw [beq_iff_eq] at heq
      simp [heq]
    · exact List.mem_cons_of_mem _ (ih h)

/-- The map lookups, whichever map is used. -/
theorem entry_spec {κ : Type} [BEq κ] [LawfulBEq κ] {map : List (κ × Nat)} {key : κ} {fresh : Nat}
    (h : ∀ category, (key, category) ∈ map → category = fresh) :
    (entry map key fresh).1 = fresh ∧
      ∀ pair ∈ (entry map key fresh).2, pair ∈ map ∨ pair = (key, fresh) := by
  unfold entry
  split
  · next category hlookup => exact ⟨h category (mem_of_lookup hlookup), fun pair hpair => .inl hpair⟩
  · refine ⟨rfl, fun pair hpair => ?_⟩
    cases hpair with
    | head => exact .inr rfl
    | tail _ hpair => exact .inl hpair

theorem lookup_spec {interner : SymbolInterner} (hfaithful : interner.Faithful categories)
    {symbol : Bytes} (hclean : 0 ∉ symbol) :
    (category.lookup interner symbol (insertGlobalCategory categories symbol)).1 =
        insertGlobalCategory categories symbol ∧
      (category.lookup interner symbol (insertGlobalCategory categories symbol)).2.Faithful
        categories := by
  unfold category.lookup
  split
  · have hspec := @entry_spec _ _ _ interner.short (word symbol)
      (insertGlobalCategory categories symbol) (fun category hmem => by
        obtain ⟨other, hother, hword, rfl⟩ := hfaithful.short _ _ hmem
        rw [decode_inj_of_no_nul hother hclean hword])
    refine ⟨hspec.1, ⟨?_, ?_, hfaithful.long⟩⟩
    · rintro other category heq
      obtain ⟨rfl, rfl⟩ := Prod.mk.inj (Option.some.inj heq)
      exact hspec.1
    · intro key category hmem
      rcases hspec.2 _ hmem with hmem | heq
      · exact hfaithful.short key category hmem
      · obtain ⟨rfl, rfl⟩ := Prod.mk.inj heq
        exact ⟨symbol, hclean, rfl, rfl⟩
  · have hspec := @entry_spec _ _ _ interner.long symbol
      (insertGlobalCategory categories symbol) (fun category hmem => hfaithful.long _ _ hmem)
    refine ⟨hspec.1, ⟨?_, hfaithful.short, ?_⟩⟩
    · rintro other category heq
      obtain ⟨rfl, rfl⟩ := Prod.mk.inj (Option.some.inj heq)
      exact hspec.1
    · intro other category hmem
      rcases hspec.2 _ hmem with hmem | heq
      · exact hfaithful.long other category hmem
      · obtain ⟨rfl, rfl⟩ := Prod.mk.inj heq
        rfl

/-- **The interner is a cache**: it answers as the shared mapping does. -/
theorem category_spec {interner : SymbolInterner} (hfaithful : interner.Faithful categories)
    {symbol : Bytes} (hclean : 0 ∉ symbol) :
    (interner.category categories symbol).1 = insertGlobalCategory categories symbol ∧
      (interner.category categories symbol).2.Faithful categories := by
  unfold category
  split
  · next last category hlast =>
    split
    · next heq =>
      subst heq
      exact ⟨hfaithful.last _ _ hlast, hfaithful⟩
    · exact lookup_spec hfaithful hclean
  · exact lookup_spec hfaithful hclean

end SymbolInterner

section Symbols

variable {vec rest : Bytes} {pos : Nat}

theorem nextSymbol_at {text : Bytes} (hclean : 0 ∉ text) (h : At vec pos (text ++ 0 :: rest)) :
    nextSymbol vec pos = .ok (text, pos + (text.length + 1)) := by
  have hslice : sliceRange vec pos (pos + text.length) = .ok text :=
    (sliceRange_at h).mpr ⟨0 :: rest, rfl, rfl⟩
  simp only [nextSymbol, sliceFrom, if_pos h.within, h.ahead, Exec.ok_bind, memchr_append_zero hclean,
    Exec.okOr_some, hslice]

theorem At.skip_symbol {text : Bytes} (h : At vec pos (text ++ 0 :: rest)) :
    At vec (pos + (text.length + 1)) rest := by
  have := @At.skip vec rest pos (text ++ [0]) (by simpa using h)
  simpa using this

theorem symbolCategories_at {categories : CategoricalMapping} {texts : List Bytes}
    {interner : SymbolInterner} (hfaithful : interner.Faithful categories)
    (hclean : ∀ text ∈ texts, 0 ∉ text) (h : At vec pos (symbolBytes texts ++ rest)) :
    symbolCategories categories vec texts.length pos interner =
      .ok (texts.map (SymbolInterner.insertGlobalCategory categories),
        pos + (symbolBytes texts).length) := by
  induction texts generalizing pos interner with
  | nil => rfl
  | cons text texts ih =>
    simp only [symbolBytes, List.append_assoc, List.cons_append] at h
    obtain ⟨hcategory, hnext⟩ := SymbolInterner.category_spec hfaithful (hclean text (by simp))
    have hrest := ih hnext (fun t ht => hclean t (by simp [ht])) h.skip_symbol
    simp only [List.length_cons, symbolCategories, nextSymbol_at (hclean text (by simp)) h,
      Exec.ok_bind, hrest, hcategory, List.map_cons, symbolBytes, List.length_append]
    congr 2
    omega

theorem valid_symbolBytes {names : List Str} : Utf8.Valid (symbolBytes (names.map Str.bytes)) := by
  induction names with
  | nil => exact Utf8.valid_nil
  | cons name names ih => exact Utf8.valid_split.mpr ⟨name.valid, ih⟩

theorem insertGlobalCategory_bytes (categories : CategoricalMapping) (name : Str) :
    SymbolInterner.insertGlobalCategory categories name.bytes = categories.insertCat name := by
  simp [SymbolInterner.insertGlobalCategory]

/-- A symbol column of texts that are valid UTF-8. -/
theorem decodeSymbolList_column {categories : CategoricalMapping} {encoding : SymbolEncoding}
    {names : List Str} (hclean : ∀ name ∈ names, 0 ∉ name.bytes)
    (hsize : (symbolBytes (names.map Str.bytes)).length ≤ usizeMax) :
    decodeSymbolList categories (symbolBytes (names.map Str.bytes)) names.length true encoding =
      .ok (.Series (.ofCells (typeName 11) (.categorical categories)
        (names.map fun name => some (categories.insertCat name)))) := by
  have hvalid : Str.fromUtf8 (symbolBytes (names.map Str.bytes)) =
      some ⟨_, valid_symbolBytes⟩ := Str.fromUtf8_eq_some.mpr rfl
  have hclean' : ∀ text ∈ names.map Str.bytes, 0 ∉ text := by
    intro text htext
    obtain ⟨name, hname, rfl⟩ := List.mem_map.mp htext
    exact hclean name hname
  have hat : At (symbolBytes (names.map Str.bytes)) 0 (symbolBytes (names.map Str.bytes) ++ []) := by
    simpa using At.start hsize
  have hids := symbolCategories_at (@SymbolInterner.new_faithful categories) hclean' hat
  rw [List.length_map, Nat.zero_add] at hids
  have hcells : ((names.map Str.bytes).map (SymbolInterner.insertGlobalCategory categories)).map some =
      names.map fun name => some (categories.insertCat name) := by
    rw [List.map_map, List.map_map]
    exact List.map_congr_left fun name _ =>
      congrArg some (insertGlobalCategory_bytes categories name)
  simp only [decodeSymbolList, decodeUtf8, hvalid, Exec.ok_bind, if_true, decodeSymbolColumn, hids,
    checkSymbolListConsumed]
  rw [hcells]

end Symbols

/-! ## Lists under a plain header -/

theorem header_at {attr : UInt8} {count : Nat} {payload : Bytes} (hcount : count ≤ i32Max)
    (hsize : (attr :: (encode 4 count ++ payload)).length ≤ usizeMax) (context : String) :
    takeListLength (attr :: (encode 4 count ++ payload)) 0 context = .ok (count, 5) :=
  (takeListLength_eq_ok (At.start hsize)).mpr ⟨attr, payload, rfl, hcount, rfl⟩

theorem payload_at (attr : UInt8) (count : Nat) (payload : Bytes) :
    getFrom (attr :: (encode 4 count ++ payload)) 5 = some payload := by
  have hlen : (attr :: encode 4 count).length = 5 := by simp
  rw [getFrom, if_pos (by simp)]
  have := @List.drop_left _ (attr :: encode 4 count) payload
  rw [hlen] at this
  exact congrArg some this

theorem deserializeSeries_chars {categories : CategoricalMapping} {encoding : SymbolEncoding}
    {attr : UInt8} {text : Bytes} (hcount : text.length ≤ i32Max)
    (hsize : (attr :: (encode 4 text.length ++ text)).length ≤ usizeMax) :
    deserializeSeries categories (attr :: (encode 4 text.length ++ text)) 10 false encoding =
      .ok (.CharVector text) := by
  rw [deserializeSeries, if_neg (by decide), header_at hcount hsize, Exec.ok_bind]
  simp only
  split
  · next hzero =>
    obtain rfl := List.length_eq_zero_iff.mp hzero
    simp
  · have hmul : checkedMul text.length (typeSize 10) = some text.length :=
      checkedMul_eq_some.mpr ⟨(Nat.mul_one _).symm, by simp at hsize; omega⟩
    rw [payload_at, Exec.okOr_some, Exec.ok_bind, checkPayloadLength, if_neg (by decide), hmul,
      Exec.okOr_some, Exec.ok_bind, if_neg (by simp), Exec.ok_bind, decodeList, if_neg (by decide),
      if_pos rfl]
    rfl

theorem deserializeSeries_symbols {categories : CategoricalMapping} {encoding : SymbolEncoding}
    {attr : UInt8} {names : List Str} (hcount : names.length ≤ i32Max)
    (hclean : ∀ name ∈ names, 0 ∉ name.bytes)
    (hsize : (attr :: (encode 4 names.length ++ symbolBytes (names.map Str.bytes))).length ≤ usizeMax) :
    deserializeSeries categories
        (attr :: (encode 4 names.length ++ symbolBytes (names.map Str.bytes))) 11 true encoding =
      .ok (.Series (.ofCells (typeName 11) (.categorical categories)
        (names.map fun name => some (categories.insertCat name)))) := by
  rw [deserializeSeries, if_neg (by decide), header_at hcount hsize, Exec.ok_bind]
  simp only
  split
  · next hzero =>
    obtain rfl := List.length_eq_zero_iff.mp hzero
    rw [if_neg (by simp [symbolBytes]), if_neg (by decide)]
    rfl
  · rw [payload_at, Exec.okOr_some, Exec.ok_bind, checkPayloadLength, if_pos (.inr rfl), Exec.ok_bind,
      decodeList, if_neg (by decide), if_neg (by decide), if_pos rfl]
    exact decodeSymbolList_column hclean (by simp at hsize; omega)

/-! ## Nested character lists -/

/-- Each row starts at most `u32::MAX` bytes into the view buffer; `used` is its length
before the first row. -/
def FitsViewBuffer : Nat → List Bytes → Prop
  | _, [] => True
  | used, row :: rows => used ≤ u32Max ∧ FitsViewBuffer (used + row.length) rows

instance decidableFitsViewBuffer : ∀ used rows, Decidable (FitsViewBuffer used rows)
  | _, [] => inferInstanceAs (Decidable True)
  | used, row :: rows =>
    have := decidableFitsViewBuffer (used + row.length) rows
    inferInstanceAs (Decidable (used ≤ u32Max ∧ FitsViewBuffer (used + row.length) rows))

/-- The texts of rows that are all valid UTF-8. -/
def rowTexts : List Bytes → Option (List Str)
  | [] => some []
  | row :: rows => (Str.fromUtf8 row).bind fun text => (rowTexts rows).map (text :: ·)

theorem rowTexts_eq_none {rows : List Bytes} :
    rowTexts rows = none ↔ ∃ row ∈ rows, ¬ Utf8.Valid row := by
  induction rows with
  | nil => simp [rowTexts]
  | cons row rows ih =>
    simp only [rowTexts, List.mem_cons, exists_eq_or_imp]
    cases hrow : Str.fromUtf8 row with
    | none => simp [Str.fromUtf8_eq_none.mp hrow]
    | some text =>
      obtain rfl := Str.fromUtf8_eq_some.mp hrow
      simp [text.valid, ih]

section CharRows

variable {vec rest : Bytes} {pos : Nat}

/-- A row of characters, or an empty general list. -/
theorem charRowPayload_at {row : NestedRow} (hfits : row.Fits 10)
    (h : At vec pos (row.payload ++ rest)) :
    charRowPayload vec row.kType row.count pos = .ok (row.payload, pos + row.payload.length) := by
  cases row with
  | empty attr => rfl
  | symbols attr texts =>
    rcases hfits.2 with hk | hk <;> exact absurd hk (by simp [NestedRow.kType])
  | fixed kType attr count payload =>
    obtain ⟨⟨hmem, -, -, hlen⟩, hkind⟩ := hfits
    have hk : kType = 10 := by
      rcases hkind with hk | hk
      · exact hk
      · exact absurd hk (nestedTypes_cases hmem)
    subst hk
    have hone : typeSize 10 = 1 := rfl
    rw [hone, Nat.mul_one] at hlen
    have hat := h.length_eq
    have hbound := h.bounded
    rw [List.length_append] at hat
    have hadd : checkedAdd pos count = some (pos + count) :=
      checkedAdd_eq_some.mpr ⟨rfl, by simp only [NestedRow.payload] at hat; omega⟩
    have hrange : getRange vec pos (pos + count) = some payload :=
      (getRange_at h).mpr ⟨rest, rfl, by rw [hlen]⟩
    change charRowPayload vec 10 count pos = .ok (payload, pos + payload.length)
    rw [charRowPayload, if_neg (fun hc => absurd hc.1 (by decide)), if_pos rfl, hadd, Exec.okOr_some,
      Exec.ok_bind, hrange, Exec.okOr_some, Exec.ok_bind, hlen]

theorem At.row {row : NestedRow} (h : At vec pos (row.encode ++ rest)) :
    vec[pos]? = some row.kType ∧
      At vec (pos + 1) (row.attr :: (encode 4 row.count ++ (row.payload ++ rest))) ∧
      At vec (pos + 1 + 5) (row.payload ++ rest) ∧
      pos + 1 + 5 + row.payload.length = pos + row.encode.length := by
  rw [row.encode_eq] at h ⊢
  simp only [List.cons_append, List.append_assoc] at h
  refine ⟨h.getElem?, h.skip_one, h.skip_one.header, ?_⟩
  simp
  omega

theorem charRows_at {rows : List NestedRow} (hfits : ∀ row ∈ rows, row.Fits 10) (used : Nat)
    (h : At vec pos (NestedRow.encodeAll rows ++ rest)) :
    match rowTexts (rows.map NestedRow.payload) with
    | some texts =>
      if FitsViewBuffer used (rows.map NestedRow.payload) then
        charRows vec rows.length pos used =
          .ok (some (texts, pos + (NestedRow.encodeAll rows).length))
      else ∃ e, charRows vec rows.length pos used = .error e
    | none => charRows vec rows.length pos used = .ok none ∨
        ∃ e, charRows vec rows.length pos used = .error e := by
  induction rows generalizing pos used with
  | nil => simp [rowTexts, FitsViewBuffer, charRows, NestedRow.encodeAll]
  | cons row rows ih =>
    simp only [NestedRow.encodeAll, List.append_assoc] at h
    obtain ⟨hkind, hheader, hpayload, hstop⟩ := h.row
    have hwf := (hfits row (by simp)).1
    have hlength := (@takeListLength_eq_ok _ _ _ hheader _ _ "q nested-list element").mpr
      ⟨_, _, rfl, row.count_le hwf, rfl⟩
    have hread := charRowPayload_at (hfits row (by simp)) hpayload
    have hnext := ih (fun r hr => hfits r (by simp [hr])) (used + row.payload.length) h.skip
    simp only [List.map_cons, rowTexts, FitsViewBuffer, List.length_cons, charRows, hkind,
      Exec.okOr_some, Exec.ok_bind, hlength, hread, hstop]
    cases htext : Str.fromUtf8 row.payload with
    | none => simp
    | some text =>
      simp only [Option.bind_some]
      by_cases hused : u32Max < used
      · simp only [if_pos hused]
        cases rowTexts (rows.map NestedRow.payload) with
        | none => exact .inr ⟨_, rfl⟩
        | some texts =>
          simp only [Option.map_some]
          rw [if_neg (fun hc => absurd hc.1 (by omega))]
          exact ⟨_, rfl⟩
      · have hle : used ≤ u32Max := by omega
        simp only [if_neg hused, hle, true_and]
        cases htexts : rowTexts (rows.map NestedRow.payload) with
        | none =>
          rw [htexts] at hnext
          simp only [Option.map_none]
          rcases hnext with hnone | ⟨e, herr⟩
          · simp [hnone]
          · simp [herr]
        | some texts =>
          rw [htexts] at hnext
          simp only [Option.map_some] at hnext ⊢
          split at hnext
          · next hfit =>
            rw [if_pos hfit, hnext]
            simp [NestedRow.encodeAll, Nat.add_assoc]
          · next hfit =>
            obtain ⟨e, herr⟩ := hnext
            rw [if_neg hfit]
            exact ⟨e, by rw [herr]; rfl⟩

theorem checkRowType_fits {kType : UInt8} {row : NestedRow} (hfits : row.Fits kType) :
    checkRowType kType row.kType row.count = .ok () := by
  unfold checkRowType
  by_cases hzero : row.kType = 0
  · rw [if_pos hzero]
    cases row with
    | empty attr => rfl
    | symbols attr texts => exact absurd hzero (by simp [NestedRow.kType])
    | fixed kType attr count payload => exact absurd hzero (nestedTypes_cases hfits.1.1)
  · rw [if_neg hzero, if_neg (not_not.mpr (hfits.2.resolve_right hzero))]

/-- A row of a fixed-width type, or an empty general list. -/
theorem fixedRow_at {kType : UInt8} (heleven : kType ≠ 11) {row : NestedRow} (hfits : row.Fits kType)
    (h : At vec pos (row.payload ++ rest)) :
    rowValues [] (fixedRow vec kType) row.kType row.count pos =
      .ok (row.payload, pos + row.payload.length) := by
  cases row with
  | empty attr => rfl
  | symbols attr texts =>
    rcases hfits.2 with hk | hk
    · exact absurd hk.symm heleven
    · exact absurd hk (by simp [NestedRow.kType])
  | fixed child attr count payload =>
    obtain ⟨⟨hmem, -, -, hlen⟩, hk⟩ := hfits
    have hzero := nestedTypes_cases hmem
    obtain rfl : child = kType := hk.resolve_right hzero
    have hat := h.length_eq
    have hbound := h.bounded
    rw [List.length_append] at hat
    have hmul : checkedMul count (typeSize child) = some payload.length :=
      checkedMul_eq_some.mpr ⟨hlen, by simp only [NestedRow.payload] at hat; omega⟩
    have hadd : checkedAdd pos payload.length = some (pos + payload.length) :=
      checkedAdd_eq_some.mpr ⟨rfl, by simp only [NestedRow.payload] at hat; omega⟩
    have hrange : getRange vec pos (pos + payload.length) = some payload :=
      (getRange_at h).mpr ⟨_, rfl, rfl⟩
    change rowValues [] (fixedRow vec child) child count pos = .ok (payload, pos + payload.length)
    rw [rowValues, if_neg hzero, fixedRow, hmul, Exec.okOr_some, Exec.ok_bind, hadd,
      Exec.okOr_some, Exec.ok_bind, hrange, Exec.okOr_some, Exec.ok_bind]

/-- The children of all rows. -/
def childCount (rows : List NestedRow) : Nat := (rows.map NestedRow.count).sum

def childOverflow : XqdbError :=
  .DeserializationErr "q nested-list cumulative child count overflowed"

/-- The loop over the rows, given what it reads of each: that, unless there are too many
children. -/
theorem nestedArrayRows_of {α : Type} {empty : α} {read : Nat → Nat → Exec (α × Nat)}
    {value : NestedRow → α} {kType : UInt8} {rows : List NestedRow}
    (hfits : ∀ row ∈ rows, row.Fits kType)
    (hread : ∀ row ∈ rows, ∀ pos rest, At vec pos (row.payload ++ rest) →
      rowValues empty read row.kType row.count pos = .ok (value row, pos + row.payload.length))
    {offset : Nat} (hoffset : offset ≤ i32Max) (h : At vec pos (NestedRow.encodeAll rows ++ rest)) :
    nestedArrayRows empty read vec kType rows.length pos offset =
      if offset + childCount rows ≤ i32Max then
        .ok (rows.map value, pos + (NestedRow.encodeAll rows).length)
      else Exec.err childOverflow := by
  induction rows generalizing pos offset with
  | nil =>
    rw [if_pos (by simpa [childCount] using hoffset)]
    rfl
  | cons row rows ih =>
    simp only [NestedRow.encodeAll, List.append_assoc] at h
    obtain ⟨hkind, hheader, hpayload, hstop⟩ := h.row
    have hrow := hfits row (by simp)
    have hlength := (@takeListLength_eq_ok _ _ _ hheader _ _ "q nested-list element").mpr
      ⟨_, _, rfl, row.count_le hrow.1, rfl⟩
    have hsum : childCount (row :: rows) = row.count + childCount rows := by simp [childCount]
    simp only [List.length_cons, nestedArrayRows, hkind, Exec.okOr_some, Exec.ok_bind, hlength,
      checkRowType_fits hrow]
    by_cases hnext : offset + row.count ≤ i32Max
    · rw [if_pos hnext, Exec.okOr_some, Exec.ok_bind, hread row (by simp) _ _ hpayload, Exec.ok_bind]
      simp only [hstop]
      rw [ih (fun r hr => hfits r (by simp [hr])) (fun r hr => hread r (by simp [hr])) hnext h.skip, hsum,
        ← Nat.add_assoc]
      split
      · simp [NestedRow.encodeAll, Nat.add_assoc]
      · rfl
    · rw [if_neg hnext, if_neg (by omega)]
      rfl

/-- The general decoder over rows of a fixed-width type: their payloads. -/
theorem nestedArrayRows_at {kType : UInt8} (heleven : kType ≠ 11) {rows : List NestedRow}
    (hfits : ∀ row ∈ rows, row.Fits kType) {offset : Nat} (hoffset : offset ≤ i32Max)
    (h : At vec pos (NestedRow.encodeAll rows ++ rest)) :
    nestedArrayRows [] (fixedRow vec kType) vec kType rows.length pos offset =
      if offset + childCount rows ≤ i32Max then
        .ok (rows.map NestedRow.payload, pos + (NestedRow.encodeAll rows).length)
      else Exec.err childOverflow :=
  nestedArrayRows_of hfits (fun row hrow _ _ hat => fixedRow_at heleven (hfits row hrow) hat) hoffset h

end CharRows

/-! ### Rows inside one text -/

/-- A byte that can continue a code point has the top bits `10`. -/
theorem isTail_of_step {s s' : Utf8.State} {b : UInt8} (hs : s ≠ .start)
    (h : Utf8.step s b = some s') : 0x80 ≤ b ∧ b ≤ 0xBF := by
  have hA0 : (0x80 : UInt8) ≤ 0xA0 := by decide
  have h90 : (0x80 : UInt8) ≤ 0x90 := by decide
  have h9F : (0x9F : UInt8) ≤ 0xBF := by decide
  have h8F : (0x8F : UInt8) ≤ 0xBF := by decide
  cases s <;> simp only [Utf8.step, Utf8.isTail, Bool.and_eq_true, decide_eq_true_eq,
    Option.ite_none_right_eq_some, ne_eq, not_true_eq_false] at h hs
  all_goals obtain ⟨⟨hlow, hhigh⟩, -⟩ := h
  · exact ⟨hlow, hhigh⟩
  · exact ⟨hlow, hhigh⟩
  · exact ⟨hlow, hhigh⟩
  · exact ⟨UInt8.le_trans hA0 hlow, hhigh⟩
  · exact ⟨hlow, UInt8.le_trans hhigh h9F⟩
  · exact ⟨UInt8.le_trans h90 hlow, hhigh⟩
  · exact ⟨hlow, UInt8.le_trans hhigh h8F⟩

theorem topBits_of_isTail {b : UInt8} (hlow : 0x80 ≤ b) (hhigh : b ≤ 0xBF) :
    (b &&& 0xC0 == 0x80) = true := by
  have hall : ∀ n : Fin 64, (UInt8.ofNat (128 + n.val) &&& 0xC0 == 0x80) = true := by
    decide +kernel
  rw [UInt8.le_iff_toNat_le] at hlow hhigh
  have h128 : (0x80 : UInt8).toNat = 128 := rfl
  have h191 : (0xBF : UInt8).toNat = 191 := rfl
  have hb := hall ⟨b.toNat - 128, by omega⟩
  rwa [show 128 + (b.toNat - 128) = b.toNat by omega, UInt8.ofNat_toNat] at hb

/-- Where a code point may start, no code point is open. -/
theorem run_start_of_head {s s' : Utf8.State} {b : UInt8} {bs : Bytes}
    (hhead : ¬ (b &&& 0xC0 == 0x80) = true) (h : Utf8.run s (b :: bs) = some s') : s = .start := by
  by_contra hs
  obtain ⟨next, hnext, -⟩ := Option.bind_eq_some_iff.mp h
  obtain ⟨hlow, hhigh⟩ := isTail_of_step hs hnext
  exact hhead (topBits_of_isTail hlow hhigh)

/-- Rows that make up a text and split none of its code points are texts. -/
theorem valid_of_validateNestedChar {rows : List Bytes} (h : validateNestedChar rows = .ok ()) :
    ∀ row ∈ rows, Utf8.Valid row := by
  have hparts : Utf8.Valid rows.flatten ∧ splitsCodePoint rows = false := by
    unfold validateNestedChar at h
    split at h
    · cases h
    next hvalid =>
    split at h
    · cases h
    next hsplits => exact ⟨not_not.mp hvalid, by simpa using hsplits⟩
  obtain ⟨hvalid, hsplits⟩ := hparts
  clear h
  induction rows with
  | nil => simp
  | cons row rows ih =>
    simp only [splitsCodePoint, Bool.or_eq_false_iff] at hsplits
    rw [List.flatten_cons, Utf8.Valid, Utf8.run_append] at hvalid
    obtain ⟨s, hrow, hrest⟩ := Option.bind_eq_some_iff.mp hvalid
    have hstart : s = .start := by
      cases rows with
      | nil => exact Option.some.inj hrest
      | cons next rows =>
        simp only [splitsCodePoint, Bool.or_eq_false_iff] at hsplits
        rw [List.flatten_cons] at hrest
        cases hhead : next ++ rows.flatten with
        | nil =>
          rw [hhead] at hrest
          exact Option.some.inj hrest
        | cons b bs =>
          rw [hhead] at hrest hsplits
          refine run_start_of_head ?_ hrest
          simpa using hsplits.2.1
    subst hstart
    intro other hother
    cases hother with
    | head => exact hrow
    | tail _ hother => exact ih hrest hsplits.2 other hother

section NestedChar

variable {categories : CategoricalMapping} {attr : UInt8} {rows : List NestedRow}

theorem encodeAll_length_ge (rows : List NestedRow) :
    6 * rows.length ≤ (NestedRow.encodeAll rows).length := by
  induction rows with
  | nil => simp
  | cons row rows ih =>
    rw [NestedRow.encodeAll, row.encode_eq]
    simp only [List.length_cons, List.length_append, LittleEndian.encode_length]
    omega

/-- The rows of a text column that one view buffer holds. -/
def viewTexts (rows : List Bytes) : Option (List Str) :=
  if FitsViewBuffer 0 rows then rowTexts rows else none

/-- The single pass over the rows. -/
theorem decodeCharRows_at {vec : Bytes} {pos : Nat} (hfits : ∀ row ∈ rows, row.Fits 10)
    (h : At vec pos (NestedRow.encodeAll rows)) :
    match viewTexts (rows.map NestedRow.payload) with
    | some texts => decodeCharRows vec pos rows.length = .ok (some texts)
    | none => (rowTexts (rows.map NestedRow.payload) = none ∧
        decodeCharRows vec pos rows.length = .ok none) ∨
          ∃ e, decodeCharRows vec pos rows.length = .error e := by
  have hscan := charRows_at hfits 0 (by simpa using h : At vec pos (NestedRow.encodeAll rows ++ []))
  have hend : pos + (NestedRow.encodeAll rows).length = vec.length := h.length_eq
  unfold viewTexts decodeCharRows
  cases htexts : rowTexts (rows.map NestedRow.payload) with
  | some texts =>
    rw [htexts] at hscan
    simp only at hscan
    split at hscan
    · next hfit =>
      rw [if_pos hfit, hscan, Exec.ok_bind]
      simp only [hend, ne_eq, not_true_eq_false, if_false]
    · next hfit =>
      obtain ⟨e, herr⟩ := hscan
      rw [if_neg hfit, herr]
      exact .inr ⟨e, rfl⟩
  | none =>
    rw [htexts] at hscan
    simp only at hscan
    have hnone : (if FitsViewBuffer 0 (rows.map NestedRow.payload) then none else none :
        Option (List Str)) = none := by
      split <;> rfl
    rw [hnone]
    rcases hscan with hnone | ⟨e, herr⟩
    · rw [hnone]
      exact .inl ⟨rfl, rfl⟩
    · rw [herr]
      exact .inr ⟨e, rfl⟩

/-- Behind a row that is no text, the general decoder fails too. -/
theorem nestedGeneral_chars {vec : Bytes} {pos : Nat} (hfits : ∀ row ∈ rows, row.Fits 10)
    (h : At vec pos (NestedRow.encodeAll rows))
    (htexts : rowTexts (rows.map NestedRow.payload) = none) :
    ∃ e, nestedGeneral categories vec 10 rows.length pos .Strict = .error e := by
  have hend : pos + (NestedRow.encodeAll rows).length = vec.length := h.length_eq
  rw [nestedGeneral, if_neg (by decide), wholeNestedRows]
  rw [nestedArrayRows_at (by decide) hfits (Nat.zero_le _)
    (by simpa using h : At vec pos (NestedRow.encodeAll rows ++ []))]
  split
  · rw [Exec.ok_bind]
    simp only [hend, ne_eq, not_true_eq_false, if_false, Exec.ok_bind]
    change ∃ e, nestedCharSeries (rows.map NestedRow.payload) .Strict = .error e
    unfold nestedCharSeries
    cases hvalidate : validateNestedChar (rows.map NestedRow.payload) with
    | error e => exact ⟨e, rfl⟩
    | ok u =>
      obtain ⟨row, hmem, hinvalid⟩ := rowTexts_eq_none.mp htexts
      exact absurd (valid_of_validateNestedChar hvalidate row hmem) hinvalid
  · exact ⟨_, rfl⟩

/-- A nested list goes to the decoder of its first row's type. -/
theorem deserializeNestedArray_rows {encoding : SymbolEncoding} {kType : UInt8}
    (hmem : kType ∈ nestedTypes) (hcount : rows.length ≤ i32Max)
    (hchild : (rows.map NestedRow.kType).head? = some kType)
    (hsize : (attr :: (encode 4 rows.length ++ NestedRow.encodeAll rows)).length ≤ usizeMax) :
    deserializeNestedArray categories (attr :: (encode 4 rows.length ++ NestedRow.encodeAll rows))
        encoding =
      nestedChild categories (attr :: (encode 4 rows.length ++ NestedRow.encodeAll rows)) kType
        rows.length 5 encoding := by
  have hat : At (attr :: (encode 4 rows.length ++ NestedRow.encodeAll rows)) 5
      (NestedRow.encodeAll rows) := (At.start hsize).header
  obtain ⟨row, others, hrows, hk⟩ : ∃ row others, rows = row :: others ∧ row.kType = kType := by
    cases rows with
    | nil => cases hchild
    | cons row others => exact ⟨row, others, rfl, by simpa using hchild⟩
  have hlen : rows.length ≠ 0 := by simp [hrows]
  have hfirst : (attr :: (encode 4 rows.length ++ NestedRow.encodeAll rows))[5]? = some kType := by
    rw [hat.getElem?_eq, hrows, NestedRow.encodeAll, row.encode_eq, hk]
    rfl
  have hheaders : checkChildHeaders (attr :: (encode 4 rows.length ++ NestedRow.encodeAll rows)) kType
      rows.length 5 = .ok () := by
    have hroom := encodeAll_length_ge rows
    have htotal := hat.length_eq
    have hmul : checkedMul rows.length 6 = some (rows.length * 6) :=
      checkedMul_eq_some.mpr ⟨rfl, by omega⟩
    unfold checkChildHeaders
    split
    · rfl
    · rw [← htotal, subtract, if_pos (by omega), Exec.ok_bind, hmul, Option.bind_some, checkedSub,
        if_pos (by omega)]
      rfl
  rw [deserializeNestedArray, header_at hcount hsize, Exec.ok_bind]
  simp only
  rw [if_neg hlen, hfirst, Exec.okOr_some, Exec.ok_bind, if_neg (not_not.mpr hmem), hheaders,
    Exec.ok_bind]

theorem deserializeSeries_nested {encoding : SymbolEncoding} {kType : UInt8} {asColumn : Bool}
    (hmem : kType ∈ nestedTypes) (hcount : rows.length ≤ i32Max)
    (hchild : (rows.map NestedRow.kType).head? = some kType)
    (hsize : (attr :: (encode 4 rows.length ++ NestedRow.encodeAll rows)).length ≤ usizeMax) :
    deserializeSeries categories (attr :: (encode 4 rows.length ++ NestedRow.encodeAll rows)) 0 asColumn
        encoding =
      nestedChild categories (attr :: (encode 4 rows.length ++ NestedRow.encodeAll rows)) kType
        rows.length 5 encoding := by
  have hlen : rows.length ≠ 0 := by
    intro hnone
    rw [List.length_eq_zero_iff.mp hnone] at hchild
    cases hchild
  rw [deserializeSeries, if_neg (by decide), header_at hcount hsize, Exec.ok_bind]
  simp only
  rw [if_neg hlen, payload_at, Exec.okOr_some, Exec.ok_bind, checkPayloadLength, if_pos (.inl rfl),
    Exec.ok_bind, decodeList, if_pos rfl, deserializeNestedArray_rows hmem hcount hchild hsize]

/-- **A nested list of character vectors**, read strictly: its rows as texts, when they are
texts and the view buffer holds them. -/
theorem deserializeSeries_texts (hcount : rows.length ≤ i32Max)
    (hchild : (rows.map NestedRow.kType).head? = some 10) (hfits : ∀ row ∈ rows, row.Fits 10)
    (hsize : (attr :: (encode 4 rows.length ++ NestedRow.encodeAll rows)).length ≤ usizeMax) :
    match viewTexts (rows.map NestedRow.payload) with
    | some texts => deserializeSeries categories
        (attr :: (encode 4 rows.length ++ NestedRow.encodeAll rows)) 0 true .Strict =
          .ok (.Series (.ofCells (typeName 10) .string (texts.map some)))
    | none => ∃ e, deserializeSeries categories
        (attr :: (encode 4 rows.length ++ NestedRow.encodeAll rows)) 0 true .Strict = .error e := by
  have hat : At (attr :: (encode 4 rows.length ++ NestedRow.encodeAll rows)) 5
      (NestedRow.encodeAll rows) := (At.start hsize).header
  have hunfold := @deserializeSeries_nested categories attr rows .Strict 10 true (by decide) hcount hchild
    hsize
  have hpass := decodeCharRows_at hfits hat
  rw [hunfold, nestedChild, if_pos rfl]
  cases hview : viewTexts (rows.map NestedRow.payload) with
  | some texts =>
    rw [hview] at hpass
    simp only at hpass ⊢
    rw [hpass]
    rfl
  | none =>
    rw [hview] at hpass
    simp only at hpass ⊢
    rcases hpass with ⟨htexts, hnone⟩ | ⟨e, herr⟩
    · rw [hnone]
      exact @nestedGeneral_chars categories _ _ _ hfits hat htexts
    · rw [herr]
      exact ⟨e, rfl⟩

end NestedChar

/-! ## Lists where the decoder stands -/

section Decoder

variable {categories : CategoricalMapping} {encoding : SymbolEncoding}

/-- The whole body is one value. -/
theorem deserialize_eq_ok {vec : Bytes} {k : K} :
    deserialize categories encoding vec = .ok k ↔
      deserializeUnchecked categories encoding deserializeFuel vec 0 false 0 = .ok (k, vec.length) := by
  unfold deserialize
  cases hrun : deserializeUnchecked categories encoding deserializeFuel vec 0 false 0 with
  | error e => cases e <;> simp [Exec.catchUnwind]
  | ok result =>
    obtain ⟨value, pos⟩ := result
    simp only [Exec.catchUnwind, Except.ok.injEq, Prod.mk.injEq]
    split
    · next hend => simp [hend]
    · next hend => simp [hend]

variable {decode : Bytes → Nat → Bool → Nat → Exec (K × Nat)} {vec rest : Bytes} {pos depth : Nat}
  {isColumn : Bool}

/-- A list whose end is found is decoded from its own bytes. -/
theorem deserializeList_at {list : NativeList} (hwf : list.WF) (h : At vec pos (list.body ++ rest)) :
    deserializeList categories encoding decode vec pos list.kType isColumn depth =
      (do
        let k ← deserializeSeries categories list.body list.kType (list.kType != 10) encoding
        .ok (k, pos + list.body.length)) := by
  have hend := (calculateArrayEndIndex_eq_ok h).mpr ⟨list, rest, hwf, rfl, rfl, rfl⟩
  have hslice := (sliceRange_at h).mpr ⟨rest, rfl, rfl⟩
  rw [deserializeList, hend]
  simp only
  rw [deserializeSlice, hslice, Exec.ok_bind]

/-- A general list whose end is found. -/
theorem deserializeList_nested {attr : UInt8} {rows : List NestedRow} (hcount : rows.length ≤ i32Max)
    (hfit : NativeList.RowsFit rows)
    (h : At vec pos (attr :: (encode 4 rows.length ++ (NestedRow.encodeAll rows ++ rest)))) :
    deserializeList categories encoding decode vec pos 0 isColumn depth =
      (do
        let k ← deserializeSeries categories
          (attr :: (encode 4 rows.length ++ NestedRow.encodeAll rows)) 0 true encoding
        .ok (k, pos + 5 + (NestedRow.encodeAll rows).length)) := by
  have hlist := @deserializeList_at categories encoding decode vec rest pos depth isColumn
    (.nested attr rows) ⟨hcount, hfit⟩ (by simpa [NativeList.body] using h)
  have hlen : pos + (NativeList.nested attr rows).body.length =
      pos + 5 + (NestedRow.encodeAll rows).length := by
    simp [NativeList.body]
    omega
  rw [hlen] at hlist
  exact hlist

end Decoder

end Xqdb
