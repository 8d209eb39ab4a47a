import Xqdb.NestedLists
import Xqdb.EncoderGrammar

/-! Symbol lists. Caches stand in for the shared mapping on the way in and on the way out,
and invalid text is replaced in the payload as a whole where the symbols are columns, symbol
by symbol where they are rows. Neither can be seen in what is decoded or sent. -/

namespace Xqdb

open LittleEndian (encode)
open QValue (symbolBytes)

/-! ## Symbols of a column -/

section Reading

variable {vec rest : Bytes} {pos : Nat}

theorem nextSymbol_eq_ok (h : At vec pos rest) {text : Bytes} {stop : Nat} :
    nextSymbol vec pos = .ok (text, stop) ↔
      0 ∉ text ∧ ∃ rest', rest = text ++ 0 :: rest' ∧ stop = pos + (text.length + 1) := by
  constructor
  · intro hok
    simp only [nextSymbol, sliceFrom, if_pos h.within, h.ahead, Exec.ok_bind, Exec.bind_eq_ok,
      Exec.okOr_eq_ok, Except.ok.injEq, Prod.mk.injEq] at hok
    obtain ⟨terminator, hnul, symbol, hsymbol, rfl, rfl⟩ := hok
    obtain ⟨text, rest', rfl, hclean, rfl⟩ := memchr_eq_some.mp hnul
    obtain ⟨tail, hslice, hlen⟩ := (sliceRange_at h).mp hsymbol
    obtain ⟨rfl, -⟩ := List.append_inj hslice (by omega)
    exact ⟨hclean, rest', rfl, rfl⟩
  · rintro ⟨hclean, rest', rfl, rfl⟩
    exact nextSymbol_at hclean h

/-- The loop over a symbol payload reads as many NUL-terminated symbols as it is told to. -/
theorem symbolCategories_eq_ok {categories : CategoricalMapping} {interner : SymbolInterner}
    (hfaithful : interner.Faithful categories) (h : At vec pos rest) {count stop : Nat}
    {ids : List Nat} :
    symbolCategories categories vec count pos interner = .ok (ids, stop) ↔
      ∃ texts rest', texts.length = count ∧ (∀ text ∈ texts, 0 ∉ text) ∧
        rest = symbolBytes texts ++ rest' ∧ stop = pos + (symbolBytes texts).length ∧
        ids = texts.map (SymbolInterner.insertGlobalCategory categories) := by
  constructor
  · intro hok
    induction count generalizing pos rest interner ids with
    | zero =>
      cases hok
      exact ⟨[], rest, rfl, by simp, rfl, rfl, rfl⟩
    | succ count ih =>
      simp only [symbolCategories, Exec.bind_eq_ok, Prod.exists, Except.ok.injEq, Prod.mk.injEq] at hok
      obtain ⟨text, next, htext, others, _, hothers, rfl, rfl⟩ := hok
      obtain ⟨hclean, rest₁, rfl, rfl⟩ := (nextSymbol_eq_ok h).mp htext
      obtain ⟨hcategory, hnext⟩ := SymbolInterner.category_spec hfaithful hclean
      obtain ⟨texts, rest', rfl, hall, rfl, rfl, rfl⟩ := ih hnext h.skip_symbol hothers
      refine ⟨text :: texts, rest', rfl, ?_, by simp [symbolBytes], ?_, ?_⟩
      · simpa using ⟨hclean, hall⟩
      · simp only [symbolBytes, List.length_append, List.length_cons]
        omega
      · rw [List.map_cons, hcategory]
  · rintro ⟨texts, rest', rfl, hall, rfl, rfl, rfl⟩
    exact symbolCategories_at hfaithful hall h

end Reading

/-- The texts between the NULs of a valid payload are valid. -/
theorem exists_texts {texts : List Bytes} (h : Utf8.Valid (symbolBytes texts)) :
    ∃ names : List Str, texts = names.map Str.bytes := by
  induction texts with
  | nil => exact ⟨[], rfl⟩
  | cons text texts ih =>
    obtain ⟨htext, hrest⟩ := Utf8.valid_split.mp h
    obtain ⟨names, rfl⟩ := ih hrest
    exact ⟨⟨text, htext⟩ :: names, rfl⟩

/-- The column of these symbols. -/
def symbolColumn (categories : CategoricalMapping) (names : List Str) : K :=
  .Series (.ofCells (typeName 11) (.categorical categories)
    (names.map fun name => some (categories.insertCat name)))

theorem decodeSymbolColumn_eq_ok {categories : CategoricalMapping} {payload : Bytes} {count : Nat}
    {k : K} (hvalid : Utf8.Valid payload) (hsize : payload.length ≤ usizeMax) :
    decodeSymbolColumn categories payload count = .ok k ↔
      ∃ names : List Str, names.length = count ∧ (∀ name ∈ names, 0 ∉ name.bytes) ∧
        payload = symbolBytes (names.map Str.bytes) ∧ k = symbolColumn categories names := by
  have hread := @symbolCategories_eq_ok _ _ _ categories .new SymbolInterner.new_faithful
    (At.start hsize) count
  simp only [decodeSymbolColumn, Exec.bind_eq_ok, Prod.exists, hread, Except.ok.injEq]
  have hids : ∀ names : List Str,
      ((names.map Str.bytes).map (SymbolInterner.insertGlobalCategory categories)).map some =
        names.map fun name => some (categories.insertCat name) := by
    intro names
    rw [List.map_map, List.map_map]
    exact List.map_congr_left fun name _ =>
      congrArg some (insertGlobalCategory_bytes categories name)
  constructor
  · rintro ⟨ids, stop, ⟨texts, rest', rfl, hclean, hpayload, rfl, rfl⟩, u, hconsumed, rfl⟩
    unfold checkSymbolListConsumed at hconsumed
    split at hconsumed
    · next hend =>
      have hrest : rest' = [] := by
        rw [hpayload, List.length_append] at hend
        exact List.length_eq_zero_iff.mp (by omega)
      rw [hrest, List.append_nil] at hpayload
      subst hpayload
      obtain ⟨names, rfl⟩ := exists_texts hvalid
      refine ⟨names, by simp, fun name hname => hclean _ (List.mem_map_of_mem hname), rfl, ?_⟩
      rw [hids]
      rfl
    · cases hconsumed
  · rintro ⟨names, rfl, hclean, rfl, rfl⟩
    refine ⟨_, _, ⟨names.map Str.bytes, [], by simp, ?_, by simp, rfl, rfl⟩, (), ?_, ?_⟩
    · intro text htext
      obtain ⟨name, hname, rfl⟩ := List.mem_map.mp htext
      exact hclean name hname
    · simp [checkSymbolListConsumed]
    · rw [hids]
      rfl

/-! ## Symbols on the way out -/

namespace SymbolLookup

variable {mapping : CategoricalMapping}

/-- Every slot holds what the mapping says. -/
def Faithful (lookup : SymbolLookup mapping) : Prop :=
  ∀ slot ∈ lookup.slots, ∀ entry, slot = some entry → mapping.catToStr entry.1 = some entry.2

theorem faithful_new : (SymbolLookup.new mapping).Faithful := by
  intro slot hslot entry hentry
  rw [List.eq_of_mem_replicate hslot] at hentry
  cases hentry

theorem Faithful.store {lookup : SymbolLookup mapping} (h : lookup.Faithful) {category : Nat}
    {symbol : Str} (hsymbol : mapping.catToStr category = some symbol) :
    (lookup.store category symbol).Faithful := by
  intro slot hslot entry hentry
  rcases List.mem_or_eq_of_mem_set hslot with hslot | rfl
  · exact h slot hslot entry hentry
  · cases hentry
    exact hsymbol

theorem Faithful.cached {lookup : SymbolLookup mapping} (h : lookup.Faithful) {category : Nat}
    {symbol : Str} (hcached : lookup.cached category = some symbol) :
    mapping.catToStr category = some symbol := by
  unfold SymbolLookup.cached at hcached
  split at hcached
  · next key text hslot =>
    split at hcached
    · next hkey =>
      cases hcached
      exact hkey ▸ h _ (List.mem_of_getElem? hslot) _ rfl
    · cases hcached
  · cases hcached

/-- A lookup finds the symbol of its category, from its slot or from the mapping. -/
theorem Faithful.resolve {lookup : SymbolLookup mapping} (h : lookup.Faithful) {name : Str}
    (hclean : 0 ∉ name.bytes) :
    ∃ lookup', lookup.resolve (mapping.insertCat name) = .ok (name, lookup') ∧ lookup'.Faithful := by
  have hname := mapping.catToStr_insertCat name
  unfold SymbolLookup.resolve
  cases hcached : lookup.cached (mapping.insertCat name) with
  | some symbol =>
    obtain rfl : symbol = name := Option.some.inj ((h.cached hcached).symm.trans hname)
    exact ⟨lookup, rfl, h⟩
  | none =>
    refine ⟨lookup.store (mapping.insertCat name) name, ?_, h.store hname⟩
    simp only [hname, Exec.okOr_some, Exec.ok_bind, validateQSymbol_of_notMem hclean]

end SymbolLookup

section Writing

variable {mapping : CategoricalMapping} {names : List Str}

theorem forEachCategory_write (hclean : ∀ name ∈ names, 0 ∉ name.bytes) {lookup : SymbolLookup mapping}
    (hfaithful : lookup.Faithful) (out : Bytes) :
    ∃ lookup', forEachCategory writeSymbol (names.map fun name => some (mapping.insertCat name))
      (lookup, out) = .ok (lookup', out ++ symbolBytes (names.map Str.bytes)) := by
  induction names generalizing lookup out with
  | nil => exact ⟨lookup, by simp [forEachCategory, symbolBytes]⟩
  | cons name names ih =>
    obtain ⟨next, hresolve, hnext⟩ := hfaithful.resolve (hclean name (by simp))
    obtain ⟨lookup', hrest⟩ := ih (fun other hother => hclean other (by simp [hother])) hnext
      (out ++ name.bytes ++ [0])
    refine ⟨lookup', ?_⟩
    rw [List.map_cons, forEachCategory, writeSymbol, hresolve, Exec.ok_bind, Exec.ok_bind, hrest]
    simp [symbolBytes]

theorem forEachCategory_length (hclean : ∀ name ∈ names, 0 ∉ name.bytes) {lookup : SymbolLookup mapping}
    (hfaithful : lookup.Faithful) {start : Nat}
    (hsize : start + (symbolBytes (names.map Str.bytes)).length ≤ usizeMax) :
    ∃ lookup', forEachCategory addSymbolLength (names.map fun name => some (mapping.insertCat name))
      (lookup, start) = .ok (lookup', start + (symbolBytes (names.map Str.bytes)).length) := by
  induction names generalizing lookup start with
  | nil => exact ⟨lookup, rfl⟩
  | cons name names ih =>
    obtain ⟨next, hresolve, hnext⟩ := hfaithful.resolve (hclean name (by simp))
    simp only [List.map_cons, symbolBytes, List.length_append, List.length_cons] at hsize
    have hlength : checkedAdd start name.bytes.length = some (start + name.bytes.length) :=
      checkedAdd_eq_some.mpr ⟨rfl, by omega⟩
    have hnul : checkedAdd (start + name.bytes.length) 1 = some (start + name.bytes.length + 1) :=
      checkedAdd_eq_some.mpr ⟨rfl, by omega⟩
    obtain ⟨lookup', hrest⟩ := @ih (fun other hother => hclean other (by simp [hother])) next hnext
      (start + name.bytes.length + 1) (by omega)
    refine ⟨lookup', ?_⟩
    rw [List.map_cons, forEachCategory, addSymbolLength, hresolve, Exec.ok_bind]
    simp only
    rw [hlength, Option.bind_some, hnul, Exec.okOr_some, Exec.ok_bind, Exec.ok_bind, hrest]
    simp only [List.map_cons, symbolBytes, List.length_append, List.length_cons]
    congr 2
    omega

/-- A symbol column goes out as its symbols. -/
theorem serialize_symbolColumn (hclean : ∀ name ∈ names, 0 ∉ name.bytes)
    (hcount : names.length ≤ i32Max)
    (hsize : (symbolBytes (names.map Str.bytes)).length + 6 ≤ isizeMax) :
    (symbolColumn mapping names).serialize =
      .ok (seriesHeader 11 names.length ++ symbolBytes (names.map Str.bytes)) := by
  have husize : isizeMax < usizeMax := by decide
  have hleaf : (symbolColumn mapping names).IsLeaf := trivial
  obtain ⟨lookup, hlength⟩ := @forEachCategory_length mapping names hclean _ SymbolLookup.faithful_new 6
    (by omega)
  obtain ⟨lookup', hwrite⟩ := @forEachCategory_write mapping names hclean _ SymbolLookup.faithful_new []
  have hflat : [names.map fun name => some (mapping.insertCat name)].flatten =
      names.map fun name => some (mapping.insertCat name) := by simp
  have hvalidate : validateCells (.categorical mapping)
      (names.map fun name => some (mapping.insertCat name)) = .ok () := rfl
  rw [K.serialize_eq_ok]
  constructor
  · refine ⟨6 + (symbolBytes (names.map Str.bytes)).length, ?_, by omega⟩
    rw [K.j6Len, K.j6LenWithDepth_leaf hleaf, if_neg (by decide), symbolColumn, K.leafLen, getSeriesLen]
    simp only [Series.ofCells_len, List.length_map]
    rw [Series.ofCells]
    simp only
    rw [getFlatLen, checkedQCount, if_pos hcount, Exec.ok_bind, hflat, hlength, Exec.ok_bind]
  · rw [K.appended_leaf hleaf, symbolColumn, K.appendedLeaf, Series.ofCells,
      serializeSeriesInto_flat (by simpa using hcount), hflat, serializeFlat, hvalidate, Exec.ok_bind,
      writeCells, hwrite, Exec.ok_bind, Exec.ok_bind, List.length_map, List.nil_append]
    rfl

end Writing

/-- **Interning changes nothing.** A payload of valid text is a column exactly when it is as
many NUL-terminated symbols as were declared; each row then holds the category of its symbol,
and the column goes out as the payload it came from. -/
theorem symbol_column_comes_back (categories : CategoricalMapping) (payload : Bytes) (count : Nat)
    (hvalid : Utf8.Valid payload) (hcount : count ≤ i32Max) (hsize : payload.length + 6 ≤ isizeMax) :
    ((∃ k, decodeSymbolColumn categories payload count = .ok k) ↔
      ∃ names : List Str, names.length = count ∧ (∀ name ∈ names, 0 ∉ name.bytes) ∧
        payload = symbolBytes (names.map Str.bytes)) ∧
    ∀ k, decodeSymbolColumn categories payload count = .ok k →
      (∃ names : List Str, names.length = count ∧ (∀ name ∈ names, 0 ∉ name.bytes) ∧
        payload = symbolBytes (names.map Str.bytes) ∧
        k = .Series (.ofCells (typeName 11) (.categorical categories)
          (names.map fun name => some (categories.insertCat name)))) ∧
      k.serialize = .ok (seriesHeader 11 count ++ payload) := by
  have husize : isizeMax < usizeMax := by decide
  have hcolumn := fun k => @decodeSymbolColumn_eq_ok categories payload count k hvalid (by omega)
  constructor
  · constructor
    · rintro ⟨k, hk⟩
      obtain ⟨names, hlength, hclean, hpayload, -⟩ := (hcolumn k).mp hk
      exact ⟨names, hlength, hclean, hpayload⟩
    · rintro ⟨names, hlength, hclean, hpayload⟩
      exact ⟨_, (hcolumn _).mpr ⟨names, hlength, hclean, hpayload, rfl⟩⟩
  · intro k hk
    obtain ⟨names, rfl, hclean, rfl, rfl⟩ := (hcolumn k).mp hk
    exact ⟨⟨names, rfl, hclean, rfl, rfl⟩, serialize_symbolColumn hclean hcount hsize⟩

theorem symbol_column_comes_back_two :
    ∃ k, decodeSymbolColumn numberedTexts [97, 0, 98, 98, 0] 2 = .ok k ∧
      k.serialize = .ok (seriesHeader 11 2 ++ [97, 0, 98, 98, 0]) := by
  have h := symbol_column_comes_back numberedTexts [97, 0, 98, 98, 0] 2 (by decide) (by decide) (by decide)
  obtain ⟨k, hk⟩ := h.1.mpr ⟨[literal "a", literal "bb"], rfl, by decide, rfl⟩
  exact ⟨k, hk, (h.2 k hk).2⟩

/-! ## Invalid text -/

def lossyText (bytes : Bytes) : Str := ⟨Utf8.lossy bytes, Utf8.valid_lossy bytes⟩

theorem decodeUtf8_lossy (bytes : Bytes) (context : String) :
    decodeUtf8 bytes .Lossy context = .ok (lossyText bytes) := by
  unfold decodeUtf8
  cases htext : Str.fromUtf8 bytes with
  | none => rfl
  | some text =>
    obtain rfl := Str.fromUtf8_eq_some.mp htext
    exact congrArg Except.ok (Str.ext_bytes (Utf8.lossy_valid text.valid).symm)

theorem decodeUtf8_strict {bytes : Bytes} {context : String} {text : Str} :
    decodeUtf8 bytes .Strict context = .ok text ↔ text.bytes = bytes := by
  unfold decodeUtf8
  cases hvalid : Str.fromUtf8 bytes with
  | some text' =>
    obtain rfl := Str.fromUtf8_eq_some.mp hvalid
    simp only [Except.ok.injEq]
    exact ⟨fun h => by rw [h], fun h => Str.ext_bytes h.symm⟩
  | none =>
    refine iff_of_false (fun h => by cases h) ?_
    rintro rfl
    exact Str.fromUtf8_eq_none.mp hvalid text.valid

/-- Both encodings decode a valid text to itself. -/
theorem decodeUtf8_eq_ok {bytes : Bytes} {encoding : SymbolEncoding} {context : String} {text : Str} :
    decodeUtf8 bytes encoding context = .ok text ↔
      (encoding = .Lossy ∨ Utf8.Valid bytes) ∧ text = lossyText bytes := by
  cases encoding with
  | Lossy =>
    rw [decodeUtf8_lossy]
    simp only [Except.ok.injEq, true_or, true_and]
    exact eq_comm
  | Strict =>
    rw [decodeUtf8_strict]
    constructor
    · rintro rfl
      exact ⟨.inr text.valid, Str.ext_bytes (Utf8.lossy_valid text.valid).symm⟩
    · rintro ⟨hencoding | hvalid, rfl⟩
      · cases hencoding
      · exact Utf8.lossy_valid hvalid

theorem lossy_symbolBytes (texts : List Bytes) :
    Utf8.lossy (symbolBytes texts) = symbolBytes (texts.map Utf8.lossy) := by
  induction texts with
  | nil => rfl
  | cons text texts ih => rw [symbolBytes, Utf8.lossy_append_zero, ih, List.map_cons, symbolBytes]

/-- Replacing and cutting at the NULs can be done in either order. -/
theorem lossy_splitOn (bytes : Bytes) :
    (Utf8.lossy bytes).splitOn 0 = (bytes.splitOn 0).map Utf8.lossy := by
  -- by the length: the part behind the first NUL is shorter
  induction hlen : bytes.length using Nat.strong_induction_on generalizing bytes with
  | _ length ih =>
    cases hnul : memchr bytes with
    | none =>
      have hclean := memchr_eq_none.mp hnul
      rw [List.splitOn_eq_singleton hclean, List.splitOn_eq_singleton (Utf8.zero_notMem_lossy hclean)]
      rfl
    | some terminator =>
      obtain ⟨text, rest, rfl, hclean, -⟩ := memchr_eq_some.mp hnul
      have hshorter : rest.length < length := by
        rw [← hlen, List.length_append, List.length_cons]
        omega
      rw [Utf8.lossy_append_zero, List.splitOn_append_cons_self_of_not_mem hclean,
        List.splitOn_append_cons_self_of_not_mem (Utf8.zero_notMem_lossy hclean),
        ih rest.length hshorter rest rfl, List.map_cons]

section Rows

variable {vec rest : Bytes} {pos : Nat} {encoding : SymbolEncoding}

/-- Names under an encoding: any for the lossy one. -/
def Readable (encoding : SymbolEncoding) (names : List Bytes) : Prop :=
  encoding = .Lossy ∨ ∀ name ∈ names, Utf8.Valid name

/-- The symbols of a row that stands at `pos`. -/
theorem symbolRow_eq_ok {texts : List Bytes} (hclean : ∀ text ∈ texts, 0 ∉ text)
    (h : At vec pos (symbolBytes texts ++ rest)) {names : List Str} {stop : Nat} :
    symbolRow vec encoding texts.length pos = .ok (names, stop) ↔
      Readable encoding texts ∧ names = texts.map lossyText ∧ stop = pos + (symbolBytes texts).length := by
  induction texts generalizing pos names stop with
  | nil =>
    simp only [List.length_nil, symbolRow, Except.ok.injEq, Prod.mk.injEq, List.map_nil, symbolBytes,
      Nat.add_zero]
    constructor
    · rintro ⟨rfl, rfl⟩
      exact ⟨.inr (by simp), rfl, rfl⟩
    · rintro ⟨-, rfl, rfl⟩
      exact ⟨rfl, rfl⟩
  | cons text texts ih =>
    simp only [symbolBytes, List.append_assoc, List.cons_append] at h
    have htake : takeUntilNul vec pos "q nested symbol" = .ok (text, pos + (text.length + 1)) :=
      (takeUntilNul_eq_ok h).mpr ⟨hclean text (by simp), _, rfl, by omega⟩
    have hcleans : ∀ other ∈ texts, 0 ∉ other := fun other hother => hclean other (by simp [hother])
    have hlength : pos + (symbolBytes (text :: texts)).length =
        pos + (text.length + 1) + (symbolBytes texts).length := by
      simp only [symbolBytes, List.length_append, List.length_cons]
      omega
    simp only [List.length_cons, symbolRow, takeUtf8UntilNul, htake, Exec.ok_bind, Exec.bind_eq_ok,
      decodeUtf8_eq_ok, Prod.exists, Except.ok.injEq, Prod.mk.injEq, hlength, List.map_cons]
    constructor
    · rintro ⟨_, _, ⟨_, ⟨hread, rfl⟩, rfl, rfl⟩, _, _, hrun, rfl, rfl⟩
      obtain ⟨hreads, rfl, rfl⟩ := (ih hcleans h.skip_symbol).mp hrun
      refine ⟨?_, rfl, rfl⟩
      rcases hread with hlossy | hvalid
      · exact .inl hlossy
      · rcases hreads with hlossy | hvalids
        · exact .inl hlossy
        · exact .inr (List.forall_mem_cons.mpr ⟨hvalid, hvalids⟩)
    · rintro ⟨hread, rfl, rfl⟩
      have hreads : Readable encoding texts :=
        hread.imp_right fun hvalid other hother => hvalid other (by simp [hother])
      refine ⟨_, _, ⟨_, ⟨?_, rfl⟩, rfl, rfl⟩, _, _, (ih hcleans h.skip_symbol).mpr ⟨hreads, rfl, rfl⟩, rfl, rfl⟩
      exact hread.imp_right fun hvalid => hvalid text (by simp)

/-- The symbols of a row, as they are read. -/
def lossySymbols : NestedRow → List Str
  | .symbols _ texts => texts.map lossyText
  | _ => []

/-- The symbols of a row, whatever its kind. -/
def rowSymbols : NestedRow → List Bytes
  | .symbols _ texts => texts
  | _ => []

theorem symbolValues_eq_ok {row : NestedRow} (hfits : row.Fits 11) (h : At vec pos (row.payload ++ rest))
    {names : List Str} {stop : Nat} :
    rowValues [] (symbolRow vec encoding) row.kType row.count pos = .ok (names, stop) ↔
      Readable encoding (rowSymbols row) ∧ names = lossySymbols row ∧ stop = pos + row.payload.length := by
  cases row with
  | empty attr =>
    simp only [NestedRow.kType, rowValues, if_true, Except.ok.injEq, Prod.mk.injEq, NestedRow.payload,
      List.length_nil, Nat.add_zero, rowSymbols, lossySymbols]
    constructor
    · rintro ⟨rfl, rfl⟩
      exact ⟨.inr (by simp), rfl, rfl⟩
    · rintro ⟨-, rfl, rfl⟩
      exact ⟨rfl, rfl⟩
  | symbols attr texts =>
    have hclean : ∀ text ∈ texts, 0 ∉ text := hfits.1.2
    change rowValues [] (symbolRow vec encoding) 11 texts.length pos = _ ↔ _
    rw [rowValues, if_neg (by decide)]
    exact symbolRow_eq_ok hclean h
  | fixed kType attr count payload =>
    obtain ⟨⟨hmem, heleven, -⟩, hkind⟩ := hfits
    exact absurd (hkind.resolve_right (nestedTypes_cases hmem)) heleven

end Rows

section Lists

variable {categories : CategoricalMapping} {attr : UInt8}

theorem decodeSymbolList_lossy {texts : List Bytes} (hclean : ∀ text ∈ texts, 0 ∉ text)
    (hlossy : (Utf8.lossy (symbolBytes texts)).length ≤ usizeMax) :
    decodeSymbolList categories (symbolBytes texts) texts.length true .Lossy =
      .ok (symbolColumn categories (texts.map lossyText)) := by
  have hbytes : (texts.map lossyText).map Str.bytes = texts.map Utf8.lossy := by
    rw [List.map_map]
    rfl
  rw [decodeSymbolList, decodeUtf8_lossy, Exec.ok_bind, if_pos rfl]
  refine (decodeSymbolColumn_eq_ok (Utf8.valid_lossy _) hlossy).mpr ⟨texts.map lossyText, by simp, ?_, ?_, rfl⟩
  · intro name hname
    obtain ⟨text, htext, rfl⟩ := List.mem_map.mp hname
    exact Utf8.zero_notMem_lossy (hclean text htext)
  · rw [hbytes]
    exact lossy_symbolBytes texts

theorem deserializeSeries_lossySymbols {texts : List Bytes} (hcount : texts.length ≤ i32Max)
    (hclean : ∀ text ∈ texts, 0 ∉ text)
    (hsize : (attr :: (encode 4 texts.length ++ symbolBytes texts)).length ≤ usizeMax)
    (hlossy : (Utf8.lossy (symbolBytes texts)).length ≤ usizeMax) :
    deserializeSeries categories (attr :: (encode 4 texts.length ++ symbolBytes texts)) 11 true .Lossy =
      .ok (symbolColumn categories (texts.map lossyText)) := by
  rw [deserializeSeries, if_neg (by decide), header_at hcount hsize, Exec.ok_bind]
  simp only
  split
  · next hzero =>
    obtain rfl := List.length_eq_zero_iff.mp hzero
    rw [if_neg (by simp [symbolBytes]), if_neg (by decide)]
    rfl
  · rw [payload_at, Exec.okOr_some, Exec.ok_bind, checkPayloadLength, if_pos (.inr rfl), Exec.ok_bind,
      decodeList, if_neg (by decide), if_neg (by decide), if_pos rfl]
    exact decodeSymbolList_lossy hclean hlossy

/-- A flat symbol list, as a whole body. -/
theorem deserialize_symbols {texts : List Bytes} (hcount : texts.length ≤ i32Max)
    (hclean : ∀ text ∈ texts, 0 ∉ text)
    (hsize : (11 :: attr :: (encode 4 texts.length ++ symbolBytes texts)).length ≤ usizeMax)
    (hlossy : (Utf8.lossy (symbolBytes texts)).length ≤ usizeMax) :
    deserialize categories .Lossy (11 :: attr :: (encode 4 texts.length ++ symbolBytes texts)) =
      .ok (symbolColumn categories (texts.map lossyText)) := by
  have hstart : At (11 :: attr :: (encode 4 texts.length ++ symbolBytes texts)) 0
      (11 :: attr :: (encode 4 texts.length ++ symbolBytes texts)) := At.start hsize
  have hsmall : (attr :: (encode 4 texts.length ++ symbolBytes texts)).length ≤ usizeMax := by
    simp only [List.length_cons] at hsize ⊢
    omega
  have hseries := @deserializeSeries_lossySymbols categories attr texts hcount hclean hsmall hlossy
  have hlist := @deserializeList_at categories .Lossy
    (deserializeUnchecked categories .Lossy (maxValueDepth + 1)) _ [] 1 0 false (.symbols attr texts)
    ⟨hcount, hclean⟩ (by simpa [NativeList.body] using hstart.skip_one)
  rw [deserialize_eq_ok, deserializeFuel, deserializeUnchecked, if_neg (by decide), hstart.getElem?,
    Exec.okOr_some, Exec.ok_bind, deserializeBody, if_neg (by decide), if_pos (by decide)]
  refine hlist.trans ?_
  change (deserializeSeries categories (attr :: (encode 4 texts.length ++ symbolBytes texts)) 11 true
    .Lossy >>= _) = _
  rw [hseries, Exec.ok_bind]
  simp [NativeList.body]
  omega

/-- A nested symbol list, as a whole body. -/
theorem deserialize_nestedSymbols {rows : List NestedRow} (hcount : rows.length ≤ i32Max)
    (hchild : (rows.map NestedRow.kType).head? = some 11) (hfits : ∀ row ∈ rows, row.Fits 11)
    (hchildren : childCount rows ≤ i32Max)
    (hsize : (0 :: attr :: (encode 4 rows.length ++ NestedRow.encodeAll rows)).length ≤ usizeMax) :
    deserialize categories .Lossy (0 :: attr :: (encode 4 rows.length ++ NestedRow.encodeAll rows)) =
      .ok (.Series (.ofRows (typeName 11) (.categorical categories)
        (rows.map fun row => (lossySymbols row).map fun name => some (categories.insertCat name)))) := by
  have hat : At (attr :: (encode 4 rows.length ++ NestedRow.encodeAll rows)) 5
      (NestedRow.encodeAll rows) := (At.start (by simp only [List.length_cons] at hsize ⊢; omega)).header
  rw [deserialize_nested (by decide) hcount hchild hfits hsize, nestedChild, if_neg (by decide),
    nestedGeneral, if_pos rfl, wholeNestedRows_of hfits
      (fun row hrow _ _ hrest => (symbolValues_eq_ok (hfits row hrow) hrest).mpr ⟨.inl rfl, rfl, rfl⟩)
      hchildren hat, Exec.ok_bind,
    List.map_map]
  rfl

end Lists

/-- **Replacing text in a payload or symbol by symbol.** Cutting the transcoded payload at its
NULs gives the transcoded pieces, so a row of a nested symbol list, which is transcoded symbol
by symbol, is the column that the same list is on its own. -/
theorem lossy_symbols_agree (categories : CategoricalMapping) :
    (∀ payload : Bytes, (Utf8.lossy payload).splitOn 0 = (payload.splitOn 0).map Utf8.lossy) ∧
    ∀ (attr : UInt8) (rows : List NestedRow), rows.length ≤ i32Max →
      (rows.map NestedRow.kType).head? = some 11 → (∀ row ∈ rows, row.Fits 11) →
      childCount rows ≤ i32Max →
      (0 :: attr :: (encode 4 rows.length ++ NestedRow.encodeAll rows)).length ≤ usizeMax →
      (∀ row ∈ rows, (Utf8.lossy row.payload).length ≤ usizeMax) →
      ∃ cells, deserialize categories .Lossy
          (0 :: attr :: (encode 4 rows.length ++ NestedRow.encodeAll rows)) =
            .ok (.Series (.ofRows (typeName 11) (.categorical categories) cells)) ∧
        ∀ (i : Nat) (row : NestedRow), rows[i]? = some row → row.kType = 11 →
          ∃ names : List Str, names.length = row.count ∧
            symbolBytes (names.map Str.bytes) = Utf8.lossy row.payload ∧
            (∀ name ∈ names, 0 ∉ name.bytes) ∧
            deserialize categories .Lossy row.encode = .ok (symbolColumn categories names) ∧
            cells[i]? = some (names.map fun name => some (categories.insertCat name)) := by
  refine ⟨lossy_splitOn, ?_⟩
  intro attr rows hcount hchild hfits hchildren hsize htexts
  refine ⟨_, deserialize_nestedSymbols hcount hchild hfits hchildren hsize, ?_⟩
  intro i row hrow hkind
  have hmem := List.mem_of_getElem? hrow
  have hfit := hfits row hmem
  have hshort := encode_length_le hmem
  have hlossy := htexts row hmem
  refine ⟨lossySymbols row, ?_⟩
  rw [List.getElem?_map, hrow, Option.map_some]
  cases row with
  | empty attr => exact absurd hkind (by simp [NestedRow.kType])
  | fixed kType attr count payload => exact absurd hkind hfit.1.2.1
  | symbols rowAttr texts =>
    have hbytes : (texts.map lossyText).map Str.bytes = texts.map Utf8.lossy := by
      rw [List.map_map]
      rfl
    refine ⟨by simp [lossySymbols, NestedRow.count], ?_, ?_, ?_, rfl⟩
    · simp only [lossySymbols, NestedRow.payload]
      rw [hbytes, lossy_symbolBytes]
    · intro name hname
      obtain ⟨text, htext, rfl⟩ := List.mem_map.mp hname
      exact Utf8.zero_notMem_lossy (hfit.1.2 text htext)
    · apply deserialize_symbols hfit.1.1 hfit.1.2
      · simp only [NestedRow.encode, List.length_cons, List.length_append] at hshort hsize ⊢
        omega
      · exact hlossy

/-- A symbol that breaks off before its NUL. -/
theorem lossy_symbols_agree_cut :
    ∃ cells, deserialize numberedTexts .Lossy [0, 0, 1, 0, 0, 0, 11, 0, 2, 0, 0, 0, 0xC3, 0, 97, 0] =
        .ok (.Series (.ofRows (typeName 11) (.categorical numberedTexts) cells)) ∧
      ∃ names : List Str, names.length = 2 ∧
        symbolBytes (names.map Str.bytes) = [0xEF, 0xBF, 0xBD, 0, 97, 0] ∧
        deserialize numberedTexts .Lossy [11, 0, 2, 0, 0, 0, 0xC3, 0, 97, 0] =
          .ok (symbolColumn numberedTexts names) ∧
        cells[0]? = some (names.map fun name => some (numberedTexts.insertCat name)) := by
  have hfits : ∀ row ∈ [NestedRow.symbols 0 [[0xC3], [97]]], row.Fits 11 := by
    intro row hrow
    obtain rfl := List.mem_singleton.mp hrow
    exact ⟨⟨by decide, by decide⟩, .inl rfl⟩
  obtain ⟨cells, hcells, hrows⟩ := (lossy_symbols_agree numberedTexts).2 0
    [.symbols 0 [[0xC3], [97]]] (by decide) rfl hfits (by decide) (by decide) (by decide)
  obtain ⟨names, hlength, hbytes, -, hflat, hcell⟩ := hrows 0 _ rfl rfl
  exact ⟨cells, hcells, names, hlength, hbytes, hflat, hcell⟩

end Xqdb
