import Xqdb.DecodeLists
import Xqdb.SymbolLists

/-! Where the native decoder can panic. Everything it reads outside of tables is checked before
it is indexed; a table indexes the type byte of each column without looking, and takes its
column names for texts although an empty list of names is a column of symbols. -/

namespace Xqdb

open LittleEndian (encode)
open QValue (symbolBytes)

/-! ## Readers -/

theorem noPanic_sliceRange {vec : Bytes} {start stop : Nat} (hle : start ≤ stop)
    (hstop : stop ≤ vec.length) : NoPanic (sliceRange vec start stop) := by
  rw [sliceRange, getRange, if_pos ⟨hle, hstop⟩]
  exact noPanic_ok _

theorem noPanic_takeBytes (vec : Bytes) (pos width : Nat) (context : String) :
    NoPanic (takeBytes vec pos width context) :=
  (noPanic_okOr _ _).bind fun _ _ => (noPanic_okOr _ _).bind fun _ _ => noPanic_ok _

theorem noPanic_decodeUtf8 (bytes : Bytes) (encoding : SymbolEncoding) (context : String) :
    NoPanic (decodeUtf8 bytes encoding context) := by
  unfold decodeUtf8
  split
  · exact noPanic_ok _
  · exact noPanic_err _
  · exact noPanic_ok _

theorem noPanic_takeUntilNul (vec : Bytes) (pos : Nat) (context : String) :
    NoPanic (takeUntilNul vec pos context) := by
  unfold takeUntilNul
  refine (noPanic_okOr _ _).bind fun tail htail => (noPanic_okOr _ _).bind fun length hlength => ?_
  refine (noPanic_okOr _ _).bind fun stop hstop => ?_
  have hslice : NoPanic (sliceRange vec pos stop) := by
    rw [Exec.okOr_eq_ok] at htail hlength hstop
    obtain ⟨rfl, -⟩ := checkedAdd_eq_some.mp hstop
    have hlt := memchr_lt hlength
    unfold getFrom at htail
    split at htail
    · cases htail
      rw [List.length_drop] at hlt
      exact noPanic_sliceRange (by omega) (by omega)
    · cases htail
  exact hslice.bind fun _ _ => (noPanic_okOr _ _).bind fun _ _ => noPanic_ok _

theorem noPanic_takeUtf8UntilNul (vec : Bytes) (pos : Nat) (encoding : SymbolEncoding) (context : String) :
    NoPanic (takeUtf8UntilNul vec pos encoding context) :=
  (noPanic_takeUntilNul vec pos context).bind fun _ _ =>
    (noPanic_decodeUtf8 _ _ _).bind fun _ _ => noPanic_ok _

theorem noPanic_tryCollect {α β : Type} {convert : α → Exec β} (h : ∀ item, NoPanic (convert item))
    (items : List α) : NoPanic (tryCollect convert items) := by
  induction items with
  | nil => exact noPanic_ok _
  | cons item items ih => exact (h item).bind fun _ _ => ih.bind fun _ _ => noPanic_ok _

/-! ## Lists -/

theorem noPanic_decodeWireNumbers (α : Type) [WireNumber α] (bytes : Bytes) (context : String) :
    NoPanic (decodeWireNumbers α bytes context) := by
  unfold decodeWireNumbers
  simp only
  split
  · exact noPanic_err _
  · exact noPanic_ok _

theorem noPanic_validateBooleans (values : Bytes) (context : String) :
    NoPanic (validateBooleans values context) := by
  unfold validateBooleans
  split
  · exact noPanic_err _
  · exact noPanic_ok _

theorem noPanic_unixTimestampNanoseconds (value : Int64) : NoPanic (unixTimestampNanoseconds value) := by
  unfold unixTimestampNanoseconds
  split
  · exact noPanic_err _
  · exact noPanic_okOr _ _

theorem noPanic_timestampValue (value : Int64) : NoPanic (timestampValue value) := by
  unfold timestampValue
  split
  · exact noPanic_ok _
  · exact noPanic_unixTimestampNanoseconds value

theorem noPanic_dateValue (value : Int32) : NoPanic (dateValue value) := by
  unfold dateValue
  split
  · exact noPanic_ok _
  · exact noPanic_okOr _ _

theorem noPanic_qDatetimeNanoseconds (bits : UInt64) : NoPanic (qDatetimeNanoseconds bits) := by
  unfold qDatetimeNanoseconds
  refine NoPanic.bind ?_ fun _ _ => noPanic_okOr _ _
  unfold finiteF64ToI64
  split
  · exact noPanic_err _
  · exact noPanic_ok _

theorem noPanic_datetimeValue (bits : UInt64) : NoPanic (datetimeValue bits) := by
  unfold datetimeValue
  split
  · exact noPanic_ok _
  split
  · exact noPanic_err _
  · exact noPanic_qDatetimeNanoseconds bits

theorem noPanic_timeValue (multiplier : Int) (value : Int32) : NoPanic (timeValue multiplier value) := by
  unfold timeValue
  split
  · exact noPanic_ok _
  · exact noPanic_okOr _ _

theorem noPanic_decodeFixedList (kType : UInt8) (payload : Bytes) :
    NoPanic (decodeFixedList kType payload) := by
  have htimes : ∀ name multiplier, NoPanic (decodeFixedList.decodeTimes name multiplier payload) := by
    intro name multiplier
    exact (noPanic_decodeWireNumbers _ _ _).bind fun _ _ =>
      (noPanic_tryCollect (noPanic_timeValue multiplier) _).bind fun _ _ => noPanic_ok _
  unfold decodeFixedList
  simp only
  split
  · exact (noPanic_validateBooleans _ _).bind fun _ _ => noPanic_ok _
  · exact noPanic_ok _
  · exact noPanic_ok _
  · exact (noPanic_decodeWireNumbers _ _ _).bind fun _ _ => noPanic_ok _
  · exact (noPanic_decodeWireNumbers _ _ _).bind fun _ _ => noPanic_ok _
  · exact (noPanic_decodeWireNumbers _ _ _).bind fun _ _ => noPanic_ok _
  · exact (noPanic_decodeWireNumbers _ _ _).bind fun _ _ => noPanic_ok _
  · exact (noPanic_decodeWireNumbers _ _ _).bind fun _ _ => noPanic_ok _
  · exact (noPanic_decodeWireNumbers _ _ _).bind fun _ _ =>
      (noPanic_tryCollect noPanic_timestampValue _).bind fun _ _ => noPanic_ok _
  · exact (noPanic_decodeWireNumbers _ _ _).bind fun _ _ =>
      (noPanic_tryCollect noPanic_dateValue _).bind fun _ _ => noPanic_ok _
  · exact (noPanic_decodeWireNumbers _ _ _).bind fun _ _ =>
      (noPanic_tryCollect noPanic_datetimeValue _).bind fun _ _ => noPanic_ok _
  · exact (noPanic_decodeWireNumbers _ _ _).bind fun _ _ => noPanic_ok _
  · exact htimes _ _
  · exact htimes _ _
  · exact htimes _ _
  · exact noPanic_err _

/-- A symbol of a payload ends within it. -/
theorem nextSymbol_stop {payload : Bytes} {cursor : Nat} (hcursor : cursor ≤ payload.length) :
    NoPanic (nextSymbol payload cursor) ∧
      ∀ text stop, nextSymbol payload cursor = .ok (text, stop) → stop ≤ payload.length := by
  unfold nextSymbol
  rw [sliceFrom, if_pos hcursor, Exec.ok_bind]
  cases hnul : memchr (payload.drop cursor) with
  | none =>
    refine ⟨noPanic_err _, ?_⟩
    intro text stop hok
    cases hok
  | some terminator =>
    have hlt := memchr_lt hnul
    rw [List.length_drop] at hlt
    rw [Exec.okOr_some, Exec.ok_bind]
    refine ⟨(noPanic_sliceRange (by omega) (by omega)).bind fun _ _ => noPanic_ok _, ?_⟩
    intro text stop hok
    simp only [Exec.bind_eq_ok, Except.ok.injEq, Prod.mk.injEq] at hok
    obtain ⟨_, -, -, rfl⟩ := hok
    omega

theorem noPanic_symbolCategories (categories : CategoricalMapping) {payload : Bytes} (length : Nat)
    {cursor : Nat} (hcursor : cursor ≤ payload.length) (interner : SymbolInterner) :
    NoPanic (symbolCategories categories payload length cursor interner) := by
  induction length generalizing cursor interner with
  | zero => exact noPanic_ok _
  | succ length ih =>
    refine (nextSymbol_stop hcursor).1.bind fun result hresult => ?_
    obtain ⟨symbol, next⟩ := result
    exact (ih ((nextSymbol_stop hcursor).2 _ _ hresult) _).bind fun _ _ => noPanic_ok _

theorem noPanic_symbolTexts {payload : Bytes} (length : Nat) {cursor : Nat}
    (hcursor : cursor ≤ payload.length) : NoPanic (symbolTexts payload length cursor) := by
  induction length generalizing cursor with
  | zero => exact noPanic_ok _
  | succ length ih =>
    refine (nextSymbol_stop hcursor).1.bind fun result hresult => ?_
    obtain ⟨symbol, next⟩ := result
    exact (ih ((nextSymbol_stop hcursor).2 _ _ hresult)).bind fun _ _ => noPanic_ok _

theorem noPanic_checkSymbolListConsumed (payload : Bytes) (cursor : Nat) :
    NoPanic (checkSymbolListConsumed payload cursor) := by
  unfold checkSymbolListConsumed
  split
  · exact noPanic_ok _
  · exact noPanic_err _

theorem noPanic_decodeSymbolList (categories : CategoricalMapping) (payload : Bytes) (length : Nat)
    (asColumn : Bool) (encoding : SymbolEncoding) :
    NoPanic (decodeSymbolList categories payload length asColumn encoding) := by
  refine (noPanic_decodeUtf8 _ _ _).bind fun text _ => ?_
  split
  · exact (noPanic_symbolCategories _ _ (Nat.zero_le _) _).bind fun _ _ =>
      (noPanic_checkSymbolListConsumed _ _).bind fun _ _ => noPanic_ok _
  · exact (noPanic_symbolTexts _ (Nat.zero_le _)).bind fun _ _ =>
      (noPanic_checkSymbolListConsumed _ _).bind fun _ _ => noPanic_ok _

theorem noPanic_newEmptySeries (categories : CategoricalMapping) (kType : UInt8) :
    NoPanic (newEmptySeries categories kType) := by
  unfold newEmptySeries
  simp only
  split
  all_goals first | exact noPanic_ok _ | exact noPanic_err _

/-! ### Nested lists -/

theorem noPanic_charRowPayload (vec : Bytes) (current : UInt8) (subLength pos : Nat) :
    NoPanic (charRowPayload vec current subLength pos) := by
  unfold charRowPayload
  split
  · exact noPanic_ok _
  split
  · exact (noPanic_okOr _ _).bind fun _ _ => (noPanic_okOr _ _).bind fun _ _ => noPanic_ok _
  · exact noPanic_err _

theorem noPanic_charRows (vec : Bytes) (length pos used : Nat) :
    NoPanic (charRows vec length pos used) := by
  induction length generalizing pos used with
  | zero => exact noPanic_ok _
  | succ length ih =>
    refine (noPanic_okOr _ _).bind fun current _ => (noPanic_takeListLength _ _ _).bind fun _ _ => ?_
    refine (noPanic_charRowPayload _ _ _ _).bind fun row _ => ?_
    simp only
    cases Str.fromUtf8 row.1 with
    | none => exact noPanic_ok _
    | some text =>
      simp only
      split
      · exact noPanic_err _
      · exact (ih _ _).bind fun _ _ => noPanic_ok _

theorem noPanic_decodeCharRows (vec : Bytes) (pos length : Nat) :
    NoPanic (decodeCharRows vec pos length) := by
  refine (noPanic_charRows _ _ _ _).bind fun outcome _ => ?_
  split
  · exact noPanic_ok _
  split
  · exact noPanic_err _
  · exact noPanic_ok _

theorem noPanic_nestedArrayRows {α : Type} {empty : α} {read : Nat → Nat → Exec (α × Nat)}
    (hread : ∀ subLength pos, NoPanic (read subLength pos)) (vec : Bytes) (kType : UInt8)
    (length pos offset : Nat) : NoPanic (nestedArrayRows empty read vec kType length pos offset) := by
  induction length generalizing pos offset with
  | zero => exact noPanic_ok _
  | succ length ih =>
    refine (noPanic_okOr _ _).bind fun current _ => (noPanic_takeListLength _ _ _).bind fun _ _ => ?_
    refine NoPanic.bind ?_ fun _ _ => (noPanic_okOr _ _).bind fun _ _ => NoPanic.bind ?_ fun _ _ =>
      (ih _ _).bind fun _ _ => noPanic_ok _
    · unfold checkRowType
      split
      · split
        · exact noPanic_err _
        · exact noPanic_ok _
      split
      · exact noPanic_err _
      · exact noPanic_ok _
    · unfold rowValues
      split
      · exact noPanic_ok _
      · exact hread _ _

theorem noPanic_wholeNestedRows {α : Type} {empty : α} {read : Nat → Nat → Exec (α × Nat)}
    (hread : ∀ subLength pos, NoPanic (read subLength pos)) (vec : Bytes) (kType : UInt8)
    (length pos : Nat) : NoPanic (wholeNestedRows empty read vec kType length pos) := by
  refine (noPanic_nestedArrayRows hread _ _ _ _ _).bind fun _ _ => ?_
  simp only
  split
  · exact noPanic_err _
  · exact noPanic_ok _

theorem noPanic_fixedRow (vec : Bytes) (kType : UInt8) (subLength pos : Nat) :
    NoPanic (fixedRow vec kType subLength pos) :=
  (noPanic_okOr _ _).bind fun _ _ => (noPanic_okOr _ _).bind fun _ _ =>
    (noPanic_okOr _ _).bind fun _ _ => noPanic_ok _

theorem noPanic_symbolRow (vec : Bytes) (encoding : SymbolEncoding) (subLength pos : Nat) :
    NoPanic (symbolRow vec encoding subLength pos) := by
  induction subLength generalizing pos with
  | zero => exact noPanic_ok _
  | succ subLength ih =>
    exact (noPanic_takeUtf8UntilNul _ _ _ _).bind fun _ _ => (ih _).bind fun _ _ => noPanic_ok _

theorem noPanic_nestedNumbers {α : Type} [WireNumber α] (kType : UInt8) {inner : FlatType}
    {convert : α → Exec (Option inner.Cell)} (hconvert : ∀ value, NoPanic (convert value))
    (rows : List Bytes) (context : String) : NoPanic (nestedNumbers kType inner convert rows context) := by
  refine NoPanic.bind ?_ fun _ _ => noPanic_ok _
  exact noPanic_tryCollect (fun row => (noPanic_decodeWireNumbers _ _ _).bind fun _ _ =>
    noPanic_tryCollect hconvert _) rows

theorem noPanic_nestedCharSeries (rows : List Bytes) (encoding : SymbolEncoding) :
    NoPanic (nestedCharSeries rows encoding) := by
  have hvalidate : NoPanic (validateNestedChar rows) := by
    unfold validateNestedChar
    split
    · exact noPanic_err _
    split
    · exact noPanic_err _
    · exact noPanic_ok _
  have htranscode : ∀ (rows : List Bytes) (used : Nat), NoPanic (transcodeNestedCharLossy rows used) := by
    intro rows
    induction rows with
    | nil =>
      intro used
      exact noPanic_ok _
    | cons row rows ih =>
      intro used
      refine (noPanic_decodeUtf8 _ _ _).bind fun _ _ => ?_
      split
      · exact noPanic_err _
      · exact (ih _).bind fun _ _ => noPanic_ok _
  unfold nestedCharSeries
  split
  · exact noPanic_ok _
  · next e herr =>
    intro hpanic
    cases hpanic
    exact hvalidate herr
  · exact (htranscode _ _).bind fun _ _ => noPanic_ok _

theorem noPanic_nestedFixedSeries (kType : UInt8) (rows : List Bytes) (encoding : SymbolEncoding) :
    NoPanic (nestedFixedSeries kType rows encoding) := by
  unfold nestedFixedSeries
  split
  · exact (noPanic_validateBooleans _ _).bind fun _ _ => noPanic_ok _
  · exact noPanic_ok _
  · exact noPanic_nestedNumbers _ (fun _ => noPanic_ok _) _ _
  · exact noPanic_nestedNumbers _ (fun _ => noPanic_ok _) _ _
  · exact noPanic_nestedNumbers _ (fun _ => noPanic_ok _) _ _
  · exact noPanic_nestedNumbers _ (fun _ => noPanic_ok _) _ _
  · exact noPanic_nestedNumbers _ (fun _ => noPanic_ok _) _ _
  · exact noPanic_nestedCharSeries _ _
  · refine noPanic_nestedNumbers _ (fun value => ?_) _ _
    exact (noPanic_timestampValue value).bind fun _ _ => noPanic_ok _
  · exact noPanic_err _

section Series

variable (categories : CategoricalMapping) (vec : Bytes) (encoding : SymbolEncoding)

theorem noPanic_nestedGeneral (kType : UInt8) (length pos : Nat) :
    NoPanic (nestedGeneral categories vec kType length pos encoding) := by
  unfold nestedGeneral
  split
  · exact (noPanic_wholeNestedRows (noPanic_symbolRow _ _) _ _ _ _).bind fun _ _ => noPanic_ok _
  · exact (noPanic_wholeNestedRows (noPanic_fixedRow _ _) _ _ _ _).bind fun _ _ =>
      noPanic_nestedFixedSeries _ _ _

theorem noPanic_nestedChild (kType : UInt8) (length pos : Nat) :
    NoPanic (nestedChild categories vec kType length pos encoding) := by
  unfold nestedChild
  split
  · refine (noPanic_decodeCharRows _ _ _).bind fun outcome _ => ?_
    split
    · exact noPanic_ok _
    · exact noPanic_nestedGeneral _ _ _ _ _ _
  · exact noPanic_nestedGeneral _ _ _ _ _ _

theorem noPanic_deserializeNestedArray : NoPanic (deserializeNestedArray categories vec encoding) := by
  refine (noPanic_takeListLength _ _ _).bind fun header hheader => ?_
  obtain ⟨length, pos⟩ := header
  obtain ⟨-, hpos, -⟩ := takeListLength_stop hheader
  simp only
  split
  · split
    · exact noPanic_err _
    · exact noPanic_newEmptySeries _ _
  refine (noPanic_okOr _ _).bind fun kType _ => ?_
  split
  · exact noPanic_err _
  refine NoPanic.bind ?_ fun _ _ => noPanic_nestedChild _ _ _ _ _ _
  unfold checkChildHeaders
  split
  · exact noPanic_ok _
  · refine NoPanic.bind ?_ fun _ _ => (noPanic_okOr _ _).bind fun _ _ => noPanic_ok _
    rw [subtract, if_pos hpos]
    exact noPanic_ok _

/-- **Lists.** Nothing in a list makes the decoder panic. -/
theorem noPanic_deserializeSeries (kType : UInt8) (asColumn : Bool) :
    NoPanic (deserializeSeries categories vec kType asColumn encoding) := by
  unfold deserializeSeries
  split
  · exact noPanic_err _
  refine (noPanic_takeListLength _ _ _).bind fun header _ => ?_
  simp only
  split
  · split
    · exact noPanic_err _
    split
    · exact noPanic_ok _
    · exact noPanic_newEmptySeries _ _
  refine (noPanic_okOr _ _).bind fun arrayVec _ => NoPanic.bind ?_ fun _ _ => ?_
  · unfold checkPayloadLength
    split
    · exact noPanic_ok _
    refine (noPanic_okOr _ _).bind fun _ _ => ?_
    split
    · exact noPanic_err _
    · exact noPanic_ok _
  unfold decodeList
  split
  · exact noPanic_deserializeNestedArray _ _ _
  split
  · split
    · unfold decodeCharColumn
      split
      · exact noPanic_ok _
      · exact noPanic_err _
    · exact noPanic_ok _
  split
  · exact noPanic_decodeSymbolList _ _ _ _ _
  · exact noPanic_decodeFixedList _ _

end Series

/-! ## Atoms and functions -/

theorem takeBytes_length {vec bytes : Bytes} {pos width stop : Nat} {context : String}
    (h : takeBytes vec pos width context = .ok (bytes, stop)) : bytes.length = width := by
  simp only [takeBytes, Exec.bind_eq_ok, Exec.okOr_eq_ok, checkedAdd_eq_some, Except.ok.injEq,
    Prod.mk.injEq] at h
  obtain ⟨_, ⟨rfl, -⟩, _, hrange, rfl, rfl⟩ := h
  have hlength := getRange_length hrange
  omega

theorem noPanic_index {vec : Bytes} {i : Nat} (h : i < vec.length) : NoPanic (index vec i) := by
  rw [index_of_lt h]
  exact noPanic_ok _

theorem noPanic_byteAtom {vec : Bytes} {pos : Nat} {context : String} {convert : UInt8 → Exec K}
    (hconvert : ∀ value, NoPanic (convert value)) : NoPanic (byteAtom vec pos context convert) := by
  refine NoPanic.bind ?_ fun _ _ => (hconvert _).bind fun _ _ => noPanic_ok _
  refine (noPanic_takeBytes _ _ _ _).bind fun taken htaken => ?_
  have hlength := takeBytes_length htaken
  exact (noPanic_index (by omega)).bind fun _ _ => noPanic_ok _

theorem noPanic_numberAtom {α : Type} [WireNumber α] {vec : Bytes} {pos : Nat} {context : String}
    {convert : α → Exec K} (hconvert : ∀ value, NoPanic (convert value)) :
    NoPanic (numberAtom α vec pos context convert) :=
  ((noPanic_takeBytes _ _ _ _).bind fun _ _ => noPanic_ok _).bind fun _ _ =>
    (hconvert _).bind fun _ _ => noPanic_ok _

theorem noPanic_deserializeAtom (vec : Bytes) (pos : Nat) (kType : UInt8) (encoding : SymbolEncoding) :
    NoPanic (deserializeAtom vec pos kType encoding) := by
  have htime : ∀ kType multiplier unit, NoPanic (timeAtom kType multiplier unit) := by
    intro kType multiplier unit
    unfold timeAtom
    split
    · exact noPanic_err _
    · exact (noPanic_okOr _ _).bind fun _ _ => (noPanic_okOr _ _).bind fun _ _ => noPanic_ok _
  unfold deserializeAtom
  split
  · refine noPanic_byteAtom fun value => ?_
    unfold booleanAtom
    split
    · exact noPanic_ok _
    split
    · exact noPanic_ok _
    · exact noPanic_err _
  · refine (noPanic_takeBytes _ _ _ _).bind fun taken htaken => NoPanic.bind ?_ fun _ _ => noPanic_ok _
    rw [guidAtom, dif_pos (takeBytes_length htaken)]
    exact noPanic_ok _
  · exact noPanic_byteAtom fun _ => noPanic_ok _
  · exact noPanic_numberAtom fun _ => noPanic_ok _
  · exact noPanic_numberAtom fun _ => noPanic_ok _
  · exact noPanic_numberAtom fun _ => noPanic_ok _
  · exact noPanic_numberAtom fun _ => noPanic_ok _
  · exact noPanic_numberAtom fun _ => noPanic_ok _
  · exact noPanic_byteAtom fun _ => noPanic_ok _
  · exact (noPanic_takeUtf8UntilNul _ _ _ _).bind fun _ _ => noPanic_ok _
  · refine noPanic_numberAtom fun value => ?_
    unfold timestampAtom
    split
    · exact noPanic_ok _
    · exact (noPanic_unixTimestampNanoseconds _).bind fun _ _ => noPanic_ok _
  · exact noPanic_numberAtom fun _ => (noPanic_okOr _ _).bind fun _ _ =>
      (noPanic_okOr _ _).bind fun _ _ => noPanic_ok _
  · exact noPanic_numberAtom fun _ => (noPanic_okOr _ _).bind fun _ _ =>
      (noPanic_okOr _ _).bind fun _ _ => noPanic_ok _
  · refine noPanic_numberAtom fun bits => ?_
    unfold datetimeAtom
    split
    · exact noPanic_ok _
    split
    · exact noPanic_err _
    · exact (noPanic_qDatetimeNanoseconds _).bind fun _ _ => noPanic_ok _
  · exact noPanic_numberAtom fun _ => noPanic_ok _
  · exact noPanic_numberAtom (htime _ _)
  · exact noPanic_numberAtom (htime _ _)
  · exact noPanic_numberAtom (htime _ _)
  · exact noPanic_err _

theorem noPanic_deserializeLambda (vec : Bytes) (pos : Nat) (encoding : SymbolEncoding) :
    NoPanic (deserializeLambda vec pos encoding) := by
  unfold deserializeLambda
  refine (noPanic_okOr _ _).bind fun tail htail => (noPanic_okOr _ _).bind fun length hlength => ?_
  refine (noPanic_okOr _ _).bind fun contextEnd hend => NoPanic.bind ?_ fun contextBytes _ => ?_
  · rw [Exec.okOr_eq_ok] at htail hlength hend
    obtain ⟨rfl, -⟩ := checkedAdd_eq_some.mp hend
    have hlt := memchr_lt hlength
    unfold getFrom at htail
    split at htail
    · cases htail
      rw [List.length_drop] at hlt
      exact noPanic_sliceRange (by omega) (by omega)
    · cases htail
  refine (noPanic_decodeUtf8 _ _ _).bind fun context _ => (noPanic_okOr _ _).bind fun start hstart => ?_
  refine (noPanic_okOr _ _).bind fun stop hstop => (noPanic_okOr _ _).bind fun header hheader => ?_
  refine NoPanic.bind ?_ fun sourceLength _ => ?_
  · rw [Exec.okOr_eq_ok] at hstop hheader
    obtain ⟨rfl, -⟩ := checkedAdd_eq_some.mp hstop
    have hsix := getRange_length hheader
    unfold deserializeLambda.lambdaHeader
    refine (noPanic_index (by omega)).bind fun _ _ => (noPanic_index (by omega)).bind fun _ _ => ?_
    split
    · exact noPanic_err _
    split
    · exact noPanic_err _
    split
    · exact noPanic_err _
    · exact noPanic_ok _
  refine (noPanic_okOr _ _).bind fun _ _ => (noPanic_okOr _ _).bind fun _ _ => ?_
  refine (noPanic_decodeUtf8 _ _ _).bind fun source _ => ?_
  split
  · exact noPanic_ok _
  · exact noPanic_err _

theorem noPanic_deserializePrimitive (vec : Bytes) (pos : Nat) (kType : UInt8) :
    NoPanic (deserializePrimitive vec pos kType) := by
  refine (noPanic_okOr _ _).bind fun opcode _ => ?_
  split
  · exact noPanic_ok _
  · exact (noPanic_okOr _ _).bind fun _ _ => noPanic_ok _

/-! ## Dictionaries -/

theorem noPanic_intoSeries (k : K) : NoPanic k.intoSeries := by
  cases k <;> first | exact noPanic_ok _ | exact noPanic_err _

theorem noPanic_intoDataFrame (k : K) : NoPanic k.intoDataFrame := by
  cases k <;> first | exact noPanic_ok _ | exact noPanic_err _

theorem noPanic_validateQSymbol (value : Bytes) : NoPanic (validateQSymbol value) := by
  unfold validateQSymbol
  split
  · exact noPanic_err _
  · exact noPanic_ok _

theorem noPanic_tryFromCell (type : FlatType) (cell : Option type.Cell) :
    NoPanic (K.tryFromCell type cell) := by
  cases cell with
  | none => exact noPanic_ok _
  | some value =>
    cases type with
    | boolean | uint8 | int16 | int32 | int64 | float32 | float64 | string => exact noPanic_ok _
    | binary =>
      rw [K.tryFromCell]
      split
      · exact noPanic_ok _
      · exact noPanic_err _
    | date | datetime | duration | time =>
      exact (noPanic_okOr _ _).bind fun _ _ => noPanic_ok _
    | categorical mapping =>
      exact (noPanic_okOr _ _).bind fun _ _ => (noPanic_validateQSymbol _).bind fun _ _ => noPanic_ok _

theorem noPanic_dictionaryValues (k : K) : NoPanic (dictionaryValues k) := by
  unfold dictionaryValues
  split
  · next series =>
    unfold K.seriesValues
    split
    · exact noPanic_ok _
    · exact noPanic_tryCollect (noPanic_tryFromCell _) _
    · exact noPanic_ok _
    · exact noPanic_err _
    · exact noPanic_err _
  · exact noPanic_ok _
  · exact noPanic_ok _
  · exact noPanic_err _

theorem noPanic_insertEntries (dict entries : List (Str × K)) : NoPanic (insertEntries dict entries) := by
  induction entries generalizing dict with
  | nil => exact noPanic_ok _
  | cons entry entries ih =>
    rw [insertEntries]
    split
    · exact noPanic_err _
    · exact ih _

theorem noPanic_buildDictionary (keys : Series) (values : K) : NoPanic (buildDictionary keys values) := by
  refine NoPanic.bind ?_ fun texts _ => NoPanic.bind ?_ fun length _ => ?_
  · unfold keyTexts
    split
    · exact noPanic_ok _
    · exact noPanic_err _
  · unfold valueLength
    split
    · exact noPanic_ok _
    · exact noPanic_ok _
    · exact noPanic_ok _
    · exact noPanic_err _
  split
  · exact noPanic_err _
  · exact (noPanic_dictionaryValues _).bind fun _ _ =>
      (noPanic_insertEntries _ _).bind fun _ _ => noPanic_ok _

theorem noPanic_stackFrames (keys values : DataFrame) : NoPanic (stackFrames keys values) := by
  unfold stackFrames
  split
  · exact noPanic_ok _
  · exact noPanic_err _

section Ends

variable {vec : Bytes} {pos : Nat} {kType : UInt8} {stop : Nat}

/-- The end of a list is within the bytes. -/
theorem endIndex_within (hsize : vec.length < usizeMax) (h : calculateArrayEndIndex vec pos kType = .ok stop) :
    pos ≤ stop ∧ stop ≤ vec.length := by
  have hpos : pos ≤ vec.length := by
    obtain ⟨-, next, -, hheader, -⟩ := calculateArrayEndIndex_eq.mp h
    by_contra hpast
    have hshort : vec.length < saturatingAdd pos 5 := by
      simp only [saturatingAdd]
      omega
    simp only [ListScan.takeHeader, if_pos hshort, incompleteOrOverrun, Exec.err_bind] at hheader
    cases hheader
  have hat : At vec pos (vec.drop pos) := ⟨rfl, hpos, hsize.le⟩
  obtain ⟨list, rest, -, -, hahead, rfl⟩ := (calculateArrayEndIndex_eq_ok hat).mp h
  have hlength := hat.length_eq
  rw [hahead, List.length_append] at hlength
  omega

theorem noPanic_dictionaryKeys (categories : CategoricalMapping) (encoding : SymbolEncoding)
    (hsize : vec.length < usizeMax) (keyType : UInt8) :
    NoPanic (dictionaryKeys categories encoding vec pos keyType) := by
  unfold dictionaryKeys
  split
  · refine (noPanic_calculateArrayEndIndex hsize).bind fun stop hstop => ?_
    obtain ⟨hle, hwithin⟩ := endIndex_within hsize hstop
    exact (noPanic_sliceRange hle hwithin).bind fun _ _ =>
      (noPanic_deserializeSeries _ _ _ _ _).bind fun _ _ =>
        (noPanic_intoSeries _).bind fun _ _ => noPanic_ok _
  · refine (noPanic_takeListLength _ _ _).bind fun _ _ => ?_
    simp only
    split
    · exact (noPanic_newEmptySeries _ _).bind fun _ _ =>
        (noPanic_intoSeries _).bind fun _ _ => noPanic_ok _
    · exact noPanic_err _

end Ends

end Xqdb
