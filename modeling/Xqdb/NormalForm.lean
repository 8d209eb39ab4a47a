import Xqdb.DecodeLists
import Xqdb.EncoderGrammar

/-! What comes back when an encoded value is decoded natively. Values without series,
frames and lossless payloads have a normal form: texts come back as character vectors,
a list of texts as a string column, an empty list as the empty null column. -/

namespace Xqdb

open LittleEndian (encode decode)
open QValue (symbolBytes)
open WireNumber (toLe)

namespace K

mutual

/-- Atoms, texts, functions, and lists and dictionaries of them; no leap seconds. -/
def IsPlain : K → Prop
  | .MixedList values => AllPlain values
  | .Dict entries => EntriesPlain entries
  | .Series _ => False
  | .DataFrame _ => False
  | .QValue _ => False
  | .DateTime value => ¬ value.isLeap
  | .Time value => ¬ value.isLeap
  | _ => True

def AllPlain : List K → Prop
  | [] => True
  | value :: values => value.IsPlain ∧ AllPlain values

def EntriesPlain : List (Str × K) → Prop
  | [] => True
  | (_, value) :: entries => value.IsPlain ∧ EntriesPlain entries

end

mutual

/-- Levels as the decoder counts them: a list is one, a dictionary two. -/
def nesting : K → Nat
  | .MixedList values => 1 + maxNesting values
  | .Dict entries => 2 + entriesNesting entries
  | _ => 0

def maxNesting : List K → Nat
  | [] => 0
  | value :: values => max value.nesting (maxNesting values)

def entriesNesting : List (Str × K) → Nat
  | [] => 0
  | (_, value) :: entries => max value.nesting (entriesNesting entries)

end

/-! ## The normal form -/

/-- The bytes of a text. -/
def textOf : K → Option Bytes
  | .String text => some text.bytes
  | .CharVector text => some text
  | _ => none

/-- What a value is as a row of a text column: an empty list is an empty text. -/
def rowOf : K → Option Bytes
  | .MixedList [] => some []
  | k => textOf k

/-- The rows of a list that starts with a text and goes on with rows. -/
def textRows : List K → Option (List Bytes)
  | [] => none
  | first :: rest => (textOf first).bind fun row => (rest.mapM rowOf).map (row :: ·)

section Norm

-- `texts` makes a text column of rows, if it can
variable (texts : List Bytes → Option (List Str))

mutual

/-- What the value comes back as; nothing when the decoder refuses it. -/
def normWith : K → Option K
  | .String text => some (.CharVector text.bytes)
  | .MixedList values =>
    match values, textRows values with
    | [], _ => some (.Series ⟨typeName 0, .null 0⟩)
    | _, some rows => (texts rows).map fun column =>
        .Series (.ofCells (typeName 10) .string (column.map some))
    | _, none => (normAll values).map .MixedList
  | .Dict entries =>
    match textRows (entries.map Prod.snd) with
    | some rows => (texts rows).map fun column =>
        .Dict ((entries.map Prod.fst).zip (column.map .String))
    | none => (normEntries entries).map .Dict
  | k => some k

def normAll : List K → Option (List K)
  | [] => some []
  | value :: values => (normWith value).bind fun v => (normAll values).map (v :: ·)

def normEntries : List (Str × K) → Option (List (Str × K))
  | [] => some []
  | (key, value) :: entries =>
    (normWith value).bind fun v => (normEntries entries).map ((key, v) :: ·)

end

end Norm

theorem normWith_texts {texts : List Bytes → Option (List Str)} {values : List K} {rows : List Bytes}
    (h : textRows values = some rows) :
    normWith texts (.MixedList values) = (texts rows).map fun column =>
      .Series (.ofCells (typeName 10) .string (column.map some)) := by
  cases values with
  | nil => cases h
  | cons first rest => simp only [normWith, h]

theorem normWith_list {texts : List Bytes → Option (List Str)} {values : List K} (hne : values ≠ [])
    (h : textRows values = none) :
    normWith texts (.MixedList values) = (normAll texts values).map .MixedList := by
  cases values with
  | nil => exact absurd rfl hne
  | cons first rest => simp only [normWith, h]

/-- The rows of a text column are texts. -/
def norm : K → Option K := normWith rowTexts

/-- They are also within one view buffer, as the decoder checks. -/
def viewNorm : K → Option K := normWith viewTexts

end K

/-! ## Atoms -/

section Atoms

variable {vec rest : Bytes} {pos : Nat}

theorem takeBytes_at {front : Bytes} (h : At vec pos (front ++ rest)) {width : Nat}
    (hwidth : front.length = width) (context : String) :
    takeBytes vec pos width context = .ok (front, pos + front.length) :=
  (takeBytes_eq_ok h).mpr ⟨hwidth, rest, rfl, by rw [hwidth]⟩

theorem numberAtom_at {α : Type} [WireNumber α] {a : α} {context : String} {convert : α → Exec K}
    {k : K} (hconvert : convert a = .ok k) (h : At vec pos (toLe a ++ rest)) :
    numberAtom α vec pos context convert = .ok (k, pos + (toLe a).length) := by
  rw [numberAtom, takeNumber, takeBytes_at h (WireNumber.toLe_length a)]
  simp only [Exec.ok_bind, WireNumber.fromLe_toLe, hconvert]

theorem byteAtom_at {b : UInt8} {context : String} {convert : UInt8 → Exec K} {k : K}
    (hconvert : convert b = .ok k) (h : At vec pos (b :: rest)) :
    byteAtom vec pos context convert = .ok (k, pos + 1) := by
  rw [byteAtom, takeByteAt, @takeBytes_at vec rest pos [b] h 1 rfl]
  simp only [Exec.ok_bind, index, List.getElem?_cons_zero, hconvert]
  rfl

theorem timestampAtom_finite {value : Xqdb.DateTime} {unixNanoseconds qNanoseconds : Int64}
    (hleap : ¬ value.isLeap) (hunix : value.timestampNanosOpt = some unixNanoseconds)
    (hq : qTimestampNanoseconds unixNanoseconds = .ok qNanoseconds) :
    timestampAtom qNanoseconds = .ok (.DateTime value) := by
  obtain ⟨_, hdiff, hfinite⟩ := Option.bind_eq_some_iff.mp (Exec.okOr_eq_ok.mp hq)
  rw [checkedI64_eq_some] at hdiff
  unfold finiteTimestamp at hfinite
  split at hfinite
  · next hrange =>
    cases hfinite
    have hmin : qNanoseconds ≠ i64Min := by
      rintro rfl
      exact absurd hrange.1 (by decide)
    have hback : checkedI64 (qNanoseconds.toInt + nanosDiff) = some unixNanoseconds :=
      checkedI64_eq_some.mpr (by omega)
    have hunixOk : unixTimestampNanoseconds qNanoseconds = .ok unixNanoseconds := by
      rw [unixTimestampNanoseconds, if_neg (by omega), hback, Exec.okOr_some]
    rw [timestampAtom, if_neg hmin, hunixOk, Exec.ok_bind,
      DateTime.fromTimestampNanos_timestampNanosOpt hleap hunix]
  · cases hfinite

theorem dateAtom_days {value : NaiveDate} {days : Int32}
    (h : checkedI32 (value.numDaysFromCe.toInt - 730120) = some days) :
    dateAtom days = .ok (.Date value) := by
  have hdays := checkedI32_eq_some.mp h
  have hback : checkedI32 (days.toInt + 730120) = some value.numDaysFromCe :=
    checkedI32_eq_some.mpr (by omega)
  simp [dateAtom, hback, NaiveDate.fromNumDaysFromCeOpt_numDaysFromCe]

theorem timeAtom_milliseconds {value : NaiveTime} (hleap : ¬ value.isLeap)
    (hprecise : value.frac % 1000000 = 0) :
    timeAtom 237 1000000 (Int32.ofInt value.milliseconds) = .ok (.Time value) := by
  have hfrac : value.frac < 1000000000 := by simpa [NaiveTime.isLeap] using hleap
  have hsecs := value.secs_lt
  have hlt := value.milliseconds_lt
  have hword : (Int32.ofInt value.milliseconds).toInt = value.milliseconds :=
    Int32.toInt_ofInt_of_le (by omega) (by omega)
  have hnanos : (value.milliseconds : Int) * 1000000 = (value.secs * 1000000000 + value.frac : Nat) := by
    unfold NaiveTime.milliseconds
    omega
  have hchecked : checkedI64 ((value.secs * 1000000000 + value.frac : Nat) : Int) =
      some (Int64.ofInt (value.secs * 1000000000 + value.frac : Nat)) := by
    rw [checkedI64, if_pos (by omega)]
  have hback := checkedI64_eq_some.mp hchecked
  have hday : nanosPerDay = 86400000000000 := rfl
  have hdiv : (value.secs * 1000000000 + value.frac) / 1000000000 = value.secs := by omega
  have hmod : (value.secs * 1000000000 + value.frac) % 1000000000 = value.frac := by omega
  rw [timeAtom, hword, if_neg (by omega), hnanos, hchecked, Option.bind_some, hback,
    if_pos (by omega), Exec.okOr_some, Exec.ok_bind, hback, Int.toNat_natCast, hdiv, hmod,
    NaiveTime.fromNumSecondsFromMidnightOpt_parts hleap, Exec.okOr_some, Exec.ok_bind]

end Atoms

/-! ## Leaves -/

section Leaves

variable {categories : CategoricalMapping} {vec rest : Bytes} {pos fuel depth : Nat}

theorem deserializeUnchecked_body {encoding : SymbolEncoding} {isColumn : Bool} {kType : UInt8}
    (hdepth : depth ≤ maxValueDepth) (h : At vec pos (kType :: rest)) :
    deserializeUnchecked categories encoding (fuel + 1) vec pos isColumn depth =
      deserializeBody categories encoding (deserializeUnchecked categories encoding fuel) vec (pos + 1)
        kType isColumn depth := by
  rw [deserializeUnchecked, if_neg (by omega), h.getElem?, Exec.okOr_some, Exec.ok_bind]

/-- An atom behind its type byte. -/
theorem decode_atom {encoding : SymbolEncoding} {kType : UInt8} {payload : Bytes} {k : K}
    (hdepth : depth ≤ maxValueDepth) (hkind : 237 ≤ kType) (h : At vec pos (kType :: payload ++ rest))
    (hatom : At vec (pos + 1) (payload ++ rest) →
      deserializeAtom vec (pos + 1) kType encoding = .ok (k, pos + 1 + payload.length)) :
    deserializeUnchecked categories encoding (fuel + 1) vec pos false depth =
      .ok (k, pos + (kType :: payload).length) := by
  rw [deserializeUnchecked_body hdepth h, deserializeBody, if_pos hkind, hatom h.skip_one,
    List.length_cons]
  congr 2
  omega

theorem decode_charVector {encoding : SymbolEncoding} {text bytes : Bytes}
    (hdepth : depth ≤ maxValueDepth) (hbytes : charVector text = .ok bytes)
    (h : At vec pos (bytes ++ rest)) :
    deserializeUnchecked categories encoding (fuel + 1) vec pos false depth =
      .ok (.CharVector text, pos + bytes.length) := by
  simp only [charVector, Exec.bind_eq_ok, qListLength_eq_ok, Except.ok.injEq] at hbytes
  obtain ⟨_, ⟨hcount, rfl⟩, rfl⟩ := hbytes
  have hbody : At vec pos (10 :: ((0 :: (encode 4 text.length ++ text)) ++ rest)) := by simpa using h
  have hlen := hbody.length_eq
  have hbound := hbody.bounded
  simp only [List.length_cons, List.length_append, LittleEndian.encode_length] at hlen
  have hend : calculateArrayEndIndex vec (pos + 1) 10 =
      .ok (pos + 1 + (0 :: (encode 4 text.length ++ text)).length) :=
    (calculateArrayEndIndex_eq_ok hbody.skip_one).mpr
      ⟨.fixed 10 0 text.length text, rest, ⟨by decide, by decide, by decide, by decide, hcount,
        (Nat.mul_one _).symm⟩, rfl, rfl, rfl⟩
  have hslice := (sliceRange_at hbody.skip_one).mpr ⟨rest, rfl, rfl⟩
  rw [deserializeUnchecked_body hdepth hbody, deserializeBody, if_neg (by decide), if_pos (by decide),
    deserializeList, hend]
  simp only
  rw [deserializeSlice, hslice, Exec.ok_bind]
  change (do
    let k ← deserializeSeries categories (0 :: (encode 4 text.length ++ text)) 10 false encoding
    Except.ok (k, _)) = _
  rw [deserializeSeries_chars hcount (by simp; omega), Exec.ok_bind]
  congr 2
  simp
  omega

theorem deserializeLambda_at {encoding : SymbolEncoding} {lambda : QLambda}
    (hcount : lambda.source.bytes.length ≤ i32Max)
    (h : At vec pos (lambda.context.bytes ++
      0 :: ((10 :: 0 :: encode 4 lambda.source.bytes.length) ++ (lambda.source.bytes ++ rest)))) :
    deserializeLambda vec pos encoding =
      .ok (.Lambda lambda, pos + (lambda.context.bytes.length + 1) + 6 + lambda.source.bytes.length) := by
  have hi32 : i32Max = 2 ^ 31 - 1 := rfl
  have hlen := h.length_eq
  have hbound := h.bounded
  simp only [List.length_append, List.length_cons, LittleEndian.encode_length] at hlen
  have hfrom : getFrom vec pos = some (lambda.context.bytes ++
      0 :: ((10 :: 0 :: encode 4 lambda.source.bytes.length) ++ (lambda.source.bytes ++ rest))) := by
    rw [getFrom, if_pos h.within, h.ahead]
  have hcontext : sliceRange vec pos (pos + lambda.context.bytes.length) = .ok lambda.context.bytes :=
    (sliceRange_at h).mpr ⟨_, rfl, rfl⟩
  have hvector := h.skip_symbol
  have hheader := (getRange_at hvector).mpr ⟨_, rfl, rfl⟩
  have hsource := (getRange_at hvector.skip).mpr ⟨_, rfl, rfl⟩
  have hheaderLen : (10 :: 0 :: encode 4 lambda.source.bytes.length).length = 6 := by simp
  rw [hheaderLen] at hheader hsource
  have hdecode : decode (encode 4 lambda.source.bytes.length) = lambda.source.bytes.length :=
    LittleEndian.decode_encode 4 _ (by omega)
  have hlambda : deserializeLambda.lambdaHeader (10 :: 0 :: encode 4 lambda.source.bytes.length) =
      .ok lambda.source.bytes.length := by
    simp only [deserializeLambda.lambdaHeader, index, List.getElem?_cons_zero,
      List.getElem?_cons_succ, Exec.ok_bind, List.drop_succ_cons, List.drop_zero, hdecode]
    rw [if_neg (by decide), if_neg (by decide), if_neg]
    rw [LittleEndian.signed_nonneg (by omega)]
    omega
  have add : ∀ a b, a + b ≤ vec.length → checkedAdd a b = some (a + b) := fun a b hle =>
    checkedAdd_eq_some.mpr ⟨rfl, by omega⟩
  simp only [deserializeLambda, hfrom, Exec.okOr_some, Exec.ok_bind,
    memchr_append_zero lambda.zero_notMem_context]
  rw [add _ _ (by omega), Exec.okOr_some, Exec.ok_bind, hcontext, Exec.ok_bind, decodeUtf8_valid,
    Exec.ok_bind, add _ _ (by omega), Exec.okOr_some, Exec.ok_bind, Nat.add_assoc, add _ _ (by omega),
    Exec.okOr_some, Exec.ok_bind, hheader, Exec.okOr_some, Exec.ok_bind, hlambda, Exec.ok_bind,
    add _ _ (by omega), Exec.okOr_some, Exec.ok_bind, hsource, Exec.okOr_some, Exec.ok_bind,
    decodeUtf8_valid, Exec.ok_bind]
  simp only [QLambda.withContext_parts]

theorem deserializePrimitive_operator (operator : QOperator) (h : At vec pos (operator.opcode :: rest)) :
    deserializePrimitive vec pos operator.kType = .ok (.Operator operator, pos + 1) := by
  rw [deserializePrimitive, h.getElem?, Exec.okOr_some, Exec.ok_bind, if_neg operator.ne_identity,
    QOperator.fromWire_wireValue, Exec.okOr_some, Exec.ok_bind]

theorem decode_number {α : Type} [WireNumber α] {encoding : SymbolEncoding} {kType : UInt8} {a : α}
    {context : String} {convert : α → Exec K} {k : K} (hdepth : depth ≤ maxValueDepth)
    (hkind : 237 ≤ kType)
    (hread : ∀ pos, deserializeAtom vec pos kType encoding = numberAtom α vec pos context convert)
    (hconvert : convert a = .ok k) (h : At vec pos (kType :: toLe a ++ rest)) :
    deserializeUnchecked categories encoding (fuel + 1) vec pos false depth =
      .ok (k, pos + (kType :: toLe a).length) :=
  decode_atom hdepth hkind h fun hat => by rw [hread, numberAtom_at hconvert hat]

theorem decode_byte {encoding : SymbolEncoding} {kType b : UInt8} {context : String}
    {convert : UInt8 → Exec K} {k : K} (hdepth : depth ≤ maxValueDepth) (hkind : 237 ≤ kType)
    (hread : ∀ pos, deserializeAtom vec pos kType encoding = byteAtom vec pos context convert)
    (hconvert : convert b = .ok k) (h : At vec pos (kType :: [b] ++ rest)) :
    deserializeUnchecked categories encoding (fuel + 1) vec pos false depth =
      .ok (k, pos + [kType, b].length) :=
  decode_atom hdepth hkind h fun hat => by rw [hread, byteAtom_at hconvert hat]; rfl

/-- **A leaf comes back** as it was, a string as a character vector. -/
theorem decode_leaf {k : K} (hleaf : k.IsLeaf) (hplain : k.IsPlain) {level n : Nat}
    (hlen : K.leafLen level k = .ok n) {bytes : Bytes} (hbytes : K.appendedLeaf k = .ok bytes)
    (hdepth : depth ≤ maxValueDepth) (h : At vec pos (bytes ++ rest)) :
    ∃ v, (∀ texts, K.normWith texts k = some v) ∧
      deserializeUnchecked categories .Strict (fuel + 1) vec pos false depth =
        .ok (v, pos + bytes.length) := by
  cases k with
  | Boolean value =>
    cases hbytes
    exact ⟨.Boolean value, fun _ => rfl, decode_byte hdepth (by decide) (fun _ => rfl)
      (by cases value <;> rfl) h⟩
  | Guid value =>
    cases hbytes
    refine ⟨.Guid value, fun _ => rfl, decode_atom hdepth (by decide) h fun hat => ?_⟩
    have hread := takeBytes_at hat value.length_eq "q GUID atom"
    simp only [deserializeAtom, UInt8.reduceToNat, hread, Exec.ok_bind, guidAtom,
      dif_pos value.length_eq]
  | U8 value =>
    cases hbytes
    exact ⟨.U8 value, fun _ => rfl, decode_byte hdepth (by decide) (fun _ => rfl) (by rfl) h⟩
  | I16 value =>
    cases hbytes
    exact ⟨.I16 value, fun _ => rfl, decode_number hdepth (by decide) (fun _ => rfl) (by rfl) h⟩
  | I32 value =>
    cases hbytes
    exact ⟨.I32 value, fun _ => rfl, decode_number hdepth (by decide) (fun _ => rfl) (by rfl) h⟩
  | I64 value =>
    cases hbytes
    exact ⟨.I64 value, fun _ => rfl, decode_number hdepth (by decide) (fun _ => rfl) (by rfl) h⟩
  | F32 bits =>
    cases hbytes
    exact ⟨.F32 bits, fun _ => rfl, decode_number hdepth (by decide) (fun _ => rfl) (by rfl) h⟩
  | F64 bits =>
    cases hbytes
    exact ⟨.F64 bits, fun _ => rfl, decode_number hdepth (by decide) (fun _ => rfl) (by rfl) h⟩
  | Char value =>
    cases hbytes
    exact ⟨.Char value, fun _ => rfl, decode_byte hdepth (by decide) (fun _ => rfl) (by rfl) h⟩
  | CharVector text => exact ⟨.CharVector text, fun _ => rfl, decode_charVector hdepth hbytes h⟩
  | String text => exact ⟨.CharVector text.bytes, fun _ => rfl, decode_charVector hdepth hbytes h⟩
  | Symbol value =>
    simp only [K.appendedLeaf, Exec.bind_eq_ok, validateQSymbol_eq_ok, Except.ok.injEq] at hbytes
    obtain ⟨⟨⟩, hnul, rfl⟩ := hbytes
    refine ⟨.Symbol value, fun _ => rfl, decode_atom hdepth (by decide) h fun hat => ?_⟩
    have hread := (@takeUntilNul_eq_ok _ _ _ hat value.bytes _ "q symbol atom").mpr
      ⟨hnul, rest, by simp, rfl⟩
    simp only [deserializeAtom, UInt8.reduceToNat, takeUtf8UntilNul, hread, Exec.ok_bind,
      decodeUtf8_valid, List.length_append, List.length_singleton, Nat.add_assoc]
  | DateTime value =>
    simp only [K.appendedLeaf, Exec.bind_eq_ok, Exec.okOr_eq_ok, Except.ok.injEq] at hbytes
    obtain ⟨unixNanoseconds, hunix, qNanoseconds, hq, rfl⟩ := hbytes
    exact ⟨.DateTime value, fun _ => rfl, decode_number hdepth (by decide) (fun _ => rfl)
      (timestampAtom_finite hplain hunix hq) h⟩
  | Date value =>
    simp only [K.appendedLeaf, Exec.bind_eq_ok, Exec.okOr_eq_ok, Except.ok.injEq] at hbytes
    obtain ⟨days, hdays, rfl⟩ := hbytes
    exact ⟨.Date value, fun _ => rfl, decode_number hdepth (by decide) (fun _ => rfl)
      (dateAtom_days hdays) h⟩
  | Time value =>
    cases hbytes
    have hprecise : value.frac % 1000000 = 0 := by
      simp only [K.leafLen] at hlen
      split at hlen
      · cases hlen
      · next hfrac => exact not_not.mp hfrac
    exact ⟨.Time value, fun _ => rfl, decode_number hdepth (by decide) (fun _ => rfl)
      (timeAtom_milliseconds hplain hprecise) h⟩
  | Duration value =>
    simp only [K.appendedLeaf, Exec.bind_eq_ok, Exec.okOr_eq_ok, Except.ok.injEq] at hbytes
    obtain ⟨nanoseconds, hnanos, rfl⟩ := hbytes
    have hread : ∀ pos, deserializeAtom vec pos 240 .Strict = numberAtom Int64 vec pos
        "q timespan atom" (fun value => .ok (.Duration (Duration.ofNanoseconds value))) :=
      fun _ => rfl
    exact ⟨.Duration value, fun _ => rfl, decode_number hdepth (by decide) hread
      (by rw [Duration.ofNanoseconds_numNanoseconds hnanos]) h⟩
  | Operator operator =>
    cases hbytes
    refine ⟨.Operator operator, fun _ => rfl, ?_⟩
    have hat : At vec pos (operator.kType :: operator.opcode :: rest) := h
    have hread := deserializePrimitive_operator operator hat.skip_one
    rw [deserializeUnchecked_body hdepth hat]
    rcases operator.kType_cases with hkind | hkind | hkind <;> rw [hkind] at hread ⊢
    all_goals
      rw [deserializeBody, if_neg (by decide), if_neg (by decide), if_neg (by decide),
        if_neg (by decide), if_neg (by decide), if_pos (by decide), hread]
      rfl
  | Lambda lambda =>
    simp only [K.appendedLeaf, Exec.bind_eq_ok, qListLength_eq_ok, Except.ok.injEq] at hbytes
    obtain ⟨_, ⟨hcount, rfl⟩, rfl⟩ := hbytes
    refine ⟨.Lambda lambda, fun _ => rfl, ?_⟩
    have hat : At vec pos (100 :: (lambda.context.bytes ++ 0 ::
        ((10 :: 0 :: encode 4 lambda.source.bytes.length) ++ (lambda.source.bytes ++ rest)))) := by
      simpa using h
    rw [deserializeUnchecked_body hdepth hat, deserializeBody, if_neg (by decide), if_neg (by decide),
      if_neg (by decide), if_neg (by decide), if_pos rfl, deserializeLambda_at hcount hat.skip_one]
    congr 2
    simp
    omega
  | Null =>
    cases hbytes
    refine ⟨.Null, fun _ => rfl, ?_⟩
    have hat : At vec pos (101 :: 0 :: rest) := h
    rw [deserializeUnchecked_body hdepth hat, deserializeBody, if_neg (by decide), if_neg (by decide),
      if_neg (by decide), if_neg (by decide), if_neg (by decide), if_pos (by decide),
      deserializePrimitive, hat.skip_one.getElem?, Exec.okOr_some, Exec.ok_bind, if_pos ⟨rfl, rfl⟩]
    rfl
  | MixedList values => exact hleaf.elim
  | Dict entries => exact hleaf.elim
  | Series series => exact hplain.elim
  | DataFrame frame => exact hplain.elim
  | QValue value => exact hplain.elim

end Leaves

/-! ## Lists of texts -/

namespace K

theorem allPlain_iff {values : List K} : AllPlain values ↔ ∀ value ∈ values, value.IsPlain := by
  induction values with
  | nil => simp [AllPlain]
  | cons value values ih => simp [AllPlain, ih]

theorem entriesPlain_iff {entries : List (Str × K)} :
    EntriesPlain entries ↔ AllPlain (entries.map Prod.snd) := by
  induction entries with
  | nil => simp [EntriesPlain, AllPlain]
  | cons entry entries ih =>
    obtain ⟨key, value⟩ := entry
    simp [EntriesPlain, AllPlain, ih]

theorem entriesNesting_eq (entries : List (Str × K)) :
    entriesNesting entries = maxNesting (entries.map Prod.snd) := by
  induction entries with
  | nil => rfl
  | cons entry entries ih =>
    obtain ⟨key, value⟩ := entry
    simp only [entriesNesting, List.map_cons, maxNesting, ih]

/-- What an encoding starts with: only texts and general lists have a list type. -/
inductive Encoded : K → Bytes → Prop
  | text {k : K} {text : Bytes} (htext : textOf k = some text) (hcount : text.length ≤ i32Max) :
    Encoded k (10 :: 0 :: (encode 4 text.length ++ text))
  | list {values : List K} {members : Bytes} (hcount : values.length ≤ i32Max)
    (hmembers : appendedAll values = .ok members) :
    Encoded (.MixedList values) (0 :: 0 :: (encode 4 values.length ++ members))
  | other {k : K} {kType next : UInt8} {tail : Bytes} (hkind : kType ≠ 0) (hnested : kType ∉ nestedTypes)
    (hrow : rowOf k = none) : Encoded k (kType :: next :: tail)

theorem encoded_number {α : Type} [WireNumber α] {k : K} {kType : UInt8} (a : α) (hkind : kType ≠ 0)
    (hnested : kType ∉ nestedTypes) (hrow : rowOf k = none) : Encoded k (kType :: toLe a) := by
  have hlen := WireNumber.toLe_length a
  have hpos := WireNumber.width_pos (α := α)
  cases hbytes : toLe a with
  | nil =>
    rw [hbytes] at hlen
    simp at hlen
    omega
  | cons next tail => exact .other hkind hnested hrow

theorem encoded_charVector {k : K} {text bytes : Bytes} (htext : textOf k = some text)
    (h : charVector text = .ok bytes) : Encoded k bytes := by
  simp only [charVector, Exec.bind_eq_ok, qListLength_eq_ok, Except.ok.injEq] at h
  obtain ⟨_, ⟨hcount, rfl⟩, rfl⟩ := h
  exact .text htext hcount

theorem appended_encoded {k : K} (hplain : k.IsPlain) {bytes : Bytes} (h : k.appended = .ok bytes) :
    Encoded k bytes := by
  cases k with
  | MixedList values =>
    simp only [appended, Exec.bind_eq_ok, qListLength_eq_ok, Except.ok.injEq] at h
    obtain ⟨_, ⟨hcount, rfl⟩, members, hmembers, rfl⟩ := h
    exact .list hcount hmembers
  | Dict entries =>
    simp only [appended, Exec.bind_eq_ok, qListLength_eq_ok, Except.ok.injEq] at h
    obtain ⟨_, -, keys, -, values, -, rfl⟩ := h
    exact .other (by decide) (by decide) rfl
  | CharVector text => exact encoded_charVector rfl h
  | String text => exact encoded_charVector rfl h
  | Boolean value =>
    cases h
    exact .other (by decide) (by decide) rfl
  | Guid value =>
    cases h
    obtain ⟨_ | ⟨next, tail⟩, hlen⟩ := value
    · cases hlen
    · exact .other (by decide) (by decide) rfl
  | U8 value =>
    cases h
    exact .other (by decide) (by decide) rfl
  | I16 value =>
    cases h
    exact encoded_number value (by decide) (by decide) rfl
  | I32 value =>
    cases h
    exact encoded_number value (by decide) (by decide) rfl
  | I64 value =>
    cases h
    exact encoded_number value (by decide) (by decide) rfl
  | F32 bits =>
    cases h
    exact encoded_number bits (by decide) (by decide) rfl
  | F64 bits =>
    cases h
    exact encoded_number bits (by decide) (by decide) rfl
  | Char value =>
    cases h
    exact .other (by decide) (by decide) rfl
  | Symbol value =>
    simp only [appended, appendedLeaf, Exec.bind_eq_ok, Except.ok.injEq] at h
    obtain ⟨⟨⟩, -, rfl⟩ := h
    cases value.bytes with
    | nil => exact .other (by decide) (by decide) rfl
    | cons next tail => exact .other (by decide) (by decide) rfl
  | DateTime value =>
    simp only [appended, appendedLeaf, Exec.bind_eq_ok, Except.ok.injEq] at h
    obtain ⟨_, -, q, -, rfl⟩ := h
    exact encoded_number q (by decide) (by decide) rfl
  | Date value =>
    simp only [appended, appendedLeaf, Exec.bind_eq_ok, Except.ok.injEq] at h
    obtain ⟨days, -, rfl⟩ := h
    exact encoded_number days (by decide) (by decide) rfl
  | Time value =>
    cases h
    exact encoded_number (Int32.ofInt value.milliseconds) (by decide) (by decide) rfl
  | Duration value =>
    simp only [appended, appendedLeaf, Exec.bind_eq_ok, Except.ok.injEq] at h
    obtain ⟨nanoseconds, -, rfl⟩ := h
    exact encoded_number nanoseconds (by decide) (by decide) rfl
  | Operator operator =>
    cases h
    rcases operator.kType_cases with hkind | hkind | hkind
    all_goals
      refine .other ?_ ?_ rfl
      · simp [QOperator.wireValue, hkind]
      · simp only [QOperator.wireValue, hkind]
        decide
  | Lambda lambda =>
    simp only [appended, appendedLeaf, Exec.bind_eq_ok, Except.ok.injEq] at h
    obtain ⟨_, -, rfl⟩ := h
    cases lambda.context.bytes with
    | nil => exact .other (by decide) (by decide) rfl
    | cons next tail => exact .other (by decide) (by decide) rfl
  | Null =>
    cases h
    exact .other (by decide) (by decide) rfl
  | Series series => exact hplain.elim
  | DataFrame frame => exact hplain.elim
  | QValue value => exact hplain.elim

/-- The rows of a text column are character vectors and empty lists. -/
theorem fits_ten_cases {row : NestedRow} (h : row.Fits 10) :
    (∃ attr, row = .empty attr) ∨
      ∃ attr payload, payload.length ≤ i32Max ∧ row = .fixed 10 attr payload.length payload := by
  cases row with
  | empty attr => exact .inl ⟨attr, rfl⟩
  | symbols attr texts =>
    rcases h.2 with hk | hk <;> exact absurd hk (by simp [NestedRow.kType])
  | fixed kType attr count payload =>
    obtain ⟨⟨hmem, -, hcount, hlen⟩, hk⟩ := h
    have hk : kType = 10 := hk.resolve_right (nestedTypes_cases hmem)
    subst hk
    obtain rfl : count = payload.length := by rw [hlen]; exact (Nat.mul_one _).symm
    exact .inr ⟨attr, payload, hcount, rfl⟩

/-- A value that reads as a row of a text column is one. -/
theorem row_of_encoded {k : K} {bytes rest rest' : Bytes} {row : NestedRow} (hencoded : Encoded k bytes)
    (hfits : row.Fits 10) (h : bytes ++ rest = row.encode ++ rest') :
    rowOf k = some row.payload ∧ bytes = row.encode := by
  have hi32 : i32Max = 2 ^ 31 - 1 := rfl
  obtain ⟨attr, rfl⟩ | ⟨attr, payload, hpayload, rfl⟩ := fits_ten_cases hfits
  · simp only [NestedRow.encode, List.cons_append] at h
    cases hencoded with
    | other hkind hnested hrow => exact absurd (List.cons.inj h).1 hkind
    | text htext hcount => exact absurd (List.cons.inj h).1 (by decide)
    | @list values members hcount hmembers =>
      simp only [List.cons_append, List.cons.injEq, List.append_assoc, true_and] at h
      obtain ⟨rfl, h⟩ := h
      obtain ⟨hzero, -⟩ := QValue.count_append_inj (by omega) (by omega) h
      obtain rfl := List.length_eq_zero_iff.mp hzero
      cases hmembers
      exact ⟨rfl, by simp [NestedRow.encode]⟩
  · simp only [NestedRow.encode, List.cons_append] at h
    cases hencoded with
    | other hkind hnested hrow =>
      exact absurd (List.cons.inj h).1 fun heq => hnested (heq ▸ by decide)
    | list hcount hmembers => exact absurd (List.cons.inj h).1 (by decide)
    | @text k text htext hcount =>
      simp only [List.cons_append, List.cons.injEq, List.append_assoc, true_and] at h
      obtain ⟨rfl, h⟩ := h
      obtain ⟨hlen, h⟩ := QValue.count_append_inj (by omega) (by omega) h
      obtain ⟨rfl, -⟩ := List.append_inj h hlen
      refine ⟨?_, by simp [NestedRow.encode]⟩
      rw [rowOf, htext]
      · rfl
      · rintro rfl
        cases htext

/-- Members that read as the rows of a text column are rows. -/
theorem rowsOf_of_encoded {values : List K} {members rest rest' : Bytes} {rows : List NestedRow}
    (hplain : ∀ value ∈ values, value.IsPlain) (hmembers : appendedAll values = .ok members)
    (hlen : rows.length = values.length) (hfits : ∀ row ∈ rows, row.Fits 10)
    (h : members ++ rest = NestedRow.encodeAll rows ++ rest') :
    values.mapM rowOf = some (rows.map NestedRow.payload) := by
  induction values generalizing members rows with
  | nil =>
    obtain rfl := List.length_eq_zero_iff.mp hlen
    rfl
  | cons value values ih =>
    cases rows with
    | nil => cases hlen
    | cons row rows =>
      simp only [appendedAll, Exec.bind_eq_ok, Except.ok.injEq] at hmembers
      obtain ⟨first, hfirst, others, hothers, rfl⟩ := hmembers
      rw [NestedRow.encodeAll, List.append_assoc, List.append_assoc] at h
      obtain ⟨hrow, rfl⟩ := row_of_encoded (appended_encoded (hplain value (by simp)) hfirst)
        (hfits row (by simp)) h
      have hrest := ih (fun v hv => hplain v (by simp [hv])) hothers (by simpa using hlen)
        (fun r hr => hfits r (by simp [hr])) (List.append_cancel_left h)
      simp [List.mapM_cons, hrow, hrest]

/-- A row of a text column is written as one. -/
theorem encoded_of_row {k : K} {bytes row : Bytes} (hbytes : k.appended = .ok bytes)
    (hrow : rowOf k = some row) :
    ∃ nested : NestedRow, nested.Fits 10 ∧ bytes = nested.encode ∧ nested.payload = row ∧
      (textOf k = some row → nested.kType = 10) := by
  have text : ∀ {k : K} {text : Bytes}, textOf k = some text → charVector text = .ok bytes →
      ∃ nested : NestedRow, nested.Fits 10 ∧ bytes = nested.encode ∧ nested.payload = text ∧
        (textOf k = some text → nested.kType = 10) := by
    intro k text htext h
    simp only [charVector, Exec.bind_eq_ok, qListLength_eq_ok, Except.ok.injEq] at h
    obtain ⟨_, ⟨hcount, rfl⟩, rfl⟩ := h
    exact ⟨.fixed 10 0 text.length text,
      ⟨⟨by decide, by decide, hcount, (Nat.mul_one _).symm⟩, .inl rfl⟩, by simp [NestedRow.encode],
      rfl, fun _ => rfl⟩
  unfold rowOf at hrow
  split at hrow
  · cases hrow
    simp only [appended, appendedAll, List.length_nil, Exec.bind_eq_ok, qListLength_eq_ok,
      Except.ok.injEq] at hbytes
    obtain ⟨_, ⟨-, rfl⟩, _, rfl, rfl⟩ := hbytes
    exact ⟨.empty 0, ⟨trivial, .inr rfl⟩, by simp [NestedRow.encode], rfl, fun h => by cases h⟩
  · unfold textOf at hrow
    split at hrow
    · cases hrow
      exact text rfl hbytes
    · cases hrow
      exact text rfl hbytes
    · cases hrow

theorem encoded_of_rows {values : List K} {members : Bytes} {rows : List Bytes}
    (hmembers : appendedAll values = .ok members) (hrows : values.mapM rowOf = some rows) :
    ∃ nested : List NestedRow, (∀ row ∈ nested, row.Fits 10) ∧ nested.length = values.length ∧
      members = NestedRow.encodeAll nested ∧ nested.map NestedRow.payload = rows := by
  induction values generalizing members rows with
  | nil =>
    cases hmembers
    cases hrows
    exact ⟨[], by simp, rfl, rfl, rfl⟩
  | cons value values ih =>
    simp only [appendedAll, Exec.bind_eq_ok, Except.ok.injEq] at hmembers
    obtain ⟨first, hfirst, others, hothers, rfl⟩ := hmembers
    simp only [List.mapM_cons, Option.bind_eq_bind, Option.bind_eq_some_iff, Option.pure_def,
      Option.some.injEq] at hrows
    obtain ⟨row, hrow, tail, htail, rfl⟩ := hrows
    obtain ⟨nested, hfits, rfl, rfl, -⟩ := encoded_of_row hfirst hrow
    obtain ⟨rest, hall, hlen, rfl, rfl⟩ := ih hothers htail
    refine ⟨nested :: rest, ?_, by simp [hlen], rfl, rfl⟩
    intro other hother
    cases hother with
    | head => exact hfits
    | tail _ hother => exact hall other hother

/-! ## General lists -/

/-- What a run of the decoder gives: the value and the position behind it, or a failure. -/
def Yields (run : Exec (K × Nat)) (result : Option K) (stop : Nat) : Prop :=
  match result with
  | some value => run = .ok (value, stop)
  | none => ∃ e, run = .error e

section Lists

variable {categories : CategoricalMapping} {vec rest : Bytes} {pos fuel depth : Nat}

/-- The value is decoded to its normal form wherever it stands, `fuel` deep. -/
def Decodes (categories : CategoricalMapping) (k : K) : Prop :=
  ∀ ⦃bytes vec rest : Bytes⦄ ⦃pos fuel depth : Nat⦄, k.appended = .ok bytes →
    At vec pos (bytes ++ rest) → vec.length < usizeMax → depth + k.nesting ≤ maxValueDepth →
    deserializeFuel ≤ fuel + depth →
    Yields (deserializeUnchecked categories .Strict fuel vec pos false depth) (viewNorm k)
      (pos + bytes.length)

/-- Members one after the other. -/
theorem decodeMany_at {values : List K} {members : Bytes}
    (ih : ∀ value ∈ values, Decodes categories value) (hmembers : appendedAll values = .ok members)
    (h : At vec pos (members ++ rest)) (hsize : vec.length < usizeMax)
    (hdepth : depth + maxNesting values ≤ maxValueDepth) (hfuel : deserializeFuel ≤ fuel + depth) :
    match normAll viewTexts values with
    | some results => decodeMany (deserializeUnchecked categories .Strict fuel) vec depth
        values.length pos = .ok (results, pos + members.length)
    | none => ∃ e, decodeMany (deserializeUnchecked categories .Strict fuel) vec depth
        values.length pos = .error e := by
  induction values generalizing members pos with
  | nil =>
    cases hmembers
    rfl
  | cons value values ihv =>
    simp only [appendedAll, Exec.bind_eq_ok, Except.ok.injEq] at hmembers
    obtain ⟨first, hfirst, others, hothers, rfl⟩ := hmembers
    rw [maxNesting] at hdepth
    rw [List.append_assoc] at h
    have hvalue := ih value (by simp) hfirst h hsize (by omega) hfuel
    have hrest := ihv (fun v hv => ih v (by simp [hv])) hothers h.skip (by omega)
    simp only [normAll, List.length_cons, decodeMany]
    unfold Yields viewNorm at hvalue
    cases hnorm : normWith viewTexts value with
    | none =>
      rw [hnorm] at hvalue
      obtain ⟨e, herr⟩ := hvalue
      simp only [Option.bind_none, herr]
      exact ⟨e, rfl⟩
    | some v =>
      rw [hnorm] at hvalue
      simp only at hvalue
      simp only [Option.bind_some, hvalue, Exec.ok_bind]
      cases hall : normAll viewTexts values with
      | none =>
        rw [hall] at hrest
        obtain ⟨e, herr⟩ := hrest
        simp only [Option.map_none, herr]
        exact ⟨e, rfl⟩
      | some vs =>
        rw [hall] at hrest
        simp only at hrest
        simp only [Option.map_some, hrest, Exec.ok_bind, List.length_append, Nat.add_assoc]

theorem two_le_of_encoded {k : K} {bytes : Bytes} (h : Encoded k bytes) : 2 ≤ bytes.length := by
  cases h <;> simp

theorem members_length_ge {values : List K} {members : Bytes}
    (hplain : ∀ value ∈ values, value.IsPlain) (h : appendedAll values = .ok members) :
    2 * values.length ≤ members.length := by
  induction values generalizing members with
  | nil => simp
  | cons value values ih =>
    simp only [appendedAll, Exec.bind_eq_ok, Except.ok.injEq] at h
    obtain ⟨first, hfirst, others, hothers, rfl⟩ := h
    have htwo := two_le_of_encoded (appended_encoded (hplain value (by simp)) hfirst)
    have hrest := ih (fun v hv => hplain v (by simp [hv])) hothers
    simp only [List.length_cons, List.length_append]
    omega

/-- The general decoder behind the type byte of a list. -/
theorem deserializeMixedList_at {values : List K} {members : Bytes}
    (hplain : ∀ value ∈ values, value.IsPlain) (ih : ∀ value ∈ values, Decodes categories value)
    (hmembers : appendedAll values = .ok members) (hcount : values.length ≤ i32Max)
    (h : At vec pos (0 :: (encode 4 values.length ++ (members ++ rest)))) (hsize : vec.length < usizeMax)
    (hdepth : depth + 1 + maxNesting values ≤ maxValueDepth)
    (hfuel : deserializeFuel ≤ fuel + (depth + 1)) :
    Yields (deserializeMixedList (deserializeUnchecked categories .Strict fuel) vec pos depth)
      ((normAll viewTexts values).map .MixedList) (pos + 5 + members.length) := by
  have hi32 : i32Max = 2 ^ 31 - 1 := rfl
  have hattr := @takeBytes_at vec _ pos [0] h 1 rfl "q mixed-list attribute"
  have hcountBytes := takeBytes_at h.skip_one (LittleEndian.encode_length 4 values.length)
    "q mixed-list length"
  have hbody : At vec (pos + 1 + (encode 4 values.length).length) (members ++ rest) := h.skip_one.skip
  rw [LittleEndian.encode_length] at hbody hcountBytes
  have hdecode : decode (encode 4 values.length) = values.length :=
    LittleEndian.decode_encode 4 _ (by omega)
  have hroom := members_length_ge hplain hmembers
  have hlen := hbody.length_eq
  rw [List.length_append] at hlen
  have hmany := decodeMany_at ih hmembers hbody hsize hdepth hfuel
  rw [deserializeMixedList, hattr, Exec.ok_bind]
  simp only [List.length_singleton]
  rw [hcountBytes, Exec.ok_bind]
  simp only [hdecode]
  rw [if_neg (by rw [LittleEndian.signed_nonneg (by omega)]; omega), if_neg (by omega)]
  cases hall : normAll viewTexts values with
  | none =>
    rw [hall] at hmany
    obtain ⟨e, herr⟩ := hmany
    rw [herr]
    exact ⟨e, rfl⟩
  | some results =>
    rw [hall] at hmany
    simp only at hmany
    rw [hmany]
    rfl

/-- The rows behind `textRows`. -/
theorem encoded_of_textRows {values : List K} {members : Bytes} {rows : List Bytes}
    (hmembers : appendedAll values = .ok members) (h : textRows values = some rows) :
    ∃ nested : List NestedRow, nested.length = values.length ∧ nested ≠ [] ∧
      (nested.map NestedRow.kType).head? = some 10 ∧ (∀ row ∈ nested, row.Fits 10) ∧
      members = NestedRow.encodeAll nested ∧ nested.map NestedRow.payload = rows := by
  cases values with
  | nil => cases h
  | cons first values =>
    simp only [textRows, Option.bind_eq_some_iff, Option.map_eq_some_iff] at h
    obtain ⟨row, hrow, rows, hrows, rfl⟩ := h
    have hfirstRow : rowOf first = some row := by
      rw [rowOf, hrow]
      rintro rfl
      cases hrow
    simp only [appendedAll, Exec.bind_eq_ok, Except.ok.injEq] at hmembers
    obtain ⟨bytes, hbytes, others, hothers, rfl⟩ := hmembers
    obtain ⟨nested, hfits, rfl, rfl, hkind⟩ := encoded_of_row hbytes hfirstRow
    obtain ⟨rest, hall, hlen, rfl, rfl⟩ := encoded_of_rows hothers hrows
    refine ⟨nested :: rest, by simp [hlen], by simp, by simp [hkind hrow], ?_, rfl, rfl⟩
    intro other hother
    cases hother with
    | head => exact hfits
    | tail _ hother => exact hall other hother

/-- Only a list of texts, or an empty one, has an end of its own. -/
theorem textRows_of_end {values : List K} {members : Bytes}
    (hplain : ∀ value ∈ values, value.IsPlain) (hne : values ≠ [])
    (hmembers : appendedAll values = .ok members) (hcount : values.length ≤ i32Max)
    (h : At vec pos (0 :: (encode 4 values.length ++ (members ++ rest)))) {stop : Nat}
    (hend : calculateArrayEndIndex vec pos 0 = .ok stop) : ∃ rows, textRows values = some rows := by
  have hi32 : i32Max = 2 ^ 31 - 1 := rfl
  obtain ⟨attr, rows, rest', hrows, hfit, heq, -⟩ := (endIndex_nested h).mp hend
  obtain ⟨hlen, hbytes⟩ := QValue.count_append_inj (by omega) (by omega) (List.cons.inj heq).2
  cases values with
  | nil => exact absurd rfl hne
  | cons first values =>
    cases rows with
    | nil => cases hlen
    | cons row rows =>
      simp only [appendedAll, Exec.bind_eq_ok, Except.ok.injEq] at hmembers
      obtain ⟨bytes, hfirst, others, hothers, rfl⟩ := hmembers
      rw [NestedRow.encodeAll, List.append_assoc, List.append_assoc] at hbytes
      have hencoded := appended_encoded (hplain first (by simp)) hfirst
      -- a list type in front is the type of a character vector
      have hten : row.kType = 10 := by
        have hnested := hfit.1
        rw [row.encode_eq] at hbytes
        cases hencoded with
        | text htext _ => exact ((List.cons.inj hbytes).1).symm
        | list _ _ => exact absurd (List.cons.inj hbytes).1.symm (nestedTypes_cases hnested)
        | other _ hnot _ => exact absurd ((List.cons.inj hbytes).1 ▸ hnested) hnot
      have hfits := hfit.2
      rw [hten] at hfits
      obtain ⟨hrow, rfl⟩ := row_of_encoded hencoded (hfits row (by simp)) hbytes
      have hrest := rowsOf_of_encoded (fun v hv => hplain v (by simp [hv])) hothers
        (by simpa using hlen.symm) (fun r hr => hfits r (by simp [hr])) (List.append_cancel_left hbytes)
      have htext : textOf first = some row.payload := by
        unfold rowOf at hrow
        split at hrow
        · next heq =>
          obtain ⟨attr, rfl⟩ | ⟨attr, payload, -, rfl⟩ := fits_ten_cases (hfits row (by simp))
          · cases hten
          · simp only [appended, appendedAll, Exec.bind_eq_ok, qListLength_eq_ok, Except.ok.injEq] at hfirst
            obtain ⟨_, -, _, -, hbytes⟩ := hfirst
            exact absurd (List.cons.inj hbytes).1 (by decide)
        · exact hrow
      refine ⟨row.payload :: rows.map NestedRow.payload, ?_⟩
      simp only [textRows, htext, hrest, Option.bind_some, Option.map_some]

/-- **A general list** is a text column, the empty column, or a list of its members. -/
theorem decodes_mixedList {values : List K} (hplain : ∀ value ∈ values, value.IsPlain)
    (ih : ∀ value ∈ values, Decodes categories value) : Decodes categories (.MixedList values) := by
  intro bytes vec rest pos fuel depth hbytes h hsize hdepth hfuel
  simp only [appended, Exec.bind_eq_ok, qListLength_eq_ok, Except.ok.injEq] at hbytes
  obtain ⟨_, ⟨hcount, rfl⟩, members, hmembers, rfl⟩ := hbytes
  have hat : At vec pos (0 :: 0 :: (encode 4 values.length ++ (members ++ rest))) := by simpa using h
  rw [nesting] at hdepth
  obtain ⟨fuel, rfl⟩ : ∃ n, fuel = n + 1 := ⟨fuel - 1, by
    simp only [deserializeFuel] at hfuel
    omega⟩
  have hrun : deserializeUnchecked categories .Strict (fuel + 1) vec pos false depth =
      deserializeList categories .Strict (deserializeUnchecked categories .Strict fuel) vec (pos + 1) 0
        false depth := by
    rw [deserializeUnchecked_body (by omega) hat, deserializeBody, if_neg (by decide),
      if_pos (by decide)]
  have hlen := hat.length_eq
  simp only [List.length_cons, List.length_append, LittleEndian.encode_length] at hlen
  rw [hrun]
  by_cases hne : values = []
  · subst hne
    cases hmembers
    have hnested := @deserializeList_nested categories .Strict
      (deserializeUnchecked categories .Strict fuel) vec rest (pos + 1) depth false 0 []
      (Nat.zero_le _) trivial
      (by simpa [NestedRow.encodeAll] using hat.skip_one)
    rw [hnested]
    rfl
  cases hrows : textRows values with
  | some rows =>
    obtain ⟨nested, hlength, hnestedNe, hchild, hfits, rfl, rfl⟩ := encoded_of_textRows hmembers hrows
    rw [← hlength] at hcount hat
    have hfit : NativeList.RowsFit nested := by
      cases nested with
      | nil => trivial
      | cons row rows =>
        have hten : row.kType = 10 := by simpa using hchild
        refine ⟨by rw [hten]; decide, ?_⟩
        rw [hten]
        exact hfits
    have hseries := @deserializeSeries_texts categories 0 nested hcount hchild hfits (by
      simp only [List.length_cons, List.length_append, LittleEndian.encode_length]
      omega)
    rw [deserializeList_nested hcount hfit hat.skip_one, viewNorm, normWith_texts hrows]
    cases hview : viewTexts (nested.map NestedRow.payload) with
    | none =>
      rw [hview] at hseries
      obtain ⟨e, herr⟩ := hseries
      rw [herr]
      exact ⟨e, rfl⟩
    | some texts =>
      rw [hview] at hseries
      simp only at hseries
      rw [hseries]
      change Except.ok _ = Except.ok _
      congr 2
      simp
      omega
  | none =>
    have hfail : ∃ e, calculateArrayEndIndex vec (pos + 1) 0 = .error (.error e) := by
      cases hend : calculateArrayEndIndex vec (pos + 1) 0 with
      | ok stop =>
        obtain ⟨rows, hsome⟩ := textRows_of_end hplain hne hmembers hcount hat.skip_one hend
        rw [hrows] at hsome
        cases hsome
      | error e =>
        cases e with
        | error e => exact ⟨e, rfl⟩
        | panic => exact absurd hend (noPanic_calculateArrayEndIndex hsize)
    obtain ⟨e, herr⟩ := hfail
    rw [deserializeList, herr]
    simp only
    rw [if_pos ⟨trivial, trivial⟩, viewNorm, normWith_list hne hrows]
    have hstop : pos + ([0, 0] ++ encode 4 values.length ++ members).length =
        pos + 1 + 5 + members.length := by
      simp
      omega
    rw [hstop]
    exact deserializeMixedList_at hplain ih hmembers hcount hat.skip_one hsize (by omega) (by omega)

/-! ## Dictionaries -/

theorem insertEntries_distinct {dict entries : List (Str × K)}
    (h : ((dict ++ entries).map Prod.fst).Nodup) : insertEntries dict entries = .ok (dict ++ entries) := by
  induction entries generalizing dict with
  | nil => simp [insertEntries]
  | cons entry entries ih =>
    obtain ⟨key, value⟩ := entry
    have hfresh : key ∉ dict.map Prod.fst := by
      rw [List.map_append, List.nodup_append] at h
      intro hmem
      exact h.2.2 key hmem key (by simp) rfl
    rw [insertEntries, if_neg hfresh, ih (by simpa using h)]
    simp

/-- The key column of a dictionary with these keys. -/
def keyColumn (categories : CategoricalMapping) (names : List Str) : Xqdb.Series :=
  .ofCells (typeName 11) (.categorical categories) (names.map fun name => some (categories.insertCat name))

theorem keyColumn_len (names : List Str) : (keyColumn categories names).len = names.length := by
  simp [keyColumn, Xqdb.Series.ofCells, Xqdb.Series.len]

theorem keyTexts_keyColumn (names : List Str) : keyTexts (keyColumn categories names) = .ok names := by
  simp only [keyTexts, keyColumn, Xqdb.Series.ofCells, List.flatten_cons, List.flatten_nil,
    List.append_nil, List.map_map]
  congr 1
  conv_rhs => rw [← List.map_id names]
  exact List.map_congr_left fun name _ => by simp [categories.catToStr_insertCat]

theorem buildDictionary_distinct {names : List Str} {values : K} {items : List K}
    (hnodup : names.Nodup) (hlength : valueLength values = .ok names.length)
    (hitems : dictionaryValues values = .ok items) (hsame : items.length = names.length) :
    buildDictionary (keyColumn categories names) values = .ok (.Dict (names.zip items)) := by
  have hkeys : (names.zip items).map Prod.fst = names := by
    rw [List.map_fst_zip]
    omega
  rw [buildDictionary, keyTexts_keyColumn, Exec.ok_bind, hlength, Exec.ok_bind, keyColumn_len,
    if_neg (by simp), hitems, Exec.ok_bind, insertEntries_distinct (by simpa [hkeys] using hnodup),
    Exec.ok_bind]
  rfl

theorem normEntries_eq {texts : List Bytes → Option (List Str)} (entries : List (Str × K)) :
    normEntries texts entries =
      (normAll texts (entries.map Prod.snd)).map ((entries.map Prod.fst).zip ·) := by
  induction entries with
  | nil => rfl
  | cons entry entries ih =>
    obtain ⟨key, value⟩ := entry
    simp only [normEntries, List.map_cons, normAll, ih]
    cases normWith texts value with
    | none => rfl
    | some v => cases normAll texts (entries.map Prod.snd) <;> rfl

theorem normAll_length {texts : List Bytes → Option (List Str)} {values results : List K}
    (h : normAll texts values = some results) : results.length = values.length := by
  induction values generalizing results with
  | nil =>
    cases h
    rfl
  | cons value values ih =>
    simp only [normAll, Option.bind_eq_some_iff, Option.map_eq_some_iff] at h
    obtain ⟨v, -, rest, hrest, rfl⟩ := h
    simp [ih hrest]

theorem rowTexts_length {rows : List Bytes} {texts : List Str} (h : rowTexts rows = some texts) :
    texts.length = rows.length := by
  induction rows generalizing texts with
  | nil =>
    cases h
    rfl
  | cons row rows ih =>
    simp only [rowTexts, Option.bind_eq_some_iff, Option.map_eq_some_iff] at h
    obtain ⟨text, -, rest, hrest, rfl⟩ := h
    simp [ih hrest]

theorem tryCollect_strings (texts : List Str) :
    tryCollect (tryFromCell .string) (texts.map some) = .ok (texts.map .String) := by
  induction texts with
  | nil => rfl
  | cons text texts ih => simp only [List.map_cons, tryCollect, tryFromCell, Exec.ok_bind, ih]

theorem textRows_length {values : List K} {rows : List Bytes} (h : textRows values = some rows) :
    rows.length = values.length := by
  cases values with
  | nil => cases h
  | cons first values =>
    simp only [textRows, Option.bind_eq_some_iff, Option.map_eq_some_iff] at h
    obtain ⟨row, -, rows, hrows, rfl⟩ := h
    have hlen : ∀ {values : List K} {rows : List Bytes}, values.mapM rowOf = some rows →
        rows.length = values.length := by
      intro values
      induction values with
      | nil =>
        intro rows h
        cases h
        rfl
      | cons value values ih =>
        intro rows h
        simp only [List.mapM_cons, Option.bind_eq_bind, Option.bind_eq_some_iff, Option.pure_def,
          Option.some.injEq] at h
        obtain ⟨_, -, rest, hrest, rfl⟩ := h
        simp [ih hrest]
    simp [hlen hrows]

/-- A dictionary out of its keys and the decoded list of its values. -/
theorem buildDictionary_norm {entries : List (Str × K)} (hnodup : (entries.map Prod.fst).Nodup) :
    match viewNorm (.MixedList (entries.map Prod.snd)) with
    | some values => ∃ v, viewNorm (.Dict entries) = some v ∧
        buildDictionary (keyColumn categories (entries.map Prod.fst)) values = .ok v
    | none => viewNorm (.Dict entries) = none := by
  by_cases hne : entries = []
  · subst hne
    exact ⟨.Dict [], rfl, @buildDictionary_distinct categories [] (.Series ⟨typeName 0, .null 0⟩) []
      (by simp) rfl rfl rfl⟩
  have hvalues : entries.map Prod.snd ≠ [] := by simpa using hne
  cases hrows : textRows (entries.map Prod.snd) with
  | some rows =>
    have hcount := textRows_length hrows
    rw [viewNorm, normWith_texts hrows]
    simp only [normWith, hrows]
    cases hview : viewTexts rows with
    | none => rfl
    | some texts =>
      have hlen : texts.length = rows.length := by
        unfold viewTexts at hview
        split at hview
        · exact rowTexts_length hview
        · cases hview
      refine ⟨_, rfl, buildDictionary_distinct hnodup ?_ ?_ ?_⟩
      · simp [valueLength, hlen, hcount]
      · simp only [dictionaryValues, seriesValues, Xqdb.Series.ofCells, List.flatten_cons,
          List.flatten_nil, List.append_nil]
        exact tryCollect_strings texts
      · simp [hlen, hcount]
  | none =>
    rw [viewNorm, normWith_list hvalues hrows]
    simp only [normWith, hrows, normEntries_eq]
    cases hall : normAll viewTexts (entries.map Prod.snd) with
    | none => rfl
    | some results =>
      have hlen := normAll_length hall
      exact ⟨_, rfl, buildDictionary_distinct hnodup (by simp [valueLength, hlen]) rfl
        (by simpa using hlen)⟩

theorem dictionaryKeys_at {encoding : SymbolEncoding} {names : List Str} {attr : UInt8}
    (hcount : names.length ≤ i32Max) (hclean : ∀ name ∈ names, 0 ∉ name.bytes)
    (h : At vec pos ((attr :: (encode 4 names.length ++ symbolBytes (names.map Str.bytes))) ++ rest)) :
    dictionaryKeys categories encoding vec pos 11 =
      .ok (keyColumn categories names,
        pos + (attr :: (encode 4 names.length ++ symbolBytes (names.map Str.bytes))).length) := by
  have hclean' : ∀ text ∈ names.map Str.bytes, 0 ∉ text := by
    intro text htext
    obtain ⟨name, hname, rfl⟩ := List.mem_map.mp htext
    exact hclean name hname
  have hend : calculateArrayEndIndex vec pos 11 =
      .ok (pos + (NativeList.symbols attr (names.map Str.bytes)).body.length) :=
    (calculateArrayEndIndex_eq_ok h).mpr ⟨.symbols attr (names.map Str.bytes), rest,
      ⟨by simpa using hcount, hclean'⟩, rfl, by simp [NativeList.body], rfl⟩
  have hbody : (NativeList.symbols attr (names.map Str.bytes)).body =
      attr :: (encode 4 names.length ++ symbolBytes (names.map Str.bytes)) := by
    simp [NativeList.body]
  rw [hbody] at hend
  have hslice := (sliceRange_at h).mpr ⟨rest, rfl, rfl⟩
  have hlen := h.length_eq
  have hbound := h.bounded
  rw [List.length_append] at hlen
  rw [dictionaryKeys, if_pos rfl, hend, Exec.ok_bind, hslice, Exec.ok_bind,
    deserializeSeries_symbols hcount hclean (by omega), Exec.ok_bind]
  rfl

theorem decodes_dict {entries : List (Str × K)} (hnodup : (entries.map Prod.fst).Nodup)
    (hplain : ∀ entry ∈ entries, entry.2.IsPlain)
    (ih : ∀ entry ∈ entries, Decodes categories entry.2) : Decodes categories (.Dict entries) := by
  intro bytes vec rest pos fuel depth hbytes h hsize hdepth hfuel
  simp only [appended, Exec.bind_eq_ok, qListLength_eq_ok, Except.ok.injEq] at hbytes
  obtain ⟨_, ⟨hcount, rfl⟩, keys, hkeys, values, hvalues, rfl⟩ := hbytes
  obtain ⟨rfl, hclean⟩ := writeEach_names hkeys
  rw [appendedEntries_eq] at hvalues
  have hat : At vec pos (99 :: 11 :: ((0 :: (encode 4 entries.length ++
      symbolBytes ((entries.map Prod.fst).map Str.bytes))) ++
      (([0, 0] ++ encode 4 entries.length ++ values) ++ rest))) := by simpa using h
  have hkeysAt := hat.skip_one.skip_one
  have hlistAt := hkeysAt.skip
  have hlen := hat.length_eq
  simp only [List.length_cons, List.length_append, LittleEndian.encode_length] at hlen
  have hlist : (MixedList (entries.map Prod.snd)).appended =
      .ok ([0, 0] ++ encode 4 entries.length ++ values) := by
    simp only [appended, hvalues, Exec.bind_eq_ok, qListLength_eq_ok, Except.ok.injEq]
    exact ⟨_, ⟨by simpa using hcount, rfl⟩, values, rfl, by simp⟩
  rw [nesting, entriesNesting_eq] at hdepth
  obtain ⟨fuel, rfl⟩ : ∃ n, fuel = n + 1 := ⟨fuel - 1, by
    simp only [deserializeFuel] at hfuel
    omega⟩
  have hnested := @decodes_mixedList categories (entries.map Prod.snd)
    (fun value hvalue => by
      obtain ⟨entry, hentry, rfl⟩ := List.mem_map.mp hvalue
      exact hplain entry hentry)
    (fun value hvalue => by
      obtain ⟨entry, hentry, rfl⟩ := List.mem_map.mp hvalue
      exact ih entry hentry)
    _ vec rest _ fuel (depth + 1) hlist hlistAt hsize (by rw [nesting]; omega) (by omega)
  have hnames := @dictionaryKeys_at categories vec _ (pos + 1 + 1) .Strict (entries.map Prod.fst) 0
    (by simpa using hcount) hclean (by simpa using hkeysAt)
  rw [List.length_map] at hnames
  have hvalueType : vec[pos + 1 + 1 + (0 :: (encode 4 entries.length ++
      symbolBytes ((entries.map Prod.fst).map Str.bytes))).length]? = some 0 := hlistAt.getElem?
  rw [deserializeUnchecked_body (by omega) hat, deserializeBody, if_neg (by decide), if_neg (by decide),
    if_pos rfl, deserializeDictionary, hat.skip_one.getElem?, Exec.okOr_some, Exec.ok_bind,
    if_neg (by decide), if_pos (.inl rfl), deserializeSymbolDictionary, hnames, Exec.ok_bind]
  simp only
  rw [hvalueType, Exec.okOr_some, Exec.ok_bind, if_neg (by decide)]
  have hbuild := @buildDictionary_norm categories entries hnodup
  unfold Yields at hnested
  cases hlistNorm : viewNorm (.MixedList (entries.map Prod.snd)) with
  | none =>
    rw [hlistNorm] at hnested hbuild
    obtain ⟨e, herr⟩ := hnested
    simp only at hbuild
    rw [herr, hbuild]
    exact ⟨e, rfl⟩
  | some decoded =>
    rw [hlistNorm] at hnested hbuild
    obtain ⟨v, hv, hdict⟩ := hbuild
    simp only at hnested
    rw [hnested, hv, Exec.ok_bind]
    simp only [hdict, Exec.ok_bind]
    change Except.ok _ = Except.ok _
    congr 2
    simp
    omega

end Lists

/-! ## All values -/

/-- The length prediction accepts the value on some level. -/
def Sized (k : K) : Prop := ∃ level n, k.j6LenWithDepth level = .ok n

theorem sized_of_listLen {values : List K} {level start total : Nat}
    (h : listLen values level start = .ok total) : ∀ value ∈ values, value.Sized := by
  induction values generalizing start with
  | nil => simp
  | cons first values ih =>
    simp only [listLen, Exec.bind_eq_ok] at h
    obtain ⟨n, hn, _, -, hrest⟩ := h
    intro value hvalue
    cases hvalue with
    | head => exact ⟨level, n, hn⟩
    | tail _ hvalue => exact ih hrest value hvalue

theorem sized_of_entriesLen {entries : List (Str × K)} {level start total : Nat}
    (h : entriesLen entries level start = .ok total) : ∀ entry ∈ entries, entry.2.Sized := by
  induction entries generalizing start with
  | nil => simp
  | cons first entries ih =>
    obtain ⟨key, value⟩ := first
    simp only [entriesLen, Exec.bind_eq_ok] at h
    obtain ⟨_, -, n, hn, _, -, hrest⟩ := h
    intro entry hentry
    cases hentry with
    | head => exact ⟨level, n, hn⟩
    | tail _ hentry => exact ih hrest entry hentry

theorem decodes (categories : CategoricalMapping) (k : K) :
    k.IsPlain → k.KeysDistinct → k.Sized → Decodes categories k := by
  induction k using K.induct with
  | leaf k hleaf =>
    intro hplain _ hsized bytes vec rest pos fuel depth hbytes h hsize hdepth hfuel
    obtain ⟨level, n, hn⟩ := hsized
    rw [j6LenWithDepth_leaf hleaf] at hn
    split at hn
    · cases hn
    rw [appended_leaf hleaf] at hbytes
    obtain ⟨fuel, rfl⟩ : ∃ n, fuel = n + 1 := ⟨fuel - 1, by
      simp only [deserializeFuel] at hfuel
      omega⟩
    obtain ⟨v, hnorm, hdecode⟩ := @decode_leaf categories vec rest pos fuel depth k hleaf hplain _ _ hn
      _ hbytes (by omega) h
    rw [viewNorm, hnorm, hdecode]
    rfl
  | mixedList values ih =>
    intro hplain hkeys hsized
    obtain ⟨level, n, hn⟩ := hsized
    rw [j6LenWithDepth] at hn
    split at hn
    · cases hn
    simp only [Exec.bind_eq_ok] at hn
    obtain ⟨⟨⟩, -, hn⟩ := hn
    have hplains := allPlain_iff.mp hplain
    exact decodes_mixedList hplains fun value hvalue => ih value hvalue (hplains value hvalue)
      (allKeysDistinct_iff.mp hkeys value hvalue) (sized_of_listLen hn value hvalue)
  | dict entries ih =>
    intro hplain hkeys hsized
    obtain ⟨level, n, hn⟩ := hsized
    rw [j6LenWithDepth] at hn
    split at hn
    · cases hn
    simp only [Exec.bind_eq_ok] at hn
    obtain ⟨⟨⟩, -, hn⟩ := hn
    have hplains : ∀ entry ∈ entries, entry.2.IsPlain := fun entry hentry =>
      allPlain_iff.mp (entriesPlain_iff.mp hplain) entry.2 (List.mem_map_of_mem hentry)
    exact decodes_dict hkeys.1 hplains fun entry hentry => ih entry hentry (hplains entry hentry)
      (entriesKeysDistinct_iff.mp hkeys.2 entry hentry) (sized_of_entriesLen hn entry hentry)

/-- A value on its own, with nothing behind it. -/
theorem deserialize_yields {categories : CategoricalMapping} {k : K} {bytes : Bytes}
    (hplain : k.IsPlain) (hkeys : k.KeysDistinct) (hnesting : k.nesting ≤ maxValueDepth)
    (h : k.serialize = .ok bytes) :
    match k.viewNorm with
    | some v => deserialize categories .Strict bytes = .ok v
    | none => ∃ e, deserialize categories .Strict bytes = .error e := by
  have hi : isizeMax < usizeMax := by decide
  have hlen := serialize_length_le h
  obtain ⟨⟨n, hn, -⟩, happended⟩ := serialize_eq_ok.mp h
  have hrun := @decodes categories k hplain hkeys ⟨0, n, hn⟩ bytes bytes [] 0 deserializeFuel 0
    happended (by simpa using At.start (by omega)) (by omega) (by omega) (by omega)
  rw [Nat.zero_add] at hrun
  cases hnorm : k.viewNorm with
  | some v =>
    rw [hnorm] at hrun
    simp only [Yields] at hrun
    simp only [deserialize, hrun, Exec.catchUnwind, if_true]
  | none =>
    rw [hnorm] at hrun
    obtain ⟨e, herr⟩ := hrun
    simp only [deserialize, herr]
    cases e with
    | error e => exact ⟨e, rfl⟩
    | panic => exact ⟨parserPanic, rfl⟩

/-- **Decode after encode.** What was encoded comes back as its normal form, and is refused
where it has none: where the rows of a text column are no texts, or do not start within the
view buffer. -/
theorem deserialize_serialize (categories : CategoricalMapping) (k : K) (bytes : Bytes)
    (hplain : k.IsPlain) (hkeys : k.KeysDistinct) (hnesting : k.nesting ≤ maxValueDepth)
    (h : k.serialize = .ok bytes) :
    (∀ v, k.viewNorm = some v → deserialize categories .Strict bytes = .ok v) ∧
      (k.viewNorm = none → ∃ e, deserialize categories .Strict bytes = .error e) := by
  have hrun := @deserialize_yields categories k bytes hplain hkeys hnesting h
  constructor
  · intro v hv
    rwa [hv] at hrun
  · intro hnone
    rwa [hnone] at hrun

/-- A dictionary of a text and an empty list, an empty list and a number. -/
def mixedTexts : K :=
  .MixedList [.Dict [(literal "a", .String (literal "hi")), (literal "b", .MixedList [])],
    .MixedList [], .I16 5]

theorem deserialize_serialize_mixedTexts :
    ∃ bytes, mixedTexts.serialize = .ok bytes ∧
      deserialize numberedTexts .Strict bytes = .ok (.MixedList
        [.Dict [(literal "a", .String (literal "hi")), (literal "b", .String Str.empty)],
          .Series ⟨typeName 0, .null 0⟩, .I16 5]) := by
  have hplain : mixedTexts.IsPlain := by simp [mixedTexts, IsPlain, AllPlain, EntriesPlain]
  have hkeys : mixedTexts.KeysDistinct := by
    simp only [mixedTexts, KeysDistinct, AllKeysDistinct, EntriesKeysDistinct]
    decide
  refine ⟨_, rfl, ?_⟩
  exact (deserialize_serialize numberedTexts mixedTexts _ hplain hkeys (by decide) rfl).1 _ rfl

/-- Three texts of the largest size and an empty one behind them. -/
def hugeTexts (text : Bytes) : K :=
  .MixedList [.CharVector text, .CharVector text, .CharVector text, .CharVector []]

theorem hugeTexts_j6Len {text : Bytes} {n : Nat} (h : (CharVector text).j6LenWithDepth 1 = .ok n)
    (hsmall : n ≤ u32Max) : (hugeTexts text).j6Len = .ok (6 + n + n + n + 6) := by
  have husize : usizeMax = 2 ^ 64 - 1 := rfl
  have hu32 : u32Max = 2 ^ 32 - 1 := rfl
  have hempty : (CharVector []).j6LenWithDepth 1 = .ok 6 := by decide
  have hcount : checkedQCount 4 = .ok () := by decide
  have add : ∀ a b, a + b ≤ usizeMax → checkedAdd a b = some (a + b) := fun a b hle =>
    checkedAdd_eq_some.mpr ⟨rfl, hle⟩
  rw [hugeTexts, j6Len, j6LenWithDepth, if_neg (by decide)]
  simp only [List.length_cons, List.length_nil, Nat.zero_add, Nat.reduceAdd, hcount, Exec.ok_bind,
    listLen, h, hempty]
  rw [add _ _ (by omega), Exec.okOr_some, Exec.ok_bind, add _ _ (by omega), Exec.okOr_some,
    Exec.ok_bind, add _ _ (by omega), Exec.okOr_some, Exec.ok_bind, add _ _ (by omega),
    Exec.okOr_some, Exec.ok_bind]

theorem hugeTexts_serialize {text : Bytes} (hlen : text.length = i32Max) :
    ∃ bytes, (hugeTexts text).serialize = .ok bytes := by
  have hi32 : i32Max = 2 ^ 31 - 1 := rfl
  have husize : usizeMax = 2 ^ 64 - 1 := rfl
  have hisize : isizeMax = 2 ^ 63 - 1 := rfl
  have hu32 : u32Max = 2 ^ 32 - 1 := rfl
  have hlength : (CharVector text).j6LenWithDepth 1 = .ok (i32Max + 6) := by
    rw [j6LenWithDepth_leaf (by trivial), if_neg (by decide), leafLen, textLen, hlen,
      (checkedQCount_eq_ok.mpr (Nat.le_refl _) : checkedQCount i32Max = .ok ()), Exec.ok_bind,
      checkedAdd_eq_some.mpr ⟨rfl, by omega⟩, Exec.okOr_some]
  have hchars : charVector text = .ok ([10, 0] ++ encode 4 i32Max ++ text) := by
    rw [charVector, hlen, qListLength_of_le (Nat.le_refl _), Exec.ok_bind]
  have hempty : charVector [] = .ok [10, 0, 0, 0, 0, 0] := by decide
  have hcount : qListLength 4 = .ok (encode 4 4) := by decide
  have happended : ∃ bytes, (hugeTexts text).appended = .ok bytes := by
    simp only [hugeTexts, appended, appendedAll, appendedLeaf, List.length_cons, List.length_nil,
      Nat.zero_add, Nat.reduceAdd, hchars, hempty, hcount, Exec.ok_bind, Except.ok.injEq,
      exists_eq']
  obtain ⟨bytes, happended⟩ := happended
  exact ⟨bytes, serialize_eq_ok.mpr ⟨⟨_, hugeTexts_j6Len hlength (by omega), by omega⟩, happended⟩⟩

/-- The fourth row starts beyond the view buffer. -/
theorem hugeTexts_refused {text : Bytes} (hlen : text.length = i32Max) (hvalid : Utf8.Valid text) :
    ∃ k : K, k = hugeTexts text ∧ k.IsPlain ∧ k.KeysDistinct ∧ k.nesting ≤ maxValueDepth ∧
      ∃ bytes v, k.serialize = .ok bytes ∧ k.norm = some v ∧
        ∀ categories, deserialize categories .Strict bytes ≠ .ok v := by
  have hi32 : i32Max = 2 ^ 31 - 1 := rfl
  have hu32 : u32Max = 2 ^ 32 - 1 := rfl
  have hplain : (hugeTexts text).IsPlain := by simp [hugeTexts, IsPlain, AllPlain]
  have hkeys : (hugeTexts text).KeysDistinct := by simp [hugeTexts, KeysDistinct, AllKeysDistinct]
  have hnesting : (hugeTexts text).nesting ≤ maxValueDepth := by
    simp [hugeTexts, nesting, maxNesting, maxValueDepth]
  have hrows : textRows [.CharVector text, .CharVector text, .CharVector text, .CharVector []] =
      some [text, text, text, []] := rfl
  have hfit : ¬ FitsViewBuffer 0 [text, text, text, []] := by
    simp only [FitsViewBuffer, hlen]
    omega
  have hview : (hugeTexts text).viewNorm = none := by
    rw [hugeTexts, viewNorm, normWith_texts hrows, viewTexts, if_neg hfit]
    rfl
  have htexts : rowTexts [text, text, text, []] = some [⟨text, hvalid⟩, ⟨text, hvalid⟩,
      ⟨text, hvalid⟩, Str.empty] := by
    have hsome : Str.fromUtf8 text = some ⟨text, hvalid⟩ := Str.fromUtf8_eq_some.mpr rfl
    have hempty : Str.fromUtf8 [] = some Str.empty := rfl
    simp only [rowTexts, hsome, hempty, Option.bind_some, Option.map_some]
  obtain ⟨bytes, hbytes⟩ := hugeTexts_serialize hlen
  refine ⟨_, rfl, hplain, hkeys, hnesting, bytes, _, hbytes,
    by rw [hugeTexts, norm, normWith_texts hrows, htexts]; rfl, fun categories hok => ?_⟩
  have hrun := @deserialize_yields categories _ _ hplain hkeys hnesting hbytes
  rw [hview] at hrun
  obtain ⟨e, herr⟩ := hrun
  rw [herr] at hok
  cases hok

/-- A list of texts, each of at most `i32::MAX` bytes, that the decoder refuses. -/
theorem deserialize_refuses_hugeTexts :
    ∃ k : K, k = hugeTexts (List.replicate i32Max 0x61) ∧ k.IsPlain ∧ k.KeysDistinct ∧
      k.nesting ≤ maxValueDepth ∧
      ∃ bytes v, k.serialize = .ok bytes ∧ k.norm = some v ∧
        ∀ categories, deserialize categories .Strict bytes ≠ .ok v := by
  have hascii : ∀ n : Nat, Utf8.Valid (List.replicate n 0x61) := by
    intro n
    refine Utf8.valid_ascii fun b hb => ?_
    rw [List.eq_of_mem_replicate hb]
    decide
  exact hugeTexts_refused List.length_replicate (hascii _)

end K

end Xqdb
