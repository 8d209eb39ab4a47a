import Xqdb.Js.Denotation
import Xqdb.Js.Surrogates
import Xqdb.NormalForm

/-! What JavaScript sees of a q value that was sent as a JavaScript value: the decoder's normal form
of what the value denotes, as the facade shows it. Values come back as they were but for texts in
lists and lone surrogates. -/

namespace Xqdb
namespace Js

open Node (Packages NativeDto utf8Of unitsOf toJs eachToJs eachEntryToJs kIntoNativeWithDepth eachIntoNative
  entriesIntoNative checkDepth_ok)
open Outcome (bind_eq_ok toOption_ok toOption_pure toOption_bind)
open Unicode (scrub)

variable {A : Arrow}

/-! ## What comes back -/

/-- The octets of a text that stands in a list. -/
def textOf : JsValue A → Option Bytes
  | .bytes value => some value
  | _ => none

/-- An empty array is an empty text. -/
def rowOf : JsValue A → Option Bytes
  | .array [] => some []
  | value => textOf value

/-- The rows of a list that starts with a text and goes on with rows. -/
def textRows : List (JsValue A) → Option (List Bytes)
  | [] => none
  | first :: rest => (textOf first).bind fun row => (rest.mapM rowOf).map (row :: ·)

/-- A column of the client as a vector. -/
def vectorOf (env : Packages) (column : Series) : Option (JsValue A) :=
  (env.seriesToIpc column).toOption.bind fun bytes =>
    (A.tableFromIPC bytes).bind fun table => (A.firstColumn table).map .vector

mutual

/-- What a value is when it was sent and read again; nothing where the reader refuses it. An array
of texts and an empty array are vectors, the texts of an object strings, and lone surrogates are
replaced. -/
def comesBack (env : Packages) : JsValue A → Option (JsValue A)
  | .string value => some (.string (scrub value))
  | .lambda source context => some (.lambda (scrub source) (scrub context))
  | .array items =>
    match items, textRows items with
    | [], _ => vectorOf env ⟨typeName 0, .null 0⟩
    | _, some rows => (viewTexts rows).bind fun column =>
        vectorOf env (.ofCells (typeName 10) .string (column.map some))
    | _, none => (comeBack env items).map .array
  | .object properties =>
    match textRows (properties.map Prod.snd) with
    | some rows => (viewTexts rows).map fun column =>
        .object ((properties.map fun property => scrub property.1).zip (column.map fun text => .string (unitsOf text)))
    | none => (entriesComeBack env properties).map .object
  | value => some value

def comeBack (env : Packages) : List (JsValue A) → Option (List (JsValue A))
  | [] => some []
  | item :: rest => (comesBack env item).bind fun item => (comeBack env rest).map (item :: ·)

def entriesComeBack (env : Packages) : List (JsString × JsValue A) → Option (List (JsString × JsValue A))
  | [] => some []
  | (key, value) :: rest =>
    (comesBack env value).bind fun value => (entriesComeBack env rest).map ((scrub key, value) :: ·)

end

mutual

/-- Levels as the decoder counts them: an array is one, an object two. -/
def nesting : JsValue A → Nat
  | .array items => 1 + maxNesting items
  | .object properties => 2 + entriesNesting properties
  | _ => 0

def maxNesting : List (JsValue A) → Nat
  | [] => 0
  | item :: rest => max (nesting item) (maxNesting rest)

def entriesNesting : List (JsString × JsValue A) → Nat
  | [] => 0
  | (_, value) :: rest => max (nesting value) (entriesNesting rest)

end

mutual

/-- The properties of every object are in the order in which JavaScript keeps them. -/
def InOrder : JsValue A → Prop
  | .array items => AllInOrder items
  | .object properties => properties.Pairwise (PropertyOrder.Before arrayIndex) ∧ EntriesInOrder properties
  | _ => True

def AllInOrder : List (JsValue A) → Prop
  | [] => True
  | item :: rest => InOrder item ∧ AllInOrder rest

def EntriesInOrder : List (JsString × JsValue A) → Prop
  | [] => True
  | (_, value) :: rest => InOrder value ∧ EntriesInOrder rest

end

/-! ## What JavaScript sees -/

/-- What JavaScript sees of a value of the client. -/
def shown (env : Packages) (k : K) (depth : Nat) : Option (JsValue A) :=
  (kIntoNativeWithDepth env k depth).toOption.bind fun native => (normalizeOutput (toJs native)).toOption

def shownAll (env : Packages) (depth : Nat) : List K → Option (List (JsValue A))
  | [] => some []
  | k :: rest => (shown env k depth).bind fun value => (shownAll env depth rest).map (value :: ·)

def shownEntries (env : Packages) (depth : Nat) : List (Str × K) → Option (List (JsString × JsValue A))
  | [] => some []
  | (key, k) :: rest =>
    (shown env k depth).bind fun value => (shownEntries env depth rest).map ((unitsOf key, value) :: ·)

section Shown

variable {env : Packages} {depth : Nat}

theorem shown_of {k : K} (native : NativeDto) {value : JsValue A} (hnative : kIntoNativeWithDepth env k depth = .ok native)
    (hvalue : normalizeOutput (toJs native) = .ok value) : shown env k depth = some value := by
  rw [shown, hnative]
  show (normalizeOutput (toJs native)).toOption = _
  rw [hvalue]
  rfl

theorem normalizeOutputs_shown (values : List K) :
    ((eachIntoNative env values depth).toOption.bind fun natives => (@normalizeOutputs A (eachToJs natives)).toOption) =
      shownAll env depth values := by
  induction values with
  | nil => rfl
  | cons k rest ih =>
    rw [eachIntoNative, shownAll, ← ih, shown]
    simp only [toOption_bind]
    cases kIntoNativeWithDepth env k depth with
    | error e => rfl
    | ok native =>
      cases eachIntoNative env rest depth with
      | error e => simp
      | ok natives =>
        simp only [toOption_ok, Option.bind_some, toOption_pure, eachToJs, normalizeOutputs, toOption_bind]
        cases @normalizeOutput A (toJs native) with
        | error e => rfl
        | ok value =>
          cases @normalizeOutputs A (eachToJs natives) with
          | error e => rfl
          | ok others => rfl

theorem shown_list (hdepth : depth ≤ Xqdb.maxValueDepth) (values : List K) :
    (shown env (.MixedList values) depth : Option (JsValue A)) = (shownAll env (depth + 1) values).map .array := by
  have hout (natives : List NativeDto) : @normalizeOutput A (toJs { tag := "list", items := some natives }) =
      normalizeOutputs (eachToJs natives) >>= fun values => pure (.array values) := rfl
  rw [shown, kIntoNativeWithDepth, checkDepth_ok hdepth, Node.ok_bind, ← normalizeOutputs_shown]
  simp only [toOption_bind]
  cases eachIntoNative env values (depth + 1) with
  | error e => rfl
  | ok natives =>
    simp only [toOption_ok, Option.bind_some, toOption_pure, hout, toOption_bind]
    cases @normalizeOutputs A (eachToJs natives) with
    | error e => rfl
    | ok values => rfl

theorem decodeDictionary_shown (natives : List (JsString × NativeObject)) (done : List (JsString × JsValue A))
    (hdistinct : (done.map Prod.fst ++ natives.map Prod.fst).Nodup) :
    (decodeDictionary natives (PropertyOrder.ordered arrayIndex done)).toOption =
      (natives.mapM fun entry => (@normalizeOutput A entry.2).toOption.map (entry.1, ·)).map fun more =>
        PropertyOrder.ordered arrayIndex (done ++ more) := by
  induction natives generalizing done with
  | nil => simp [decodeDictionary, Except.toOption]
  | cons entry rest ih =>
    obtain ⟨key, native⟩ := entry
    rw [decodeDictionary, toOption_bind, List.mapM_cons]
    cases hvalue : @normalizeOutput A native with
    | error e => rfl
    | ok value =>
      have hnew : key ∉ done.map Prod.fst := by
        intro hmem
        rw [List.nodup_append] at hdistinct
        exact hdistinct.2.2 key hmem key (by simp) rfl
      show (decodeDictionary rest (PropertyOrder.define arrayIndex _ key value)).toOption = _
      rw [PropertyOrder.define_ordered arrayIndex _ hnew, ih _ (by simpa using hdistinct)]
      simp only [toOption_ok, Option.map_some, Option.bind_eq_bind, Option.bind_some]
      cases rest.mapM fun entry => (@normalizeOutput A entry.2).toOption.map (entry.1, ·) with
      | none => rfl
      | some more => simp

theorem entriesIntoNative_shown (entries : List (Str × K)) (hkeys : ∀ entry ∈ entries, 0 ∉ entry.1.bytes) :
    ((entriesIntoNative env entries depth).toOption.bind fun natives =>
      (eachEntryToJs natives).mapM fun entry => (@normalizeOutput A entry.2).toOption.map (entry.1, ·)) =
      shownEntries env depth entries := by
  induction entries with
  | nil => rfl
  | cons entry rest ih =>
    obtain ⟨key, k⟩ := entry
    have hkey : Node.validateQSymbol key "dictionary key" = .ok () := if_neg (hkeys (key, k) (by simp))
    rw [entriesIntoNative, hkey, Node.ok_bind, shownEntries, ← ih fun entry hmem => hkeys entry (by simp [hmem]), shown]
    simp only [toOption_bind]
    cases kIntoNativeWithDepth env k depth with
    | error e => rfl
    | ok native =>
      cases entriesIntoNative env rest depth with
      | error e => simp
      | ok natives =>
        simp only [toOption_ok, Option.bind_some, toOption_pure, eachEntryToJs, List.mapM_cons]
        cases @normalizeOutput A (toJs native) with
        | error e => rfl
        | ok value =>
          cases (eachEntryToJs natives).mapM fun entry => (@normalizeOutput A entry.2).toOption.map (entry.1, ·) with
          | none => rfl
          | some others => rfl

theorem keys_entriesIntoNative {entries : List (Str × K)} {natives : List (Str × NativeDto)}
    (h : entriesIntoNative env entries depth = .ok natives) :
    (eachEntryToJs natives).map Prod.fst = entries.map fun entry => unitsOf entry.1 := by
  induction entries generalizing natives with
  | nil =>
    cases h
    rfl
  | cons entry rest ih =>
    obtain ⟨key, k⟩ := entry
    rw [entriesIntoNative] at h
    obtain ⟨_, -, h⟩ := bind_eq_ok.mp h
    obtain ⟨native, -, h⟩ := bind_eq_ok.mp h
    obtain ⟨others, hothers, h⟩ := bind_eq_ok.mp h
    cases h
    rw [eachEntryToJs, List.map_cons, ih hothers, List.map_cons]

theorem shown_dict (hdepth : depth ≤ Xqdb.maxValueDepth) {entries : List (Str × K)}
    (hkeys : ∀ entry ∈ entries, 0 ∉ entry.1.bytes) (hdistinct : (entries.map fun entry => unitsOf entry.1).Nodup) :
    (shown env (.Dict entries) depth : Option (JsValue A)) =
      (shownEntries env (depth + 1) entries).map fun properties => .object (PropertyOrder.ordered arrayIndex properties) := by
  have hout (natives : List (Str × NativeDto)) :
      @normalizeOutput A (toJs { tag := "dictionary", entries := some natives }) =
        decodeDictionary (eachEntryToJs natives) [] >>= fun properties => pure (.object properties) := rfl
  rw [shown, kIntoNativeWithDepth, checkDepth_ok hdepth, Node.ok_bind, ← entriesIntoNative_shown entries hkeys]
  simp only [toOption_bind]
  cases hnatives : entriesIntoNative env entries (depth + 1) with
  | error e => rfl
  | ok natives =>
    have hdecode := @decodeDictionary_shown A (eachEntryToJs natives) [] (by
      rw [keys_entriesIntoNative hnatives]
      simpa using hdistinct)
    simp only [toOption_ok, Option.bind_some, toOption_pure, hout, toOption_bind]
    rw [show ([] : List (JsString × JsValue A)) = PropertyOrder.ordered arrayIndex [] from rfl, hdecode]
    cases (eachEntryToJs natives).mapM fun entry => (@normalizeOutput A entry.2).toOption.map (entry.1, ·) with
    | none => rfl
    | some properties => rfl

theorem shown_series (hdepth : depth ≤ Xqdb.maxValueDepth) (column : Series) :
    (shown env (.Series column) depth : Option (JsValue A)) = vectorOf env column := by
  have hobject (bytes : Bytes) : toJs { tag := "series", bytesValue := some bytes } =
      { tag := "series", bytesValue := some bytes } := rfl
  rw [shown, kIntoNativeWithDepth, checkDepth_ok hdepth, Node.ok_bind, vectorOf]
  simp only [toOption_bind]
  cases env.seriesToIpc column with
  | error e => rfl
  | ok bytes =>
    simp only [toOption_ok, Option.bind_some, toOption_pure, hobject]
    cases htable : A.tableFromIPC bytes with
    | none => simp [normalizeOutput, decodeArrowTable, htable, conversionError, toOption_bind]
    | some table =>
      cases hcolumn : A.firstColumn table with
      | none => simp [normalizeOutput, decodeArrowTable, htable, hcolumn, conversionError, toOption_bind]
      | some vector => simp [normalizeOutput, decodeArrowTable, htable, hcolumn, toOption_bind]

end Shown

/-! ## The round trip of one value -/

/-- What chrono documents of `%Y-%m-%d`: a year of four digits is written as it was read. -/
def IsoDates (env : Packages) : Prop :=
  ∀ (text : JsString) (date : NaiveDate), isoDate text = true → env.dateParseFromStr (utf8Of text) = .ok date →
    env.dateFormat date = utf8Of text

theorem plain_of_isoDate {text : JsString} (h : isoDate text = true) : ∀ unit ∈ text, Plain unit := by
  have hhyphen : Plain 0x2D := by decide
  rw [isoDate, decide_eq_true_eq] at h
  obtain ⟨hlength, hall⟩ := h
  intro unit hmem
  obtain ⟨i, hi, rfl⟩ := List.mem_iff_getElem.mp hmem
  have hcheck := List.all_eq_true.mp hall i (List.mem_range.mpr (by omega))
  rw [List.getElem?_eq_getElem hi] at hcheck
  split at hcheck
  · have heq : text[i] = 0x2D := by simpa using hcheck
    rw [heq]
    exact hhyphen
  · exact plain_of_digit (by simpa using hcheck)

section Trip

variable {env : Packages} {depth : Nat} {k : K}

theorem toJs_setBigint (tag : String) (n : Int64) :
    toJs (Node.setBigint tag n) = { tag := tag, bigintValue := some n.toInt } := by
  rw [Node.setBigint, toJs]
  simp only [Option.map_some, Option.map_none, Node.value_setBigint]
  rfl

theorem toJs_setString (tag : String) (text : Str) :
    toJs (Node.setString tag text) = { tag := tag, stringValue := some (unitsOf text) } := rfl

theorem shown_leaf (hiso : IsoDates env) {value : JsValue A} (hleaf : value.isLeaf = true) (h : Denotes env value k)
    (hdepth : depth ≤ Xqdb.maxValueDepth) :
    k.viewNorm.bind (shown env · depth) = comesBack env value := by
  have hcheck := checkDepth_ok hdepth
  cases value with
  | null =>
    obtain rfl := h
    exact shown_of { tag := "null" } (by rw [kIntoNativeWithDepth, hcheck]; rfl) rfl
  | boolean value =>
    obtain rfl := h
    exact shown_of { tag := "boolean", boolValue := some value } (by rw [kIntoNativeWithDepth, hcheck]; rfl) rfl
  | number bits =>
    obtain rfl := h
    exact shown_of (Node.setNumber "f64" bits) (by rw [kIntoNativeWithDepth, hcheck]; rfl) rfl
  | bigint n =>
    obtain ⟨m, rfl, rfl⟩ := h
    exact shown_of (Node.setBigint "i64" m) (by rw [kIntoNativeWithDepth, hcheck]; rfl)
      (by rw [toJs_setBigint]; rfl)
  | string text =>
    obtain ⟨hnul, rfl⟩ := h
    have hsymbol : Node.validateQSymbol (utf8Of text) "symbol" = .ok () := if_neg hnul
    refine shown_of (Node.setString "symbol" (utf8Of text)) ?_ ?_
    · rw [kIntoNativeWithDepth, hcheck, Node.ok_bind, hsymbol]
      rfl
    · rw [toJs_setString, Node.unitsOf_utf8Of]
      rfl
  | qvalue state => exact h.elim
  | bytes bytes =>
    obtain rfl := h
    exact shown_of { tag := "bytes", bytesValue := some bytes } (by rw [kIntoNativeWithDepth, hcheck]; rfl) rfl
  | operator name =>
    obtain ⟨operator, hname, hsupported, rfl⟩ := h
    refine shown_of (Node.setString "operator" (primitiveText operator.name)) ?_ ?_
    · rw [kIntoNativeWithDepth, hcheck]
      rfl
    · rw [toJs_setString, hname]
      show (validateQOperatorName name >>= fun name => pure (JsValue.operator name)) = _
      rw [Tree.validateQOperatorName_supported hsupported]
      rfl
  | lambda source context =>
    obtain ⟨lambda, hsource, hcontext, hvalid, rfl⟩ := h
    refine shown_of { tag := "lambda", stringValue := some lambda.source, context := some lambda.context } ?_ ?_
    · rw [kIntoNativeWithDepth, hcheck]
      rfl
    · have hobject : toJs { tag := "lambda", stringValue := some lambda.source, context := some lambda.context } =
          { tag := "lambda", stringValue := some (scrub source), context := some (scrub context) } := by
        rw [hsource, hcontext, ← Node.unitsOf_utf8Of, ← Node.unitsOf_utf8Of]
        rfl
      rw [hobject]
      show (validatedQLambdaParts (scrub source) (scrub context) >>= fun parts => pure (JsValue.lambda parts.1 parts.2)) = _
      rw [validatedQLambdaParts_scrub hvalid]
      rfl
  | timestamp n =>
    obtain ⟨t, m, hleap, hnanos, rfl, rfl⟩ := h
    refine shown_of (Node.setBigint "timestamp" m) ?_ (by rw [toJs_setBigint]; rfl)
    rw [kIntoNativeWithDepth, hcheck, Node.ok_bind]
    simp only [hnanos]
    rfl
  | date text =>
    obtain ⟨htext, date, hparse, rfl⟩ := h
    refine shown_of (Node.setString "date" (env.dateFormat date)) ?_ ?_
    · rw [kIntoNativeWithDepth, hcheck]
      rfl
    · rw [toJs_setString, hiso text date htext hparse, Node.unitsOf_utf8Of, scrub_of_plain (plain_of_isoDate htext)]
      rfl
  | time n =>
    obtain ⟨t, hleap, rfl, haligned, rfl⟩ := h
    have hsecs := t.secs_lt
    have hfrac := t.frac_lt
    have hnanos : (Int64.ofInt (Node.timeNanos t)).toInt = Node.timeNanos t := by
      simp only [Node.timeNanos, Node.nanosPerSecond]
      exact Int64.toInt_ofInt_of_le (by omega) (by omega)
    refine shown_of (Node.setBigint "time" (Int64.ofInt (Node.timeNanos t))) ?_
      (by rw [toJs_setBigint, hnanos]; rfl)
    rw [kIntoNativeWithDepth, hcheck, Node.ok_bind]
    simp only [haligned]
    rfl
  | timespan n =>
    obtain ⟨m, rfl, rfl⟩ := h
    have hnanos : (Duration.ofNanoseconds m).numNanoseconds = some m := by
      rw [Duration.numNanoseconds, Duration.ofNanoseconds, checkedI64_eq_some]
    refine shown_of (Node.setBigint "timespan" m) ?_ (by rw [toJs_setBigint]; rfl)
    rw [kIntoNativeWithDepth, hcheck, Node.ok_bind]
    simp only [hnanos]
    rfl
  | table value => exact h.elim
  | vector value => exact h.elim
  | array items => cases hleaf
  | object properties => cases hleaf

/-! ### Arrays and objects -/

theorem textOf_denotes {value : JsValue A} (h : Denotes env value k) : K.textOf k = textOf value := by
  cases value with
  | null => obtain rfl := h; rfl
  | boolean value => obtain rfl := h; rfl
  | number bits => obtain rfl := h; rfl
  | bigint n => obtain ⟨_, _, rfl⟩ := h; rfl
  | string text => obtain ⟨_, rfl⟩ := h; rfl
  | qvalue state => exact h.elim
  | bytes bytes => obtain rfl := h; rfl
  | operator name => obtain ⟨_, _, _, rfl⟩ := h; rfl
  | lambda source context => obtain ⟨_, _, _, _, rfl⟩ := h; rfl
  | timestamp n => obtain ⟨_, _, _, _, _, rfl⟩ := h; rfl
  | date text => obtain ⟨_, _, _, rfl⟩ := h; rfl
  | time n => obtain ⟨_, _, _, _, rfl⟩ := h; rfl
  | timespan n => obtain ⟨_, _, rfl⟩ := h; rfl
  | table value => exact h.elim
  | vector value => exact h.elim
  | array items => obtain ⟨_, _, rfl⟩ := h; rfl
  | object properties => obtain ⟨_, _, _, rfl⟩ := h; rfl

/-- Only an array denotes a list. -/
theorem rowOf_denotes {value : JsValue A} (h : Denotes env value k) : K.rowOf k = rowOf value := by
  have htext := textOf_denotes h
  by_cases hlist : ∃ items, value = .array items
  · obtain ⟨items, rfl⟩ := hlist
    obtain ⟨values, hvalues, rfl⟩ := h
    cases items with
    | nil =>
      obtain rfl := hvalues
      rfl
    | cons item rest =>
      obtain ⟨first, others, -, -, rfl⟩ := hvalues
      rfl
  · have hvalue : rowOf value = textOf value := by
      cases value with
      | array items => exact absurd ⟨items, rfl⟩ hlist
      | _ => rfl
    have hk : K.rowOf k = K.textOf k := by
      cases k with
      | MixedList values =>
        cases value with
        | array items => exact absurd ⟨items, rfl⟩ hlist
        | _ => simp [Denotes] at h
      | _ => rfl
    rw [hk, hvalue, htext]

theorem mapM_rowOf_denotes {items : List (JsValue A)} {values : List K} (h : DenoteAll env items values) :
    values.mapM K.rowOf = items.mapM rowOf := by
  induction items generalizing values with
  | nil =>
    obtain rfl := h
    rfl
  | cons item rest ih =>
    obtain ⟨value, others, hvalue, hothers, rfl⟩ := h
    rw [List.mapM_cons, List.mapM_cons, rowOf_denotes hvalue, ih hothers]

theorem textRows_denotes {items : List (JsValue A)} {values : List K} (h : DenoteAll env items values) :
    K.textRows values = textRows items := by
  cases items with
  | nil =>
    obtain rfl := h
    rfl
  | cons item rest =>
    obtain ⟨value, others, hvalue, hothers, rfl⟩ := h
    rw [K.textRows, textRows, textOf_denotes hvalue, mapM_rowOf_denotes hothers]

theorem comeBack_of {items : List (JsValue A)} {values : List K} (h : DenoteAll env items values)
    (ih : ∀ item ∈ items, ∀ {k}, Denotes env item k → k.viewNorm.bind (shown env · depth) = comesBack env item) :
    ((K.normAll viewTexts values).bind fun values => shownAll env depth values) = comeBack env items := by
  induction items generalizing values with
  | nil =>
    obtain rfl := h
    rfl
  | cons item rest ihrest =>
    obtain ⟨value, others, hvalue, hothers, rfl⟩ := h
    rw [comeBack, ← ih item (by simp) hvalue, ← ihrest hothers fun item hmem => ih item (by simp [hmem]), K.normAll,
      K.viewNorm]
    cases K.normWith viewTexts value with
    | none => rfl
    | some first =>
      cases K.normAll viewTexts others with
      | none => simp
      | some more => rfl

theorem entriesComeBack_of {properties : List (JsString × JsValue A)} {entries : List (Str × K)}
    (h : DenoteEntries env properties entries)
    (ih : ∀ property ∈ properties, ∀ {k}, Denotes env property.2 k →
      k.viewNorm.bind (shown env · depth) = comesBack env property.2) :
    ((K.normEntries viewTexts entries).bind fun entries => shownEntries env depth entries) =
      entriesComeBack env properties := by
  induction properties generalizing entries with
  | nil =>
    obtain rfl := h
    rfl
  | cons property rest ihrest =>
    obtain ⟨key, item⟩ := property
    obtain ⟨value, others, -, hvalue, hothers, rfl⟩ := h
    rw [entriesComeBack, ← ih (key, item) (by simp) hvalue, ← ihrest hothers fun property hmem => ih property (by simp [hmem]),
      K.normEntries, K.viewNorm]
    cases K.normWith viewTexts value with
    | none => rfl
    | some first =>
      cases K.normEntries viewTexts others with
      | none => simp
      | some more =>
        simp only [Option.bind_some, Option.map_some, shownEntries, Node.unitsOf_utf8Of]

theorem comesBack_texts {items : List (JsValue A)} {rows : List Bytes} (h : textRows items = some rows) :
    comesBack env (.array items) = (viewTexts rows).bind fun column =>
      vectorOf env (.ofCells (typeName 10) .string (column.map some)) := by
  cases items with
  | nil => cases h
  | cons first rest => simp only [comesBack, h]

theorem comesBack_array {items : List (JsValue A)} (hne : items ≠ []) (h : textRows items = none) :
    comesBack env (.array items) = (comeBack env items).map .array := by
  cases items with
  | nil => exact absurd rfl hne
  | cons first rest => simp only [comesBack, h]

theorem shown_array {items : List (JsValue A)} {values : List K} (h : DenoteAll env items values)
    (hdepth : depth ≤ Xqdb.maxValueDepth)
    (ih : ∀ item ∈ items, ∀ {k}, Denotes env item k → k.viewNorm.bind (shown env · (depth + 1)) = comesBack env item) :
    (K.viewNorm (.MixedList values)).bind (shown env · depth) = comesBack env (.array items) := by
  have hrows := textRows_denotes h
  cases hitems : textRows items with
  | some rows =>
    rw [comesBack_texts hitems, K.viewNorm, K.normWith_texts (hrows.trans hitems)]
    cases viewTexts rows with
    | none => rfl
    | some column => exact shown_series hdepth _
  | none =>
    by_cases hne : items = []
    · subst hne
      obtain rfl := h
      exact shown_series hdepth _
    · have hvalues : values ≠ [] := by
        rintro rfl
        cases items with
        | nil => exact hne rfl
        | cons item rest =>
          obtain ⟨_, _, -, -, hcons⟩ := h
          cases hcons
      rw [comesBack_array hne hitems, K.viewNorm, K.normWith_list hvalues (hrows.trans hitems), ← comeBack_of h ih]
      cases K.normAll viewTexts values with
      | none => rfl
      | some results => exact shown_list hdepth results

theorem denoteAll_values {properties : List (JsString × JsValue A)} {entries : List (Str × K)}
    (h : DenoteEntries env properties entries) : DenoteAll env (properties.map Prod.snd) (entries.map Prod.snd) := by
  induction properties generalizing entries with
  | nil =>
    obtain rfl := h
    rfl
  | cons property rest ih =>
    obtain ⟨key, item⟩ := property
    obtain ⟨value, others, -, hvalue, hothers, rfl⟩ := h
    exact ⟨value, others.map Prod.snd, hvalue, ih hothers, rfl⟩

theorem denoteEntries_keys {properties : List (JsString × JsValue A)} {entries : List (Str × K)}
    (h : DenoteEntries env properties entries) :
    entries.map Prod.fst = properties.map (fun property => utf8Of property.1) ∧
      ∀ entry ∈ entries, 0 ∉ entry.1.bytes := by
  induction properties generalizing entries with
  | nil =>
    obtain rfl := h
    simp
  | cons property rest ih =>
    obtain ⟨key, item⟩ := property
    obtain ⟨value, others, hkey, -, hothers, rfl⟩ := h
    obtain ⟨hkeys, hnuls⟩ := ih hothers
    refine ⟨by simp [hkeys], ?_⟩
    intro entry hmem
    cases hmem with
    | head => exact hkey
    | tail _ hmem => exact hnuls entry hmem

/-- Texts that are different in Rust are different in JavaScript. -/
theorem unitsOf_nodup {keys : List JsString} (h : (keys.map utf8Of).Nodup) : (keys.map scrub).Nodup := by
  have hinj : ∀ a ∈ keys, ∀ b ∈ keys, scrub a = scrub b → utf8Of a = utf8Of b := by
    intro a _ b _ heq
    have hread := congrArg Unicode.ofUtf16 heq
    rw [scrub, scrub, Unicode.ofUtf16_utf16, Unicode.ofUtf16_utf16] at hread
    exact congrArg Str.ofText hread
  induction keys with
  | nil => exact List.nodup_nil
  | cons key rest ih =>
    rw [List.map_cons, List.nodup_cons] at h ⊢
    refine ⟨?_, ih h.2 fun a ha b hb => hinj a (by simp [ha]) b (by simp [hb])⟩
    intro hmem
    obtain ⟨other, hother, heq⟩ := List.mem_map.mp hmem
    exact h.1 (List.mem_map.mpr ⟨other, hother, hinj other (by simp [hother]) key (by simp) heq⟩)

theorem ordered_scrubbed {properties : List (JsString × JsValue A)} {results : List (JsString × JsValue A)}
    (horder : properties.Pairwise (PropertyOrder.Before arrayIndex))
    (hkeys : results.map Prod.fst = properties.map fun property => scrub property.1) :
    PropertyOrder.ordered arrayIndex results = results := by
  rw [PropertyOrder.ordered_eq_self_iff]
  have hpairs : (properties.map fun property => scrub property.1).Pairwise fun a b =>
      PropertyOrder.Precedes (arrayIndex a) (arrayIndex b) := by
    rw [List.pairwise_map]
    simp only [arrayIndex_scrub]
    exact horder
  rw [← hkeys, List.pairwise_map] at hpairs
  exact hpairs

theorem entriesComeBack_keys {properties results : List (JsString × JsValue A)}
    (h : entriesComeBack env properties = some results) :
    results.map Prod.fst = properties.map fun property => scrub property.1 := by
  induction properties generalizing results with
  | nil =>
    cases h
    rfl
  | cons property rest ih =>
    obtain ⟨key, item⟩ := property
    rw [entriesComeBack] at h
    obtain ⟨value, -, h⟩ := Option.bind_eq_some_iff.mp h
    obtain ⟨others, hothers, rfl⟩ := Option.map_eq_some_iff.mp h
    rw [List.map_cons, ih hothers, List.map_cons]

theorem viewTexts_length {rows : List Bytes} {column : List Str} (h : viewTexts rows = some column) :
    column.length = rows.length := by
  unfold viewTexts at h
  split at h
  · exact K.rowTexts_length h
  · cases h

theorem normEntries_keys {entries results : List (Str × K)} (h : K.normEntries viewTexts entries = some results) :
    results.map Prod.fst = entries.map Prod.fst := by
  rw [K.normEntries_eq] at h
  obtain ⟨values, hvalues, rfl⟩ := Option.map_eq_some_iff.mp h
  rw [List.map_fst_zip]
  simp [K.normAll_length hvalues]

theorem shownEntries_strings (hdepth : depth + 1 ≤ Xqdb.maxValueDepth) (keys : List Str) (column : List Str) :
    (shownEntries env (depth + 1) (keys.zip (column.map .String)) : Option (List (JsString × JsValue A))) =
      some ((keys.map unitsOf).zip (column.map fun text => .string (unitsOf text))) := by
  have hstring (text : Str) : (shown env (.String text) (depth + 1) : Option (JsValue A)) =
      some (.string (unitsOf text)) :=
    shown_of (Node.setString "string" text) (by rw [kIntoNativeWithDepth, checkDepth_ok hdepth]; rfl) rfl
  induction keys generalizing column with
  | nil => rfl
  | cons key rest ih =>
    cases column with
    | nil => rfl
    | cons text column =>
      rw [List.map_cons, List.zip_cons_cons, shownEntries, hstring, Option.bind_some, ih]
      rfl

theorem shown_object {properties : List (JsString × JsValue A)} {entries : List (Str × K)}
    (h : DenoteEntries env properties entries) (hnodup : (entries.map Prod.fst).Nodup)
    (horder : properties.Pairwise (PropertyOrder.Before arrayIndex)) (hdepth : depth + 1 ≤ Xqdb.maxValueDepth)
    (ih : ∀ property ∈ properties, ∀ {k}, Denotes env property.2 k →
      k.viewNorm.bind (shown env · (depth + 1)) = comesBack env property.2) :
    (K.viewNorm (.Dict entries)).bind (shown env · depth) = comesBack env (.object properties) := by
  obtain ⟨hkeys, hnuls⟩ := denoteEntries_keys h
  have hrows := textRows_denotes (denoteAll_values h)
  -- whatever the values have become, they stand under the same keys
  have hobject {results : List (Str × K)} (hsame : results.map Prod.fst = entries.map Prod.fst) :
      (shown env (.Dict results) depth : Option (JsValue A)) = (shownEntries env (depth + 1) results).map fun properties =>
        .object (PropertyOrder.ordered arrayIndex properties) := by
    apply shown_dict (Nat.le_of_succ_le hdepth)
    · intro entry hmem
      have hkey : entry.1 ∈ entries.map Prod.fst := hsame ▸ List.mem_map_of_mem hmem
      obtain ⟨other, hother, heq⟩ := List.mem_map.mp hkey
      exact heq ▸ hnuls other hother
    · have hunits : results.map (fun entry => unitsOf entry.1) = (properties.map Prod.fst).map scrub := by
        have hmap : results.map (fun entry => unitsOf entry.1) = (results.map Prod.fst).map unitsOf := by
          rw [List.map_map]
          rfl
        rw [hmap, hsame, hkeys, List.map_map, List.map_map]
        exact List.map_congr_left fun property _ => Node.unitsOf_utf8Of property.1
      rw [hunits]
      apply unitsOf_nodup
      rw [List.map_map]
      exact hkeys ▸ hnodup
  have hunits : (entries.map Prod.fst).map unitsOf = properties.map fun property => scrub property.1 := by
    rw [hkeys, List.map_map]
    exact List.map_congr_left fun property _ => Node.unitsOf_utf8Of property.1
  rw [comesBack, K.viewNorm, K.normWith, hrows]
  cases htexts : textRows (properties.map Prod.snd) with
  | some rows =>
    cases hcolumn : viewTexts rows with
    | none => simp [hcolumn]
    | some column =>
      have hlength : column.length = entries.length := by
        rw [viewTexts_length hcolumn, K.textRows_length (hrows.trans htexts), List.length_map]
      have hsame : ((entries.map Prod.fst).zip (column.map K.String)).map Prod.fst = entries.map Prod.fst := by
        rw [List.map_fst_zip]
        simp [hlength]
      have hproperties : (entries.map Prod.fst).map unitsOf = ((properties.map fun property => scrub property.1).zip
          (column.map fun text => (JsValue.string (unitsOf text) : JsValue A))).map Prod.fst := by
        rw [List.map_fst_zip, hunits]
        have hcount := congrArg List.length hkeys
        simp only [List.length_map] at hcount ⊢
        omega
      simp only [hcolumn, Option.map_some, Option.bind_some, hobject hsame, shownEntries_strings hdepth, hunits]
      rw [ordered_scrubbed horder (hproperties.symm.trans hunits)]
  | none =>
    have hback := entriesComeBack_of h ih
    simp only
    rw [← hback]
    cases hresults : K.normEntries viewTexts entries with
    | none => rfl
    | some results =>
      have hsame : results.map Prod.fst = entries.map Prod.fst := normEntries_keys hresults
      simp only [Option.map_some, Option.bind_some, hobject hsame]
      cases hshown : (shownEntries env (depth + 1) results : Option (List (JsString × JsValue A))) with
      | none => rfl
      | some found =>
        rw [hresults, Option.bind_some, hshown] at hback
        simp only [Option.map_some]
        rw [ordered_scrubbed horder (entriesComeBack_keys hback.symm)]

theorem allInOrder_iff {items : List (JsValue A)} : AllInOrder items ↔ ∀ item ∈ items, InOrder item := by
  induction items with
  | nil => simp [AllInOrder]
  | cons item rest ih => simp [AllInOrder, ih]

theorem entriesInOrder_iff {properties : List (JsString × JsValue A)} :
    EntriesInOrder properties ↔ ∀ property ∈ properties, InOrder property.2 := by
  induction properties with
  | nil => simp [EntriesInOrder]
  | cons property rest ih => simp [EntriesInOrder, ih]

theorem nesting_le_max {items : List (JsValue A)} {item : JsValue A} (h : item ∈ items) :
    nesting item ≤ maxNesting items := by
  induction items with
  | nil => cases h
  | cons other rest ih =>
    rw [maxNesting]
    cases h with
    | head => omega
    | tail _ hmem =>
      have := ih hmem
      omega

theorem nesting_le_entries {properties : List (JsString × JsValue A)} {property : JsString × JsValue A}
    (h : property ∈ properties) : nesting property.2 ≤ entriesNesting properties := by
  induction properties with
  | nil => cases h
  | cons other rest ih =>
    obtain ⟨key, value⟩ := other
    rw [entriesNesting]
    cases h with
    | head => exact Nat.le_max_left _ _
    | tail _ hmem =>
      have := ih hmem
      omega

/-- The value that was denoted, decoded and shown, is what comes back. -/
theorem shown_viewNorm (hiso : IsoDates env) {value : JsValue A} (h : Denotes env value k) (horder : InOrder value)
    (hdepth : depth + nesting value ≤ Xqdb.maxValueDepth) :
    k.viewNorm.bind (shown env · depth) = comesBack env value := by
  induction value using JsValue.induct generalizing depth k with
  | leaf value hleaf => exact shown_leaf hiso hleaf h (by omega)
  | array items ih =>
    obtain ⟨values, hvalues, rfl⟩ := h
    rw [nesting] at hdepth
    refine shown_array hvalues (by omega) fun item hmem k hk => ?_
    have hle := nesting_le_max hmem
    exact ih item hmem hk (allInOrder_iff.mp horder item hmem) (by omega)
  | object properties ih =>
    obtain ⟨entries, hentries, hnodup, rfl⟩ := h
    rw [nesting] at hdepth
    refine shown_object hentries hnodup horder.1 (by omega) fun property hmem k hk => ?_
    have hle := nesting_le_entries hmem
    exact ih property hmem hk (entriesInOrder_iff.mp horder.2 property hmem) (by omega)

/-! ### What the decoder needs to know -/

theorem denoteAll_spec {items : List (JsValue A)} {values : List K} (h : DenoteAll env items values)
    (ih : ∀ item ∈ items, ∀ {k}, Denotes env item k → k.IsPlain ∧ k.KeysDistinct ∧ k.nesting = nesting item) :
    K.AllPlain values ∧ K.AllKeysDistinct values ∧ K.maxNesting values = maxNesting items := by
  induction items generalizing values with
  | nil =>
    obtain rfl := h
    exact ⟨trivial, trivial, rfl⟩
  | cons item rest ihrest =>
    obtain ⟨value, others, hvalue, hothers, rfl⟩ := h
    obtain ⟨hplain, hkeys, hnesting⟩ := ih item (by simp) hvalue
    obtain ⟨hplains, hkeyss, hnestings⟩ := ihrest hothers fun item hmem => ih item (by simp [hmem])
    exact ⟨⟨hplain, hplains⟩, ⟨hkeys, hkeyss⟩, by rw [K.maxNesting, maxNesting, hnesting, hnestings]⟩

theorem denoteEntries_spec {properties : List (JsString × JsValue A)} {entries : List (Str × K)}
    (h : DenoteEntries env properties entries)
    (ih : ∀ property ∈ properties, ∀ {k}, Denotes env property.2 k →
      k.IsPlain ∧ k.KeysDistinct ∧ k.nesting = nesting property.2) :
    K.EntriesPlain entries ∧ K.EntriesKeysDistinct entries ∧ K.entriesNesting entries = entriesNesting properties := by
  induction properties generalizing entries with
  | nil =>
    obtain rfl := h
    exact ⟨trivial, trivial, rfl⟩
  | cons property rest ihrest =>
    obtain ⟨key, item⟩ := property
    obtain ⟨value, others, -, hvalue, hothers, rfl⟩ := h
    obtain ⟨hplain, hkeys, hnesting⟩ := ih (key, item) (by simp) hvalue
    obtain ⟨hplains, hkeyss, hnestings⟩ := ihrest hothers fun property hmem => ih property (by simp [hmem])
    exact ⟨⟨hplain, hplains⟩, ⟨hkeys, hkeyss⟩, by rw [K.entriesNesting, entriesNesting, hnesting, hnestings]⟩

theorem denotes_spec {value : JsValue A} (h : Denotes env value k) :
    k.IsPlain ∧ k.KeysDistinct ∧ k.nesting = nesting value := by
  induction value using JsValue.induct generalizing k with
  | leaf value hleaf =>
    cases value with
    | null => obtain rfl := h; exact ⟨trivial, trivial, rfl⟩
    | boolean value => obtain rfl := h; exact ⟨trivial, trivial, rfl⟩
    | number bits => obtain rfl := h; exact ⟨trivial, trivial, rfl⟩
    | bigint n => obtain ⟨_, _, rfl⟩ := h; exact ⟨trivial, trivial, rfl⟩
    | string text => obtain ⟨_, rfl⟩ := h; exact ⟨trivial, trivial, rfl⟩
    | qvalue state => exact h.elim
    | bytes bytes => obtain rfl := h; exact ⟨trivial, trivial, rfl⟩
    | operator name => obtain ⟨_, _, _, rfl⟩ := h; exact ⟨trivial, trivial, rfl⟩
    | lambda source context => obtain ⟨_, _, _, _, rfl⟩ := h; exact ⟨trivial, trivial, rfl⟩
    | timestamp n => obtain ⟨_, _, hleap, _, _, rfl⟩ := h; exact ⟨hleap, trivial, rfl⟩
    | date text => obtain ⟨_, _, _, rfl⟩ := h; exact ⟨trivial, trivial, rfl⟩
    | time n => obtain ⟨_, hleap, _, _, rfl⟩ := h; exact ⟨hleap, trivial, rfl⟩
    | timespan n => obtain ⟨_, _, rfl⟩ := h; exact ⟨trivial, trivial, rfl⟩
    | table value => exact h.elim
    | vector value => exact h.elim
    | array items => cases hleaf
    | object properties => cases hleaf
  | array items ih =>
    obtain ⟨values, hvalues, rfl⟩ := h
    obtain ⟨hplain, hkeys, hnesting⟩ := denoteAll_spec hvalues ih
    exact ⟨hplain, hkeys, by rw [K.nesting, nesting, hnesting]⟩
  | object properties ih =>
    obtain ⟨entries, hentries, hnodup, rfl⟩ := h
    obtain ⟨hplain, hkeys, hnesting⟩ := denoteEntries_spec hentries ih
    exact ⟨hplain, ⟨hnodup, hkeys⟩, by rw [K.nesting, nesting, hnesting]⟩

end Trip

/-! ## A second trip -/

theorem scrub_scrub (text : JsString) : scrub (scrub text) = scrub text := Unicode.scrub_utf16 _

theorem scrub_unitsOf (text : Str) : scrub (unitsOf text) = unitsOf text := Unicode.scrub_utf16 _

section Stable

variable {env : Packages}

theorem not_convenient_vectorOf {column : Series} {result : JsValue A} (h : vectorOf env column = some result) :
    ¬ Convenient result := by
  obtain ⟨bytes, -, h⟩ := Option.bind_eq_some_iff.mp h
  obtain ⟨table, -, h⟩ := Option.bind_eq_some_iff.mp h
  obtain ⟨vector, -, rfl⟩ := Option.map_eq_some_iff.mp h
  exact id

/-- An array comes back as one, or as a vector. -/
theorem comesBack_array_eq_some {items : List (JsValue A)} {result : JsValue A}
    (h : comesBack env (.array items) = some result) (hresult : Convenient result) :
    items ≠ [] ∧ textRows items = none ∧ ∃ results, comeBack env items = some results ∧ result = .array results := by
  cases hrows : textRows items with
  | some rows =>
    rw [comesBack_texts hrows] at h
    obtain ⟨column, -, h⟩ := Option.bind_eq_some_iff.mp h
    exact absurd hresult (not_convenient_vectorOf h)
  | none =>
    by_cases hne : items = []
    · subst hne
      exact absurd hresult (not_convenient_vectorOf h)
    · rw [comesBack_array hne hrows] at h
      obtain ⟨results, hresults, rfl⟩ := Option.map_eq_some_iff.mp h
      exact ⟨hne, rfl, results, hresults, rfl⟩

theorem comeBack_length {items results : List (JsValue A)} (h : comeBack env items = some results) :
    results.length = items.length := by
  induction items generalizing results with
  | nil =>
    cases h
    rfl
  | cons item rest ih =>
    rw [comeBack] at h
    obtain ⟨first, -, h⟩ := Option.bind_eq_some_iff.mp h
    obtain ⟨others, hothers, rfl⟩ := Option.map_eq_some_iff.mp h
    simp [ih hothers]

/-- An object comes back as one. -/
theorem comesBack_object_eq_some {properties : List (JsString × JsValue A)} {result : JsValue A}
    (h : comesBack env (.object properties) = some result) : ∃ results, result = .object results := by
  rw [comesBack] at h
  split at h
  · obtain ⟨column, -, rfl⟩ := Option.map_eq_some_iff.mp h
    exact ⟨_, rfl⟩
  · obtain ⟨results, -, rfl⟩ := Option.map_eq_some_iff.mp h
    exact ⟨_, rfl⟩

theorem rowOf_comesBack {value result : JsValue A} (h : comesBack env value = some result) (hresult : Convenient result) :
    textOf result = textOf value ∧ rowOf result = rowOf value := by
  cases value with
  | array items =>
    obtain ⟨hne, -, results, hresults, rfl⟩ := comesBack_array_eq_some h hresult
    have hlength := comeBack_length hresults
    cases items with
    | nil => exact absurd rfl hne
    | cons item rest =>
      cases results with
      | nil => cases hlength
      | cons first others => exact ⟨rfl, rfl⟩
  | object properties =>
    obtain ⟨results, rfl⟩ := comesBack_object_eq_some h
    exact ⟨rfl, rfl⟩
  | string text =>
    obtain rfl := Option.some.inj h
    exact ⟨rfl, rfl⟩
  | lambda source context =>
    obtain rfl := Option.some.inj h
    exact ⟨rfl, rfl⟩
  | _ =>
    obtain rfl := Option.some.inj h
    exact ⟨rfl, rfl⟩

theorem mapM_rowOf_comeBack {items results : List (JsValue A)} (h : comeBack env items = some results)
    (hresults : AllConvenient results) : results.mapM rowOf = items.mapM rowOf := by
  induction items generalizing results with
  | nil =>
    cases h
    rfl
  | cons item rest ih =>
    rw [comeBack] at h
    obtain ⟨first, hfirst, h⟩ := Option.bind_eq_some_iff.mp h
    obtain ⟨others, hothers, rfl⟩ := Option.map_eq_some_iff.mp h
    rw [List.mapM_cons, List.mapM_cons, (rowOf_comesBack hfirst hresults.1).2, ih hothers hresults.2]

theorem textRows_comeBack {items results : List (JsValue A)} (h : comeBack env items = some results)
    (hresults : AllConvenient results) : textRows results = textRows items := by
  cases items with
  | nil =>
    cases h
    rfl
  | cons item rest =>
    rw [comeBack] at h
    obtain ⟨first, hfirst, h⟩ := Option.bind_eq_some_iff.mp h
    obtain ⟨others, hothers, rfl⟩ := Option.map_eq_some_iff.mp h
    rw [textRows, textRows, (rowOf_comesBack hfirst hresults.1).1, mapM_rowOf_comeBack hothers hresults.2]

theorem comeBack_stable {items results : List (JsValue A)} (h : comeBack env items = some results)
    (hresults : AllConvenient results)
    (ih : ∀ item ∈ items, ∀ {result}, comesBack env item = some result → Convenient result →
      comesBack env result = some result) : comeBack env results = some results := by
  induction items generalizing results with
  | nil =>
    cases h
    rfl
  | cons item rest ihrest =>
    rw [comeBack] at h
    obtain ⟨first, hfirst, h⟩ := Option.bind_eq_some_iff.mp h
    obtain ⟨others, hothers, rfl⟩ := Option.map_eq_some_iff.mp h
    rw [comeBack, ih item (by simp) hfirst hresults.1, Option.bind_some,
      ihrest hothers hresults.2 fun item hmem => ih item (by simp [hmem])]
    rfl

theorem entriesComeBack_values {properties results : List (JsString × JsValue A)}
    (h : entriesComeBack env properties = some results) :
    comeBack env (properties.map Prod.snd) = some (results.map Prod.snd) := by
  induction properties generalizing results with
  | nil =>
    cases h
    rfl
  | cons property rest ih =>
    obtain ⟨key, item⟩ := property
    rw [entriesComeBack] at h
    obtain ⟨first, hfirst, h⟩ := Option.bind_eq_some_iff.mp h
    obtain ⟨others, hothers, rfl⟩ := Option.map_eq_some_iff.mp h
    rw [List.map_cons, comeBack, hfirst, Option.bind_some, ih hothers]
    rfl

/-- Entries whose keys and values are settled. -/
theorem entriesComeBack_self {results : List (JsString × JsValue A)} (hkeys : ∀ entry ∈ results, scrub entry.1 = entry.1)
    (hvalues : comeBack env (results.map Prod.snd) = some (results.map Prod.snd)) :
    entriesComeBack env results = some results := by
  induction results with
  | nil => rfl
  | cons entry rest ih =>
    obtain ⟨key, value⟩ := entry
    rw [List.map_cons, comeBack] at hvalues
    obtain ⟨first, hfirst, h⟩ := Option.bind_eq_some_iff.mp hvalues
    obtain ⟨others, hothers, hcons⟩ := Option.map_eq_some_iff.mp h
    injection hcons with hsame hrest
    subst hsame
    rw [hrest] at hothers
    rw [entriesComeBack, hfirst, Option.bind_some, ih (fun entry hmem => hkeys entry (by simp [hmem])) hothers,
      hkeys (key, first) (by simp)]
    rfl

theorem entriesComeBack_strings (keys : List JsString) (column : List Str) (hkeys : ∀ key ∈ keys, scrub key = key) :
    entriesComeBack env (keys.zip (column.map fun text => (.string (unitsOf text) : JsValue A))) =
      some (keys.zip (column.map fun text => .string (unitsOf text))) := by
  induction keys generalizing column with
  | nil => rfl
  | cons key rest ih =>
    cases column with
    | nil => rfl
    | cons text column =>
      rw [List.map_cons, List.zip_cons_cons, entriesComeBack, comesBack, Option.bind_some,
        ih column fun key hmem => hkeys key (by simp [hmem]), hkeys key (by simp), scrub_unitsOf]
      rfl

theorem mapM_rowOf_length {items : List (JsValue A)} {rows : List Bytes} (h : items.mapM rowOf = some rows) :
    rows.length = items.length := by
  induction items generalizing rows with
  | nil =>
    cases h
    rfl
  | cons item rest ih =>
    rw [List.mapM_cons] at h
    obtain ⟨row, -, h⟩ := Option.bind_eq_some_iff.mp h
    obtain ⟨more, hmore, h⟩ := Option.bind_eq_some_iff.mp h
    cases h
    rw [List.length_cons, List.length_cons, ih hmore]

theorem textRows_length {items : List (JsValue A)} {rows : List Bytes} (h : textRows items = some rows) :
    rows.length = items.length := by
  cases items with
  | nil => cases h
  | cons item rest =>
    obtain ⟨row, -, h⟩ := Option.bind_eq_some_iff.mp h
    obtain ⟨more, hmore, rfl⟩ := Option.map_eq_some_iff.mp h
    rw [List.length_cons, List.length_cons, mapM_rowOf_length hmore]

theorem textRows_zip_strings (keys : List JsString) (column : List Str) :
    textRows ((keys.zip (column.map fun text => (.string (unitsOf text) : JsValue A))).map Prod.snd) = none := by
  cases keys with
  | nil => rfl
  | cons key rest =>
    cases column with
    | nil => rfl
    | cons text column => rfl

/-- **A second trip changes nothing**: what came back without vectors comes back as it is. -/
theorem comesBack_stable {value result : JsValue A} (h : comesBack env value = some result) (hresult : Convenient result) :
    comesBack env result = some result := by
  induction value using JsValue.induct generalizing result with
  | leaf value hleaf =>
    cases value with
    | string text =>
      obtain rfl := Option.some.inj h
      rw [comesBack, scrub_scrub]
    | lambda source context =>
      obtain rfl := Option.some.inj h
      rw [comesBack, scrub_scrub, scrub_scrub]
    | array items => cases hleaf
    | object properties => cases hleaf
    | _ =>
      obtain rfl := Option.some.inj h
      rfl
  | array items ih =>
    obtain ⟨hne, hrows, results, hresults, rfl⟩ := comesBack_array_eq_some h hresult
    have hlength := comeBack_length hresults
    have hne' : results ≠ [] := by
      rintro rfl
      exact hne (List.length_eq_zero_iff.mp hlength.symm)
    rw [comesBack_array hne' ((textRows_comeBack hresults hresult).trans hrows), comeBack_stable hresults hresult ih]
    rfl
  | object properties ih =>
    rw [comesBack] at h
    cases hrows : textRows (properties.map Prod.snd) with
    | some rows =>
      simp only [hrows] at h
      obtain ⟨column, -, rfl⟩ := Option.map_eq_some_iff.mp h
      rw [comesBack]
      simp only [textRows_zip_strings]
      rw [entriesComeBack_strings _ column fun key hmem => ?_]
      · rfl
      · obtain ⟨property, -, rfl⟩ := List.mem_map.mp hmem
        exact scrub_scrub property.1
    | none =>
      simp only [hrows] at h
      obtain ⟨results, hresults, rfl⟩ := Option.map_eq_some_iff.mp h
      have hvalues := entriesComeBack_values hresults
      have hconvenient : AllConvenient (results.map Prod.snd) :=
        allConvenient_iff.mpr (List.forall_mem_map.mpr (entriesConvenient_iff.mp hresult))
      have hsettled : ∀ entry ∈ results, scrub entry.1 = entry.1 := by
        intro entry hmem
        have hkey := List.mem_map_of_mem (f := Prod.fst) hmem
        rw [entriesComeBack_keys hresults] at hkey
        obtain ⟨property, -, heq⟩ := List.mem_map.mp hkey
        rw [← heq, scrub_scrub]
      have hstable := comeBack_stable hvalues hconvenient (List.forall_mem_map.mpr fun property hmem => ih property hmem)
      rw [comesBack, (textRows_comeBack hvalues hconvenient).trans hrows]
      simp only
      rw [entriesComeBack_self hsettled hstable]
      rfl

/-! ### What a second trip asks for -/

theorem comeBack_mem {items results : List (JsValue A)} (h : comeBack env items = some results) {result : JsValue A}
    (hmem : result ∈ results) : ∃ item ∈ items, comesBack env item = some result := by
  induction items generalizing results with
  | nil =>
    cases h
    cases hmem
  | cons item rest ih =>
    rw [comeBack] at h
    obtain ⟨first, hfirst, h⟩ := Option.bind_eq_some_iff.mp h
    obtain ⟨others, hothers, rfl⟩ := Option.map_eq_some_iff.mp h
    cases hmem with
    | head => exact ⟨item, by simp, hfirst⟩
    | tail _ hmem =>
      obtain ⟨item', hitem, heq⟩ := ih hothers hmem
      exact ⟨item', by simp [hitem], heq⟩

theorem entriesComeBack_mem {properties results : List (JsString × JsValue A)}
    (h : entriesComeBack env properties = some results) {entry : JsString × JsValue A} (hmem : entry ∈ results) :
    ∃ property ∈ properties, comesBack env property.2 = some entry.2 := by
  obtain ⟨item, hitem, heq⟩ := comeBack_mem (entriesComeBack_values h) (List.mem_map_of_mem hmem)
  obtain ⟨property, hproperty, rfl⟩ := List.mem_map.mp hitem
  exact ⟨property, hproperty, heq⟩

theorem maxNesting_le {items : List (JsValue A)} {bound : Nat} (h : ∀ item ∈ items, nesting item ≤ bound) :
    maxNesting items ≤ bound := by
  induction items with
  | nil => exact Nat.zero_le _
  | cons item rest ih => exact Nat.max_le.mpr ⟨h item (by simp), ih fun item hmem => h item (by simp [hmem])⟩

theorem entriesNesting_le {properties : List (JsString × JsValue A)} {bound : Nat}
    (h : ∀ property ∈ properties, nesting property.2 ≤ bound) : entriesNesting properties ≤ bound := by
  induction properties with
  | nil => exact Nat.zero_le _
  | cons property rest ih =>
    exact Nat.max_le.mpr ⟨h property (by simp), ih fun property hmem => h property (by simp [hmem])⟩

/-- What comes back is not deeper, and the properties of its objects are in order. -/
theorem comesBack_shape {value result : JsValue A} (h : comesBack env value = some result) (hresult : Convenient result)
    (horder : InOrder value) : InOrder result ∧ nesting result ≤ nesting value := by
  induction value using JsValue.induct generalizing result with
  | leaf value hleaf =>
    cases value with
    | array items => cases hleaf
    | object properties => cases hleaf
    | _ =>
      obtain rfl := Option.some.inj h
      exact ⟨trivial, Nat.le_refl _⟩
  | array items ih =>
    obtain ⟨-, -, results, hresults, rfl⟩ := comesBack_array_eq_some h hresult
    have hshape : ∀ result ∈ results, InOrder result ∧ nesting result ≤ maxNesting items := by
      intro result hmem
      obtain ⟨item, hitem, heq⟩ := comeBack_mem hresults hmem
      obtain ⟨hordered, hle⟩ := ih item hitem heq (allConvenient_iff.mp hresult result hmem)
        (allInOrder_iff.mp horder item hitem)
      exact ⟨hordered, hle.trans (nesting_le_max hitem)⟩
    refine ⟨allInOrder_iff.mpr fun result hmem => (hshape result hmem).1, ?_⟩
    rw [nesting, nesting]
    exact Nat.add_le_add_left (maxNesting_le fun result hmem => (hshape result hmem).2) _
  | object properties ih =>
    rw [comesBack] at h
    cases hrows : textRows (properties.map Prod.snd) with
    | some rows =>
      simp only [hrows] at h
      obtain ⟨column, hcolumn, rfl⟩ := Option.map_eq_some_iff.mp h
      have hlength : column.length = properties.length := by
        rw [viewTexts_length hcolumn, textRows_length hrows, List.length_map]
      have hkeys : (((properties.map fun property => scrub property.1).zip
          (column.map fun text => (.string (unitsOf text) : JsValue A)))).map Prod.fst =
            properties.map fun property => scrub property.1 := by
        rw [List.map_fst_zip]
        simp [hlength]
      have hstring : ∀ entry ∈ (properties.map fun property => scrub property.1).zip
          (column.map fun text => (.string (unitsOf text) : JsValue A)), ∃ text, entry.2 = .string text := by
        intro entry hmem
        obtain ⟨text, -, heq⟩ := List.mem_map.mp (List.of_mem_zip hmem).2
        exact ⟨_, heq.symm⟩
      refine ⟨⟨(PropertyOrder.ordered_eq_self_iff arrayIndex).mp (ordered_scrubbed horder.1 hkeys), entriesInOrder_iff.mpr ?_⟩, ?_⟩
      · intro entry hmem
        obtain ⟨text, heq⟩ := hstring entry hmem
        rw [heq]
        trivial
      · rw [nesting, nesting]
        refine Nat.add_le_add_left (entriesNesting_le fun entry hmem => ?_) _
        obtain ⟨text, heq⟩ := hstring entry hmem
        rw [heq]
        exact Nat.zero_le _
    | none =>
      simp only [hrows] at h
      obtain ⟨results, hresults, rfl⟩ := Option.map_eq_some_iff.mp h
      have hshape : ∀ entry ∈ results, InOrder entry.2 ∧ nesting entry.2 ≤ entriesNesting properties := by
        intro entry hmem
        obtain ⟨property, hproperty, heq⟩ := entriesComeBack_mem hresults hmem
        obtain ⟨hordered, hle⟩ := ih property hproperty heq (entriesConvenient_iff.mp hresult entry hmem)
          (entriesInOrder_iff.mp horder.2 property hproperty)
        exact ⟨hordered, hle.trans (nesting_le_entries hproperty)⟩
      refine ⟨⟨(PropertyOrder.ordered_eq_self_iff arrayIndex).mp (ordered_scrubbed horder.1 (entriesComeBack_keys hresults)),
        entriesInOrder_iff.mpr fun entry hmem => (hshape entry hmem).1⟩, ?_⟩
      rw [nesting, nesting]
      exact Nat.add_le_add_left (entriesNesting_le fun entry hmem => (hshape entry hmem).2) _

end Stable

end Js
end Xqdb
