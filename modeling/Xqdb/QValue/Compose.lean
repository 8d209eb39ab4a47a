import Xqdb.QValue.Total
import Xqdb.QValue.Unambiguous

/-! Values out of values: `QValue::list` and `QValue::dictionary`. A value is read in the same
way wherever it stands, so the bytes of a list are a header and the bytes of its elements. -/

namespace Xqdb.QValue

def typeCode (value : QValue) : Int := value.metadata.typeCode

def len (value : QValue) : Nat := value.metadata.len

def isTable (value : QValue) : Bool := value.metadata.isTable

def maxDepth (value : QValue) : Nat := value.metadata.maxDepth

/-- `try_reserve_exact` on an empty vector. -/
def reserveBody (length : Nat) (what : String) : Exec Unit :=
  if isizeMax < length then
    Exec.err (.NotAbleToSerializeErr
      (s!"unable to allocate {length}-byte {what}: memory allocation failed because " ++
        "the computed capacity exceeded the collection's maximum"))
  else .ok ()

/-- `values.iter().try_fold(6, ..)`. -/
def bodyLength : Nat → List QValue → Exec Nat
  | length, [] => .ok length
  | length, value :: values => do
    let length ← Exec.okOr (checkedAdd length value.bytes.length) .OverLengthErr
    bodyLength length values

def tooDeep : XqdbError :=
  .NotAbleToSerializeErr s!"q value nesting exceeds {maxValueDepth} levels"

/-- The bytes of a general list. -/
def listBytes (values : List QValue) : Bytes :=
  [0, 0] ++ LittleEndian.encode 4 values.length ++ values.flatMap bytes

def list (values : List QValue) : Exec QValue :=
  if i32Max < values.length then Exec.err .OverLengthErr
  else if values.any fun value => maxValueDepth ≤ value.maxDepth then Exec.err tooDeep
  else do
    let length ← bodyLength 6 values
    reserveBody length "q general list"
    fromBytes (listBytes values)

def isSequenceType (typeCode : Int) : Bool := 0 ≤ typeCode ∧ typeCode ≤ 19 ∧ typeCode ≠ 3

/-- The checks of `QValue::dictionary` before it allocates. -/
def checkSides (keys values : QValue) : Exec Unit :=
  let keyedTable := keys.typeCode = 98 ∧ values.typeCode = 98
  if (keys.typeCode = 98 ∨ values.typeCode = 98) ∧ ¬ keyedTable then
    Exec.err (.NotAbleToSerializeErr "q keyed-table dictionary requires a table on both sides")
  else if ¬ keyedTable ∧ ¬ (isSequenceType keys.typeCode ∧ isSequenceType values.typeCode) then
    Exec.err (.NotAbleToSerializeErr
      "q dictionary keys and values must be lists, or both must be tables")
  else if keys.len ≠ values.len then
    Exec.err (.NotAbleToSerializeErr
      s!"q dictionary key/value count mismatch: {keys.len} and {values.len}")
  else if maxValueDepth ≤ keys.maxDepth ∨ maxValueDepth ≤ values.maxDepth then Exec.err tooDeep
  else .ok ()

def dictionary (keys values : QValue) : Exec QValue := do
  checkSides keys values
  let length ← Exec.okOr
    ((checkedAdd 1 keys.bytes.length).bind fun length => checkedAdd length values.bytes.length)
    .OverLengthErr
  reserveBody length "q dictionary"
  fromBytes (99 :: (keys.bytes ++ values.bytes))

/-! ## A value in its surroundings -/

theorem exists_tree (value : QValue) : ∃ wire : Wire, wire.WF ∧ wire.depth ≤ 64 ∧
    value.bytes = wire.encode ∧ value.metadata = wire.metadata :=
  (validate_eq_ok value.bounded).mp value.validated

theorem ext_bytes {a b : QValue} (h : a.bytes = b.bytes) : a = b := by
  have ha := fromBytes_eq_ok.mpr (rfl : a.bytes = a.bytes)
  have hb := fromBytes_eq_ok.mpr h.symm
  exact Except.ok.inj (ha.symm.trans hb)

/-- The parser in front of a value, between any other bytes. -/
theorem parser_at {front bytes back : Bytes} {seen : Nat}
    (h : (front ++ (bytes ++ back)).length ≤ usizeMax) :
    (⟨front ++ (bytes ++ back), front.length, seen⟩ : Parser).At (bytes ++ back) :=
  ⟨by simp, h, List.drop_left⟩

/-- A tree is read wherever it fits under the level of the parser, and refused elsewhere. -/
theorem parseValue_context {wire : Wire} (hwf : wire.WF) (hdepth : wire.depth ≤ 64) {front back : Bytes}
    {seen d : Nat} (h : (front ++ (wire.encode ++ back)).length ≤ usizeMax) :
    (d + wire.depth ≤ 64 →
      parseValue parseFuel d ⟨front ++ (wire.encode ++ back), front.length, seen⟩ =
        .ok (wire.parsed, ⟨front ++ (wire.encode ++ back), front.length + wire.encode.length,
          max seen (d + wire.depth)⟩)) ∧
    (64 < d + wire.depth →
      ∃ e, parseValue parseFuel d ⟨front ++ (wire.encode ++ back), front.length, seen⟩ =
        .error (.error e)) := by
  have hat := @parser_at front wire.encode back seen h
  constructor
  · intro hfits
    exact parseValue_complete hwf (by rw [parseFuel_eq]; omega) d _ back hfits hat
  · intro hdeep
    have hpanic := parseValue_noPanic parseFuel d ⟨front ++ (wire.encode ++ back), front.length, seen⟩
      (Nat.le_add_left _ _) (by decide)
    cases hrun : parseValue parseFuel d ⟨front ++ (wire.encode ++ back), front.length, seen⟩ with
    | error failure =>
      cases failure with
      | error e => exact ⟨e, rfl⟩
      | panic => exact absurd hrun hpanic
    | ok result =>
      -- the tree that was read is this one
      obtain ⟨value, p⟩ := result
      obtain ⟨other, rest, hother, hlevel, hsame, -⟩ := parseValue_sound parseFuel hat hrun
      obtain ⟨rfl, -⟩ := Wire.encode_append_inj hwf hother hsame
      omega

/-- Two values at the front of the same bytes are one value. -/
theorem bytes_append_inj {a b : QValue} {r s : Bytes} (h : a.bytes ++ r = b.bytes ++ s) :
    a = b ∧ r = s := by
  obtain ⟨wire, hwf, -, hbytes, -⟩ := exists_tree a
  obtain ⟨wire', hwf', -, hbytes', -⟩ := exists_tree b
  rw [hbytes, hbytes'] at h
  obtain ⟨rfl, rfl⟩ := Wire.encode_append_inj hwf hwf' h
  exact ⟨ext_bytes (hbytes.trans hbytes'.symm), rfl⟩

/-! ## Lists -/

theorem bodyLength_eq_ok {values : List QValue} {start length : Nat} (hstart : start ≤ usizeMax) :
    bodyLength start values = .ok length ↔
      length = start + (values.flatMap bytes).length ∧ length ≤ usizeMax := by
  induction values generalizing start with
  | nil =>
    simp only [bodyLength, Except.ok.injEq, List.flatMap_nil, List.length_nil, Nat.add_zero]
    omega
  | cons value values ih =>
    simp only [bodyLength, Exec.bind_eq_ok, Exec.okOr_eq_ok, checkedAdd_eq_some, List.flatMap_cons,
      List.length_append]
    constructor
    · rintro ⟨_, ⟨rfl, hle⟩, hrest⟩
      obtain ⟨rfl, hbound⟩ := (ih hle).mp hrest
      exact ⟨by omega, hbound⟩
    · rintro ⟨rfl, hbound⟩
      have hle : start + value.bytes.length ≤ usizeMax := by omega
      exact ⟨_, ⟨rfl, hle⟩, (ih hle).mpr ⟨by omega, hbound⟩⟩

theorem reserveBody_eq_ok {length : Nat} {what : String} :
    reserveBody length what = .ok () ↔ length ≤ isizeMax := by
  unfold reserveBody
  split
  · next hlarge =>
    simp only [Exec.err_ne_ok, false_iff]
    omega
  · next hfits => exact ⟨fun _ => by omega, fun _ => rfl⟩

theorem listBytes_length (values : List QValue) :
    (listBytes values).length = 6 + (values.flatMap bytes).length := by
  simp only [listBytes, List.length_append, List.length_cons, List.length_nil,
    LittleEndian.encode_length]

/-- The levels of a list of values. -/
def levels (values : List QValue) : Nat := (values.map fun value => value.maxDepth + 1).foldr max 0

theorem exists_trees (values : List QValue) : ∃ wires : List Wire, wires.length = values.length ∧
    Wire.AllWF wires ∧ Wire.encodeAll wires = values.flatMap bytes ∧
    Wire.levels wires = levels values := by
  induction values with
  | nil => exact ⟨[], rfl, trivial, rfl, rfl⟩
  | cons value values ih =>
    obtain ⟨wires, hlength, hwf, hbytes, hlevels⟩ := ih
    obtain ⟨wire, hwire, -, hencode, hmetadata⟩ := exists_tree value
    refine ⟨wire :: wires, by simp [hlength], ⟨hwire, hwf⟩, ?_, ?_⟩
    · rw [Wire.encodeAll, hbytes, ← hencode, List.flatMap_cons]
    · have hdepth : value.maxDepth = wire.depth := by rw [maxDepth, hmetadata, Wire.metadata]
      rw [Wire.levels, hlevels, levels, levels, List.map_cons, List.foldr_cons, hdepth, Nat.add_comm]

theorem levels_le_iff {values : List QValue} :
    levels values ≤ maxValueDepth ↔ ∀ value ∈ values, value.maxDepth < maxValueDepth := by
  induction values with
  | nil => simp [levels]
  | cons value values ih =>
    have hcons : levels (value :: values) = max (value.maxDepth + 1) (levels values) := rfl
    rw [hcons, Nat.max_le, ih, List.forall_mem_cons, Nat.add_one_le_iff]

/-- What validation says of the bytes of a list. -/
theorem validate_listBytes {values : List QValue} (hcount : values.length ≤ i32Max)
    (hdepth : ∀ value ∈ values, value.maxDepth < maxValueDepth)
    (hsize : (listBytes values).length ≤ usizeMax) :
    validate (listBytes values) = .ok ⟨0, values.length, false, levels values⟩ := by
  have hi32 : i32Max = 2 ^ 31 - 1 := rfl
  have hmax : maxValueDepth = 64 := rfl
  obtain ⟨wires, hlength, hwf, hbytes, hlevels⟩ := exists_trees values
  have hencode : listBytes values = (Wire.generalList 0 wires).encode := by
    simp [listBytes, Wire.encode, hlength, hbytes]
  have hlist : (Wire.generalList 0 wires).WF := ⟨by decide, by omega, hwf⟩
  have hbound : (Wire.generalList 0 wires).depth ≤ 64 := by
    rw [Wire.depth, hlevels, ← hmax]
    exact levels_le_iff.mpr hdepth
  rw [hencode] at hsize ⊢
  rw [validate_encode hlist hbound hsize, Wire.metadata, Wire.parsed, Wire.depth, hlength, hlevels]
  rfl

/-- When there is a list of values, and what it is. -/
theorem list_eq_ok {values : List QValue} {value : QValue} :
    list values = .ok value ↔
      values.length ≤ i32Max ∧ (∀ element ∈ values, element.maxDepth < maxValueDepth) ∧
        (listBytes values).length ≤ isizeMax ∧ value.bytes = listBytes values := by
  have hisize : isizeMax < usizeMax := by decide
  unfold list
  split
  · next hlarge =>
    simp only [Exec.err_ne_ok, false_iff]
    rintro ⟨hcount, -⟩
    omega
  split
  · next hdeep =>
    simp only [Exec.err_ne_ok, false_iff]
    rintro ⟨-, hdepth, -⟩
    obtain ⟨element, hmem, hle⟩ := List.any_eq_true.mp hdeep
    have := hdepth element hmem
    have := of_decide_eq_true hle
    omega
  next hcount hshallow =>
  have hdepth : ∀ element ∈ values, element.maxDepth < maxValueDepth := by
    intro element hmem
    by_contra hdeep
    exact hshallow (List.any_eq_true.mpr ⟨element, hmem, by simpa using hdeep⟩)
  have hstart : 6 ≤ usizeMax := by decide
  simp only [Exec.bind_eq_ok, bodyLength_eq_ok hstart, ← listBytes_length, fromBytes_eq_ok]
  constructor
  · rintro ⟨_, ⟨rfl, -⟩, _, hreserve, hbytes⟩
    exact ⟨by omega, hdepth, reserveBody_eq_ok.mp hreserve, hbytes⟩
  · rintro ⟨-, -, hfits, hbytes⟩
    exact ⟨_, ⟨rfl, by omega⟩, (), reserveBody_eq_ok.mpr hfits, hbytes⟩

theorem list_isOk {values : List QValue} :
    (∃ value, list values = .ok value) ↔
      values.length ≤ i32Max ∧ (∀ element ∈ values, element.maxDepth < maxValueDepth) ∧
        (listBytes values).length ≤ isizeMax := by
  have hisize : isizeMax < usizeMax := by decide
  constructor
  · rintro ⟨value, hok⟩
    obtain ⟨hcount, hdepth, hfits, -⟩ := list_eq_ok.mp hok
    exact ⟨hcount, hdepth, hfits⟩
  · rintro ⟨hcount, hdepth, hfits⟩
    have hvalid := validate_listBytes hcount hdepth (by omega)
    exact ⟨⟨_, _, hvalid, by omega⟩, list_eq_ok.mpr ⟨hcount, hdepth, hfits, rfl⟩⟩

theorem list_metadata {values : List QValue} {value : QValue} (h : list values = .ok value) :
    value.metadata = ⟨0, values.length, false, levels values⟩ := by
  have hisize : isizeMax < usizeMax := by decide
  obtain ⟨hcount, hdepth, hfits, hbytes⟩ := list_eq_ok.mp h
  have hvalid := validate_listBytes hcount hdepth (by omega)
  rw [← hbytes, value.validated] at hvalid
  exact Except.ok.inj hvalid

theorem flatMap_bytes_inj {a b : List QValue} (hlen : a.length = b.length)
    (h : a.flatMap bytes = b.flatMap bytes) : a = b := by
  induction a generalizing b with
  | nil => exact (List.length_eq_zero_iff.mp hlen.symm).symm
  | cons x a ih =>
    cases b with
    | nil => cases hlen
    | cons y b =>
      obtain ⟨rfl, hrest⟩ := bytes_append_inj h
      rw [ih (Nat.succ.inj hlen) hrest]

/-- Different lists have different bytes. -/
theorem listBytes_inj {a b : List QValue} (ha : a.length ≤ i32Max) (hb : b.length ≤ i32Max)
    (h : listBytes a = listBytes b) : a = b := by
  have hi32 : i32Max = 2 ^ 31 - 1 := rfl
  simp only [listBytes, List.cons_append, List.nil_append, List.cons.injEq, true_and] at h
  obtain ⟨hlen, hrest⟩ := count_append_inj (by omega) (by omega) h
  exact flatMap_bytes_inj hlen hrest

/-! ## Dictionaries -/

/-- The bytes of a dictionary. -/
def dictionaryBytes (keys values : QValue) : Bytes := 99 :: (keys.bytes ++ values.bytes)

/-- Two tables or two lists, of one length. -/
def SidesFit (keys values : QValue) : Prop :=
  keys.len = values.len ∧
    (keys.typeCode = 98 ∧ values.typeCode = 98 ∨
      isSequenceType keys.typeCode = true ∧ isSequenceType values.typeCode = true)

theorem isSequenceType_iff {code : Int} :
    isSequenceType code = true ↔ 0 ≤ code ∧ code ≤ 19 ∧ code ≠ 3 := decide_eq_true_iff

theorem checkSides_eq_ok {keys values : QValue} :
    checkSides keys values = .ok () ↔ SidesFit keys values ∧
      keys.maxDepth < maxValueDepth ∧ values.maxDepth < maxValueDepth := by
  unfold checkSides SidesFit
  simp only
  split
  · next hone =>
    simp only [Exec.err_ne_ok, false_iff]
    rintro ⟨⟨-, htables | ⟨hkeys, hvalues⟩⟩, -⟩
    · exact hone.2 htables
    · rw [isSequenceType_iff] at hkeys hvalues
      rcases hone.1 with h | h
      · omega
      · omega
  split
  · next hone hlists =>
    simp only [Exec.err_ne_ok, false_iff]
    rintro ⟨⟨-, htables | hsequences⟩, -⟩
    · exact hlists.1 htables
    · exact hlists.2 hsequences
  next hone hlists =>
  have hkinds : keys.typeCode = 98 ∧ values.typeCode = 98 ∨
      isSequenceType keys.typeCode = true ∧ isSequenceType values.typeCode = true := by
    by_contra hneither
    rw [not_or] at hneither
    exact hlists hneither
  split
  · next hcount =>
    simp only [Exec.err_ne_ok, false_iff]
    rintro ⟨⟨hsame, -⟩, -⟩
    exact hcount hsame
  next hcount =>
  split
  · next hdeep =>
    simp only [Exec.err_ne_ok, false_iff]
    rintro ⟨-, hkeys, hvalues⟩
    omega
  · next hshallow =>
    refine ⟨fun _ => ⟨⟨not_not.mp hcount, hkinds⟩, ?_, ?_⟩, fun _ => rfl⟩
    · omega
    · omega

/-- The type code says which values are tables and which are lists. -/
theorem typeCode_kinds {wire : Wire} (hwf : wire.WF) :
    (wire.parsed.typeCode = 98 ↔ wire.parsed.shape = .Table) ∧
      (isSequenceType wire.parsed.typeCode = true ↔ wire.parsed.sequenceLen.isSome = true) := by
  rw [isSequenceType_iff]
  cases wire with
  | atom kind payload =>
    have hkind : 1 ≤ kind.toNat := UInt8.le_iff_toNat_le.mp hwf.1
    simp only [Wire.parsed, Parsed.sequenceLen, Option.isSome_none, reduceCtorEq, iff_false]
    omega
  | fixedList elementType rawAttr count payload =>
    have hlow : 1 ≤ elementType.toNat := UInt8.le_iff_toNat_le.mp hwf.1
    have hhigh : elementType.toNat ≤ 19 := UInt8.le_iff_toNat_le.mp hwf.2.1
    have hreserved : elementType.toNat ≠ 3 := fun h => hwf.2.2.1 (UInt8.toNat_inj.mp h)
    simp only [Wire.parsed, Parsed.sequenceLen, Option.isSome_some, reduceCtorEq, iff_false, iff_true]
    omega
  | dictionary wireType keys values =>
    rcases hwf.1 with rfl | rfl <;>
    simp [Wire.parsed, Parsed.sequenceLen]
  | primitive wireType opcode =>
    have hlow : 101 ≤ wireType.toNat := UInt8.le_iff_toNat_le.mp hwf.1
    simp only [Wire.parsed, Parsed.sequenceLen, Option.isSome_none, reduceCtorEq, iff_false]
    omega
  | counted wireType children =>
    have hlow : 104 ≤ wireType.toNat := UInt8.le_iff_toNat_le.mp hwf.1
    simp only [Wire.parsed, Parsed.sequenceLen, Option.isSome_none, reduceCtorEq, iff_false]
    omega
  | derived wireType child =>
    have hlow : 106 ≤ wireType.toNat := UInt8.le_iff_toNat_le.mp hwf.1
    simp only [Wire.parsed, Parsed.sequenceLen, Option.isSome_none, reduceCtorEq, iff_false]
    omega
  | symbol text => simp [Wire.parsed, Parsed.sequenceLen]
  | symbolList rawAttr texts => simp [Wire.parsed, Parsed.sequenceLen]
  | generalList attr children => simp [Wire.parsed, Parsed.sequenceLen]
  | table attr namesAttr names columnsAttr columns => simp [Wire.parsed, Parsed.sequenceLen]
  | lambda context source => simp [Wire.parsed, Parsed.sequenceLen]

/-- What validation says of the bytes of a dictionary. -/
theorem validate_dictionaryBytes {keys values : QValue} (hsides : SidesFit keys values)
    (hkeys : keys.maxDepth < maxValueDepth) (hvalues : values.maxDepth < maxValueDepth)
    (hsize : (dictionaryBytes keys values).length ≤ usizeMax) :
    validate (dictionaryBytes keys values) =
      .ok ⟨99, keys.len, keys.typeCode = 98, 1 + max keys.maxDepth values.maxDepth⟩ := by
  have hmax : maxValueDepth = 64 := rfl
  obtain ⟨keyTree, hkeyWF, -, hkeyBytes, hkeyData⟩ := exists_tree keys
  obtain ⟨valueTree, hvalueWF, -, hvalueBytes, hvalueData⟩ := exists_tree values
  obtain ⟨hlen, hkinds⟩ := hsides
  simp only [len, typeCode, maxDepth, hkeyData, hvalueData, Wire.metadata] at hlen hkinds hkeys hvalues ⊢
  have hfit : Wire.SidesOk keyTree.parsed valueTree.parsed := by
    rw [(typeCode_kinds hkeyWF).1, (typeCode_kinds hvalueWF).1, (typeCode_kinds hkeyWF).2,
      (typeCode_kinds hvalueWF).2] at hkinds
    exact ⟨hlen, hkinds⟩
  have hencode : dictionaryBytes keys values = (Wire.dictionary 99 keyTree valueTree).encode := by
    rw [dictionaryBytes, Wire.encode, hkeyBytes, hvalueBytes]
  have hwf : (Wire.dictionary 99 keyTree valueTree).WF := ⟨.inl rfl, hkeyWF, hvalueWF, hfit⟩
  have hbound : (Wire.dictionary 99 keyTree valueTree).depth ≤ 64 := by
    rw [Wire.depth]
    omega
  have htable : (keyTree.parsed.shape == .Table) = decide (keyTree.parsed.typeCode = 98) := by
    rw [Bool.eq_iff_iff, decide_eq_true_iff, (typeCode_kinds hkeyWF).1, beq_iff_eq]
  have hshape : ∀ keyedTable : Bool, (Shape.Dictionary keyedTable == .Table ||
      Shape.Dictionary keyedTable == .Dictionary true) = keyedTable := by decide
  rw [hencode] at hsize ⊢
  rw [validate_encode hwf hbound hsize, Wire.metadata, Wire.parsed, Wire.depth, htable]
  simp only [hshape]
  rfl

theorem dictionary_eq_ok {keys values value : QValue} :
    dictionary keys values = .ok value ↔
      SidesFit keys values ∧ keys.maxDepth < maxValueDepth ∧ values.maxDepth < maxValueDepth ∧
        (dictionaryBytes keys values).length ≤ isizeMax ∧ value.bytes = dictionaryBytes keys values := by
  have hisize : isizeMax < usizeMax := by decide
  have hlength : (dictionaryBytes keys values).length = 1 + keys.bytes.length + values.bytes.length := by
    simp only [dictionaryBytes, List.length_cons, List.length_append]
    omega
  simp only [dictionary, Exec.bind_eq_ok, Exec.okOr_eq_ok, Option.bind_eq_some_iff, checkedAdd_eq_some,
    fromBytes_eq_ok]
  constructor
  · rintro ⟨_, hsides, _, ⟨_, ⟨rfl, -⟩, rfl, -⟩, _, hreserve, hbytes⟩
    obtain ⟨hfit, hkeys, hvalues⟩ := checkSides_eq_ok.mp hsides
    exact ⟨hfit, hkeys, hvalues, hlength ▸ reserveBody_eq_ok.mp hreserve, hbytes⟩
  · rintro ⟨hfit, hkeys, hvalues, hsize, hbytes⟩
    rw [hlength] at hsize
    exact ⟨(), checkSides_eq_ok.mpr ⟨hfit, hkeys, hvalues⟩, _, ⟨_, ⟨rfl, by omega⟩, rfl, by omega⟩, (),
      reserveBody_eq_ok.mpr hsize, hbytes⟩

theorem dictionary_isOk {keys values : QValue} :
    (∃ value, dictionary keys values = .ok value) ↔
      SidesFit keys values ∧ keys.maxDepth < maxValueDepth ∧ values.maxDepth < maxValueDepth ∧
        (dictionaryBytes keys values).length ≤ isizeMax := by
  have hisize : isizeMax < usizeMax := by decide
  constructor
  · rintro ⟨value, hok⟩
    obtain ⟨hfit, hkeys, hvalues, hsize, -⟩ := dictionary_eq_ok.mp hok
    exact ⟨hfit, hkeys, hvalues, hsize⟩
  · rintro ⟨hfit, hkeys, hvalues, hsize⟩
    have hvalid := validate_dictionaryBytes hfit hkeys hvalues (by omega)
    exact ⟨⟨_, _, hvalid, by omega⟩, dictionary_eq_ok.mpr ⟨hfit, hkeys, hvalues, hsize, rfl⟩⟩

theorem dictionary_metadata {keys values value : QValue} (h : dictionary keys values = .ok value) :
    value.metadata = ⟨99, keys.len, keys.typeCode = 98, 1 + max keys.maxDepth values.maxDepth⟩ := by
  have hisize : isizeMax < usizeMax := by decide
  obtain ⟨hfit, hkeys, hvalues, hsize, hbytes⟩ := dictionary_eq_ok.mp h
  have hvalid := validate_dictionaryBytes hfit hkeys hvalues (by omega)
  rw [← hbytes, value.validated] at hvalid
  exact Except.ok.inj hvalid

theorem dictionaryBytes_inj {keys values keys' values' : QValue}
    (h : dictionaryBytes keys values = dictionaryBytes keys' values') : keys = keys' ∧ values = values' := by
  obtain ⟨rfl, hvalues⟩ := bytes_append_inj (List.cons.inj h).2
  exact ⟨rfl, ext_bytes hvalues⟩

/-! ## Composition -/

/-- A value as part of other bytes: what the parser makes of it from level `d`. -/
def ReadsAlike (value : QValue) (parsed : Parsed) : Prop :=
  ∀ (front back : Bytes) (seen d : Nat), (front ++ (value.bytes ++ back)).length ≤ usizeMax →
    (d + value.maxDepth ≤ maxValueDepth →
      parseValue parseFuel d ⟨front ++ (value.bytes ++ back), front.length, seen⟩ =
        .ok (parsed, ⟨front ++ (value.bytes ++ back), front.length + value.bytes.length,
          max seen (d + value.maxDepth)⟩)) ∧
    (maxValueDepth < d + value.maxDepth →
      ∃ e, parseValue parseFuel d ⟨front ++ (value.bytes ++ back), front.length, seen⟩ =
        .error (.error e))

theorem exists_readsAlike (value : QValue) : ∃ parsed, ReadsAlike value parsed ∧
    parsed.typeCode = value.typeCode ∧ parsed.len = value.len ∧
    (parsed.shape == .Table || parsed.shape == .Dictionary true) = value.isTable := by
  obtain ⟨wire, hwf, hdepth, hbytes, hmetadata⟩ := exists_tree value
  refine ⟨wire.parsed, ?_, ?_, ?_, ?_⟩
  · intro front back seen d hsize
    have hlevel : value.maxDepth = wire.depth := by rw [maxDepth, hmetadata, Wire.metadata]
    rw [hbytes] at hsize ⊢
    rw [hlevel]
    exact parseValue_context hwf hdepth hsize
  · rw [typeCode, hmetadata, Wire.metadata]
  · rw [len, hmetadata, Wire.metadata]
  · rw [isTable, hmetadata, Wire.metadata]

/-- **Composition.** A value is read alike wherever it stands and refused below level 64. Lists and
dictionaries of values are values whose bytes are those of their parts behind a header, as long as
they fit into one allocation, and no two of them have the same bytes. -/
theorem values_compose :
    (∀ value : QValue, ∃ parsed, ReadsAlike value parsed ∧ parsed.typeCode = value.typeCode ∧
      parsed.len = value.len ∧
      (parsed.shape == .Table || parsed.shape == .Dictionary true) = value.isTable) ∧
    (∀ values : List QValue, ((∃ value, list values = .ok value) ↔
        values.length ≤ i32Max ∧ (∀ element ∈ values, element.maxDepth < maxValueDepth) ∧
          (listBytes values).length ≤ isizeMax) ∧
      ∀ value, list values = .ok value → value.bytes = listBytes values ∧
        value.metadata = ⟨0, values.length, false, levels values⟩) ∧
    (∀ (a b : List QValue) (value value' : QValue), list a = .ok value → list b = .ok value' →
      value.bytes = value'.bytes → a = b) ∧
    (∀ keys values : QValue, ((∃ value, dictionary keys values = .ok value) ↔
        SidesFit keys values ∧ keys.maxDepth < maxValueDepth ∧ values.maxDepth < maxValueDepth ∧
          (dictionaryBytes keys values).length ≤ isizeMax) ∧
      ∀ value, dictionary keys values = .ok value → value.bytes = dictionaryBytes keys values ∧
        value.metadata = ⟨99, keys.len, keys.typeCode = 98, 1 + max keys.maxDepth values.maxDepth⟩) ∧
    ∀ keys values keys' values' value value' : QValue, dictionary keys values = .ok value →
      dictionary keys' values' = .ok value' → value.bytes = value'.bytes →
      keys = keys' ∧ values = values' := by
  refine ⟨exists_readsAlike, ?_, ?_, ?_, ?_⟩
  · intro values
    refine ⟨list_isOk, fun value hok => ⟨?_, list_metadata hok⟩⟩
    exact (list_eq_ok.mp hok).2.2.2
  · intro a b value value' ha hb hsame
    obtain ⟨hcount, -, -, hbytes⟩ := list_eq_ok.mp ha
    obtain ⟨hcount', -, -, hbytes'⟩ := list_eq_ok.mp hb
    exact listBytes_inj hcount hcount' (hbytes.symm.trans (hsame.trans hbytes'))
  · intro keys values
    refine ⟨dictionary_isOk, fun value hok => ⟨?_, dictionary_metadata hok⟩⟩
    exact (dictionary_eq_ok.mp hok).2.2.2.2
  · intro keys values keys' values' value value' ha hb hsame
    obtain ⟨-, -, -, -, hbytes⟩ := dictionary_eq_ok.mp ha
    obtain ⟨-, -, -, -, hbytes'⟩ := dictionary_eq_ok.mp hb
    exact dictionaryBytes_inj (hbytes.symm.trans (hsame.trans hbytes'))

/-- A list of bytes, its count in the extended form. -/
theorem exists_byteList (payload : Bytes) (h : payload.length + 10 ≤ isizeMax) :
    ∃ value : QValue, value.bytes.length = payload.length + 10 ∧ value.maxDepth = 0 := by
  have hisize : isizeMax = 2 ^ 63 - 1 := rfl
  have husize : isizeMax < usizeMax := by decide
  have hheader : HeaderOk 0x80 payload.length := by
    refine ⟨by decide, ?_⟩
    rw [if_neg (by decide)]
    omega
  have hwf : (Wire.fixedList 4 0x80 payload.length payload).WF := by
    refine ⟨by decide, by decide, by decide, by decide, hheader, ?_, ?_⟩
    · exact (Nat.mul_one _).symm
    · intro hkind
      cases hkind
  have hlength : (Wire.fixedList 4 0x80 payload.length payload).encode.length = payload.length + 10 := by
    rw [Wire.encode, listHeader, if_neg (by decide)]
    simp only [List.length_cons, List.length_append, LittleEndian.encode_length]
    omega
  have hvalid := validate_encode hwf (Nat.zero_le _) (by omega)
  exact ⟨⟨_, _, hvalid, by omega⟩, hlength, rfl⟩

theorem listBytes_replicate (count : Nat) (value : QValue) :
    (listBytes (List.replicate count value)).length = 6 + count * value.bytes.length := by
  rw [listBytes_length]
  congr 1
  induction count with
  | zero => simp
  | succ count ih =>
    rw [List.replicate_succ, List.flatMap_cons, List.length_append, ih, Nat.succ_mul, Nat.add_comm]

/-- As many clones of one value of eight gigabytes as a list can count: all of them are shallow,
and there is no room for the list. -/
theorem clones_overLength :
    ∃ values : List QValue, values.length ≤ i32Max ∧
      (∀ element ∈ values, element.maxDepth < maxValueDepth) ∧
      ∀ value, list values ≠ .ok value := by
  have hi32 : i32Max = 2 ^ 31 - 1 := rfl
  have hisize : isizeMax = 2 ^ 63 - 1 := rfl
  obtain ⟨value, hlength, hdepth⟩ := exists_byteList (List.replicate (2 ^ 33) 0)
    (by rw [List.length_replicate]; omega)
  rw [List.length_replicate] at hlength
  refine ⟨List.replicate i32Max value, by rw [List.length_replicate], ?_, ?_⟩
  · intro element hmem
    rw [List.eq_of_mem_replicate hmem, hdepth]
    decide
  · intro result hok
    obtain ⟨-, -, hfits, -⟩ := list_eq_ok.mp hok
    rw [listBytes_replicate, hlength, hi32, hisize] at hfits
    omega

end Xqdb.QValue
