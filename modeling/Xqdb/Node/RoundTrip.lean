import Xqdb.Node.Transfer

/-! Every value that the binding can send comes back from JavaScript's object as it was. -/

namespace Xqdb

namespace K

mutual

/-- The levels below the value. -/
def height : K → Nat
  | .MixedList values => heights values
  | .Dict entries => entryHeights entries
  | _ => 0

def heights : List K → Nat
  | [] => 0
  | value :: rest => max (value.height + 1) (heights rest)

def entryHeights : List (Str × K) → Nat
  | [] => 0
  | (_, value) :: rest => max (value.height + 1) (entryHeights rest)

end

mutual

/-- A property of the value and of all values in it. -/
def Everywhere (p : K → Prop) : K → Prop
  | .MixedList values => p (.MixedList values) ∧ EveryMember p values
  | .Dict entries => p (.Dict entries) ∧ EveryEntry p entries
  | value => p value

def EveryMember (p : K → Prop) : List K → Prop
  | [] => True
  | value :: rest => value.Everywhere p ∧ EveryMember p rest

def EveryEntry (p : K → Prop) : List (Str × K) → Prop
  | [] => True
  | (_, value) :: rest => value.Everywhere p ∧ EveryEntry p rest

end

theorem height_lt_heights (values : List K) : ∀ value ∈ values, value.height < heights values := by
  induction values with
  | nil => simp
  | cons first rest ih =>
    intro value hmem
    rw [heights]
    cases hmem with
    | head => omega
    | tail _ hmem =>
      have := ih value hmem
      omega

theorem height_lt_entryHeights (entries : List (Str × K)) : ∀ entry ∈ entries, entry.2.height < entryHeights entries := by
  induction entries with
  | nil => simp
  | cons first rest ih =>
    intro entry hmem
    rw [entryHeights]
    cases hmem with
    | head => omega
    | tail _ hmem =>
      have := ih entry hmem
      omega

theorem everyMember_iff {p : K → Prop} {values : List K} :
    EveryMember p values ↔ ∀ value ∈ values, value.Everywhere p := by
  induction values with
  | nil => simp [EveryMember]
  | cons value rest ih => simp [EveryMember, ih]

theorem everyEntry_iff {p : K → Prop} {entries : List (Str × K)} :
    EveryEntry p entries ↔ ∀ entry ∈ entries, entry.2.Everywhere p := by
  induction entries with
  | nil => simp [EveryEntry]
  | cons entry rest ih => simp [EveryEntry, ih]

end K

/-! ## The parts of a payload -/

theorem primitiveText_inj {a b : String} : (primitiveText a).bytes = (primitiveText b).bytes ↔ a = b :=
  Unicode.utf8_inj.trans String.toList_inj

/-- `primitiveOf`, by the name itself. -/
def primitiveNamed (name : String) : Option (UInt8 × UInt8) :=
  [101, 102, 103].findSome? fun kType =>
    (primitives kType).bind fun names =>
      (names.findIdx? fun primitive => primitive = name).bind fun opcode =>
        if name = "" then none else some (kType, UInt8.ofNat opcode)

theorem primitiveOf_text (name : String) : primitiveOf (primitiveText name).bytes = primitiveNamed name := by
  have hempty : (primitiveText name).bytes = [] ↔ name = "" := primitiveText_inj (b := "")
  simp only [primitiveOf, primitiveNamed, primitiveText_inj, hempty]

/-- A check of the whole table is one of every operator. -/
theorem QOperator.of_table {p : UInt8 → UInt8 → String → Bool}
    (htable : [101, 102, 103].all (fun kType => (List.range 64).all fun opcode =>
      (primitiveName kType (UInt8.ofNat opcode)).all fun name => p kType (UInt8.ofNat opcode) name) = true)
    (operator : QOperator) : p operator.kType operator.opcode operator.name = true := by
  have hkType : operator.kType ∈ [101, 102, 103] := by simpa using operator.kType_cases
  have hopcode : operator.opcode.toNat ∈ List.range 64 := by
    rw [List.mem_range]
    have hnamed := operator.named
    have hlengths : [101, 102, 103].all (fun kType => (primitives kType).all fun names => names.length < 64) = true := by
      decide
    unfold primitiveName at hnamed
    obtain ⟨names, hnames, hname⟩ := Option.bind_eq_some_iff.mp hnamed
    obtain ⟨name, hget, -⟩ := Option.bind_eq_some_iff.mp hname
    have hlength : names.length < 64 := by
      have hall := List.all_eq_true.mp hlengths operator.kType hkType
      rw [hnames] at hall
      simpa using hall
    have hlt := (List.getElem?_eq_some_iff.mp hget).1
    omega
  have hrow := List.all_eq_true.mp (List.all_eq_true.mp htable operator.kType hkType) _ hopcode
  rw [UInt8.ofNat_toNat, operator.named] at hrow
  exact hrow

/-- The first primitive of a name is the only one. -/
theorem primitiveNamed_name (operator : QOperator) :
    primitiveNamed operator.name = some (operator.kType, operator.opcode) := by
  have hfound := QOperator.of_table
    (p := fun kType opcode name => primitiveNamed name = some (kType, opcode)) (by decide +kernel) operator
  simpa using hfound

theorem zero_notMem_primitiveText (operator : QOperator) : 0 ∉ (primitiveText operator.name).bytes := by
  have hname := QOperator.of_table (p := fun _ _ name => Char.ofNat 0 ∉ name.toList) (by decide +kernel) operator
  intro hmem
  exact of_decide_eq_true hname (mem_utf8_nul.mp hmem)

theorem QOperator.new_name (operator : QOperator) : QOperator.new (primitiveText operator.name) = .ok operator := by
  rw [QOperator.new, if_neg (zero_notMem_primitiveText operator), primitiveOf_text, primitiveNamed_name]
  simp [QOperator.fromWire_wireValue]

namespace QValue

theorem length_le_symbolBytes (texts : List Bytes) : texts.length ≤ (symbolBytes texts).length := by
  induction texts with
  | nil => simp
  | cons text texts ih =>
    simp only [symbolBytes, List.length_cons, List.length_append]
    omega

/-- A value has no more elements than octets. -/
theorem Wire.len_le_encode {wire : Wire} (h : wire.WF) : wire.parsed.len ≤ wire.encode.length := by
  induction wire using Wire.induct with
  | atom kind payload => simp [parsed, encode]
  | symbol text => simp [parsed, encode]
  | fixedList elementType rawAttr count payload =>
    obtain ⟨h₁, h₂, h₃, h₄, -, hlength, -⟩ := h
    have hsize := typeSize_pos h₁ h₂ h₃ h₄
    have hle : count ≤ payload.length := by
      rw [hlength]
      exact Nat.le_mul_of_pos_right _ hsize
    simp only [parsed, encode, List.length_cons, List.length_append]
    omega
  | symbolList rawAttr texts =>
    have hle := length_le_symbolBytes texts
    simp only [parsed, encode, List.length_cons, List.length_append]
    omega
  | generalList attr children ih =>
    have hle : children.length * 2 ≤ (encodeAll children).length :=
      length_le_encodeAll fun child hmem => two_le_encode (allWF_iff.mp h.2.2 child hmem)
    simp only [parsed, encode, List.length_cons, List.length_append]
    omega
  | dictionary wireType keys values ihk ihv =>
    have := ihk h.2.1
    simp only [parsed, encode, List.length_cons, List.length_append]
    omega
  | table attr namesAttr names columnsAttr columns ih =>
    obtain ⟨-, -, -, -, -, -, hcolumns, -⟩ := h
    have hle : firstLen columns ≤ (encodeAll columns).length := by
      cases columns with
      | nil => exact Nat.zero_le _
      | cons column rest =>
        have := ih column (by simp) hcolumns.1
        simp only [firstLen, encodeAll, List.length_append]
        omega
    simp only [parsed, encode, List.length_cons, List.length_append]
    omega
  | lambda context source => simp [parsed, encode]
  | primitive wireType opcode => simp [parsed, encode]
  | counted wireType children ih => simp [parsed, encode]
  | derived wireType child ih => simp [parsed, encode]

theorem typeCode_bounds (value : QValue) : -2 ^ 15 ≤ value.typeCode ∧ value.typeCode < 2 ^ 15 := by
  obtain ⟨wire, -, -, -, hmetadata⟩ := value.exists_tree
  have hcode : value.typeCode = wire.parsed.typeCode := congrArg Metadata.typeCode hmetadata
  rw [hcode]
  cases wire with
  | atom kind payload =>
    have := kind.toNat_lt
    simp only [Wire.parsed]
    omega
  | fixedList elementType rawAttr count payload =>
    have := elementType.toNat_lt
    simp only [Wire.parsed]
    omega
  | dictionary wireType keys values =>
    have := wireType.toNat_lt
    simp only [Wire.parsed]
    omega
  | primitive wireType opcode =>
    have := wireType.toNat_lt
    simp only [Wire.parsed]
    omega
  | counted wireType children =>
    have := wireType.toNat_lt
    simp only [Wire.parsed]
    omega
  | derived wireType child =>
    have := wireType.toNat_lt
    simp only [Wire.parsed]
    omega
  | _ =>
    simp only [Wire.parsed]
    omega

theorem len_le (value : QValue) : value.len ≤ value.bytes.length := by
  obtain ⟨wire, hwf, -, hbytes, hmetadata⟩ := value.exists_tree
  have hlen : value.len = wire.parsed.len := congrArg Metadata.len hmetadata
  rw [hlen, hbytes]
  exact Wire.len_le_encode hwf

end QValue

namespace Node

/-- What the other crates document: an integer that fits is read from a `BigInt` as it is, and the
texts of GUIDs and dates are read back. -/
structure Packages.Documented (env : Packages) : Prop where
  getI64_exact : ∀ (big : BigInt) (n : Int64), big.value = n.toInt → env.getI64 big = (n, true)
  guid_text : ∀ guid, env.guidParseStr (env.guidToString guid) = .ok guid
  date_text : ∀ date, env.dateParseFromStr (env.dateFormat date) = .ok date

theorem value_setBigint (n : Int64) :
    (⟨n.toInt < 0, [UInt64.ofNat n.toInt.natAbs]⟩ : BigInt).value = n.toInt := by
  have hlow := n.le_toInt
  have hhigh := n.toInt_lt
  have hword : (UInt64.ofNat n.toInt.natAbs).toNat = n.toInt.natAbs := UInt64.toNat_ofNat_of_lt' (by
    show n.toInt.natAbs < 2 ^ 64
    omega)
  simp only [BigInt.value, BigInt.magnitude, hword, Nat.mul_zero, Nat.add_zero, decide_eq_true_eq]
  split
  · omega
  · omega

theorem requiredInteger_ofInt {tag : String} {minimum maximum n : Int} (hmin : minimum.natAbs < 2 ^ 53)
    (hmax : maximum.natAbs < 2 ^ 53) (hlow : minimum ≤ n) (hhigh : n ≤ maximum) :
    requiredInteger tag (some (F64.ofInt n)) minimum maximum = .ok n := by
  have hn : n.natAbs < 2 ^ 53 := by omega
  have hbelow : decide (n < minimum) = false := decide_eq_false (by omega)
  have habove : decide (maximum < n) = false := decide_eq_false (by omega)
  rw [requiredInteger, required, ok_bind, (F64.ofInt_spec hn).1, F64.hasFraction_ofInt hn, F64.lt_ofInt hn hmin,
    F64.lt_ofInt hmax hn, hbelow, habove, if_neg (by simp), F64.cast_ofInt hn (by omega) (by omega)]
  rfl

theorem not_lt_usizeMax {n : Nat} (h : n < 2 ^ 53) : F64.lt (F64.ofInt usizeMax) (F64.ofInt n) = false := by
  have hvalue : F64.value (F64.ofInt usizeMax) = 2 ^ 64 * binary64.one := by decide +kernel
  obtain ⟨-, -, hn⟩ := F64.ofInt_spec (show (n : Int).natAbs < 2 ^ 53 from h)
  have hless : ¬ F64.value (F64.ofInt usizeMax) < F64.value (F64.ofInt n) := by
    rw [hvalue, hn, Int.not_lt]
    exact Int.mul_le_mul_of_nonneg_right (by omega) (Int.le_of_lt F64.one_pos)
  simp only [F64.value] at hless
  simp [F64.lt, Ieee.Format.lt, hless]

theorem numberToUsize_ofInt {n : Nat} (h : n < 2 ^ 53) (field : String) :
    numberToUsize (F64.ofInt n) field = .ok n := by
  have hn : (n : Int).natAbs < 2 ^ 53 := h
  have hbelow : decide ((n : Int) < 0) = false := decide_eq_false (by omega)
  have habove : decide ((9007199254740991 : Int) < n) = false := decide_eq_false (by omega)
  rw [numberToUsize, (F64.ofInt_spec hn).1, F64.hasFraction_ofInt hn, F64.lt_ofInt hn (by decide), not_lt_usizeMax h,
    F64.lt_ofInt (by decide) hn, hbelow, habove, if_neg (by simp), F64.cast_ofInt hn (by omega) (by
      have : (usizeMax : Int) = 2 ^ 64 - 1 := by decide
      omega)]
  rfl

theorem typeCodeToI16_ofInt {code : Int} (hlow : -2 ^ 15 ≤ code) (hhigh : code < 2 ^ 15) :
    typeCodeToI16 (Int32.ofInt code) = .ok (Int16.ofInt code) := by
  have hcode : (Int32.ofInt code).toInt = code := Int32.toInt_ofInt_of_le (by omega) (by omega)
  rw [typeCodeToI16, hcode, if_pos ⟨hlow, hhigh⟩]

theorem f32FromNumber_f32AsF64 {bits : UInt32} (h : isNanF32 bits = false) :
    f32FromNumber (f32AsF64 bits) = .ok (.F32 bits) := by
  rw [f32FromNumber, f64AsF32_f32AsF64 h]
  by_cases hfinite : isFiniteF32 bits = true
  · obtain ⟨hmin, hmax⟩ := f32AsF64_inRange hfinite
    simp [hmin, hmax]
  · simp [f32AsF64_infinite (by simpa using hfinite)]

theorem qvalueFromParts_parts (value : QValue) :
    qvalueFromParts (some value.bytes) (some (Int16.ofInt value.typeCode)) (some value.len) (some value.isTable) =
      .ok (.QValue value) := by
  obtain ⟨hlow, hhigh⟩ := value.typeCode_bounds
  have hcode : (Int16.ofInt value.typeCode).toInt = value.typeCode := Int16.toInt_ofInt_of_le (by omega) (by omega)
  have hbytes : QValue.fromBytes value.bytes = .ok value := QValue.fromBytes_eq_ok.mpr rfl
  simp only [qvalueFromParts, required, fromExec, ok_bind, hbytes, hcode, ne_eq, not_true_eq_false, if_false]
  rfl

theorem timestampNanosOpt_of_range {t : DateTime} (hleap : ¬ t.isLeap)
    (hlow : -2 ^ 63 ≤ t.timestamp * nanosPerSecond + t.subsec) (hhigh : t.timestamp * nanosPerSecond + t.subsec < 2 ^ 63) :
    ∃ nanos, t.timestampNanosOpt = some nanos ∧ nanos.toInt = t.timestamp * nanosPerSecond + t.subsec := by
  have hsub : t.subsec < 1000000000 := by simpa [DateTime.isLeap] using hleap
  simp only [nanosPerSecond] at hlow hhigh ⊢
  have hcheck : ∀ {n : Int}, -2 ^ 63 ≤ n → n < 2 ^ 63 → checkedI64 n = some (Int64.ofInt n) ∧ (Int64.ofInt n).toInt = n :=
    fun h₁ h₂ => ⟨if_pos ⟨h₁, h₂⟩, Int64.toInt_ofInt_of_le (by omega) (by omega)⟩
  unfold DateTime.timestampNanosOpt
  by_cases hneg : t.timestamp < 0
  · obtain ⟨hproduct, hvalue⟩ := @hcheck ((t.timestamp + 1) * 1000000000) (by omega) (by omega)
    obtain ⟨hsum, htotal⟩ := @hcheck ((t.timestamp + 1) * 1000000000 + ((t.subsec : Int) - 1000000000)) (by omega) (by omega)
    simp only [hneg, if_true, hproduct, Option.bind_some, hvalue]
    exact ⟨_, hsum, by omega⟩
  · obtain ⟨hproduct, hvalue⟩ := @hcheck (t.timestamp * 1000000000) (by omega) (by omega)
    obtain ⟨hsum, htotal⟩ := @hcheck (t.timestamp * 1000000000 + (t.subsec : Int)) (by omega) (by omega)
    simp only [hneg, if_false, hproduct, Option.bind_some, hvalue]
    exact ⟨_, hsum, by omega⟩

theorem timestampFromBigint_nanos {t : DateTime} {nanos : Int64} (hleap : ¬ t.isLeap)
    (hnanos : nanos.toInt = t.timestamp * nanosPerSecond + t.subsec)
    (hlow : minQTimestampUnixNanos ≤ t.timestamp * nanosPerSecond + t.subsec) :
    timestampFromBigint nanos = .ok (.DateTime t) := by
  have hsub : t.subsec < 1000000000 := by simpa [DateTime.isLeap] using hleap
  have hhigh := nanos.toInt_lt
  have hmin := nanos.le_toInt
  simp only [nanosPerSecond] at hnanos
  have hseconds : nanos.toInt / nanosPerSecond = t.timestamp := by
    simp only [nanosPerSecond]
    omega
  have hrest : (nanos.toInt % nanosPerSecond).toNat = t.subsec := by
    simp only [nanosPerSecond]
    omega
  have hrange : -95746129 ≤ t.timestamp / 86400 + 719163 ∧ t.timestamp / 86400 + 719163 ≤ 95745399 := by omega
  have hback : DateTime.fromTimestamp t.timestamp t.subsec = some t := by
    rw [DateTime.fromTimestamp, dif_pos ⟨hrange, t.subsec_lt, .inl hsub⟩]
  have hnot : ¬ nanos.toInt < minQTimestampUnixNanos := by
    simp only [nanosPerSecond] at hlow
    omega
  rw [timestampFromBigint, if_neg hnot, hseconds, hrest, hback]

theorem timeFromBigint_nanos {t : NaiveTime} (hleap : ¬ t.isLeap) (haligned : 1000000 ∣ t.frac) :
    timeFromBigint (Int64.ofInt (timeNanos t)) = .ok (.Time t) := by
  have hfrac : t.frac < 1000000000 := by simpa [NaiveTime.isLeap] using hleap
  have hsecs := t.secs_lt
  have hnanos : (Int64.ofInt (timeNanos t)).toInt = t.secs * 1000000000 + t.frac := by
    simp only [timeNanos, nanosPerSecond]
    exact Int64.toInt_ofInt_of_le (by omega) (by omega)
  have hseconds : ((Int64.ofInt (timeNanos t)).toInt / nanosPerSecond).toNat = t.secs := by
    simp only [nanosPerSecond]
    omega
  have hrest : ((Int64.ofInt (timeNanos t)).toInt % nanosPerSecond).toNat = t.frac := by
    simp only [nanosPerSecond]
    omega
  have hday : ¬ ((Int64.ofInt (timeNanos t)).toInt < 0 ∨ nanosPerDay ≤ (Int64.ofInt (timeNanos t)).toInt) := by
    simp only [nanosPerDay, nanosPerSecond]
    omega
  have hmod : ¬ (Int64.ofInt (timeNanos t)).toInt % nanosPerMillisecond ≠ 0 := by
    simp only [nanosPerMillisecond]
    omega
  rw [timeFromBigint, if_neg hday, if_neg hmod, hseconds, hrest, NaiveTime.fromNumSecondsFromMidnightOpt_parts hleap]

/-! ## Values of the client -/

/-- What the binding can send and keep as it is, of a value without those in it. -/
def Sendable : K → Prop
  | .F32 bits => isNanF32 bits = false
  | .F64 bits => F64.isNan bits = false
  | .Symbol value => 0 ∉ value.bytes
  | .DateTime value =>
    ¬ value.isLeap ∧ minQTimestampUnixNanos ≤ value.timestamp * nanosPerSecond + value.subsec ∧
      value.timestamp * nanosPerSecond + value.subsec < 2 ^ 63
  | .Time value => ¬ value.isLeap ∧ 1000000 ∣ value.frac
  | .Duration value => -2 ^ 63 ≤ value.nanoseconds ∧ value.nanoseconds < 2 ^ 63
  | .Dict entries => (entries.map Prod.fst).Nodup ∧ ∀ entry ∈ entries, 0 ∉ entry.1.bytes
  | .Series _ => False
  | .DataFrame _ => False
  | _ => True

section

variable {env : Packages} {limit depth : Nat}

/-- The value reaches JavaScript, and its snapshot, if there is room for it, becomes the value. -/
def Carried (env : Packages) (limit depth : Nat) (value : K) : Prop :=
  ∃ native owned, kIntoNativeWithDepth env value depth = .ok native ∧
    (∀ remaining ≤ maxSnapshotBytes, snapshotCost env.toNapi native ≤ remaining →
      snapshot env.toNapi limit native depth remaining =
        .ok (owned, remaining - snapshotCost env.toNapi native)) ∧
    intoK env owned = .ok value

theorem carried_leaf {value : K} (native : NativeDto) (bigint : Option Int64) (typeCode : Option Int16)
    (length : Option Nat) (hdepth : depth ≤ maxValueDepth)
    (hnative : kIntoNativeWithDepth env value depth = .ok native)
    (hshape : validateNativeValueShape native = .ok ())
    (hleaf : native.items = none ∧ native.entries = none)
    (hbigint : transpose (bigintToI64 env.toNapi) native.bigintValue = .ok bigint)
    (htypeCode : transpose typeCodeToI16 native.typeCode = .ok typeCode)
    (hlength : snapshotCost env.toNapi native ≤ maxSnapshotBytes →
      transpose (numberToUsize · "length") native.length = .ok length)
    (hback : intoK env ⟨native.tag, native.boolValue, native.numberValue, bigint, native.stringValue,
      native.context, native.bytesValue, none, none, typeCode, length, native.isTable⟩ = .ok value) :
    Carried env limit depth value := by
  refine ⟨native, _, hnative, ?_, hback⟩
  intro remaining hremaining hcost
  exact snapshot_leaf hdepth hshape hbigint htypeCode (hlength (by omega)) hleaf.1 hleaf.2 hcost

/-- A value whose payload is not converted. -/
theorem carried_plain {value : K} (native : NativeDto) (hdepth : depth ≤ maxValueDepth)
    (hnative : kIntoNativeWithDepth env value depth = .ok native)
    (hshape : validateNativeValueShape native = .ok ())
    (hplain : native.items = none ∧ native.entries = none ∧ native.bigintValue = none ∧ native.typeCode = none ∧
      native.length = none)
    (hback : intoK env ⟨native.tag, native.boolValue, native.numberValue, none, native.stringValue,
      native.context, native.bytesValue, none, none, none, none, native.isTable⟩ = .ok value) :
    Carried env limit depth value := by
  obtain ⟨hitems, hentries, hbigint, htypeCode, hlength⟩ := hplain
  apply carried_leaf native none none none hdepth hnative hshape ⟨hitems, hentries⟩ ?_ ?_ ?_ hback
  · rw [hbigint]
    rfl
  · rw [htypeCode]
    rfl
  · intro _
    rw [hlength]
    rfl

/-- A value that travels as an integer. -/
theorem carried_bigint (hdoc : env.Documented) {value : K} (tag : String) (n : Int64) (hdepth : depth ≤ maxValueDepth)
    (hnative : kIntoNativeWithDepth env value depth = .ok (setBigint tag n))
    (hfields : validatePayloadFields tag fieldBigint = .ok fieldBigint)
    (hback : intoK env { tag := tag, bigintValue := some n } = .ok value) : Carried env limit depth value := by
  have hshape : validateNativeValueShape (setBigint tag n) = .ok () :=
    validateNativeValueShape_of fieldBigint (by simp [nativePayloadFields, presence, setBigint]) hfields
  apply carried_leaf (setBigint tag n) (some n) none none hdepth hnative hshape ⟨rfl, rfl⟩ ?_ rfl (fun _ => rfl) hback
  have hget := hdoc.getI64_exact ⟨n.toInt < 0, [UInt64.ofNat n.toInt.natAbs]⟩ n (value_setBigint n)
  simp only [setBigint, transpose, bigintToI64, hget]
  rfl

/-- A value that travels as a text. -/
theorem carried_string {value : K} (tag : String) (text : Str) (hdepth : depth ≤ maxValueDepth)
    (hnative : kIntoNativeWithDepth env value depth = .ok (setString tag text))
    (hfields : validatePayloadFields tag fieldString = .ok fieldString)
    (hback : intoK env { tag := tag, stringValue := some text } = .ok value) : Carried env limit depth value := by
  have hshape : validateNativeValueShape (setString tag text) = .ok () :=
    validateNativeValueShape_of fieldString (by simp [nativePayloadFields, presence, setString]) hfields
  exact carried_plain (setString tag text) hdepth hnative hshape ⟨rfl, rfl, rfl, rfl, rfl⟩ hback

/-- A value that travels as a number. -/
theorem carried_number {value : K} (tag : String) (bits : UInt64) (hdepth : depth ≤ maxValueDepth)
    (hnative : kIntoNativeWithDepth env value depth = .ok (setNumber tag bits))
    (hfields : validatePayloadFields tag fieldNumber = .ok fieldNumber)
    (hback : intoK env { tag := tag, numberValue := some bits } = .ok value) : Carried env limit depth value := by
  have hshape : validateNativeValueShape (setNumber tag bits) = .ok () :=
    validateNativeValueShape_of fieldNumber (by simp [nativePayloadFields, presence, setNumber]) hfields
  exact carried_plain (setNumber tag bits) hdepth hnative hshape ⟨rfl, rfl, rfl, rfl, rfl⟩ hback

/-- A lossless value travels with what was found out about it. -/
theorem carried_qvalue (value : QValue) (hdepth : depth ≤ maxValueDepth) : Carried env limit depth (.QValue value) := by
  have hcheck := checkDepth_ok hdepth
  obtain ⟨hlow, hhigh⟩ := value.typeCode_bounds
  have hlen := value.len_le
  apply carried_leaf { tag := "qvalue", bytesValue := some value.bytes, typeCode := some (Int32.ofInt value.typeCode),
                       length := some (F64.ofInt value.len), isTable := some value.isTable }
    none (some (Int16.ofInt value.typeCode)) (some value.len) hdepth ?_ ?_ ⟨rfl, rfl⟩ rfl ?_ ?_
    (qvalueFromParts_parts value)
  · rw [kIntoNativeWithDepth, hcheck]
    rfl
  · exact validateNativeValueShape_of (fieldBytes ||| fieldTypeCode ||| fieldLength ||| fieldIsTable)
      (by simp [nativePayloadFields, presence]) rfl
  · simp only [transpose, typeCodeToI16_ofInt hlow hhigh]
    rfl
  · intro hcost
    have hsize : value.len < 2 ^ 53 := by
      simp only [snapshotCost, Option.elim, itemsCost, entriesCost, maxSnapshotBytes] at hcost
      omega
    simp only [transpose, numberToUsize_ofInt hsize]
    rfl

theorem carried_dateTime (hdoc : env.Documented) {value : DateTime} (h : Sendable (.DateTime value))
    (hdepth : depth ≤ maxValueDepth) : Carried env limit depth (.DateTime value) := by
  have hcheck := checkDepth_ok hdepth
  obtain ⟨hleap, hlow, hhigh⟩ := h
  obtain ⟨nanos, hnanos, hvalue⟩ := timestampNanosOpt_of_range hleap (by
    simp only [minQTimestampUnixNanos, nanosPerSecond] at hlow ⊢
    omega) hhigh
  apply carried_bigint hdoc "timestamp" nanos hdepth ?_ rfl ?_
  · rw [kIntoNativeWithDepth, hcheck]
    simp only [ok_bind, hnanos]
    rfl
  · exact timestampFromBigint_nanos hleap hvalue hlow

theorem intoK_time (env : Packages) (nanos : Int64) :
    intoK env { tag := "time", bigintValue := some nanos } = timeFromBigint nanos := rfl

theorem carried_time (hdoc : env.Documented) {value : NaiveTime} (h : Sendable (.Time value))
    (hdepth : depth ≤ maxValueDepth) : Carried env limit depth (.Time value) := by
  have hcheck := checkDepth_ok hdepth
  obtain ⟨hleap, haligned⟩ := h
  have hback := (intoK_time env _).trans (timeFromBigint_nanos hleap haligned)
  apply carried_bigint hdoc "time" (Int64.ofInt (timeNanos value)) hdepth ?_ rfl hback
  have hmod : ¬ timeNanos value % nanosPerMillisecond ≠ 0 := by
    simp only [timeNanos, nanosPerSecond, nanosPerMillisecond]
    omega
  rw [kIntoNativeWithDepth, hcheck]
  simp only [ok_bind, hmod, if_false]
  rfl

theorem carried_duration (hdoc : env.Documented) {value : Duration} (h : Sendable (.Duration value))
    (hdepth : depth ≤ maxValueDepth) : Carried env limit depth (.Duration value) := by
  have hcheck := checkDepth_ok hdepth
  obtain ⟨hlow, hhigh⟩ := h
  have hnanos : value.numNanoseconds = some (Int64.ofInt value.nanoseconds) := if_pos ⟨hlow, hhigh⟩
  apply carried_bigint hdoc "timespan" (Int64.ofInt value.nanoseconds) hdepth ?_ rfl ?_
  · rw [kIntoNativeWithDepth, hcheck]
    simp only [ok_bind, hnanos]
    rfl
  · show Except.ok (K.Duration (Duration.ofNanoseconds (Int64.ofInt value.nanoseconds))) = _
    rw [Duration.ofNanoseconds_numNanoseconds hnanos]

theorem carried_of_isLeaf (hdoc : env.Documented) {value : K} (hleaf : value.IsLeaf) (h : Sendable value)
    (hdepth : depth ≤ maxValueDepth) : Carried env limit depth value := by
  have hcheck := checkDepth_ok hdepth
  cases value with
  | MixedList values => exact hleaf.elim
  | Dict entries => exact hleaf.elim
  | Series value => exact h.elim
  | DataFrame value => exact h.elim
  | Boolean value =>
    apply carried_plain { tag := "boolean", boolValue := some value } hdepth ?_ ?_ ⟨rfl, rfl, rfl, rfl, rfl⟩ rfl
    · rw [kIntoNativeWithDepth, hcheck]
      rfl
    · exact validateNativeValueShape_of fieldBool (by simp [nativePayloadFields, presence]) rfl
  | Null =>
    apply carried_plain { tag := "null" } hdepth ?_ rfl ⟨rfl, rfl, rfl, rfl, rfl⟩ rfl
    rw [kIntoNativeWithDepth, hcheck]
    rfl
  | Guid value =>
    apply carried_string "guid" (env.guidToString value) hdepth ?_ rfl ?_
    · rw [kIntoNativeWithDepth, hcheck]
      rfl
    · show (do return K.Guid (← fromText "invalid guid: " (env.guidParseStr (env.guidToString value)))) = _
      rw [hdoc.guid_text]
      rfl
  | U8 value =>
    apply carried_number "u8" (F64.ofInt value.toNat) hdepth ?_ rfl ?_
    · rw [kIntoNativeWithDepth, hcheck]
      rfl
    · have := value.toNat_lt
      show (do return K.U8 (UInt8.ofNat (← requiredInteger "u8" (some (F64.ofInt value.toNat)) 0 255).toNat)) = _
      rw [requiredInteger_ofInt (by decide) (by decide) (by omega) (by omega), ok_bind, Int.toNat_natCast,
        UInt8.ofNat_toNat]
      rfl
  | Char value =>
    apply carried_number "char" (F64.ofInt value.toNat) hdepth ?_ rfl ?_
    · rw [kIntoNativeWithDepth, hcheck]
      rfl
    · have := value.toNat_lt
      show (do return K.Char (UInt8.ofNat (← requiredInteger "char" (some (F64.ofInt value.toNat)) 0 255).toNat)) = _
      rw [requiredInteger_ofInt (by decide) (by decide) (by omega) (by omega), ok_bind, Int.toNat_natCast,
        UInt8.ofNat_toNat]
      rfl
  | I16 value =>
    apply carried_number "i16" (F64.ofInt value.toInt) hdepth ?_ rfl ?_
    · rw [kIntoNativeWithDepth, hcheck]
      rfl
    · have hlow := value.le_toInt
      have hhigh := value.toInt_lt
      show (do return K.I16 (Int16.ofInt
        (← requiredInteger "i16" (some (F64.ofInt value.toInt)) (-2 ^ 15) (2 ^ 15 - 1)))) = _
      rw [requiredInteger_ofInt (by decide) (by decide) (by omega) (by omega), ok_bind, Int16.ofInt_toInt]
      rfl
  | I32 value =>
    apply carried_number "i32" (F64.ofInt value.toInt) hdepth ?_ rfl ?_
    · rw [kIntoNativeWithDepth, hcheck]
      rfl
    · have hlow := value.le_toInt
      have hhigh := value.toInt_lt
      show (do return K.I32 (Int32.ofInt
        (← requiredInteger "i32" (some (F64.ofInt value.toInt)) (-2 ^ 31) (2 ^ 31 - 1)))) = _
      rw [requiredInteger_ofInt (by decide) (by decide) (by omega) (by omega), ok_bind, Int32.ofInt_toInt]
      rfl
  | I64 value =>
    apply carried_bigint hdoc "i64" value hdepth ?_ rfl rfl
    rw [kIntoNativeWithDepth, hcheck]
    rfl
  | F32 bits =>
    apply carried_number "f32" (f32AsF64 bits) hdepth ?_ rfl (f32FromNumber_f32AsF64 h)
    rw [kIntoNativeWithDepth, hcheck]
    rfl
  | F64 bits =>
    apply carried_number "f64" bits hdepth ?_ rfl rfl
    rw [kIntoNativeWithDepth, hcheck]
    rfl
  | CharVector value =>
    apply carried_plain { tag := "bytes", bytesValue := some value } hdepth ?_ ?_ ⟨rfl, rfl, rfl, rfl, rfl⟩ rfl
    · rw [kIntoNativeWithDepth, hcheck]
      rfl
    · exact validateNativeValueShape_of fieldBytes (by simp [nativePayloadFields, presence]) rfl
  | Symbol value =>
    have hvalid : ∀ field, validateQSymbol value field = .ok () := fun field => if_neg h
    apply carried_string "symbol" value hdepth ?_ rfl ?_
    · rw [kIntoNativeWithDepth, hcheck]
      simp only [ok_bind, hvalid]
      rfl
    · show (do
        validateQSymbol value "symbol stringValue"
        return K.Symbol value) = _
      rw [hvalid]
      rfl
  | String value =>
    apply carried_string "string" value hdepth ?_ rfl rfl
    rw [kIntoNativeWithDepth, hcheck]
    rfl
  | Operator value =>
    apply carried_string "operator" (primitiveText value.name) hdepth ?_ rfl ?_
    · rw [kIntoNativeWithDepth, hcheck]
      rfl
    · show (do return K.Operator (← fromClient (QOperator.new (primitiveText value.name)))) = _
      rw [QOperator.new_name]
      rfl
  | Lambda value =>
    apply carried_plain { tag := "lambda", stringValue := some value.source, context := some value.context } hdepth
      ?_ ?_ ⟨rfl, rfl, rfl, rfl, rfl⟩ ?_
    · rw [kIntoNativeWithDepth, hcheck]
      rfl
    · exact validateNativeValueShape_of (fieldString ||| fieldContext) (by simp [nativePayloadFields, presence]) rfl
    · show (do return K.Lambda (← fromClient (QLambda.withContext value.source value.context))) = _
      rw [QLambda.withContext_parts]
      rfl
  | QValue value => exact carried_qvalue value hdepth
  | DateTime value => exact carried_dateTime hdoc h hdepth
  | Date value =>
    apply carried_string "date" (env.dateFormat value) hdepth ?_ rfl ?_
    · rw [kIntoNativeWithDepth, hcheck]
      rfl
    · show (do return K.Date (← fromText "invalid date: " (env.dateParseFromStr (env.dateFormat value)))) = _
      rw [hdoc.date_text]
      rfl
  | Time value => exact carried_time hdoc h hdepth
  | Duration value => exact carried_duration hdoc h hdepth

theorem carried_each {values : List K} (h : ∀ value ∈ values, Carried env limit depth value) :
    ∃ natives owned, eachIntoNative env values depth = .ok natives ∧
      (∀ remaining ≤ maxSnapshotBytes, eachCost env.toNapi natives ≤ remaining →
        snapshotEach env.toNapi limit natives depth remaining =
          .ok (owned, remaining - eachCost env.toNapi natives)) ∧
      eachIntoK env owned = .ok values := by
  induction values with
  | nil => exact ⟨[], [], rfl, fun _ _ _ => rfl, rfl⟩
  | cons value rest ih =>
    obtain ⟨native, owned, hnative, hsnapshot, hback⟩ := h value (by simp)
    obtain ⟨natives, owneds, hnatives, hsnapshots, hbacks⟩ := ih fun value hmem => h value (by simp [hmem])
    refine ⟨native :: natives, owned :: owneds, ?_, ?_, ?_⟩
    · rw [eachIntoNative, hnative, hnatives]
      rfl
    · intro remaining hremaining hcost
      rw [eachCost] at hcost ⊢
      rw [snapshotEach, hsnapshot remaining hremaining (by omega), ok_bind]
      simp only [hsnapshots (remaining - snapshotCost env.toNapi native) (by omega) (by omega), Nat.sub_sub]
      rfl
    · rw [eachIntoK, hback, hbacks]
      rfl

theorem carried_entries {entries : List (Str × K)} (hkeys : ∀ entry ∈ entries, 0 ∉ entry.1.bytes)
    (h : ∀ entry ∈ entries, Carried env limit depth entry.2) :
    ∃ natives owned, entriesIntoNative env entries depth = .ok natives ∧
      (∀ remaining ≤ maxSnapshotBytes, eachEntryCost env.toNapi natives ≤ remaining →
        snapshotEachEntry env.toNapi limit natives depth remaining =
          .ok (owned, remaining - eachEntryCost env.toNapi natives)) ∧
      ∀ dictionary, ((dictionary ++ entries).map Prod.fst).Nodup →
        entriesIntoK env owned dictionary = .ok (dictionary ++ entries) := by
  induction entries with
  | nil =>
    refine ⟨[], [], rfl, fun _ _ _ => rfl, ?_⟩
    intro dictionary _
    rw [entriesIntoK, List.append_nil]
  | cons entry rest ih =>
    obtain ⟨key, value⟩ := entry
    have hkey : ∀ field, validateQSymbol key field = .ok () := fun field => if_neg (hkeys (key, value) (by simp))
    obtain ⟨native, owned, hnative, hsnapshot, hback⟩ := h (key, value) (by simp)
    obtain ⟨natives, owneds, hnatives, hsnapshots, hbacks⟩ :=
      ih (fun entry hmem => hkeys entry (by simp [hmem])) (fun entry hmem => h entry (by simp [hmem]))
    refine ⟨(key, native) :: natives, (key, owned) :: owneds, ?_, ?_, ?_⟩
    · rw [entriesIntoNative, hkey, hnative, hnatives]
      rfl
    · intro remaining hremaining hcost
      rw [eachEntryCost] at hcost ⊢
      rw [snapshotEachEntry, charge_ok (by omega), ok_bind, hsnapshot (remaining - key.bytes.length) (by omega) (by omega),
        ok_bind]
      simp only [Nat.sub_sub,
        hsnapshots (remaining - (key.bytes.length + snapshotCost env.toNapi native)) (by omega) (by omega)]
      rfl
    · intro dictionary hdistinct
      have hnew : key ∉ dictionary.map Prod.fst := by
        rw [List.map_append, List.nodup_append] at hdistinct
        intro hmem
        exact hdistinct.2.2 key hmem key (by simp) rfl
      have hrest := hbacks (dictionary ++ [(key, value)]) (by simpa using hdistinct)
      rw [entriesIntoK, hkey, ok_bind, if_neg hnew, hback]
      simpa using hrest

theorem carried_list {values : List K} (hdepth : depth ≤ maxValueDepth)
    (h : ∀ value ∈ values, Carried env limit (depth + 1) value) : Carried env limit depth (.MixedList values) := by
  obtain ⟨natives, owned, hnatives, hsnapshots, hback⟩ := carried_each h
  refine ⟨{ tag := "list", items := some natives }, { tag := "list", items := some owned }, ?_, ?_, ?_⟩
  · exact kIntoNativeWithDepth_list hdepth hnatives
  · intro remaining hremaining hcost
    have hshape : validateNativeValueShape { tag := "list", items := some natives } = .ok () :=
      validateNativeValueShape_of fieldItems (by simp [nativePayloadFields, presence]) rfl
    apply snapshot_ok hdepth hshape rfl rfl rfl hremaining ?_ (fun _ _ _ => rfl) hcost
    intro remaining hremaining hcost
    simp only [itemsCost] at hcost ⊢
    have hsize : natives.length * env.ownedValueSize ≤ usizeMax := by
      simp only [usizeMax, maxSnapshotBytes] at hremaining ⊢
      omega
    rw [snapshotItems, allocationSize_ok hsize, ok_bind, charge_ok (by omega), ok_bind,
      hsnapshots (remaining - natives.length * env.ownedValueSize) (by omega) (by omega), Nat.sub_sub]
    rfl
  · show (do return K.MixedList (← eachIntoK env owned)) = _
    rw [hback]
    rfl

theorem carried_dict {entries : List (Str × K)} (hdepth : depth ≤ maxValueDepth) (hsendable : Sendable (.Dict entries))
    (h : ∀ entry ∈ entries, Carried env limit (depth + 1) entry.2) : Carried env limit depth (.Dict entries) := by
  obtain ⟨hdistinct, hkeys⟩ := hsendable
  obtain ⟨natives, owned, hnatives, hsnapshots, hback⟩ := carried_entries hkeys h
  refine ⟨{ tag := "dictionary", entries := some natives }, { tag := "dictionary", entries := some owned }, ?_, ?_, ?_⟩
  · exact kIntoNativeWithDepth_dict hdepth hnatives
  · intro remaining hremaining hcost
    have hshape : validateNativeValueShape { tag := "dictionary", entries := some natives } = .ok () :=
      validateNativeValueShape_of fieldEntries (by simp [nativePayloadFields, presence]) rfl
    apply snapshot_ok hdepth hshape rfl rfl rfl hremaining (fun _ _ _ => rfl) ?_ hcost
    intro remaining hremaining hcost
    simp only [entriesCost] at hcost ⊢
    have hsize : natives.length * env.ownedEntrySize ≤ usizeMax := by
      simp only [usizeMax, maxSnapshotBytes] at hremaining ⊢
      omega
    rw [snapshotEntries, allocationSize_ok hsize, ok_bind, charge_ok (by omega), ok_bind,
      hsnapshots (remaining - natives.length * env.ownedEntrySize) (by omega) (by omega), Nat.sub_sub]
    rfl
  · show (do return K.Dict (← entriesIntoK env owned [])) = _
    rw [hback [] (by simpa using hdistinct)]
    rfl

theorem carried (hdoc : env.Documented) {value : K} (h : value.Everywhere Sendable)
    (hheight : value.height + depth ≤ maxValueDepth) : Carried env limit depth value := by
  induction value using K.induct generalizing depth with
  | leaf value hleaf =>
    have hsendable : Sendable value := by
      cases value with
      | MixedList values => exact hleaf.elim
      | Dict entries => exact hleaf.elim
      | _ => exact h
    exact carried_of_isLeaf hdoc hleaf hsendable (by omega)
  | mixedList values ih =>
    obtain ⟨-, hmembers⟩ := h
    rw [K.height] at hheight
    apply carried_list (by omega)
    intro value hmem
    have := K.height_lt_heights values value hmem
    exact ih value hmem (K.everyMember_iff.mp hmembers value hmem) (by omega)
  | dict entries ih =>
    obtain ⟨hsendable, hvalues⟩ := h
    rw [K.height] at hheight
    apply carried_dict (by omega) hsendable
    intro entry hmem
    have := K.height_lt_entryHeights entries entry hmem
    exact ih entry hmem (K.everyEntry_iff.mp hvalues entry hmem) (by omega)

end

/-- The snapshot of the value's object is within the budget. -/
def FitsBudget (env : Packages) (value : K) : Prop :=
  ∀ native, kIntoNative env value = .ok native →
    env.ownedValueSize + snapshotCost env.toNapi native ≤ maxSnapshotBytes

/-- **The transfer is lossless**: a value of at most 64 levels becomes an object, the object's
snapshot is accepted, and the snapshot becomes the value. -/
theorem transfer_lossless (env : Packages) (hdoc : env.Documented) (value : K)
    (hsendable : value.Everywhere Sendable) (hheight : value.height ≤ maxValueDepth)
    (hfits : FitsBudget env value) :
    ∃ native owned, kIntoNative env value = .ok native ∧ tryFrom env.toNapi native = .ok owned ∧
      intoK env owned = .ok value := by
  have hcarried : Carried env maxSnapshotBytes 0 value := carried hdoc hsendable hheight
  obtain ⟨native, owned, hnative, hsnapshot, hback⟩ := hcarried
  have hcost := hfits native hnative
  refine ⟨native, owned, hnative, ?_, hback⟩
  rw [tryFrom, snapshotWithLimit, charge_ok (by omega), ok_bind,
    hsnapshot (maxSnapshotBytes - env.ownedValueSize) (by omega) (by omega)]
  rfl

/-! ## Other crates, for values without GUIDs and dates -/

def hexDigit (n : Nat) : UInt8 := if n < 10 then UInt8.ofNat (0x30 + n) else UInt8.ofNat (0x57 + n)

def hexValue (digit : UInt8) : Nat := if digit.toNat < 0x40 then digit.toNat - 0x30 else digit.toNat - 0x57

def hexText : Bytes → Bytes
  | [] => []
  | b :: rest => hexDigit (b.toNat / 16) :: hexDigit (b.toNat % 16) :: hexText rest

def readHex : Bytes → Bytes
  | high :: low :: rest => UInt8.ofNat (16 * hexValue high + hexValue low) :: readHex rest
  | _ => []

theorem hexDigit_spec {n : Nat} (h : n < 16) : hexValue (hexDigit n) = n ∧ hexDigit n < 0x80 := by
  have htable : ∀ n < 16, hexValue (hexDigit n) = n ∧ hexDigit n < 0x80 := by decide
  exact htable n h

theorem readHex_hexText (bytes : Bytes) : readHex (hexText bytes) = bytes := by
  induction bytes with
  | nil => rfl
  | cons b rest ih =>
    have hb := b.toNat_lt
    have hhigh := (hexDigit_spec (show b.toNat / 16 < 16 by omega)).1
    have hlow := (hexDigit_spec (show b.toNat % 16 < 16 by omega)).1
    rw [hexText, readHex, hhigh, hlow, ih, Nat.div_add_mod, UInt8.ofNat_toNat]

theorem valid_hexText (bytes : Bytes) : Utf8.Valid (hexText bytes) := by
  apply Utf8.valid_ascii
  induction bytes with
  | nil => simp [hexText]
  | cons b rest ih =>
    have hb := b.toNat_lt
    intro digit hmem
    rw [hexText, List.mem_cons, List.mem_cons] at hmem
    obtain rfl | rfl | hmem := hmem
    · exact (hexDigit_spec (by omega)).2
    · exact (hexDigit_spec (by omega)).2
    · exact ih digit hmem

/-- A GUID without its hyphens. -/
def plainGuid (guid : Guid) : Str := ⟨hexText guid.bytes, valid_hexText _⟩

def readGuid (text : Str) : Except String Guid :=
  if h : (readHex text.bytes).length = 16 then .ok ⟨readHex text.bytes, h⟩ else .error "invalid length"

/-- A date by its day. -/
def plainDate (date : NaiveDate) : Str :=
  ⟨hexText (LittleEndian.encode 4 (date.days + 95746129).toNat), valid_hexText _⟩

def readDate (text : Str) : Except String NaiveDate :=
  match NaiveDate.fromNumDaysFromCeOpt (Int32.ofInt (LittleEndian.decode (readHex text.bytes) - 95746129)) with
  | some date => .ok date
  | none => .error "input is out of range"

theorem readGuid_plainGuid (guid : Guid) : readGuid (plainGuid guid) = .ok guid := by
  simp [readGuid, plainGuid, readHex_hexText, guid.length_eq]

theorem readDate_plainDate (date : NaiveDate) : readDate (plainDate date) = .ok date := by
  have hlower := date.lower
  have hupper := date.upper
  have hday : (date.days + 95746129).toNat < 256 ^ 4 := by omega
  have hback : ((date.days + 95746129).toNat : Int) - 95746129 = date.days := by omega
  have hdate : NaiveDate.fromNumDaysFromCeOpt (Int32.ofInt date.days) = some date :=
    NaiveDate.fromNumDaysFromCeOpt_numDaysFromCe date
  simp only [readDate, plainDate, readHex_hexText, LittleEndian.decode_encode 4 _ hday, hback, hdate]

/-- The integer, if it fits. -/
def exactI64 (big : BigInt) : Int64 × Bool :=
  if -2 ^ 63 ≤ big.value ∧ big.value < 2 ^ 63 then (Int64.ofInt big.value, true) else (0, false)

theorem exactI64_value {big : BigInt} {n : Int64} (h : big.value = n.toInt) : exactI64 big = (n, true) := by
  rw [exactI64, h, if_pos ⟨n.le_toInt, n.toInt_lt⟩, Int64.ofInt_toInt]

def plainPackages : Packages where
  getI64 := exactI64
  ownedValueSize := 200
  ownedEntrySize := 224
  guidToString := plainGuid
  guidParseStr := readGuid
  dateFormat := plainDate
  dateParseFromStr := readDate
  seriesToIpc _ := conversion "unable to write the Arrow stream"
  seriesFromIpc _ := conversion "unable to read the Arrow stream"
  dataframeToIpc _ := conversion "unable to write the Arrow stream"
  dataframeFromIpc _ := conversion "unable to read the Arrow stream"

theorem plainPackages_documented : plainPackages.Documented := by
  constructor
  · intro big n hvalue
    exact exactI64_value hvalue
  · exact readGuid_plainGuid
  · intro date
    have hformat : plainPackages.dateFormat = plainDate := rfl
    have hparse : plainPackages.dateParseFromStr = readDate := rfl
    rw [hformat, hparse]
    exact readDate_plainDate date

/-- The last millisecond of a day, one and a half, the least integer and the nanosecond before 1970. -/
def sampleValue : K :=
  .Dict [(Str.ofText "t".toList, .MixedList
    [.Time ⟨86399, 999000000, by decide, by decide⟩, .F32 0x3FC00000, .I64 Int64.minValue,
      .DateTime ⟨-1, 999999999, by decide⟩])]

theorem sampleValue_sendable : sampleValue.Everywhere Sendable := by
  simp only [sampleValue, K.Everywhere, K.EveryEntry, K.EveryMember, Sendable]
  decide +kernel

theorem sampleValue_fitsBudget : FitsBudget plainPackages sampleValue := by
  intro native hnative
  have hsame : kIntoNative plainPackages sampleValue = .ok _ := rfl
  rw [hsame] at hnative
  injection hnative with hnative
  rw [← hnative]
  decide +kernel

theorem transfer_lossless_sample :
    ∃ native owned, kIntoNative plainPackages sampleValue = .ok native ∧
      tryFrom plainPackages.toNapi native = .ok owned ∧ intoK plainPackages owned = .ok sampleValue :=
  transfer_lossless plainPackages plainPackages_documented sampleValue sampleValue_sendable (by decide)
    sampleValue_fitsBudget

/-- Half a second into a leap second at the end of a minute. -/
def leapSecond : DateTime := ⟨59, 1500000000, by decide⟩

/-- The count of nanoseconds is that of the second after. -/
def afterLeapSecond : DateTime := ⟨60, 500000000, by decide⟩

theorem timestampNanosOpt_leapSecond : leapSecond.timestampNanosOpt = some 60500000000 := by decide

theorem kIntoNative_leapSecond :
    kIntoNative plainPackages (.DateTime leapSecond) = .ok (setBigint "timestamp" 60500000000) := by
  have hcheck := checkDepth_ok (show 0 ≤ maxValueDepth from Nat.zero_le _)
  rw [kIntoNative, kIntoNativeWithDepth, hcheck]
  simp only [ok_bind, timestampNanosOpt_leapSecond]
  rfl

/-- A leap second is in the range, but another instant comes back. -/
theorem leap_second_moves :
    DateTime.fromTimestamp 59 1500000000 = some leapSecond ∧
    (minQTimestampUnixNanos ≤ leapSecond.timestamp * nanosPerSecond + leapSecond.subsec ∧
      leapSecond.timestamp * nanosPerSecond + leapSecond.subsec < 2 ^ 63) ∧
    FitsBudget plainPackages (.DateTime leapSecond) ∧
    (∃ native owned, kIntoNative plainPackages (.DateTime leapSecond) = .ok native ∧
      tryFrom plainPackages.toNapi native = .ok owned ∧
      intoK plainPackages owned = .ok (.DateTime afterLeapSecond)) ∧
    ¬ ∃ native owned, kIntoNative plainPackages (.DateTime leapSecond) = .ok native ∧
      tryFrom plainPackages.toNapi native = .ok owned ∧ intoK plainPackages owned = .ok (.DateTime leapSecond) := by
  have haccepted : tryFrom plainPackages.toNapi (setBigint "timestamp" 60500000000) =
      .ok { tag := "timestamp", bigintValue := some 60500000000 } := by
    rfl
  have hback : intoK plainPackages { tag := "timestamp", bigintValue := some 60500000000 } =
      .ok (.DateTime afterLeapSecond) := by
    rfl
  refine ⟨by decide, by decide, ?_, ⟨_, _, kIntoNative_leapSecond, haccepted, hback⟩, ?_⟩
  · intro native hnative
    rw [kIntoNative_leapSecond] at hnative
    injection hnative with hnative
    rw [← hnative]
    decide +kernel
  · rintro ⟨native, owned, hnative, howned, hsame⟩
    rw [kIntoNative_leapSecond] at hnative
    injection hnative with hnative
    rw [← hnative, haccepted] at howned
    injection howned with howned
    rw [← howned, hback] at hsame
    injection hsame with hsame
    injection hsame with hsame
    exact absurd hsame (by decide)

end Node
end Xqdb
