import Xqdb.Js.Conversion
import Xqdb.Lib.Outcome
import Xqdb.Lib.Transcode
import Xqdb.Node.Transfer

/-! The N-API boundary of `dto.rs`. On the way in, `snapshot_native_value` reads the properties of a
JavaScript object one by one, those that its tag calls for, and charges every octet before it copies
it. On the way out a `NativeValue` becomes an object. -/

namespace Xqdb.Node

open Js (JsString NativeObject)
open Outcome (bind_eq_ok pure_eq_ok)

/-! ## Texts and numbers across the boundary -/

/-- `into_utf8`. -/
def utf8Of (text : JsString) : Str := Str.ofText (Unicode.ofUtf16 text)

/-- A Rust string as a JavaScript string. -/
def unitsOf (text : Str) : JsString := Unicode.utf16 (Unicode.ofUtf8 text.bytes)

/-- What a string is after both ways. -/
theorem unitsOf_utf8Of (text : JsString) : unitsOf (utf8Of text) = Unicode.scrub text := by
  simp only [unitsOf, utf8Of, Str.ofText, Unicode.ofUtf8_utf8, Unicode.scrub]

mutual

/-- The object that JavaScript gets. -/
def toJs : NativeDto → NativeObject
  | ⟨tag, boolValue, numberValue, bigintValue, stringValue, context, bytesValue, items, entries, typeCode,
      length, isTable⟩ =>
    ⟨tag, boolValue, numberValue, bigintValue.map BigInt.value, stringValue.map unitsOf, context.map unitsOf,
      bytesValue, itemsToJs items, entriesToJs entries, typeCode.map fun code => F64.ofInt code.toInt, length,
      isTable⟩

def itemsToJs : Option (List NativeDto) → Option (List NativeObject)
  | none => none
  | some items => some (eachToJs items)

def eachToJs : List NativeDto → List NativeObject
  | [] => []
  | item :: rest => toJs item :: eachToJs rest

def entriesToJs : Option (List (Str × NativeDto)) → Option (List (JsString × NativeObject))
  | none => none
  | some entries => some (eachEntryToJs entries)

def eachEntryToJs : List (Str × NativeDto) → List (JsString × NativeObject)
  | [] => []
  | (key, value) :: rest => (unitsOf key, toJs value) :: eachEntryToJs rest

end

/-! ## Reading properties -/

def maxTagBytes : Nat := 32

/-- `payload_fields_from_keys`, for an object whose fields are those of `native-contract.ts`. -/
def payloadFieldsFromKeys (value : NativeObject) : UInt16 :=
  presence value.boolValue fieldBool ||| presence value.numberValue fieldNumber |||
    presence value.bigintValue fieldBigint ||| presence value.stringValue fieldString |||
    presence value.context fieldContext ||| presence value.bytesValue fieldBytes |||
    presence value.items fieldItems ||| presence value.entries fieldEntries |||
    presence value.typeCode fieldTypeCode ||| presence value.length fieldLength |||
    presence value.isTable fieldIsTable

def requiredProperty {α : Type} (field : String) (value : Option α) : Except DtoError α :=
  match value with
  | some value => .ok value
  | none => conversion s!"native value requires {field}"

/-- `napi_get_value_bigint_int64` tells whether the integer was read without loss. -/
def requiredBigintI64Property (field : String) (value : Option Int) : Except DtoError Int64 := do
  let value ← requiredProperty field value
  if -2 ^ 63 ≤ value ∧ value < 2 ^ 63 then return Int64.ofInt value
  else conversion "bigintValue is outside the signed 64-bit range"

def requiredExactIntegerProperty (field : String) (minimum maximum : Int) (value : Option UInt64) :
    Except DtoError Int := do
  let value ← requiredProperty field value
  if !F64.isFinite value || F64.hasFraction value || F64.lt value (F64.ofInt minimum) ||
      F64.lt (F64.ofInt maximum) value then
    conversion s!"{field} must be an integer from {minimum} through {maximum}"
  else return F64.cast (-2 ^ 63) (2 ^ 63 - 1) value

/-- `(condition).then(read).transpose()?`. -/
def readWhen {α : Type} (condition : Bool) (read : Except DtoError α) : Except DtoError (Option α) :=
  if condition then do
    let value ← read
    return some value
  else .ok none

section Snapshots

variable (env : Napi) (limit : Nat)

/-- A string, behind the charge for its octets. -/
def requiredStringProperty (field : String) (maximum : Nat) (value : Option JsString) (remaining : Nat) :
    Except DtoError (Str × Nat) := do
  let value ← requiredProperty field value
  if maximum < (utf8Of value).bytes.length then conversion s!"{field} exceeds its {maximum} byte limit"
  let remaining ← charge limit remaining (utf8Of value).bytes.length
  return (utf8Of value, remaining)

/-- A tag, whose text is the same on both sides. -/
def requiredTagProperty (tag : String) (remaining : Nat) : Except DtoError Nat :=
  if maxTagBytes < tag.utf8ByteSize then conversion s!"tag exceeds its {maxTagBytes} byte limit"
  else charge limit remaining tag.utf8ByteSize

def requiredBytesProperty (value : Option Bytes) (remaining : Nat) : Except DtoError (Bytes × Nat) := do
  let bytes ← requiredProperty "bytesValue" value
  let remaining ← charge limit remaining bytes.length
  return (bytes, remaining)

/-- `readWhen` for what is charged. -/
def readChargedWhen {α : Type} (condition : Bool) (read : Nat → Except DtoError (α × Nat)) (remaining : Nat) :
    Except DtoError (Option α × Nat) :=
  if condition then do
    let (value, remaining) ← read remaining
    return (some value, remaining)
  else .ok (none, remaining)

mutual

/-- `snapshot_unknown_value` and `snapshot_unknown_object`, with what remains of the budget. An
object here is a tree, so the search for it among its ancestors is left out. -/
def snapshotUnknownValue : NativeObject → Nat → Nat → Except DtoError (OwnedNativeValue × Nat)
  | ⟨tag, boolValue, numberValue, bigintValue, stringValue, context, bytesValue, items, entries, typeCode,
      length, isTable⟩, depth, remaining => do
    checkDepth depth
    let remaining ← requiredTagProperty limit tag remaining
    let expected ← validatePayloadFields tag (payloadFieldsFromKeys ⟨tag, boolValue, numberValue, bigintValue,
      stringValue, context, bytesValue, items, entries, typeCode, length, isTable⟩)
    let boolValue ← readWhen (expected = fieldBool) (requiredProperty "boolValue" boolValue)
    let numberValue ← readWhen (expected = fieldNumber) (requiredProperty "numberValue" numberValue)
    let bigintValue ← readWhen (expected = fieldBigint) (requiredBigintI64Property "bigintValue" bigintValue)
    let (stringValue, remaining) ← readChargedWhen (expected &&& fieldString ≠ 0)
      (requiredStringProperty limit "stringValue" maxSnapshotBytes stringValue) remaining
    let (context, remaining) ← readChargedWhen (expected &&& fieldContext ≠ 0)
      (requiredStringProperty limit "context" maxSnapshotBytes context) remaining
    let (bytesValue, remaining) ← readChargedWhen (expected &&& fieldBytes ≠ 0)
      (requiredBytesProperty limit bytesValue) remaining
    let typeCode ← readWhen (expected &&& fieldTypeCode ≠ 0)
      (requiredExactIntegerProperty "typeCode" (-2 ^ 15) (2 ^ 15 - 1) typeCode)
    let length ← readWhen (expected &&& fieldLength ≠ 0) (do numberToUsize (← requiredProperty "length" length) "length")
    let isTable ← readWhen (expected &&& fieldIsTable ≠ 0) (requiredProperty "isTable" isTable)
    let (items, remaining) ← snapshotUnknownItems (expected = fieldItems) items (depth + 1) remaining
    let (entries, remaining) ← snapshotUnknownEntries (expected = fieldEntries) entries (depth + 1) remaining
    return (⟨tag, boolValue, numberValue, bigintValue, stringValue, context, bytesValue, items, entries,
      typeCode.map Int16.ofInt, length, isTable⟩, remaining)

/-- The items, one level down, if the tag calls for them. -/
def snapshotUnknownItems :
    Bool → Option (List NativeObject) → Nat → Nat → Except DtoError (Option (List OwnedNativeValue) × Nat)
  | false, _, _, remaining => .ok (none, remaining)
  | true, none, _, _ => conversion "native value requires items"
  | true, some items, depth, remaining => do
    let size ← allocationSize env.ownedValueSize items.length
    let remaining ← charge limit remaining size
    let (items, remaining) ← snapshotUnknownEach items depth remaining
    return (some items, remaining)

def snapshotUnknownEach : List NativeObject → Nat → Nat → Except DtoError (List OwnedNativeValue × Nat)
  | [], _, remaining => .ok ([], remaining)
  | item :: rest, depth, remaining => do
    let (item, remaining) ← snapshotUnknownValue item depth remaining
    let (rest, remaining) ← snapshotUnknownEach rest depth remaining
    return (item :: rest, remaining)

/-- The entries, one level down, if the tag calls for them. -/
def snapshotUnknownEntries :
    Bool → Option (List (JsString × NativeObject)) → Nat → Nat →
      Except DtoError (Option (List (Str × OwnedNativeValue)) × Nat)
  | false, _, _, remaining => .ok (none, remaining)
  | true, none, _, _ => conversion "native value requires entries"
  | true, some entries, depth, remaining => do
    let size ← allocationSize env.ownedEntrySize entries.length
    let remaining ← charge limit remaining size
    let (entries, remaining) ← snapshotUnknownEachEntry entries depth remaining
    return (some entries, remaining)

/-- `snapshot_unknown_entry`, entry by entry. -/
def snapshotUnknownEachEntry :
    List (JsString × NativeObject) → Nat → Nat → Except DtoError (List (Str × OwnedNativeValue) × Nat)
  | [], _, remaining => .ok ([], remaining)
  | (key, value) :: rest, depth, remaining => do
    let (key, remaining) ← requiredStringProperty limit "key" maxSnapshotBytes (some key) remaining
    let (value, remaining) ← snapshotUnknownValue value depth remaining
    let (rest, remaining) ← snapshotUnknownEachEntry rest depth remaining
    return ((key, value) :: rest, remaining)

end

end Snapshots

/-- `snapshot_native_value`. -/
def snapshotNativeValue (env : Napi) (value : NativeObject) : Except DtoError OwnedNativeValue := do
  let remaining ← charge maxSnapshotBytes maxSnapshotBytes env.ownedValueSize
  let (owned, _) ← snapshotUnknownValue env maxSnapshotBytes value 0 remaining
  return owned

/-! ## What a snapshot holds -/

theorem validatePayloadFields_same {tag : String} {fields : UInt16} (h : expectedPayloadFields tag = .ok fields) :
    validatePayloadFields tag fields = .ok fields := by
  rw [validatePayloadFields, h, ok_bind]
  split
  · next hfound =>
    have hmissing := List.find?_some hfound
    simp at hmissing
  · split
    · next hfound =>
      have hforeign := List.find?_some hfound
      simp at hforeign
    · rfl

/-- The parts of a snapshot, each read under what the tag calls for. -/
structure SnapshotParts (env : Napi) (limit depth : Nat) (value : NativeObject) (expected : UInt16) (owned : OwnedNativeValue) :
    Prop where
  tag : owned.tag = value.tag
  boolValue : readWhen (expected = fieldBool) (requiredProperty "boolValue" value.boolValue) = .ok owned.boolValue
  numberValue : readWhen (expected = fieldNumber) (requiredProperty "numberValue" value.numberValue) =
    .ok owned.numberValue
  bigintValue : readWhen (expected = fieldBigint) (requiredBigintI64Property "bigintValue" value.bigintValue) =
    .ok owned.bigintValue
  stringValue : ∃ start left, readChargedWhen (expected &&& fieldString ≠ 0)
    (requiredStringProperty limit "stringValue" maxSnapshotBytes value.stringValue) start =
      .ok (owned.stringValue, left)
  context : ∃ start left, readChargedWhen (expected &&& fieldContext ≠ 0)
    (requiredStringProperty limit "context" maxSnapshotBytes value.context) start = .ok (owned.context, left)
  bytesValue : ∃ start left, readChargedWhen (expected &&& fieldBytes ≠ 0)
    (requiredBytesProperty limit value.bytesValue) start = .ok (owned.bytesValue, left)
  typeCode : ∃ code, readWhen (expected &&& fieldTypeCode ≠ 0)
    (requiredExactIntegerProperty "typeCode" (-2 ^ 15) (2 ^ 15 - 1) value.typeCode) = .ok code ∧
      owned.typeCode = code.map Int16.ofInt
  length : readWhen (expected &&& fieldLength ≠ 0)
    (do numberToUsize (← requiredProperty "length" value.length) "length") = .ok owned.length
  isTable : readWhen (expected &&& fieldIsTable ≠ 0) (requiredProperty "isTable" value.isTable) = .ok owned.isTable
  items : ∃ start left, snapshotUnknownItems env limit (expected = fieldItems) value.items (depth + 1) start =
    .ok (owned.items, left)
  entries : ∃ start left, snapshotUnknownEntries env limit (expected = fieldEntries) value.entries (depth + 1) start =
    .ok (owned.entries, left)

section

variable {env : Napi} {limit depth remaining left : Nat} {value : NativeObject} {owned : OwnedNativeValue}

theorem snapshotParts_of_ok (fields : UInt16) (hfields : payloadFieldsFromKeys value = fields)
    (htag : expectedPayloadFields value.tag = .ok fields)
    (h : snapshotUnknownValue env limit value depth remaining = .ok (owned, left)) :
    SnapshotParts env limit depth value fields owned := by
  have hvalid := validatePayloadFields_same htag
  obtain ⟨tag, boolValue, numberValue, bigintValue, stringValue, context, bytesValue, items, entries, typeCode,
    length, isTable⟩ := value
  simp only [snapshotUnknownValue, bind_eq_ok, hfields, hvalid, Except.ok.injEq, pure_eq_ok, Prod.mk.injEq] at h
  obtain ⟨_, -, _, -, _, rfl, _, h₁, _, h₂, _, h₃, string, h₄, text, h₅, bytes, h₆, _, h₇, _, h₈, _, h₉, each, h₁₀,
    entry, h₁₁, rfl, rfl⟩ := h
  exact ⟨rfl, h₁, h₂, h₃, ⟨_, _, h₄⟩, ⟨_, _, h₅⟩, ⟨_, _, h₆⟩, ⟨_, h₇, rfl⟩, h₈, h₉, ⟨_, _, h₁₀⟩, ⟨_, _, h₁₁⟩⟩

theorem ext_parts {a b : OwnedNativeValue} (htag : a.tag = b.tag) (hbool : a.boolValue = b.boolValue)
    (hnumber : a.numberValue = b.numberValue) (hbigint : a.bigintValue = b.bigintValue)
    (hstring : a.stringValue = b.stringValue) (hcontext : a.context = b.context) (hbytes : a.bytesValue = b.bytesValue)
    (hitems : a.items = b.items) (hentries : a.entries = b.entries) (hcode : a.typeCode = b.typeCode)
    (hlength : a.length = b.length) (htable : a.isTable = b.isTable) : a = b := by
  cases a
  cases b
  simp_all

section Parts

variable {α : Type} {value : Option α} {read : Except DtoError α} {readCharged : Nat → Except DtoError (α × Nat)}

theorem readWhen_false (h : readWhen false read = .ok value) : value = none := (Except.ok.inj h).symm

theorem readWhen_true (h : readWhen true read = .ok value) : ∃ a, read = .ok a ∧ value = some a := by
  obtain ⟨a, ha, hvalue⟩ := bind_eq_ok.mp h
  exact ⟨a, ha, (pure_eq_ok.mp hvalue).symm⟩

theorem readChargedWhen_false (h : ∃ start left, readChargedWhen false readCharged start = .ok (value, left)) :
    value = none := by
  obtain ⟨start, left, h⟩ := h
  exact (congrArg Prod.fst (Except.ok.inj h)).symm

theorem readChargedWhen_true (h : ∃ start left, readChargedWhen true readCharged start = .ok (value, left)) :
    ∃ start a left, readCharged start = .ok (a, left) ∧ value = some a := by
  obtain ⟨start, left, h⟩ := h
  obtain ⟨⟨a, rest⟩, ha, hvalue⟩ := bind_eq_ok.mp h
  exact ⟨start, a, rest, ha, (congrArg Prod.fst (pure_eq_ok.mp hvalue)).symm⟩

theorem code_false {read : Except DtoError Int} {code : Option Int16}
    (h : ∃ found, readWhen false read = .ok found ∧ code = found.map Int16.ofInt) : code = none := by
  obtain ⟨found, hfound, rfl⟩ := h
  rw [readWhen_false hfound]
  rfl

theorem items_false {items : Option (List NativeObject)} {found : Option (List OwnedNativeValue)}
    (h : ∃ start left, snapshotUnknownItems env limit false items depth start = .ok (found, left)) : found = none := by
  obtain ⟨start, left, h⟩ := h
  rw [snapshotUnknownItems] at h
  exact (congrArg Prod.fst (Except.ok.inj h)).symm

theorem entries_false {entries : Option (List (JsString × NativeObject))} {found : Option (List (Str × OwnedNativeValue))}
    (h : ∃ start left, snapshotUnknownEntries env limit false entries depth start = .ok (found, left)) :
    found = none := by
  obtain ⟨start, left, h⟩ := h
  rw [snapshotUnknownEntries] at h
  exact (congrArg Prod.fst (Except.ok.inj h)).symm

/-- A text that is read is the text in UTF-8. -/
theorem requiredStringProperty_eq_ok {field : String} {maximum start left : Nat} {text : JsString} {found : Str}
    (h : requiredStringProperty limit field maximum (some text) start = .ok (found, left)) : found = utf8Of text := by
  simp only [requiredStringProperty, requiredProperty, ok_bind] at h
  split at h
  · cases h
  · obtain ⟨_, -, hpair⟩ := bind_eq_ok.mp h
    exact (congrArg Prod.fst (pure_eq_ok.mp hpair)).symm

theorem string_true {field : String} {maximum : Nat} {text : JsString} {found : Option Str}
    (h : ∃ start left, readChargedWhen true (requiredStringProperty limit field maximum (some text)) start =
      .ok (found, left)) : found = some (utf8Of text) := by
  obtain ⟨start, read, left, hread, rfl⟩ := readChargedWhen_true h
  exact congrArg some (requiredStringProperty_eq_ok hread)

theorem bytes_true {bytes : Bytes} {found : Option Bytes}
    (h : ∃ start left, readChargedWhen true (requiredBytesProperty limit (some bytes)) start = .ok (found, left)) :
    found = some bytes := by
  obtain ⟨start, read, left, hread, rfl⟩ := readChargedWhen_true h
  simp only [requiredBytesProperty, requiredProperty, ok_bind] at hread
  obtain ⟨_, -, hpair⟩ := bind_eq_ok.mp hread
  exact congrArg some (congrArg Prod.fst (pure_eq_ok.mp hpair)).symm

end Parts

/-! ### By the tag -/

section Shapes

variable {tag : String}

theorem snapshot_null
    (h : snapshotUnknownValue env limit { tag := "null" } depth remaining = .ok (owned, left)) :
    owned = { tag := "null" } := by
  have t := snapshotParts_of_ok 0 (by simp [payloadFieldsFromKeys, presence]) rfl h
  exact ext_parts t.tag (readWhen_false t.boolValue) (readWhen_false t.numberValue) (readWhen_false t.bigintValue)
    (readChargedWhen_false t.stringValue) (readChargedWhen_false t.context) (readChargedWhen_false t.bytesValue)
    (items_false t.items) (entries_false t.entries) (code_false t.typeCode) (readWhen_false t.length)
    (readWhen_false t.isTable)

theorem snapshot_boolean {value : Bool}
    (h : snapshotUnknownValue env limit { tag := "boolean", boolValue := some value } depth remaining =
      .ok (owned, left)) : owned = { tag := "boolean", boolValue := some value } := by
  have t := snapshotParts_of_ok fieldBool (by simp [payloadFieldsFromKeys, presence]) rfl h
  obtain ⟨_, hread, hbool⟩ := readWhen_true t.boolValue
  cases hread
  exact ext_parts t.tag hbool (readWhen_false t.numberValue) (readWhen_false t.bigintValue)
    (readChargedWhen_false t.stringValue) (readChargedWhen_false t.context) (readChargedWhen_false t.bytesValue)
    (items_false t.items) (entries_false t.entries) (code_false t.typeCode) (readWhen_false t.length)
    (readWhen_false t.isTable)

theorem snapshot_number {bits : UInt64} (htag : expectedPayloadFields tag = .ok fieldNumber)
    (h : snapshotUnknownValue env limit { tag := tag, numberValue := some bits } depth remaining =
      .ok (owned, left)) : owned = { tag := tag, numberValue := some bits } := by
  have t := snapshotParts_of_ok fieldNumber (by simp [payloadFieldsFromKeys, presence]) htag h
  obtain ⟨_, hread, hnumber⟩ := readWhen_true t.numberValue
  cases hread
  exact ext_parts t.tag (readWhen_false t.boolValue) hnumber (readWhen_false t.bigintValue)
    (readChargedWhen_false t.stringValue) (readChargedWhen_false t.context) (readChargedWhen_false t.bytesValue)
    (items_false t.items) (entries_false t.entries) (code_false t.typeCode) (readWhen_false t.length)
    (readWhen_false t.isTable)

theorem snapshot_bigint {n : Int} (htag : expectedPayloadFields tag = .ok fieldBigint)
    (h : snapshotUnknownValue env limit { tag := tag, bigintValue := some n } depth remaining = .ok (owned, left)) :
    ∃ m : Int64, m.toInt = n ∧ owned = { tag := tag, bigintValue := some m } := by
  have t := snapshotParts_of_ok fieldBigint (by simp [payloadFieldsFromKeys, presence]) htag h
  obtain ⟨m, hread, hbigint⟩ := readWhen_true t.bigintValue
  refine ⟨m, ?_, ext_parts t.tag (readWhen_false t.boolValue) (readWhen_false t.numberValue) hbigint
    (readChargedWhen_false t.stringValue) (readChargedWhen_false t.context) (readChargedWhen_false t.bytesValue)
    (items_false t.items) (entries_false t.entries) (code_false t.typeCode) (readWhen_false t.length)
    (readWhen_false t.isTable)⟩
  simp only [requiredBigintI64Property, requiredProperty, ok_bind] at hread
  split at hread
  · next hrange =>
    rw [← pure_eq_ok.mp hread]
    exact Int64.toInt_ofInt_of_le (by omega) (by omega)
  · cases hread

theorem snapshot_string {text : JsString} (htag : expectedPayloadFields tag = .ok fieldString)
    (h : snapshotUnknownValue env limit { tag := tag, stringValue := some text } depth remaining =
      .ok (owned, left)) : owned = { tag := tag, stringValue := some (utf8Of text) } := by
  have t := snapshotParts_of_ok fieldString (by simp [payloadFieldsFromKeys, presence]) htag h
  exact ext_parts t.tag (readWhen_false t.boolValue) (readWhen_false t.numberValue) (readWhen_false t.bigintValue)
    (string_true t.stringValue) (readChargedWhen_false t.context) (readChargedWhen_false t.bytesValue)
    (items_false t.items) (entries_false t.entries) (code_false t.typeCode) (readWhen_false t.length)
    (readWhen_false t.isTable)

theorem snapshot_lambda {source context : JsString}
    (h : snapshotUnknownValue env limit { tag := "lambda", stringValue := some source, context := some context } depth
      remaining = .ok (owned, left)) :
    owned = { tag := "lambda", stringValue := some (utf8Of source), context := some (utf8Of context) } := by
  have t := snapshotParts_of_ok (fieldString ||| fieldContext) (by simp [payloadFieldsFromKeys, presence]) rfl h
  exact ext_parts t.tag (readWhen_false t.boolValue) (readWhen_false t.numberValue) (readWhen_false t.bigintValue)
    (string_true t.stringValue) (string_true t.context) (readChargedWhen_false t.bytesValue)
    (items_false t.items) (entries_false t.entries) (code_false t.typeCode) (readWhen_false t.length)
    (readWhen_false t.isTable)

theorem snapshot_bytes {bytes : Bytes} (htag : expectedPayloadFields tag = .ok fieldBytes)
    (h : snapshotUnknownValue env limit { tag := tag, bytesValue := some bytes } depth remaining =
      .ok (owned, left)) : owned = { tag := tag, bytesValue := some bytes } := by
  have t := snapshotParts_of_ok fieldBytes (by simp [payloadFieldsFromKeys, presence]) htag h
  exact ext_parts t.tag (readWhen_false t.boolValue) (readWhen_false t.numberValue) (readWhen_false t.bigintValue)
    (readChargedWhen_false t.stringValue) (readChargedWhen_false t.context) (bytes_true t.bytesValue)
    (items_false t.items) (entries_false t.entries) (code_false t.typeCode) (readWhen_false t.length)
    (readWhen_false t.isTable)

theorem snapshot_list {items : List NativeObject}
    (h : snapshotUnknownValue env limit { tag := "list", items := some items } depth remaining = .ok (owned, left)) :
    ∃ found start left, snapshotUnknownEach env limit items (depth + 1) start = .ok (found, left) ∧
      owned = { tag := "list", items := some found } := by
  have t := snapshotParts_of_ok fieldItems (by simp [payloadFieldsFromKeys, presence]) rfl h
  obtain ⟨start, rest, hitems⟩ := t.items
  simp only [snapshotUnknownItems, decide_true, bind_eq_ok, pure_eq_ok, Prod.mk.injEq] at hitems
  obtain ⟨_, -, start, -, ⟨found, left⟩, heach, hfound, -⟩ := hitems
  refine ⟨found, start, left, heach, ?_⟩
  exact ext_parts t.tag (readWhen_false t.boolValue) (readWhen_false t.numberValue) (readWhen_false t.bigintValue)
    (readChargedWhen_false t.stringValue) (readChargedWhen_false t.context) (readChargedWhen_false t.bytesValue)
    hfound.symm (entries_false t.entries) (code_false t.typeCode) (readWhen_false t.length) (readWhen_false t.isTable)

theorem snapshot_dictionary {entries : List (JsString × NativeObject)}
    (h : snapshotUnknownValue env limit { tag := "dictionary", entries := some entries } depth remaining =
      .ok (owned, left)) :
    ∃ found start left, snapshotUnknownEachEntry env limit entries (depth + 1) start = .ok (found, left) ∧
      owned = { tag := "dictionary", entries := some found } := by
  have t := snapshotParts_of_ok fieldEntries (by simp [payloadFieldsFromKeys, presence]) rfl h
  obtain ⟨start, rest, hentries⟩ := t.entries
  simp only [snapshotUnknownEntries, decide_true, bind_eq_ok, pure_eq_ok, Prod.mk.injEq] at hentries
  obtain ⟨_, -, start, -, ⟨found, left⟩, heach, hfound, -⟩ := hentries
  refine ⟨found, start, left, heach, ?_⟩
  exact ext_parts t.tag (readWhen_false t.boolValue) (readWhen_false t.numberValue) (readWhen_false t.bigintValue)
    (readChargedWhen_false t.stringValue) (readChargedWhen_false t.context) (readChargedWhen_false t.bytesValue)
    (items_false t.items) hfound.symm (code_false t.typeCode) (readWhen_false t.length) (readWhen_false t.isTable)

end Shapes

end

end Xqdb.Node
