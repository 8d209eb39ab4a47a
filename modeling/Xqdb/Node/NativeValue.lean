import Xqdb.Floats
import Xqdb.Types

/-! The objects that cross the N-API boundary (`NativeValue` of `dto.rs` and of `native-contract.ts`),
and the snapshot that the Rust side takes of one: it checks that the payload is the one of the tag,
converts the numbers and charges every octet against a budget. -/

namespace Xqdb

/-- A tag and the fields of its payload. The two sides, and the snapshot that the Rust side takes,
hold texts, integers, type codes and lengths each in its own types; a number is an `f64`. -/
structure NativeValue (Text Integer Code Count : Type) where
  tag : String
  boolValue : Option Bool := none
  numberValue : Option UInt64 := none
  bigintValue : Option Integer := none
  stringValue : Option Text := none
  context : Option Text := none
  bytesValue : Option Bytes := none
  items : Option (List (NativeValue Text Integer Code Count)) := none
  entries : Option (List (Text × NativeValue Text Integer Code Count)) := none
  typeCode : Option Code := none
  length : Option Count := none
  isTable : Option Bool := none

namespace Node

/-- `napi`'s `BigInt`: a sign and the words of the magnitude, the least first. -/
structure BigInt where
  signBit : Bool
  words : List UInt64
  deriving DecidableEq

def BigInt.magnitude : List UInt64 → Nat
  | [] => 0
  | word :: words => word.toNat + 2 ^ 64 * magnitude words

def BigInt.value (big : BigInt) : Int :=
  if big.signBit then -(magnitude big.words : Int) else magnitude big.words

/-- The `NativeValue` of `dto.rs`. -/
abbrev NativeDto := NativeValue Str BigInt Int32 UInt64

/-- `OwnedNativeValue`. -/
abbrev OwnedNativeValue := NativeValue Str Int64 Int16 Nat

/-- The `BindingError` of a conversion: its message, the two messages that show a text as `{:?}`
does, and what `BindingError::from` makes of an error of the client. -/
inductive DtoError where
  | conversion (message : String)
  /-- The message is `unsupported native value tag {tag:?}`. -/
  | unsupportedTag (tag : String)
  /-- The message is `dictionary contains duplicate key {key:?}`. -/
  | duplicateKey (key : Str)
  | client (failure : Failure)
  deriving DecidableEq

def conversion {α : Type} (message : String) : Except DtoError α := .error (.conversion message)

@[simp] theorem ok_bind {α β : Type} (a : α) (next : α → Except DtoError β) :
    (Except.ok a : Except DtoError α) >>= next = next a := rfl

def maxSnapshotBytes : Nat := 64 * 1024 * 1024

/-! ## Payload fields -/

def fieldBool : UInt16 := (1 : UInt16) <<< 0
def fieldNumber : UInt16 := (1 : UInt16) <<< 1
def fieldBigint : UInt16 := (1 : UInt16) <<< 2
def fieldString : UInt16 := (1 : UInt16) <<< 3
def fieldContext : UInt16 := (1 : UInt16) <<< 4
def fieldBytes : UInt16 := (1 : UInt16) <<< 5
def fieldItems : UInt16 := (1 : UInt16) <<< 6
def fieldEntries : UInt16 := (1 : UInt16) <<< 7
def fieldTypeCode : UInt16 := (1 : UInt16) <<< 8
def fieldLength : UInt16 := (1 : UInt16) <<< 9
def fieldIsTable : UInt16 := (1 : UInt16) <<< 10

def payloadFields : List (String × UInt16) :=
  [("boolValue", fieldBool), ("numberValue", fieldNumber), ("bigintValue", fieldBigint),
   ("stringValue", fieldString), ("context", fieldContext), ("bytesValue", fieldBytes), ("items", fieldItems),
   ("entries", fieldEntries), ("typeCode", fieldTypeCode), ("length", fieldLength), ("isTable", fieldIsTable)]

def expectedPayloadFields (tag : String) : Except DtoError UInt16 :=
  match tag with
  | "null" => .ok 0
  | "boolean" => .ok fieldBool
  | "guid" | "symbol" | "string" | "operator" | "date" => .ok fieldString
  | "u8" | "i16" | "i32" | "f32" | "f64" | "char" => .ok fieldNumber
  | "i64" | "timestamp" | "time" | "timespan" => .ok fieldBigint
  | "lambda" => .ok (fieldString ||| fieldContext)
  | "bytes" | "series" | "table" => .ok fieldBytes
  | "qvalue" => .ok (fieldBytes ||| fieldTypeCode ||| fieldLength ||| fieldIsTable)
  | "list" => .ok fieldItems
  | "dictionary" => .ok fieldEntries
  | _ => .error (.unsupportedTag tag)

def validatePayloadFields (tag : String) (actual : UInt16) : Except DtoError UInt16 := do
  let expected ← expectedPayloadFields tag
  match payloadFields.find? fun (_, bit) => expected &&& bit ≠ 0 ∧ actual &&& bit = 0 with
  | some (field, _) => conversion s!"{tag} requires {field}"
  | none =>
    match payloadFields.find? fun (_, bit) => expected &&& bit = 0 ∧ actual &&& bit ≠ 0 with
    | some (field, _) => conversion s!"{tag} does not accept {field}"
    | none => .ok expected

/-- `u16::from(value.is_some()) * bit`. -/
def presence {α : Type} (value : Option α) (bit : UInt16) : UInt16 := if value.isSome then bit else 0

def nativePayloadFields (value : NativeDto) : UInt16 :=
  presence value.boolValue fieldBool ||| presence value.numberValue fieldNumber |||
    presence value.bigintValue fieldBigint ||| presence value.stringValue fieldString |||
    presence value.context fieldContext ||| presence value.bytesValue fieldBytes |||
    presence value.items fieldItems ||| presence value.entries fieldEntries |||
    presence value.typeCode fieldTypeCode ||| presence value.length fieldLength |||
    presence value.isTable fieldIsTable

def validateNativeValueShape (value : NativeDto) : Except DtoError Unit := do
  let _ ← validatePayloadFields value.tag (nativePayloadFields value)

theorem validateNativeValueShape_of {value : NativeDto} (fields : UInt16) (hfields : nativePayloadFields value = fields)
    (hvalid : validatePayloadFields value.tag fields = .ok fields) : validateNativeValueShape value = .ok () := by
  rw [validateNativeValueShape, hfields, hvalid]
  rfl

/-! ## The numbers of a payload -/

/-- What the snapshot uses of the `napi` crate and of the compiler: `BigInt::get_i64`, and
`size_of` of the two types of the snapshot. -/
structure Napi where
  getI64 : BigInt → Int64 × Bool
  ownedValueSize : Nat
  ownedEntrySize : Nat

def bigintToI64 (env : Napi) (value : BigInt) : Except DtoError Int64 :=
  let (value, lossless) := env.getI64 value
  if lossless then .ok value else conversion "bigintValue is outside the signed 64-bit range"

def typeCodeToI16 (code : Int32) : Except DtoError Int16 :=
  if -2 ^ 15 ≤ code.toInt ∧ code.toInt < 2 ^ 15 then .ok (Int16.ofInt code.toInt)
  else conversion "typeCode is outside the signed 16-bit range"

def numberToUsize (value : UInt64) (field : String) : Except DtoError Nat :=
  if !F64.isFinite value || F64.hasFraction value || F64.lt value (F64.ofInt 0) ||
      F64.lt (F64.ofInt usizeMax) value || F64.lt (F64.ofInt 9007199254740991) value then
    conversion s!"{field} must be a non-negative safe integer representable on this platform"
  else .ok (F64.cast 0 usizeMax value).toNat

/-- `value.map(convert).transpose()?`. -/
def transpose {α β : Type} (convert : α → Except DtoError β) : Option α → Except DtoError (Option β)
  | none => .ok none
  | some value => do
    let value ← convert value
    return some value

/-! ## The snapshot -/

def allocationSize (size length : Nat) : Except DtoError Nat :=
  match checkedMul length size with
  | some bytes => .ok bytes
  | none => conversion "native value snapshot allocation size overflowed"

/-- `SnapshotBudget::charge` without a reservation: what remains. -/
def charge (limit remaining bytes : Nat) : Except DtoError Nat :=
  if remaining < bytes then conversion s!"native value snapshot exceeds its {limit} byte limit"
  else .ok (remaining - bytes)

/-- The charge for a field that is there. -/
def chargeField {α : Type} (limit remaining : Nat) (size : α → Nat) (field : Option α) : Except DtoError Nat :=
  match field with
  | some value => charge limit remaining (size value)
  | none => .ok remaining

def checkDepth (depth : Nat) : Except DtoError Unit :=
  if maxValueDepth < depth then conversion s!"native value nesting exceeds {maxValueDepth} levels" else .ok ()

mutual

/-- `OwnedNativeValue::snapshot`, with what remains of the budget. Allocations within the budget
succeed. -/
def snapshot (env : Napi) (limit : Nat) : NativeDto → Nat → Nat → Except DtoError (OwnedNativeValue × Nat)
  | ⟨tag, boolValue, numberValue, bigintValue, stringValue, context, bytesValue, items, entries, typeCode,
      length, isTable⟩, depth, remaining => do
    checkDepth depth
    validateNativeValueShape ⟨tag, boolValue, numberValue, bigintValue, stringValue, context, bytesValue, items,
      entries, typeCode, length, isTable⟩
    let remaining ← charge limit remaining tag.utf8ByteSize
    let remaining ← chargeField limit remaining (·.bytes.length) stringValue
    let remaining ← chargeField limit remaining (·.bytes.length) context
    let remaining ← chargeField limit remaining List.length bytesValue
    let bigintValue ← transpose (bigintToI64 env) bigintValue
    let typeCode ← transpose typeCodeToI16 typeCode
    let length ← transpose (numberToUsize · "length") length
    let (items, remaining) ← snapshotItems env limit items (depth + 1) remaining
    let (entries, remaining) ← snapshotEntries env limit entries (depth + 1) remaining
    return (⟨tag, boolValue, numberValue, bigintValue, stringValue, context, bytesValue, items, entries, typeCode,
      length, isTable⟩, remaining)

/-- The items, if there are any, one level down. -/
def snapshotItems (env : Napi) (limit : Nat) :
    Option (List NativeDto) → Nat → Nat → Except DtoError (Option (List OwnedNativeValue) × Nat)
  | none, _, remaining => .ok (none, remaining)
  | some items, depth, remaining => do
    let size ← allocationSize env.ownedValueSize items.length
    let remaining ← charge limit remaining size
    let (items, remaining) ← snapshotEach env limit items depth remaining
    return (some items, remaining)

def snapshotEach (env : Napi) (limit : Nat) :
    List NativeDto → Nat → Nat → Except DtoError (List OwnedNativeValue × Nat)
  | [], _, remaining => .ok ([], remaining)
  | item :: rest, depth, remaining => do
    let (item, remaining) ← snapshot env limit item depth remaining
    let (rest, remaining) ← snapshotEach env limit rest depth remaining
    return (item :: rest, remaining)

/-- The entries, if there are any, one level down. -/
def snapshotEntries (env : Napi) (limit : Nat) :
    Option (List (Str × NativeDto)) → Nat → Nat → Except DtoError (Option (List (Str × OwnedNativeValue)) × Nat)
  | none, _, remaining => .ok (none, remaining)
  | some entries, depth, remaining => do
    let size ← allocationSize env.ownedEntrySize entries.length
    let remaining ← charge limit remaining size
    let (entries, remaining) ← snapshotEachEntry env limit entries depth remaining
    return (some entries, remaining)

def snapshotEachEntry (env : Napi) (limit : Nat) :
    List (Str × NativeDto) → Nat → Nat → Except DtoError (List (Str × OwnedNativeValue) × Nat)
  | [], _, remaining => .ok ([], remaining)
  | (key, value) :: rest, depth, remaining => do
    let remaining ← charge limit remaining key.bytes.length
    let (value, remaining) ← snapshot env limit value depth remaining
    let (rest, remaining) ← snapshotEachEntry env limit rest depth remaining
    return ((key, value) :: rest, remaining)

end

/-- `OwnedNativeValue::snapshot_with_limit`. -/
def snapshotWithLimit (env : Napi) (value : NativeDto) (limit : Nat) : Except DtoError OwnedNativeValue := do
  let remaining ← charge limit limit env.ownedValueSize
  let (owned, _) ← snapshot env limit value 0 remaining
  return owned

/-- `OwnedNativeValue::try_from`. -/
def tryFrom (env : Napi) (value : NativeDto) : Except DtoError OwnedNativeValue :=
  snapshotWithLimit env value maxSnapshotBytes

/-! ## What a snapshot costs -/

mutual

/-- The sum of all charges for a value but the one for its own place. -/
def snapshotCost (env : Napi) : NativeDto → Nat
  | ⟨tag, _, _, _, stringValue, context, bytesValue, items, entries, _, _, _⟩ =>
    tag.utf8ByteSize + (stringValue.elim 0 (·.bytes.length)) + (context.elim 0 (·.bytes.length)) +
      (bytesValue.elim 0 List.length) + itemsCost env items + entriesCost env entries

def itemsCost (env : Napi) : Option (List NativeDto) → Nat
  | none => 0
  | some items => items.length * env.ownedValueSize + eachCost env items

def eachCost (env : Napi) : List NativeDto → Nat
  | [] => 0
  | item :: rest => snapshotCost env item + eachCost env rest

def entriesCost (env : Napi) : Option (List (Str × NativeDto)) → Nat
  | none => 0
  | some entries => entries.length * env.ownedEntrySize + eachEntryCost env entries

def eachEntryCost (env : Napi) : List (Str × NativeDto) → Nat
  | [] => 0
  | (key, value) :: rest => key.bytes.length + snapshotCost env value + eachEntryCost env rest

end

section

variable {env : Napi} {limit depth remaining : Nat}

theorem charge_ok {bytes : Nat} (h : bytes ≤ remaining) : charge limit remaining bytes = .ok (remaining - bytes) := by
  rw [charge, if_neg (by omega)]

theorem chargeField_ok {α : Type} {size : α → Nat} {field : Option α} (h : field.elim 0 size ≤ remaining) :
    chargeField limit remaining size field = .ok (remaining - field.elim 0 size) := by
  cases field with
  | none => rfl
  | some value => exact charge_ok h

theorem checkDepth_ok (h : depth ≤ maxValueDepth) : checkDepth depth = .ok () := by
  rw [checkDepth, if_neg (by omega)]

theorem allocationSize_ok {size length : Nat} (h : length * size ≤ usizeMax) :
    allocationSize size length = .ok (length * size) := by
  rw [allocationSize, checkedMul, if_pos h]

/-- A snapshot whose cost is within the budget is one of its parts. -/
theorem snapshot_ok {value : NativeDto} {bound : Nat} {bigint : Option Int64} {typeCode : Option Int16} {length : Option Nat}
    {items : Option (List OwnedNativeValue)} {entries : Option (List (Str × OwnedNativeValue))}
    (hdepth : depth ≤ maxValueDepth) (hshape : validateNativeValueShape value = .ok ())
    (hbigint : transpose (bigintToI64 env) value.bigintValue = .ok bigint)
    (htypeCode : transpose typeCodeToI16 value.typeCode = .ok typeCode)
    (hlength : transpose (numberToUsize · "length") value.length = .ok length)
    (hremaining : remaining ≤ bound)
    (hitems : ∀ remaining ≤ bound, itemsCost env value.items ≤ remaining →
      snapshotItems env limit value.items (depth + 1) remaining =
        .ok (items, remaining - itemsCost env value.items))
    (hentries : ∀ remaining ≤ bound, entriesCost env value.entries ≤ remaining →
      snapshotEntries env limit value.entries (depth + 1) remaining =
        .ok (entries, remaining - entriesCost env value.entries))
    (hcost : snapshotCost env value ≤ remaining) :
    snapshot env limit value depth remaining =
      .ok (⟨value.tag, value.boolValue, value.numberValue, bigint, value.stringValue, value.context,
        value.bytesValue, items, entries, typeCode, length, value.isTable⟩, remaining - snapshotCost env value) := by
  obtain ⟨tag, boolValue, numberValue, bigintValue, stringValue, context, bytesValue, items', entries', typeCode',
    length', isTable⟩ := value
  dsimp only at hbigint htypeCode hlength hitems hentries
  simp only [snapshotCost] at hcost ⊢
  have h₁ : tag.utf8ByteSize ≤ remaining := by omega
  have h₂ : stringValue.elim 0 (·.bytes.length) ≤ remaining - tag.utf8ByteSize := by omega
  have h₃ : context.elim 0 (·.bytes.length) ≤
      remaining - tag.utf8ByteSize - stringValue.elim 0 (·.bytes.length) := by omega
  have h₄ : bytesValue.elim 0 List.length ≤ remaining - tag.utf8ByteSize -
      stringValue.elim 0 (·.bytes.length) - context.elim 0 (·.bytes.length) := by omega
  have h₅ : itemsCost env items' ≤ remaining - tag.utf8ByteSize - stringValue.elim 0 (·.bytes.length) -
      context.elim 0 (·.bytes.length) - bytesValue.elim 0 List.length := by omega
  have h₆ : entriesCost env entries' ≤ remaining - tag.utf8ByteSize - stringValue.elim 0 (·.bytes.length) -
      context.elim 0 (·.bytes.length) - bytesValue.elim 0 List.length - itemsCost env items' := by omega
  have h₇ : remaining - tag.utf8ByteSize - stringValue.elim 0 (·.bytes.length) -
      context.elim 0 (·.bytes.length) - bytesValue.elim 0 List.length ≤ bound := by omega
  have h₈ : remaining - tag.utf8ByteSize - stringValue.elim 0 (·.bytes.length) -
      context.elim 0 (·.bytes.length) - bytesValue.elim 0 List.length - itemsCost env items' ≤ bound := by omega
  simp only [snapshot, checkDepth_ok hdepth, hshape, charge_ok h₁, chargeField_ok h₂, chargeField_ok h₃,
    chargeField_ok h₄, hbigint, htypeCode, hlength, hitems _ h₇ h₅, hentries _ h₈ h₆, ok_bind]
  simp only [Nat.sub_sub, Nat.add_assoc]
  rfl

/-- A value without items and entries. -/
theorem snapshot_leaf {value : NativeDto} {bigint : Option Int64} {typeCode : Option Int16} {length : Option Nat}
    (hdepth : depth ≤ maxValueDepth) (hshape : validateNativeValueShape value = .ok ())
    (hbigint : transpose (bigintToI64 env) value.bigintValue = .ok bigint)
    (htypeCode : transpose typeCodeToI16 value.typeCode = .ok typeCode)
    (hlength : transpose (numberToUsize · "length") value.length = .ok length)
    (hitems : value.items = none) (hentries : value.entries = none)
    (hcost : snapshotCost env value ≤ remaining) :
    snapshot env limit value depth remaining =
      .ok (⟨value.tag, value.boolValue, value.numberValue, bigint, value.stringValue, value.context,
        value.bytesValue, none, none, typeCode, length, value.isTable⟩, remaining - snapshotCost env value) := by
  apply snapshot_ok hdepth hshape hbigint htypeCode hlength (Nat.le_refl remaining) ?_ ?_ hcost
  · intro remaining _ _
    rw [hitems]
    rfl
  · intro remaining _ _
    rw [hentries]
    rfl

end

end Node
end Xqdb
