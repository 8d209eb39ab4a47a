import Xqdb.Types
import Xqdb.Lib.LittleEndian

/-! The lossless parser of `qvalue.rs`: it walks a value body, checks every tag,
attribute and count, and reports the deepest level it has seen. The recursive
calls of `parse_value` carry fuel; one unit per nesting level is enough. -/

namespace Xqdb.QValue

open LittleEndian (decode signed)

inductive Shape where
  | Atom
  | Sequence (elementType : Option UInt8)
  | Dictionary (keyedTable : Bool)
  | Table
  | Function
  deriving DecidableEq, Repr

structure Parsed where
  typeCode : Int
  len : Nat
  shape : Shape
  deriving DecidableEq, Repr

def Parsed.sequenceLen (parsed : Parsed) : Option Nat :=
  match parsed.shape with
  | .Sequence _ => some parsed.len
  | _ => none

structure Parser where
  bytes : Bytes
  position : Nat
  maxDepth : Nat
  deriving DecidableEq, Repr

def fail {α : Type} (message : String) : Exec α := Exec.err (.DeserializationErr message)

/-! ## Taking bytes -/

def take (p : Parser) (length : Nat) (context : String) : Exec (Bytes × Parser) := do
  let stop ← Exec.okOr (checkedAdd p.position length)
    (.DeserializationErr (context ++ " byte range overflowed"))
  let value ← Exec.okOr (getRange p.bytes p.position stop)
    (.DeserializationErr s!"{context} needs {length} byte(s), but the value body ends early")
  .ok (value, { p with position := stop })

def takeByte (p : Parser) (context : String) : Exec (UInt8 × Parser) := do
  let (value, p) ← take p 1 context
  let byte ← index value 0
  .ok (byte, p)

def takeUntilNul (p : Parser) (context : String) : Exec (Bytes × Parser) := do
  let tail ← Exec.okOr (getFrom p.bytes p.position)
    (.DeserializationErr (context ++ " starts beyond the available payload"))
  let length ← Exec.okOr (memchr tail) (.DeserializationErr (context ++ " is not NUL-terminated"))
  let stop ← Exec.okOr (checkedAdd p.position length)
    (.DeserializationErr (context ++ " length overflowed"))
  let next ← Exec.okOr (checkedAdd stop 1)
    (.DeserializationErr (context ++ " terminator offset overflowed"))
  let value ← sliceRange p.bytes p.position stop
  .ok (value, { p with position := next })

/-- A little-endian count of `width` bytes that must not be negative. -/
def takeWord (p : Parser) (width : Nat) (context message : String) : Exec (Nat × Parser) := do
  let (raw, p) ← take p width context
  if signed (8 * width) (decode raw) < 0 then fail message
  else .ok (decode raw, p)

def takeCount (p : Parser) (context : String) : Exec (Nat × Parser) :=
  takeWord p 4 context (context ++ " count cannot be negative")

def takeAttribute (p : Parser) (context : String) : Exec (UInt8 × Parser) := do
  let (attr, p) ← takeByte p context
  if 4 < attr then fail s!"{context} has invalid attribute {attr}"
  else .ok (attr, p)

/-- The extended form: bit 7 of the attribute announces an eight-byte count. -/
def takeExtendedCount (p : Parser) (context : String) : Exec (Nat × Parser) :=
  takeWord p 8 context
    (context ++ " extended count cannot be negative or exceed this platform's limits")

def takeTypedListCount (p : Parser) (context : String) : Exec (Nat × Parser) := do
  let (rawAttribute, p) ← takeByte p context
  if 4 < rawAttribute &&& 0x7F then
    fail s!"{context} has invalid attribute {rawAttribute &&& 0x7F}"
  else if rawAttribute &&& 0x80 = 0 then takeCount p context
  else takeExtendedCount p context

/-- `for _ in 0..count { take_until_nul }`. -/
def takeSymbols (context : String) : Nat → Parser → Exec Parser
  | 0, p => .ok p
  | count + 1, p => do
    let (_, p) ← takeUntilNul p context
    takeSymbols context count p

def noteDepth (p : Parser) (depth : Nat) : Exec Parser :=
  if maxValueDepth < depth then fail s!"q value nesting exceeds {maxValueDepth} levels"
  else .ok { p with maxDepth := max p.maxDepth depth }

def ensureMatchingCounts (left right : Nat) (context : String) : Exec Unit :=
  if left = right then .ok () else fail s!"q {context} count mismatch: {left} and {right}"

def validateBooleanBytes (bytes : Bytes) (context : String) : Exec Unit :=
  match bytes.find? (1 < ·) with
  | some value => fail s!"{context} must contain only 0 or 1, got {value}"
  | none => .ok ()

/-- Booleans are the one element type whose payload is looked at. -/
def validatePayload (kind : UInt8) (payload : Bytes) (context : String) : Exec Unit :=
  if kind = 1 then validateBooleanBytes payload context else .ok ()

/-- `self.bytes.len().saturating_sub(self.position)`. -/
def remaining (p : Parser) : Nat := p.bytes.length - p.position

/-! ## Values without children -/

def parseFixedAtom (p : Parser) (kind : UInt8) : Exec Parser := do
  let (payload, p) ← take p (typeSize kind) "q atom payload"
  validatePayload kind payload "q boolean atom"
  .ok p

def parseAtomPayload (p : Parser) (kind : UInt8) : Exec Parser :=
  if kind = 11 then do
    let (_, p) ← takeUntilNul p "q symbol atom"
    .ok p
  else parseFixedAtom p kind

def parseAtom (p : Parser) (wireType : UInt8) : Exec (Parsed × Parser) :=
  let kind := 0 - wireType
  if kind = 3 ∨ kind < 1 ∨ 19 < kind then fail s!"unsupported q atom kind {kind}"
  else do
    let p ← parseAtomPayload p kind
    .ok (⟨-(kind.toNat : Int), 1, .Atom⟩, p)

def parseFixedList (p : Parser) (elementType : UInt8) (count : Nat) : Exec Parser := do
  let payloadLength ← Exec.okOr (checkedMul count (typeSize elementType))
    (.DeserializationErr "q typed-list payload length overflowed")
  let (payload, p) ← take p payloadLength "q typed-list payload"
  validatePayload elementType payload "q boolean list"
  .ok p

def parseListPayload (p : Parser) (elementType : UInt8) (count : Nat) : Exec Parser :=
  if elementType = 11 then takeSymbols "q symbol-list element" count p
  else parseFixedList p elementType count

def parseTypedList (p : Parser) (elementType : UInt8) : Exec (Parsed × Parser) :=
  if elementType = 3 then fail "q list element type 3 is reserved"
  else do
    let (count, p) ← takeTypedListCount p "q typed list"
    let p ← parseListPayload p elementType count
    .ok (⟨elementType.toNat, count, .Sequence (some elementType)⟩, p)

def parseLambda (p : Parser) (depth : Nat) : Exec (Parsed × Parser) := do
  let (_, p) ← takeUntilNul p "q lambda context"
  let p ← noteDepth p (depth + 1)
  let (sourceType, p) ← takeByte p "q lambda source type"
  if sourceType ≠ 10 then
    fail s!"q lambda source must be a type-10 character vector, got type {sourceType}"
  else do
    let (attr, p) ← takeByte p "q lambda source attribute"
    if attr ≠ 0 then fail s!"q lambda source has unsupported attribute {attr}"
    else do
      let (sourceLength, p) ← takeCount p "q lambda source"
      let (_, p) ← take p sourceLength "q lambda source"
      .ok (⟨100, 1, .Function⟩, p)

def primitiveAccepted (wireType opcode : UInt8) : Bool :=
  (wireType == 101 && (opcode == 0 || opcode == 255)) || (QOperator.fromWire wireType opcode).isSome

def parsePrimitive (p : Parser) (wireType : UInt8) : Exec (Parsed × Parser) := do
  let (opcode, p) ← takeByte p "q primitive opcode"
  if primitiveAccepted wireType opcode then .ok (⟨wireType.toNat, 1, .Function⟩, p)
  else fail s!"unsupported q primitive type {wireType} opcode {opcode}"

/-! ## Values with children

`parse` is `parse_value` at the levels below. -/

section Children

variable (parse : Nat → Parser → Exec (Parsed × Parser))

/-- `for _ in 0..count { self.parse_value(depth)? }`. -/
def parseMany (depth : Nat) : Nat → Parser → Exec (List Parsed × Parser)
  | 0, p => .ok ([], p)
  | count + 1, p => do
    let (first, p) ← parse depth p
    let (rest, p) ← parseMany depth count p
    .ok (first :: rest, p)

def parseGeneralList (p : Parser) (depth : Nat) : Exec (Parsed × Parser) := do
  let (_, p) ← takeAttribute p "q general list"
  let (count, p) ← takeCount p "q general list"
  if remaining p / 2 < count then
    fail s!"q general-list count {count} exceeds the remaining payload"
  else do
    let (_, p) ← parseMany parse (depth + 1) count p
    .ok (⟨0, count, .Sequence none⟩, p)

/-- The count of a dictionary and whether it is a keyed table. -/
def dictionaryShape (keys values : Parsed) : Exec (Nat × Bool) :=
  match keys.shape, values.shape with
  | .Table, .Table => do
    ensureMatchingCounts keys.len values.len "keyed-table row"
    .ok (keys.len, true)
  | .Table, _ => fail "q keyed-table dictionary must contain a table on both sides"
  | _, .Table => fail "q keyed-table dictionary must contain a table on both sides"
  | _, _ => do
    let keyCount ← Exec.okOr keys.sequenceLen
      (.DeserializationErr "q dictionary keys must be a list or table")
    let valueCount ← Exec.okOr values.sequenceLen
      (.DeserializationErr "q dictionary values must be a list or table")
    ensureMatchingCounts keyCount valueCount "dictionary key/value"
    .ok (keyCount, false)

def parseDictionary (p : Parser) (wireType : UInt8) (depth : Nat) : Exec (Parsed × Parser) := do
  let (keys, p) ← parse (depth + 1) p
  let (values, p) ← parse (depth + 1) p
  let (len, keyedTable) ← dictionaryShape keys values
  .ok (⟨wireType.toNat, len, .Dictionary keyedTable⟩, p)

/-- One column against the row count of the columns before it. -/
def checkColumn (rowCount : Option Nat) (column : Parsed) : Exec Nat := do
  let columnLen ← Exec.okOr column.sequenceLen
    (.DeserializationErr "q table columns must each be list values")
  match rowCount with
  | some expected => do
    ensureMatchingCounts expected columnLen "table column row"
    .ok expected
  | none => .ok columnLen

def parseColumns (depth : Nat) : Nat → Option Nat → Parser → Exec (Option Nat × Parser)
  | 0, rowCount, p => .ok (rowCount, p)
  | count + 1, rowCount, p => do
    let (column, p) ← parse depth p
    let rows ← checkColumn rowCount column
    parseColumns depth count (some rows) p

/-- The part of `parse_table` behind the column names. -/
def parseTableColumns (p : Parser) (depth nameCount : Nat) : Exec (Parsed × Parser) := do
  let p ← noteDepth p (depth + 2)
  let (columnsType, p) ← takeByte p "q table columns type"
  if columnsType ≠ 0 then
    fail s!"q table columns must be a general list, got type {columnsType}"
  else do
    let (_, p) ← takeAttribute p "q table column list"
    let (columnCount, p) ← takeCount p "q table column list"
    ensureMatchingCounts nameCount columnCount "table name/column"
    if remaining p / 6 < columnCount then
      fail s!"q table column count {columnCount} exceeds the remaining payload"
    else do
      let (rowCount, p) ← parseColumns parse (depth + 3) columnCount none p
      .ok (⟨98, rowCount.getD 0, .Table⟩, p)

def parseTable (p : Parser) (depth : Nat) : Exec (Parsed × Parser) := do
  let (_, p) ← takeAttribute p "q table"
  let p ← noteDepth p (depth + 1)
  let (dictionaryType, p) ← takeByte p "q table dictionary type"
  if dictionaryType ≠ 99 then
    fail s!"q table must contain a type-99 column dictionary, got type {dictionaryType}"
  else do
    let (names, p) ← parse (depth + 2) p
    if names.shape ≠ .Sequence (some 11) then fail "q table column names must be a symbol list"
    else parseTableColumns parse p depth names.len

def parseCountedFunction (p : Parser) (wireType : UInt8) (depth : Nat) :
    Exec (Parsed × Parser) := do
  let name := if wireType = 104 then "q projection" else "q composition"
  let (count, p) ← takeCount p name
  if remaining p / 2 < count then fail s!"{name} value count {count} exceeds the remaining payload"
  else do
    let (_, p) ← parseMany parse (depth + 1) count p
    .ok (⟨wireType.toNat, 1, .Function⟩, p)

def parseDerivedFunction (p : Parser) (wireType : UInt8) (depth : Nat) :
    Exec (Parsed × Parser) := do
  let (_, p) ← parse (depth + 1) p
  .ok (⟨wireType.toNat, 1, .Function⟩, p)

def parseServerError (p : Parser) : Exec (Parsed × Parser) := do
  let (message, _) ← takeUntilNul p "q error message"
  Exec.err (.ServerErr (Utf8.lossy message))

/-- The dispatch of `parse_value` on the type byte. -/
def parseBody (p : Parser) (wireType : UInt8) (depth : Nat) : Exec (Parsed × Parser) :=
  if 237 ≤ wireType then parseAtom p wireType
  else if wireType = 0 then parseGeneralList parse p depth
  else if wireType ≤ 19 then parseTypedList p wireType
  else if wireType = 98 then parseTable parse p depth
  else if wireType = 99 ∨ wireType = 127 then parseDictionary parse p wireType depth
  else if wireType = 100 then parseLambda p depth
  else if 101 ≤ wireType ∧ wireType ≤ 103 then parsePrimitive p wireType
  else if 104 ≤ wireType ∧ wireType ≤ 105 then parseCountedFunction parse p wireType depth
  else if 106 ≤ wireType ∧ wireType ≤ 111 then parseDerivedFunction parse p wireType depth
  else if 112 ≤ wireType ∧ wireType ≤ 126 then
    fail s!"unsupported q function type {wireType}: its layout is not accepted without a source-verified definition"
  else if wireType = 128 then parseServerError p
  else fail s!"unsupported q value type {wireType}"

end Children

def parseValue : Nat → Nat → Parser → Exec (Parsed × Parser)
  | 0, _, _ => Exec.panicked
  | fuel + 1, depth, p => do
    let p ← noteDepth p depth
    let (wireType, p) ← takeByte p "q value type"
    parseBody (parseValue fuel) p wireType depth

structure Metadata where
  typeCode : Int
  len : Nat
  isTable : Bool
  maxDepth : Nat
  deriving DecidableEq, Repr

/-- Fuel for the 65 levels `parse_value` can enter and the one it refuses. -/
def parseFuel : Nat := maxValueDepth + 2

def validate (bytes : Bytes) : Exec Metadata := do
  let (value, p) ← parseValue parseFuel 0 ⟨bytes, 0, 0⟩
  if p.position ≠ bytes.length then
    fail s!"q value has {bytes.length - p.position} trailing byte(s)"
  else
    .ok ⟨value.typeCode, value.len,
      value.shape == .Table || value.shape == .Dictionary true, p.maxDepth⟩

end Xqdb.QValue

namespace Xqdb

/-- A validated value body with what validation found out about it. The bytes are one
allocation, so their length is a `usize`. -/
structure QValue where
  bytes : Bytes
  metadata : QValue.Metadata
  validated : QValue.validate bytes = .ok metadata
  bounded : bytes.length ≤ usizeMax

namespace QValue

/-- `QValue::from_bytes` (and `from_owned_bytes`, which adopts the allocation). Allocation
succeeds for every length there is. -/
def fromBytes (bytes : Bytes) : Exec QValue :=
  match h : validate bytes with
  | .ok metadata =>
    if hlen : bytes.length ≤ usizeMax then .ok ⟨bytes, metadata, h, hlen⟩
    else fail s!"unable to allocate {bytes.length}-byte lossless q value"
  | .error e => .error e

theorem fromBytes_eq_ok {bytes : Bytes} {value : QValue} :
    fromBytes bytes = .ok value ↔ value.bytes = bytes := by
  constructor
  · intro h
    unfold fromBytes at h
    split at h
    · split at h
      · cases h
        rfl
      · cases h
    · cases h
  · rintro rfl
    unfold fromBytes
    split
    · next metadata h =>
      obtain ⟨bytes, metadata', h', hlen⟩ := value
      obtain rfl : metadata' = metadata := Except.ok.inj (h'.symm.trans h)
      rw [dif_pos hlen]
    · next e h => simp [value.validated] at h

theorem fromBytes_isOk {bytes : Bytes} :
    (∃ value, fromBytes bytes = .ok value) ↔
      (∃ metadata, validate bytes = .ok metadata) ∧ bytes.length ≤ usizeMax := by
  constructor
  · rintro ⟨value, h⟩
    rw [fromBytes_eq_ok] at h
    exact ⟨⟨value.metadata, h ▸ value.validated⟩, h ▸ value.bounded⟩
  · rintro ⟨⟨metadata, h⟩, hlen⟩
    exact ⟨⟨bytes, metadata, h, hlen⟩, fromBytes_eq_ok.mpr rfl⟩

end QValue
end Xqdb
