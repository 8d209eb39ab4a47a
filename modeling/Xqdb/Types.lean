import Xqdb.Errors
import Xqdb.Lib.Utf8

/-! The value vocabulary of `types.rs` below `K`: text, message kinds, symbol
encodings, primitive operators and lambdas. A value that only a checking
constructor of the source can build carries the check as a field. -/

namespace Xqdb

/-- A Rust `String`: bytes that are valid UTF-8. -/
structure Str where
  bytes : Bytes
  valid : Utf8.Valid bytes
  deriving DecidableEq

namespace Str

theorem ext_bytes {s t : Str} (h : s.bytes = t.bytes) : s = t := by
  cases s
  cases t
  cases h
  rfl

/-- `std::str::from_utf8`. -/
def fromUtf8 (bytes : Bytes) : Option Str :=
  if h : Utf8.Valid bytes then some ⟨bytes, h⟩ else none

def empty : Str := ⟨[], Utf8.valid_nil⟩

@[simp] theorem fromUtf8_bytes (s : Str) : fromUtf8 s.bytes = some s := by
  simp [fromUtf8, s.valid]

theorem fromUtf8_eq_some {bytes : Bytes} {s : Str} :
    fromUtf8 bytes = some s ↔ s.bytes = bytes := by
  constructor
  · intro h
    unfold fromUtf8 at h
    split at h
    · cases h
      rfl
    · cases h
  · rintro rfl
    exact fromUtf8_bytes s

theorem fromUtf8_eq_none {bytes : Bytes} : fromUtf8 bytes = none ↔ ¬ Utf8.Valid bytes := by
  unfold fromUtf8
  split <;> simp_all

end Str

/-- Bytes per element of each q type; 0 for the general list, symbols and the reserved type 3. -/
def kTypeSize : List Nat :=
  [0, 1, 16, 0, 1, 2, 4, 8, 4, 8, 1, 0, 8, 4, 4, 8, 8, 4, 4, 4]

/-- `K_TYPE_SIZE[k_type as usize]` for a type that is known to be in the table. -/
def typeSize (kType : UInt8) : Nat := kTypeSize.getD kType.toNat 0

def maxValueDepth : Nat := 64

inductive MsgType where
  | Async
  | Sync
  | Response
  deriving DecidableEq, Repr

def MsgType.toByte : MsgType → UInt8
  | .Async => 0
  | .Sync => 1
  | .Response => 2

inductive SymbolEncoding where
  | Strict
  | Lossy
  deriving DecidableEq, Repr

/-! ## Primitive operators -/

def qUnaryPrimitives : List String :=
  ["", "+:", "-:", "*:", "%:", "&:", "|:", "^:", "=:", "<:", ">:", "$:", ",:", "#:", "_:", "~:",
   "!:", "?:", "@:", ".:", "0::", "1::", "2::", "avg", "last", "sum", "prd", "min", "max", "exit",
   "getenv", "abs", "sqrt", "log", "exp", "sin", "asin", "cos", "acos", "tan", "atan", "enlist"]

def qBinaryPrimitives : List String :=
  [":", "+", "-", "*", "%", "&", "|", "^", "=", "<", ">", "$", ",", "#", "_", "~", "!", "?", "@",
   ".", "0:", "1:", "2:", "in", "within", "like", "bin", "ss", "insert", "wsum", "wavg", "div",
   "xexp", "setenv"]

def qTernaryPrimitives : List String := ["'", "/", "\\"]

/-- The table of one function type. -/
def primitives (kType : UInt8) : Option (List String) :=
  if kType = 101 then some qUnaryPrimitives
  else if kType = 102 then some qBinaryPrimitives
  else if kType = 103 then some qTernaryPrimitives
  else none

/-- The name a type and opcode stand for; the identity entry has none. -/
def primitiveName (kType opcode : UInt8) : Option String :=
  (primitives kType).bind fun names =>
    names[opcode.toNat]?.bind fun name => if name = "" then none else some name

structure QOperator where
  name : String
  kType : UInt8
  opcode : UInt8
  named : primitiveName kType opcode = some name
  deriving DecidableEq

namespace QOperator

def fromWire (kType opcode : UInt8) : Option QOperator :=
  match h : primitiveName kType opcode with
  | some name => some ⟨name, kType, opcode, h⟩
  | none => none

def wireValue (operator : QOperator) : UInt8 × UInt8 := (operator.kType, operator.opcode)

theorem fromWire_wireValue (operator : QOperator) :
    fromWire operator.kType operator.opcode = some operator := by
  obtain ⟨name, kType, opcode, named⟩ := operator
  unfold fromWire
  split
  · next name' h =>
    obtain rfl : name' = name := by simpa [named] using h.symm
    rfl
  · next h => simp [named] at h

/-- Operators live in the three function types below the lambda's neighbours. -/
theorem kType_cases (operator : QOperator) :
    operator.kType = 101 ∨ operator.kType = 102 ∨ operator.kType = 103 := by
  have h := operator.named
  unfold primitiveName primitives at h
  by_cases h₁ : operator.kType = 101
  · exact .inl h₁
  · by_cases h₂ : operator.kType = 102
    · exact .inr (.inl h₂)
    · by_cases h₃ : operator.kType = 103
      · exact .inr (.inr h₃)
      · simp [h₁, h₂, h₃] at h

theorem ne_identity (operator : QOperator) : ¬ (operator.kType = 101 ∧ operator.opcode = 0) := by
  rintro ⟨h₁, h₂⟩
  have h := operator.named
  have hnone : primitiveName 101 0 = none := by decide
  rw [h₁, h₂, hnone] at h
  cases h

end QOperator

/-! ## Lambdas -/

/-- The octets of every character with the Unicode property `White_Space`. -/
def whitespace : List Bytes :=
  [[0x09], [0x0A], [0x0B], [0x0C], [0x0D], [0x20], [0xC2, 0x85], [0xC2, 0xA0], [0xE1, 0x9A, 0x80],
   [0xE2, 0x80, 0x80], [0xE2, 0x80, 0x81], [0xE2, 0x80, 0x82], [0xE2, 0x80, 0x83],
   [0xE2, 0x80, 0x84], [0xE2, 0x80, 0x85], [0xE2, 0x80, 0x86], [0xE2, 0x80, 0x87],
   [0xE2, 0x80, 0x88], [0xE2, 0x80, 0x89], [0xE2, 0x80, 0x8A], [0xE2, 0x80, 0xA8],
   [0xE2, 0x80, 0xA9], [0xE2, 0x80, 0xAF], [0xE2, 0x81, 0x9F], [0xE3, 0x80, 0x80]]

/-- The text behind one leading character out of `chars`, if there is one. -/
def dropChar (chars : List Bytes) (text : Bytes) : Option Bytes :=
  (chars.find? fun c => c.isPrefixOf text).map fun c => text.drop c.length

/-- Drops leading characters out of `chars`; `fuel` is the length of the text. -/
def trimChars (chars : List Bytes) : Nat → Bytes → Bytes
  | 0, text => text
  | fuel + 1, text =>
    match dropChar chars text with
    | some rest => trimChars chars fuel rest
    | none => text

def trimStart (text : Bytes) : Bytes := trimChars whitespace text.length text

/-- The same from the other end: in valid UTF-8 a character can be read backwards. -/
def trimEnd (text : Bytes) : Bytes :=
  (trimChars (whitespace.map List.reverse) text.length text.reverse).reverse

/-- `str::trim`. -/
def trim (text : Bytes) : Bytes := trimEnd (trimStart text)

/-- `text.strip_prefix("k)").unwrap_or(text)`. -/
def stripK (text : Bytes) : Bytes :=
  if [0x6B, 0x29].isPrefixOf text then text.drop 2 else text

/-- The checks of `QLambda::with_context`, in its order. -/
def QLambda.check (source context : Bytes) : Except XqdbError Unit :=
  if 0 ∈ source then .error (.NotAbleToSerializeErr "q lambda source cannot contain NUL bytes")
  else if 0 ∈ context then
    .error (.NotAbleToSerializeErr "q lambda context cannot contain NUL bytes")
  else if context.head? = some 0x2E then
    .error (.NotAbleToSerializeErr "q lambda context omits the leading dot")
  else if (stripK (trim source)).head? = some 0x7B ∧ (stripK (trim source)).getLast? = some 0x7D then
    .ok ()
  else .error (.NotAbleToSerializeErr "q lambda source must be brace-delimited")

structure QLambda where
  source : Str
  context : Str
  checked : QLambda.check source.bytes context.bytes = .ok ()

namespace QLambda

instance : DecidableEq QLambda := fun a b =>
  decidable_of_iff (a.source = b.source ∧ a.context = b.context) <| by
    cases a
    cases b
    simp

def withContext (source context : Str) : Except XqdbError QLambda :=
  match h : check source.bytes context.bytes with
  | .ok () => .ok ⟨source, context, h⟩
  | .error e => .error e

theorem withContext_parts (lambda : QLambda) :
    withContext lambda.source lambda.context = .ok lambda := by
  unfold withContext
  split
  · rfl
  · next e h => simp [lambda.checked] at h

theorem zero_notMem_source (lambda : QLambda) : 0 ∉ lambda.source.bytes := by
  intro hmem
  have h := lambda.checked
  simp [check, hmem] at h

theorem zero_notMem_context (lambda : QLambda) : 0 ∉ lambda.context.bytes := by
  intro hmem
  have h := lambda.checked
  simp only [check, zero_notMem_source lambda, hmem, if_false, if_true] at h
  cases h

end QLambda

/-- `validate_q_symbol`. -/
def validateQSymbol (value : Bytes) : Exec Unit :=
  if 0 ∈ value then Exec.err (.NotAbleToSerializeErr "q symbols cannot contain NUL bytes")
  else .ok ()

theorem validateQSymbol_eq_ok {value : Bytes} {u : Unit} :
    validateQSymbol value = .ok u ↔ 0 ∉ value := by
  unfold validateQSymbol
  split <;> simp_all

theorem validateQSymbol_of_notMem {value : Bytes} (h : 0 ∉ value) : validateQSymbol value = .ok () :=
  validateQSymbol_eq_ok.mpr h

end Xqdb
