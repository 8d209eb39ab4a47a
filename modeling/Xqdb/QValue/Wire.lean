import Xqdb.QValue.Parser

/-! The language of value bodies as trees. `Wire.encode` writes a tree out,
`Wire.WF` says which trees are values and `Wire.depth` counts the levels the
parser counts: a dictionary has its two sides one level down, a table has its
columns three levels down and a lambda its source one. -/

namespace Xqdb.QValue

/-- The attribute byte and the count, in four or, with bit 7 set, eight bytes. -/
def listHeader (rawAttr : UInt8) (count : Nat) : Bytes :=
  rawAttr :: LittleEndian.encode (if rawAttr &&& 0x80 = 0 then 4 else 8) count

def HeaderOk (rawAttr : UInt8) (count : Nat) : Prop :=
  rawAttr &&& 0x7F ≤ 4 ∧ count < 2 ^ (if rawAttr &&& 0x80 = 0 then 31 else 63)

instance (rawAttr : UInt8) (count : Nat) : Decidable (HeaderOk rawAttr count) :=
  inferInstanceAs (Decidable (_ ∧ _))

/-- NUL-terminated texts. -/
def symbolBytes : List Bytes → Bytes
  | [] => []
  | text :: texts => text ++ 0 :: symbolBytes texts

inductive Wire where
  | atom (kind : UInt8) (payload : Bytes)
  | symbol (text : Bytes)
  | fixedList (elementType rawAttr : UInt8) (count : Nat) (payload : Bytes)
  | symbolList (rawAttr : UInt8) (texts : List Bytes)
  | generalList (attr : UInt8) (children : List Wire)
  | dictionary (wireType : UInt8) (keys values : Wire)
  | table (attr namesAttr : UInt8) (names : List Bytes) (columnsAttr : UInt8) (columns : List Wire)
  | lambda (context source : Bytes)
  | primitive (wireType opcode : UInt8)
  | counted (wireType : UInt8) (children : List Wire)
  | derived (wireType : UInt8) (child : Wire)

namespace Wire

/-- Induction over a tree and the trees in its lists. -/
theorem induct {motive : Wire → Prop}
    (atom : ∀ kind payload, motive (.atom kind payload))
    (symbol : ∀ text, motive (.symbol text))
    (fixedList : ∀ elementType rawAttr count payload,
      motive (.fixedList elementType rawAttr count payload))
    (symbolList : ∀ rawAttr texts, motive (.symbolList rawAttr texts))
    (generalList : ∀ attr children, (∀ child ∈ children, motive child) →
      motive (.generalList attr children))
    (dictionary : ∀ wireType keys values, motive keys → motive values →
      motive (.dictionary wireType keys values))
    (table : ∀ attr namesAttr names columnsAttr columns, (∀ column ∈ columns, motive column) →
      motive (.table attr namesAttr names columnsAttr columns))
    (lambda : ∀ context source, motive (.lambda context source))
    (primitive : ∀ wireType opcode, motive (.primitive wireType opcode))
    (counted : ∀ wireType children, (∀ child ∈ children, motive child) →
      motive (.counted wireType children))
    (derived : ∀ wireType child, motive child → motive (.derived wireType child)) :
    ∀ wire, motive wire := by
  intro wire
  refine @Wire.rec motive (fun wires => ∀ wire ∈ wires, motive wire) atom symbol fixedList symbolList
    generalList dictionary table lambda primitive counted derived ?_ ?_ wire
  · simp
  · intro head tail hhead htail wire hmem
    cases hmem with
    | head => exact hhead
    | tail _ hmem => exact htail wire hmem

mutual

def encode : Wire → Bytes
  | .atom kind payload => (0 - kind) :: payload
  | .symbol text => 245 :: (text ++ [0])
  | .fixedList elementType rawAttr count payload =>
    elementType :: (listHeader rawAttr count ++ payload)
  | .symbolList rawAttr texts => 11 :: (listHeader rawAttr texts.length ++ symbolBytes texts)
  | .generalList attr children =>
    0 :: attr :: (LittleEndian.encode 4 children.length ++ encodeAll children)
  | .dictionary wireType keys values => wireType :: (keys.encode ++ values.encode)
  | .table attr namesAttr names columnsAttr columns =>
    98 :: attr :: 99 :: 11 :: (listHeader namesAttr names.length ++ symbolBytes names ++
      0 :: columnsAttr :: (LittleEndian.encode 4 columns.length ++ encodeAll columns))
  | .lambda context source =>
    100 :: (context ++ 0 :: 10 :: 0 :: (LittleEndian.encode 4 source.length ++ source))
  | .primitive wireType opcode => [wireType, opcode]
  | .counted wireType children =>
    wireType :: (LittleEndian.encode 4 children.length ++ encodeAll children)
  | .derived wireType child => wireType :: child.encode

def encodeAll : List Wire → Bytes
  | [] => []
  | wire :: wires => wire.encode ++ encodeAll wires

end

mutual

/-- Levels below the value itself. -/
def depth : Wire → Nat
  | .atom _ _ => 0
  | .symbol _ => 0
  | .fixedList _ _ _ _ => 0
  | .symbolList _ _ => 0
  | .primitive _ _ => 0
  | .generalList _ children => levels children
  | .dictionary _ keys values => 1 + max keys.depth values.depth
  | .table _ _ _ _ columns => 2 + levels columns
  | .lambda _ _ => 1
  | .counted _ children => levels children
  | .derived _ child => 1 + child.depth

/-- Levels of values one level down. -/
def levels : List Wire → Nat
  | [] => 0
  | wire :: wires => max (1 + wire.depth) (levels wires)

end

mutual

/-- What the parser reports of a value. -/
def parsed : Wire → Parsed
  | .atom kind _ => ⟨-(kind.toNat : Int), 1, .Atom⟩
  | .symbol _ => ⟨-11, 1, .Atom⟩
  | .fixedList elementType _ count _ => ⟨elementType.toNat, count, .Sequence (some elementType)⟩
  | .symbolList _ texts => ⟨11, texts.length, .Sequence (some 11)⟩
  | .generalList _ children => ⟨0, children.length, .Sequence none⟩
  | .dictionary wireType keys _ =>
    ⟨wireType.toNat, keys.parsed.len, .Dictionary (keys.parsed.shape == .Table)⟩
  | .table _ _ _ _ columns => ⟨98, firstLen columns, .Table⟩
  | .lambda _ _ => ⟨100, 1, .Function⟩
  | .primitive wireType _ => ⟨wireType.toNat, 1, .Function⟩
  | .counted wireType _ => ⟨wireType.toNat, 1, .Function⟩
  | .derived wireType _ => ⟨wireType.toNat, 1, .Function⟩

def firstLen : List Wire → Nat
  | [] => 0
  | wire :: _ => wire.parsed.len

end

/-- The two sides of a dictionary fit: two tables or two lists, of one length. -/
def SidesOk (keys values : Parsed) : Prop :=
  keys.len = values.len ∧
    (keys.shape = .Table ∧ values.shape = .Table ∨
      keys.sequenceLen.isSome ∧ values.sequenceLen.isSome)

mutual

def WF : Wire → Prop
  | .atom kind payload =>
    1 ≤ kind ∧ kind ≤ 19 ∧ kind ≠ 3 ∧ kind ≠ 11 ∧ payload.length = typeSize kind ∧
      (kind = 1 → ∀ b ∈ payload, b ≤ 1)
  | .symbol text => 0 ∉ text
  | .fixedList elementType rawAttr count payload =>
    1 ≤ elementType ∧ elementType ≤ 19 ∧ elementType ≠ 3 ∧ elementType ≠ 11 ∧
      HeaderOk rawAttr count ∧ payload.length = count * typeSize elementType ∧
      (elementType = 1 → ∀ b ∈ payload, b ≤ 1)
  | .symbolList rawAttr texts => HeaderOk rawAttr texts.length ∧ ∀ text ∈ texts, 0 ∉ text
  | .generalList attr children => attr ≤ 4 ∧ children.length < 2 ^ 31 ∧ AllWF children
  | .dictionary wireType keys values =>
    (wireType = 99 ∨ wireType = 127) ∧ keys.WF ∧ values.WF ∧ SidesOk keys.parsed values.parsed
  | .table attr namesAttr names columnsAttr columns =>
    attr ≤ 4 ∧ HeaderOk namesAttr names.length ∧ (∀ text ∈ names, 0 ∉ text) ∧ columnsAttr ≤ 4 ∧
      names.length = columns.length ∧ columns.length < 2 ^ 31 ∧ AllWF columns ∧
      ∀ column ∈ columns, column.parsed.sequenceLen = some (firstLen columns)
  | .lambda context source => 0 ∉ context ∧ source.length < 2 ^ 31
  | .primitive wireType opcode =>
    101 ≤ wireType ∧ wireType ≤ 103 ∧ primitiveAccepted wireType opcode = true
  | .counted wireType children =>
    104 ≤ wireType ∧ wireType ≤ 105 ∧ children.length < 2 ^ 31 ∧ AllWF children
  | .derived wireType child => 106 ≤ wireType ∧ wireType ≤ 111 ∧ child.WF

def AllWF : List Wire → Prop
  | [] => True
  | wire :: wires => wire.WF ∧ AllWF wires

end

section

-- the equations, generated here once and not by every proof that unfolds them
attribute [local simp] encode encodeAll depth levels parsed firstLen WF AllWF

end

theorem allWF_iff {wires : List Wire} : AllWF wires ↔ ∀ wire ∈ wires, wire.WF := by
  induction wires with
  | nil => simp [AllWF]
  | cons wire wires ih => simp [AllWF, ih]

/-- A fact about the bytes of a range, checked one by one. -/
theorem byte_in_range {P : UInt8 → Prop} (low high : Nat)
    (h : ∀ n < high, low ≤ n → P (UInt8.ofNat n)) {b : UInt8} (h₁ : low ≤ b.toNat)
    (h₂ : b.toNat < high) : P b := by
  have hb := h b.toNat h₂ h₁
  rwa [UInt8.ofNat_toNat] at hb

theorem typeSize_pos {kind : UInt8} (h₁ : 1 ≤ kind) (h₂ : kind ≤ 19) (h₃ : kind ≠ 3)
    (h₄ : kind ≠ 11) : 1 ≤ typeSize kind := by
  have htable : ∀ n < 20, 1 ≤ n → n ≠ 3 → n ≠ 11 → 1 ≤ kTypeSize.getD n 0 := by decide
  rw [UInt8.le_iff_toNat_le] at h₁ h₂
  apply htable
  · have : (19 : UInt8).toNat = 19 := rfl
    omega
  · exact h₁
  · exact fun h => h₃ (UInt8.toNat_inj.mp h)
  · exact fun h => h₄ (UInt8.toNat_inj.mp h)

/-- No value is shorter than two bytes. -/
theorem two_le_encode {wire : Wire} (h : wire.WF) : 2 ≤ wire.encode.length := by
  induction wire using Wire.induct with
  | atom kind payload =>
    obtain ⟨h₁, h₂, h₃, h₄, h₅, -⟩ := h
    have := typeSize_pos h₁ h₂ h₃ h₄
    simp only [encode, List.length_cons]
    omega
  | symbol text => simp [encode]
  | fixedList elementType rawAttr count payload => simp [encode, listHeader]
  | symbolList rawAttr texts => simp [encode, listHeader]
  | generalList attr children ih => simp [encode]
  | dictionary wireType keys values ihk ihv =>
    have := ihk h.2.1
    simp [encode]
    omega
  | table attr namesAttr names columnsAttr columns ih => simp [encode]
  | lambda context source => simp [encode]; omega
  | primitive wireType opcode => simp [encode]
  | counted wireType children ih => simp [encode]; omega
  | derived wireType child ih =>
    have := ih h.2.2
    simp [encode]
    omega

/-- A list value has at least its type, attribute and count. -/
theorem six_le_encode {wire : Wire} {len : Nat} (h : wire.parsed.sequenceLen = some len) :
    6 ≤ wire.encode.length := by
  cases wire with
  | fixedList elementType rawAttr count payload =>
    simp only [encode, listHeader, List.length_cons, List.length_append, LittleEndian.encode_length]
    split <;> omega
  | symbolList rawAttr texts =>
    simp only [encode, listHeader, List.length_cons, List.length_append, LittleEndian.encode_length]
    split <;> omega
  | generalList attr children => simp [encode]
  | _ => simp [parsed, Parsed.sequenceLen] at h

theorem length_le_encodeAll {wires : List Wire} {size : Nat}
    (h : ∀ wire ∈ wires, size ≤ wire.encode.length) :
    wires.length * size ≤ (encodeAll wires).length := by
  induction wires with
  | nil => simp
  | cons wire wires ih =>
    have hhead := h wire (by simp)
    have htail := ih fun w hw => h w (by simp [hw])
    simp only [List.length_cons, encodeAll, List.length_append, Nat.add_one_mul]
    omega

theorem levels_le {wires : List Wire} {wire : Wire} (h : wire ∈ wires) :
    1 + wire.depth ≤ levels wires := by
  induction wires with
  | nil => cases h
  | cons head tail ih =>
    simp only [levels]
    cases h with
    | head => omega
    | tail _ h =>
      have := ih h
      omega

end Wire
end Xqdb.QValue
