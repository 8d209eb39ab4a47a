import Xqdb.Native.Values
import Xqdb.QValue.Unambiguous

/-! The two decoders of one body side by side. A native tree whose skipped bytes are what the
format says is also a tree of the lossless grammar; and a lossless tree whose counts all stand in
four bytes is read alike by both. -/

namespace Xqdb

open QValue (Wire symbolBytes listHeader HeaderOk)

/-! ## Outlines -/

/-- The type, the count and the span of a value, and those of its children. -/
inductive Outline where
  | node (typeCode : Int) (len start stop : Nat) (children : List Outline)

namespace Outline

def stop : Outline → Nat
  | node _ _ _ stop _ => stop

def len : Outline → Nat
  | node _ len _ _ _ => len

def children : Outline → List Outline
  | node _ _ _ _ children => children

/-- The outlines of values that stand one behind the other. -/
def placed {α : Type} (outline : α → Nat → Outline) (encode : α → Bytes) : List α → Nat → List Outline
  | [], _ => []
  | item :: items, start => outline item start :: placed outline encode items (start + (encode item).length)

end Outline

namespace QValue.Wire

def node (wire : Wire) (start : Nat) (children : List Outline) : Outline :=
  .node wire.parsed.typeCode wire.parsed.len start (start + wire.encode.length) children

mutual

/-- The children of general lists, dictionaries and tables; of a table its names and columns. -/
def outline : Wire → Nat → Outline
  | .generalList attr children, start =>
    node (.generalList attr children) start (outlineAll children (start + 6))
  | .dictionary wireType keys values, start =>
    node (.dictionary wireType keys values) start
      [keys.outline (start + 1), values.outline (start + 1 + keys.encode.length)]
  | .table attr namesAttr names columnsAttr columns, start =>
    node (.table attr namesAttr names columnsAttr columns) start
      (node (.symbolList namesAttr names) (start + 3) [] ::
        outlineAll columns (start + 3 + (Wire.symbolList namesAttr names).encode.length + 6))
  | wire, start => wire.node start []

def outlineAll : List Wire → Nat → List Outline
  | [], _ => []
  | wire :: wires, start => wire.outline start :: outlineAll wires (start + wire.encode.length)

end

theorem outline_stop (wire : Wire) (start : Nat) : (wire.outline start).stop = start + wire.encode.length := by
  cases wire <;> rfl

theorem outline_len (wire : Wire) (start : Nat) : (wire.outline start).len = wire.parsed.len := by
  cases wire <;> rfl

mutual

/-- Every list count stands in four bytes. -/
def FourByteCounts : Wire → Prop
  | .fixedList _ rawAttr _ _ => rawAttr &&& 0x80 = 0
  | .symbolList rawAttr _ => rawAttr &&& 0x80 = 0
  | .generalList _ children => AllFourByteCounts children
  | .dictionary _ keys values => keys.FourByteCounts ∧ values.FourByteCounts
  | .table _ namesAttr _ _ columns => namesAttr &&& 0x80 = 0 ∧ AllFourByteCounts columns
  | .counted _ children => AllFourByteCounts children
  | .derived _ child => child.FourByteCounts
  | _ => True

def AllFourByteCounts : List Wire → Prop
  | [] => True
  | wire :: wires => wire.FourByteCounts ∧ AllFourByteCounts wires

end

end QValue.Wire

namespace NestedRow

def outline (row : NestedRow) (start : Nat) : Outline :=
  .node row.kType.toNat row.count start (start + row.encode.length) []

def toWire : NestedRow → Wire
  | .empty attr => .generalList attr []
  | .symbols attr texts => .symbolList attr texts
  | .fixed kType attr count payload => .fixedList kType attr count payload

theorem encodeAll_eq (rows : List NestedRow) : encodeAll rows = rows.flatMap encode := by
  induction rows with
  | nil => rfl
  | cons row rows ih => rw [encodeAll, List.flatMap_cons, ih]

end NestedRow

namespace NativeList

def outline (list : NativeList) (start : Nat) : Outline :=
  .node list.kType.toNat list.count start (start + list.encode.length)
    (match list with
    | .nested _ rows => Outline.placed NestedRow.outline NestedRow.encode rows (start + 6)
    | _ => [])

def toWire : NativeList → Wire
  | .fixed kType attr count payload => .fixedList kType attr count payload
  | .symbols attr texts => .symbolList attr texts
  | .nested attr rows => .generalList attr (rows.map NestedRow.toWire)

/-- The attributes are attributes. -/
def Consistent (list : NativeList) : Prop :=
  list.attr ≤ 4 ∧ match list with
    | .nested _ rows => ∀ row ∈ rows, row.attr ≤ 4
    | _ => True

end NativeList

namespace Native

def typeCode : Native → Int
  | .atom kType _ => kType.toNat - 256
  | .symbol _ => -11
  | .uniform list => list.kType.toNat
  | .mixed _ _ => 0
  | .keyedTable _ _ => 99
  | .dictionary _ _ => 99
  | .table _ _ _ _ _ => 98
  | .lambda _ _ => 100
  | .primitive kType _ => kType.toNat

def node (tree : Native) (start : Nat) (children : List Outline) : Outline :=
  .node tree.typeCode tree.count start (start + tree.encode.length) children

mutual

def outline : Native → Nat → Outline
  | .uniform list, start => list.outline start
  | .mixed attr members, start => node (.mixed attr members) start (outlineAll members (start + 6))
  | .keyedTable keys values, start =>
    node (.keyedTable keys values) start
      [keys.outline (start + 1), values.outline (start + 1 + keys.encode.length)]
  | .dictionary keys values, start =>
    node (.dictionary keys values) start
      [keys.outline (start + 1), values.outline (start + 1 + keys.encode.length)]
  | .table preamble namesAttr names gap columns, start =>
    node (.table preamble namesAttr names gap columns) start
      ((NativeList.symbols namesAttr names).outline (start + 3) ::
        Outline.placed NativeList.outline NativeList.encode columns
          (start + 3 + (NativeList.symbols namesAttr names).encode.length + 6))
  | tree, start => tree.node start []

def outlineAll : List Native → Nat → List Outline
  | [], _ => []
  | tree :: trees, start => tree.outline start :: outlineAll trees (start + tree.encode.length)

end

theorem outlineAll_eq (trees : List Native) (start : Nat) :
    outlineAll trees start = Outline.placed outline encode trees start := by
  induction trees generalizing start with
  | nil => rfl
  | cons tree trees ih => rw [outlineAll, Outline.placed, ih]

mutual

/-- The bytes that are stepped over are what the format says: attributes are attributes, a table
has its fixed types and the count of its columns, and only a plain table stands behind the keys
of a keyed table. -/
def Consistent : Native → Prop
  | .uniform list => list.Consistent
  | .mixed attr members => attr ≤ 4 ∧ AllConsistent members
  | .keyedTable keys values => keys.Consistent ∧ values.Consistent ∧
      ∃ preamble namesAttr names gap columns, values = .table preamble namesAttr names gap columns
  | .dictionary keys values => keys.Consistent ∧ values.Consistent
  | .table preamble namesAttr _ gap columns =>
    (∃ attr : UInt8, attr ≤ 4 ∧ preamble = [attr, 99, 11]) ∧ namesAttr ≤ 4 ∧
      (∃ attr : UInt8, attr ≤ 4 ∧ gap = 0 :: attr :: LittleEndian.encode 4 columns.length) ∧
      ∀ column ∈ columns, column.Consistent
  | _ => True

def AllConsistent : List Native → Prop
  | [] => True
  | tree :: trees => tree.Consistent ∧ AllConsistent trees

end

theorem allConsistent_iff {trees : List Native} :
    AllConsistent trees ↔ ∀ tree ∈ trees, tree.Consistent := by
  induction trees with
  | nil => simp [AllConsistent]
  | cons tree trees ih => simp [AllConsistent, ih]

mutual

/-- The tree in the lossless grammar. -/
def toWire : Native → Wire
  | .atom kType payload => .atom (0 - kType) payload
  | .symbol text => .symbol text
  | .uniform list => list.toWire
  | .mixed attr members => .generalList attr (toWires members)
  | .keyedTable keys values => .dictionary 99 keys.toWire values.toWire
  | .dictionary keys values => .dictionary 99 keys.toWire values.toWire
  | .table preamble namesAttr names gap columns =>
    .table (preamble.getD 0 0) namesAttr names (gap.getD 1 0) (columns.map NativeList.toWire)
  | .lambda context source => .lambda context source
  | .primitive kType opcode => .primitive kType opcode

def toWires : List Native → List Wire
  | [] => []
  | tree :: trees => tree.toWire :: toWires trees

end

theorem toWires_eq (trees : List Native) : toWires trees = trees.map toWire := by
  induction trees with
  | nil => rfl
  | cons tree trees ih => rw [toWires, List.map_cons, ih]

end Native

/-! ## Consistent trees are trees of the lossless grammar -/

/-- A tree of the lossless grammar for bytes that have an outline. -/
structure IsWireOf (wire : Wire) (bytes : Bytes) (outline : Nat → Outline) : Prop where
  wf : wire.WF
  bytes_eq : wire.encode = bytes
  outline_eq : ∀ start, wire.outline start = outline start

theorem IsWireOf.len {wire : Wire} {bytes : Bytes} {outline : Nat → Outline} (h : IsWireOf wire bytes outline) :
    wire.parsed.len = (outline 0).len := by
  rw [← Wire.outline_len wire 0, h.outline_eq]

theorem attr_short {attr : UInt8} (h : attr ≤ 4) : attr &&& 0x80 = 0 ∧ attr &&& 0x7F ≤ 4 :=
  Wire.byte_in_range (P := fun b => b &&& 0x80 = 0 ∧ b &&& 0x7F ≤ 4) 0 5 (by decide) (Nat.zero_le _)
    (Nat.lt_succ_of_le (UInt8.le_iff_toNat_le.mp h))

theorem attr_of_short {attr : UInt8} (hshort : attr &&& 0x80 = 0) (h : attr &&& 0x7F ≤ 4) : attr ≤ 4 :=
  Wire.byte_in_range (P := fun b => b &&& 0x80 = 0 → b &&& 0x7F ≤ 4 → b ≤ 4) 0 256 (by decide +kernel)
    (Nat.zero_le _) attr.toNat_lt hshort h

theorem listHeader_short {attr : UInt8} (h : attr &&& 0x80 = 0) (count : Nat) :
    listHeader attr count = attr :: LittleEndian.encode 4 count := by
  rw [listHeader, if_pos h]

theorem headerOk_short {attr : UInt8} (h : attr ≤ 4) {count : Nat} (hcount : count ≤ i32Max) :
    HeaderOk attr count := by
  have hi32 : i32Max = 2 ^ 31 - 1 := rfl
  refine ⟨(attr_short h).2, ?_⟩
  rw [if_pos (attr_short h).1]
  omega

theorem nestedTypes_listed {kType : UInt8} (h : kType ∈ nestedTypes) : 1 ≤ kType ∧ kType ≤ 19 ∧ kType ≠ 3 := by
  have hall : nestedTypes.all (fun kType => 1 ≤ kType ∧ kType ≤ 19 ∧ kType ≠ 3) = true := by decide
  exact of_decide_eq_true (List.all_eq_true.mp hall kType h)

section Writing

variable {attr : UInt8}

theorem fixedList_isWireOf {kType : UInt8} {count : Nat} {payload : Bytes} (hattr : attr ≤ 4) (hlow : 1 ≤ kType)
    (hhigh : kType ≤ 19) (hthree : kType ≠ 3) (heleven : kType ≠ 11) (hcount : count ≤ i32Max)
    (hlength : payload.length = count * typeSize kType) (hbooleans : kType = 1 → ∀ b ∈ payload, b ≤ 1) :
    IsWireOf (.fixedList kType attr count payload) (kType :: attr :: (LittleEndian.encode 4 count ++ payload))
      fun start => .node kType.toNat count start
        (start + (kType :: attr :: (LittleEndian.encode 4 count ++ payload)).length) [] := by
  have hbytes : (Wire.fixedList kType attr count payload).encode =
      kType :: attr :: (LittleEndian.encode 4 count ++ payload) := by
    rw [Wire.encode, listHeader_short (attr_short hattr).1, List.cons_append]
  refine ⟨⟨hlow, hhigh, hthree, heleven, headerOk_short hattr hcount, hlength, hbooleans⟩, hbytes, fun start => ?_⟩
  rw [← hbytes]
  rfl

theorem symbolList_isWireOf {texts : List Bytes} (hattr : attr ≤ 4) (hcount : texts.length ≤ i32Max)
    (hclean : ∀ text ∈ texts, 0 ∉ text) :
    IsWireOf (.symbolList attr texts) (11 :: attr :: (LittleEndian.encode 4 texts.length ++ symbolBytes texts))
      fun start => .node 11 texts.length start
        (start + (11 :: attr :: (LittleEndian.encode 4 texts.length ++ symbolBytes texts)).length) [] := by
  have hbytes : (Wire.symbolList attr texts).encode =
      11 :: attr :: (LittleEndian.encode 4 texts.length ++ symbolBytes texts) := by
    rw [Wire.encode, listHeader_short (attr_short hattr).1, List.cons_append]
  refine ⟨⟨headerOk_short hattr hcount, hclean⟩, hbytes, fun start => ?_⟩
  rw [← hbytes]
  rfl

variable {α : Type} {toWire : α → Wire} {encode : α → Bytes} {outline : α → Nat → Outline} {items : List α}

/-- Values one behind the other. -/
theorem placed_isWireOf (h : ∀ item ∈ items, IsWireOf (toWire item) (encode item) (outline item)) :
    Wire.AllWF (items.map toWire) ∧ Wire.encodeAll (items.map toWire) = items.flatMap encode ∧
      ∀ start, Wire.outlineAll (items.map toWire) start = Outline.placed outline encode items start := by
  induction items with
  | nil => exact ⟨trivial, rfl, fun _ => rfl⟩
  | cons item items ih =>
    obtain ⟨hwf, hbytes, houtline⟩ := h item (by simp)
    obtain ⟨hwfs, hall, houtlines⟩ := ih fun other hother => h other (by simp [hother])
    refine ⟨⟨hwf, hwfs⟩, ?_, fun start => ?_⟩
    · rw [List.map_cons, Wire.encodeAll, hbytes, hall, List.flatMap_cons]
    · rw [List.map_cons, Wire.outlineAll, houtline, houtlines, hbytes, Outline.placed]

theorem generalList_isWireOf (hattr : attr ≤ 4) (hcount : items.length ≤ i32Max)
    (h : ∀ item ∈ items, IsWireOf (toWire item) (encode item) (outline item)) :
    IsWireOf (.generalList attr (items.map toWire))
      (0 :: attr :: (LittleEndian.encode 4 items.length ++ items.flatMap encode))
      fun start => .node 0 items.length start
        (start + (0 :: attr :: (LittleEndian.encode 4 items.length ++ items.flatMap encode)).length)
        (Outline.placed outline encode items (start + 6)) := by
  have hi32 : i32Max = 2 ^ 31 - 1 := rfl
  obtain ⟨hwfs, hall, houtlines⟩ := placed_isWireOf h
  have hbytes : (Wire.generalList attr (items.map toWire)).encode =
      0 :: attr :: (LittleEndian.encode 4 items.length ++ items.flatMap encode) := by
    rw [Wire.encode, List.length_map, hall]
  refine ⟨⟨hattr, ?_, hwfs⟩, hbytes, fun start => ?_⟩
  · rw [List.length_map]
    omega
  · rw [Wire.outline, Wire.node, houtlines, hbytes, Wire.parsed, List.length_map]

end Writing

theorem NestedRow.isWireOf {row : NestedRow} (hwf : row.WF) (hbooleans : row.BooleansOk) (hattr : row.attr ≤ 4) :
    IsWireOf row.toWire row.encode row.outline := by
  cases row with
  | empty attr =>
    exact @generalList_isWireOf attr NestedRow toWire encode outline [] hattr (by decide) (by simp)
  | symbols attr texts => exact symbolList_isWireOf hattr hwf.1 hwf.2
  | fixed kType attr count payload =>
    obtain ⟨hlow, hhigh, hthree⟩ := nestedTypes_listed hwf.1
    exact fixedList_isWireOf hattr hlow hhigh hthree hwf.2.1 hwf.2.2.1 hwf.2.2.2 hbooleans

theorem rowsFit_wf {rows : List NestedRow} (h : NativeList.RowsFit rows) : ∀ row ∈ rows, row.WF := by
  cases rows with
  | nil => simp
  | cons row rows => exact fun other hother => (h.2 other hother).1

theorem NativeList.isWireOf {list : NativeList} (hwf : list.WF) (hbooleans : list.BooleansOk)
    (hconsistent : list.Consistent) : IsWireOf list.toWire list.encode list.outline := by
  obtain ⟨hattr, hrows⟩ := hconsistent
  cases list with
  | fixed kType attr count payload =>
    obtain ⟨hlow, hhigh, heleven, hsize, hcount, hlength⟩ := hwf
    have hthree : kType ≠ 3 := by
      rintro rfl
      exact absurd hsize (by decide)
    exact fixedList_isWireOf hattr hlow hhigh hthree heleven hcount hlength hbooleans
  | symbols attr texts => exact symbolList_isWireOf hattr hwf.1 hwf.2
  | nested attr rows =>
    have hall : ∀ row ∈ rows, IsWireOf row.toWire row.encode row.outline := fun row hrow =>
      NestedRow.isWireOf (rowsFit_wf hwf.2 row hrow) (hbooleans row hrow) (hrows row hrow)
    have hlist := generalList_isWireOf hattr hwf.1 hall
    rw [← NestedRow.encodeAll_eq] at hlist
    exact hlist

theorem NativeList.toWire_sequenceLen {list : NativeList} :
    list.toWire.parsed.sequenceLen = some list.count := by
  cases list with
  | fixed kType attr count payload => rfl
  | symbols attr texts => rfl
  | nested attr rows => simp [toWire, Wire.parsed, QValue.Parsed.sequenceLen, count]

namespace Native

theorem atom_isWireOf {kType : UInt8} {payload : Bytes} (hwf : (Native.atom kType payload).WF) :
    IsWireOf (.atom (0 - kType) payload) (kType :: payload) (outline (.atom kType payload)) := by
  obtain ⟨hlow, hsymbol, hthree, hlength, hbooleans⟩ := hwf
  have hkind : 1 ≤ 0 - kType ∧ 0 - kType ≤ 19 ∧ (kType ≠ 253 → 0 - kType ≠ 3) ∧
      (kType ≠ 245 → 0 - kType ≠ 11) ∧ (0 - kType = 1 → kType = 255) ∧
      -((0 - kType).toNat : Int) = kType.toNat - 256 :=
    Wire.byte_in_range (P := fun b => 1 ≤ 0 - b ∧ 0 - b ≤ 19 ∧ (b ≠ 253 → 0 - b ≠ 3) ∧
      (b ≠ 245 → 0 - b ≠ 11) ∧ (0 - b = 1 → b = 255) ∧ -((0 - b).toNat : Int) = b.toNat - 256) 237 256
      (by decide +kernel) (UInt8.le_iff_toNat_le.mp hlow) kType.toNat_lt
  obtain ⟨h₁, h₂, h₃, h₄, h₅, htype⟩ := hkind
  have hbytes : (Wire.atom (0 - kType) payload).encode = kType :: payload := by
    rw [Wire.encode, QValue.zero_sub_zero_sub]
  refine ⟨⟨h₁, h₂, h₃ hthree, h₄ hsymbol, hlength, fun hbool => hbooleans (h₅ hbool)⟩, hbytes, fun start => ?_⟩
  rw [Wire.outline, Wire.node, hbytes, Wire.parsed, htype]
  · rfl
  all_goals simp

/-- Two sides behind a type byte. -/
theorem dictionary_isWireOf {keys values : Wire} {keyBytes valueBytes : Bytes} {keyOutline valueOutline : Nat → Outline}
    (hkeys : IsWireOf keys keyBytes keyOutline) (hvalues : IsWireOf values valueBytes valueOutline)
    (hsides : QValue.Wire.SidesOk keys.parsed values.parsed) :
    IsWireOf (.dictionary 99 keys values) (99 :: (keyBytes ++ valueBytes)) fun start =>
      .node 99 (keyOutline 0).len start (start + (99 :: (keyBytes ++ valueBytes)).length)
        [keyOutline (start + 1), valueOutline (start + 1 + keyBytes.length)] := by
  have hbytes : (Wire.dictionary 99 keys values).encode = 99 :: (keyBytes ++ valueBytes) := by
    rw [Wire.encode, hkeys.bytes_eq, hvalues.bytes_eq]
  refine ⟨⟨.inl rfl, hkeys.wf, hvalues.wf, hsides⟩, hbytes, fun start => ?_⟩
  rw [Wire.outline, Wire.node, hbytes, hkeys.outline_eq, hvalues.outline_eq, hkeys.bytes_eq, ← hkeys.len]
  rfl

theorem outline_len (tree : Native) (start : Nat) : (tree.outline start).len = tree.count := by
  cases tree <;> rfl

theorem firstLen_columns (columns : List NativeList) :
    Wire.firstLen (columns.map NativeList.toWire) = (columns.map NativeList.count).headD 0 := by
  cases columns with
  | nil => rfl
  | cons column columns =>
    have hlen := @NativeList.toWire_sequenceLen column
    simp only [List.map_cons, Wire.firstLen, List.headD_cons]
    cases column with
    | fixed kType attr count payload => rfl
    | symbols attr texts => rfl
    | nested attr rows => simp [NativeList.toWire, Wire.parsed, NativeList.count]

theorem table_isWireOf {preamble : Bytes} {namesAttr : UInt8} {names : List Bytes} {gap : Bytes}
    {columns : List NativeList} (hwf : (Native.table preamble namesAttr names gap columns).WF)
    (hconsistent : (Native.table preamble namesAttr names gap columns).Consistent) :
    IsWireOf (toWire (.table preamble namesAttr names gap columns))
      (encode (.table preamble namesAttr names gap columns))
      (outline (.table preamble namesAttr names gap columns)) := by
  have hi32 : i32Max = 2 ^ 31 - 1 := rfl
  obtain ⟨-, hne, hcount, hclean, -, hcolumns, hall⟩ := hwf
  obtain ⟨⟨attr, hattr, rfl⟩, hnamesAttr, ⟨columnsAttr, hcolumnsAttr, rfl⟩, hlists⟩ := hconsistent
  have hnames := symbolList_isWireOf hnamesAttr hcount hclean
  obtain ⟨hwfs, hbytes, houtlines⟩ := placed_isWireOf fun column (hcolumn : column ∈ columns) =>
    NativeList.isWireOf (hall column hcolumn).1 (hall column hcolumn).2.1 (hlists column hcolumn)
  have hencode : (toWire (.table [attr, 99, 11] namesAttr names
      (0 :: columnsAttr :: LittleEndian.encode 4 columns.length) columns)).encode =
      encode (.table [attr, 99, 11] namesAttr names
        (0 :: columnsAttr :: LittleEndian.encode 4 columns.length) columns) := by
    simp only [toWire, Wire.encode, hbytes, listHeader_short (attr_short hnamesAttr).1, encode]
    simp
  refine ⟨⟨hattr, headerOk_short hnamesAttr hcount, hclean, hcolumnsAttr, ?_, ?_, hwfs, ?_⟩, hencode, fun start => ?_⟩
  · rw [List.length_map, hcolumns]
  · rw [List.length_map]
    omega
  · intro column hcolumn
    obtain ⟨list, hlist, rfl⟩ := List.mem_map.mp hcolumn
    rw [firstLen_columns, NativeList.toWire_sequenceLen, (hall list hlist).2.2]
  · have hnode : (Wire.symbolList namesAttr names).node (start + 3) [] =
        (NativeList.symbols namesAttr names).outline (start + 3) := hnames.outline_eq (start + 3)
    have hlength : (Wire.symbolList namesAttr names).encode = (NativeList.symbols namesAttr names).encode :=
      hnames.bytes_eq
    have hlen : (toWire (.table [attr, 99, 11] namesAttr names
      (0 :: columnsAttr :: LittleEndian.encode 4 columns.length) columns)).parsed.len =
        (columns.map NativeList.count).headD 0 := firstLen_columns columns
    rw [outline, node, ← hencode]
    rw [toWire] at hlen ⊢
    rw [Wire.outline, Wire.node, hnode, hlength, houtlines, hlen]
    rfl

theorem isList_sequenceLen {tree : Native} (h : tree.IsList) : tree.toWire.parsed.sequenceLen.isSome := by
  cases tree with
  | uniform list =>
    rw [toWire, NativeList.toWire_sequenceLen]
    rfl
  | mixed attr members => rfl
  | atom kType payload => exact h.elim
  | symbol text => exact h.elim
  | keyedTable keys values => exact h.elim
  | dictionary keys values => exact h.elim
  | table preamble namesAttr names gap columns => exact h.elim
  | lambda context source => exact h.elim
  | primitive kType opcode => exact h.elim

theorem keysOk_wf {list : NativeList} (h : KeysOk list) : list.WF ∧ list.BooleansOk := by
  cases list with
  | fixed kType attr count payload => exact h.elim
  | symbols attr texts => exact ⟨h, trivial⟩
  | nested attr rows =>
    obtain rfl : rows = [] := h
    exact ⟨⟨by decide, trivial⟩, by simp [NativeList.BooleansOk]⟩

/-- **Consistent trees** are trees of the lossless grammar, with the same bytes and outline. -/
theorem isWireOf {tree : Native} (hwf : tree.WF) (hconsistent : tree.Consistent) :
    IsWireOf tree.toWire tree.encode tree.outline := by
  have hi32 : i32Max = 2 ^ 31 - 1 := rfl
  induction tree using Native.induct with
  | atom kType payload => exact atom_isWireOf hwf
  | symbol text => exact ⟨hwf, rfl, fun _ => rfl⟩
  | uniform list => exact NativeList.isWireOf hwf.1 hwf.2 hconsistent
  | mixed attr members ih =>
    have hall : ∀ member ∈ members, IsWireOf member.toWire member.encode member.outline := fun member hmember =>
      ih member hmember (allWF_iff.mp hwf.2 member hmember) (allConsistent_iff.mp hconsistent.2 member hmember)
    have hlist := generalList_isWireOf hconsistent.1 hwf.1 hall
    rw [← encodeAll_eq, ← toWires_eq] at hlist
    refine ⟨hlist.wf, hlist.bytes_eq, fun start => ?_⟩
    rw [outline, outlineAll_eq]
    exact hlist.outline_eq start
  | keyedTable keys values ihk ihv =>
    obtain ⟨hkeysWF, hvaluesWF, ⟨_, _, _, _, _, rfl⟩, -, hcount⟩ := hwf
    obtain ⟨hkeys, hvalues, ⟨_, _, _, _, _, rfl⟩⟩ := hconsistent
    have hkeysOf := ihk hkeysWF hkeys
    have hvaluesOf := ihv hvaluesWF hvalues
    refine dictionary_isWireOf hkeysOf hvaluesOf ⟨?_, .inl ⟨rfl, rfl⟩⟩
    rw [hkeysOf.len, hvaluesOf.len, outline_len, outline_len, hcount]
  | dictionary keys values ih =>
    obtain ⟨hkeysOk, hvaluesWF, hlist, hcount⟩ := hwf
    obtain ⟨hkeys, hvalues⟩ := hconsistent
    obtain ⟨hkeysWF, hbooleans⟩ := keysOk_wf hkeysOk
    have hkeysOf := NativeList.isWireOf hkeysWF hbooleans hkeys
    have hvaluesOf := ih hvaluesWF hvalues
    refine dictionary_isWireOf hkeysOf hvaluesOf ⟨?_, .inr ⟨?_, isList_sequenceLen hlist⟩⟩
    · rw [hkeysOf.len, hvaluesOf.len, outline_len, ← hcount]
      rfl
    · rw [NativeList.toWire_sequenceLen]
      rfl
  | table preamble namesAttr names gap columns => exact table_isWireOf hwf hconsistent
  | lambda context source => exact ⟨⟨hwf.1, by have := hwf.2; omega⟩, rfl, fun _ => rfl⟩
  | primitive kType opcode => exact ⟨hwf, rfl, fun _ => rfl⟩

end Native

/-! ## Bytes that both grammars read -/

theorem ctor_of_head {wire : Wire} (hwf : wire.WF) {head : UInt8} {tail s : Bytes}
    (h : head :: tail = wire.encode ++ s) : wire.ctor = QValue.classify head := by
  obtain ⟨head', tail', hbytes, hclass⟩ := QValue.Wire.classify_head hwf
  rw [hbytes] at h
  rw [(List.cons.inj h).1, hclass]

theorem classify_fixed {kType : UInt8} (hlow : 1 ≤ kType) (hhigh : kType ≤ 19) (heleven : kType ≠ 11) :
    QValue.classify kType = 2 :=
  Wire.byte_in_range (P := fun b => b ≠ 11 → QValue.classify b = 2) 1 20 (by decide)
    (UInt8.le_iff_toNat_le.mp hlow) (Nat.lt_succ_of_le (UInt8.le_iff_toNat_le.mp hhigh)) heleven

theorem classify_primitive {kType : UInt8} (hlow : 101 ≤ kType) (hhigh : kType ≤ 103) :
    QValue.classify kType = 8 :=
  Wire.byte_in_range (P := fun b => QValue.classify b = 8) 101 104 (by decide)
    (UInt8.le_iff_toNat_le.mp hlow) (Nat.lt_succ_of_le (UInt8.le_iff_toNat_le.mp hhigh))

/-- In front of a tree whose counts stand in four bytes, the bytes end where the tree does, and
what they step over is consistent. -/
def Agrees (consistent : Prop) (bytes : Bytes) : Prop :=
  ∀ (wire : Wire) (r s : Bytes), wire.WF → wire.FourByteCounts → bytes ++ r = wire.encode ++ s →
    consistent ∧ r = s

section Agreeing

variable {attr : UInt8}

theorem header_agrees {rawAttr : UInt8} {count len : Nat} {r s : Bytes} (hcount : count ≤ i32Max)
    (hok : HeaderOk rawAttr len) (hshort : rawAttr &&& 0x80 = 0)
    (h : attr :: (LittleEndian.encode 4 count ++ r) = listHeader rawAttr len ++ s) :
    attr ≤ 4 ∧ count = len ∧ r = s := by
  have hi32 : i32Max = 2 ^ 31 - 1 := rfl
  have hlen := hok.2
  rw [if_pos hshort] at hlen
  simp only [listHeader_short hshort, List.cons_append, List.cons.injEq] at h
  obtain ⟨rfl, h⟩ := h
  obtain ⟨rfl, rfl⟩ := QValue.count_append_inj (by omega) (by omega) h
  exact ⟨attr_of_short hshort hok.1, rfl, rfl⟩

theorem fixedList_agrees {kType : UInt8} {count : Nat} {payload : Bytes} (hkind : QValue.classify kType = 2)
    (hcount : count ≤ i32Max) (hlength : payload.length = count * typeSize kType) :
    Agrees (attr ≤ 4) (kType :: attr :: (LittleEndian.encode 4 count ++ payload)) := by
  intro wire r s hwf hfour h
  have hctor := (ctor_of_head hwf h).trans hkind
  cases wire <;> simp only [Wire.ctor] at hctor <;> try omega
  next elementType rawAttr len payload' =>
  obtain ⟨-, -, -, -, hok, hlength', -⟩ := hwf
  simp only [Wire.encode, List.cons_append, List.append_assoc, List.cons.injEq] at h
  obtain ⟨rfl, h⟩ := h
  obtain ⟨hattr, rfl, hrest⟩ := header_agrees hcount hok hfour h
  obtain ⟨-, rfl⟩ := List.append_inj hrest (hlength.trans hlength'.symm)
  exact ⟨hattr, rfl⟩

theorem symbolList_agrees {texts : List Bytes} (hcount : texts.length ≤ i32Max) (hclean : ∀ text ∈ texts, 0 ∉ text) :
    Agrees (attr ≤ 4) (11 :: attr :: (LittleEndian.encode 4 texts.length ++ symbolBytes texts)) := by
  intro wire r s hwf hfour h
  have hctor := ctor_of_head hwf h
  cases wire <;> simp only [Wire.ctor, QValue.classify] at hctor <;> try cases hctor
  next rawAttr texts' =>
  obtain ⟨hok, hclean'⟩ := hwf
  simp only [Wire.encode, List.cons_append, List.append_assoc, List.cons.injEq, true_and] at h
  obtain ⟨hattr, hlen, h⟩ := header_agrees hcount hok hfour h
  obtain ⟨-, rfl⟩ := QValue.symbolBytes_append_inj hlen hclean hclean' h
  exact ⟨hattr, rfl⟩

variable {α : Type} {consistent : α → Prop} {encode : α → Bytes} {items : List α}

theorem placed_agrees (hall : ∀ item ∈ items, Agrees (consistent item) (encode item)) {children : List Wire}
    {r s : Bytes} (hlen : items.length = children.length) (hwf : Wire.AllWF children)
    (hfour : Wire.AllFourByteCounts children)
    (h : items.flatMap encode ++ r = Wire.encodeAll children ++ s) :
    (∀ item ∈ items, consistent item) ∧ r = s := by
  induction items generalizing children with
  | nil =>
    obtain rfl : children = [] := List.length_eq_zero_iff.mp hlen.symm
    exact ⟨by simp, h⟩
  | cons item items ih =>
    cases children with
    | nil => cases hlen
    | cons child children =>
      simp only [List.flatMap_cons, Wire.encodeAll, List.append_assoc] at h
      obtain ⟨hitem, h⟩ := hall item (by simp) child _ _ hwf.1 hfour.1 h
      obtain ⟨hitems, rfl⟩ := ih (fun other hother => hall other (by simp [hother])) (Nat.succ.inj hlen) hwf.2
        hfour.2 h
      exact ⟨List.forall_mem_cons.mpr ⟨hitem, hitems⟩, rfl⟩

theorem generalList_agrees (hcount : items.length ≤ i32Max)
    (hall : ∀ item ∈ items, Agrees (consistent item) (encode item)) :
    Agrees (attr ≤ 4 ∧ ∀ item ∈ items, consistent item)
      (0 :: attr :: (LittleEndian.encode 4 items.length ++ items.flatMap encode)) := by
  have hi32 : i32Max = 2 ^ 31 - 1 := rfl
  intro wire r s hwf hfour h
  have hctor := ctor_of_head hwf h
  cases wire <;> simp only [Wire.ctor, QValue.classify] at hctor <;> try cases hctor
  next attr' children =>
  obtain ⟨hattr, hlt, hwfs⟩ := hwf
  simp only [Wire.encode, List.cons_append, List.append_assoc, List.cons.injEq, true_and] at h
  obtain ⟨rfl, h⟩ := h
  obtain ⟨hlen, h⟩ := QValue.count_append_inj (by omega) (by omega) h
  obtain ⟨hitems, rfl⟩ := placed_agrees hall hlen hwfs hfour h
  exact ⟨⟨hattr, hitems⟩, rfl⟩

end Agreeing

theorem NestedRow.agrees {row : NestedRow} (hwf : row.WF) : Agrees (row.attr ≤ 4) row.encode := by
  cases row with
  | empty attr =>
    intro wire r s hw hfour h
    obtain ⟨⟨hattr, -⟩, rfl⟩ := @generalList_agrees attr NestedRow (fun _ => True) encode [] (by decide) (by simp)
      wire r s hw hfour h
    exact ⟨hattr, rfl⟩
  | symbols attr texts => exact symbolList_agrees hwf.1 hwf.2
  | fixed kType attr count payload =>
    obtain ⟨hlow, hhigh, -⟩ := nestedTypes_listed hwf.1
    exact fixedList_agrees (classify_fixed hlow hhigh hwf.2.1) hwf.2.2.1 hwf.2.2.2

theorem NativeList.agrees {list : NativeList} (hwf : list.WF) : Agrees list.Consistent list.encode := by
  cases list with
  | fixed kType attr count payload =>
    obtain ⟨hlow, hhigh, heleven, -, hcount, hlength⟩ := hwf
    intro wire r s hw hfour h
    obtain ⟨hattr, rfl⟩ := fixedList_agrees (classify_fixed hlow hhigh heleven) hcount hlength wire r s hw hfour h
    exact ⟨⟨hattr, trivial⟩, rfl⟩
  | symbols attr texts =>
    intro wire r s hw hfour h
    obtain ⟨hattr, rfl⟩ := symbolList_agrees hwf.1 hwf.2 wire r s hw hfour h
    exact ⟨⟨hattr, trivial⟩, rfl⟩
  | nested attr rows =>
    have hlist := @generalList_agrees attr _ _ _ _ hwf.1 fun row hrow => NestedRow.agrees (rowsFit_wf hwf.2 row hrow)
    rw [← NestedRow.encodeAll_eq] at hlist
    exact hlist

namespace Native

theorem table_agrees {preamble : Bytes} {namesAttr : UInt8} {names : List Bytes} {gap : Bytes}
    {columns : List NativeList} (hwf : (Native.table preamble namesAttr names gap columns).WF) :
    Agrees (Native.table preamble namesAttr names gap columns).Consistent
      (encode (.table preamble namesAttr names gap columns)) := by
  obtain ⟨hthree, -, hcount, hclean, hsix, hcolumns, hall⟩ := hwf
  intro wire r s hw hfour h
  have hctor := ctor_of_head hw h
  cases wire <;> simp only [Wire.ctor, QValue.classify] at hctor <;> try cases hctor
  next attr namesAttr' names' columnsAttr columns' =>
  obtain ⟨hattr, hok, hclean', hcolumnsAttr, hsame, -, hwfs, -⟩ := hw
  simp only [encode, Wire.encode, List.cons_append, List.append_assoc, List.cons.injEq, true_and] at h
  have hsplit : preamble ++ _ = [attr, 99, 11] ++ _ := h
  obtain ⟨rfl, hnames⟩ := List.append_inj hsplit hthree
  obtain ⟨hnamesAttr, hlen, hsymbols⟩ := header_agrees hcount hok hfour.1 hnames
  obtain ⟨rfl, hgap⟩ := QValue.symbolBytes_append_inj hlen hclean hclean' hsymbols
  have hheader : gap ++ _ = (0 :: columnsAttr :: LittleEndian.encode 4 columns'.length) ++ _ := hgap
  obtain ⟨rfl, hlists⟩ := List.append_inj hheader (by simpa using hsix)
  have hwidth : columns.length = columns'.length := hcolumns.trans hsame
  obtain ⟨hconsistent, rfl⟩ := placed_agrees
    (fun column (hcolumn : column ∈ columns) => NativeList.agrees (hall column hcolumn).1) hwidth hwfs hfour.2 hlists
  exact ⟨⟨⟨attr, hattr, rfl⟩, hnamesAttr, ⟨columnsAttr, hcolumnsAttr, by rw [hwidth]⟩, hconsistent⟩, rfl⟩

theorem atom_agrees {kType : UInt8} {payload : Bytes} (hwf : (Native.atom kType payload).WF) :
    Agrees True (kType :: payload) := by
  obtain ⟨hlow, hsymbol, -, hlength, -⟩ := hwf
  intro wire r s hw hfour h
  have hctor := ctor_of_head hw h
  rw [QValue.classify, if_pos hlow, if_neg hsymbol] at hctor
  cases wire <;> simp only [Wire.ctor] at hctor <;> try omega
  next kind payload' =>
  obtain ⟨-, -, -, -, hlength', -⟩ := hw
  simp only [Wire.encode, List.cons_append, List.cons.injEq] at h
  obtain ⟨rfl, h⟩ := h
  rw [QValue.zero_sub_zero_sub] at hlength
  exact ⟨trivial, (List.append_inj h (hlength.trans hlength'.symm)).2⟩

theorem lambda_agrees {context source : Bytes} (hwf : (Native.lambda context source).WF) :
    Agrees True (encode (.lambda context source)) := by
  have hi32 : i32Max = 2 ^ 31 - 1 := rfl
  obtain ⟨hclean, hcount⟩ := hwf
  intro wire r s hw hfour h
  have hctor := ctor_of_head hw h
  cases wire <;> simp only [Wire.ctor, QValue.classify] at hctor <;> try cases hctor
  next context' source' =>
  obtain ⟨hclean', hcount'⟩ := hw
  simp only [encode, Wire.encode, List.cons_append, List.append_assoc, List.cons.injEq, true_and] at h
  obtain ⟨rfl, hvector⟩ := QValue.nul_append_inj hclean hclean' h
  simp only [List.cons.injEq, true_and] at hvector
  obtain ⟨hlen, hsource⟩ := QValue.count_append_inj (by omega) (by omega) hvector
  exact ⟨trivial, (List.append_inj hsource hlen).2⟩

theorem primitive_agrees {kType opcode : UInt8} (hwf : (Native.primitive kType opcode).WF) :
    Agrees True [kType, opcode] := by
  obtain ⟨hlow, hhigh, -⟩ := hwf
  intro wire r s hw hfour h
  have hctor := (ctor_of_head hw h).trans (classify_primitive hlow hhigh)
  cases wire <;> simp only [Wire.ctor] at hctor <;> try omega
  next kType' opcode' =>
  simp only [Wire.encode, List.cons_append, List.nil_append, List.cons.injEq] at h
  exact ⟨trivial, h.2.2⟩

/-- Two sides, one behind the other. -/
theorem sides_agree {keysOk valuesOk : Prop} {keyBytes valueBytes : Bytes} (hkeys : Agrees keysOk keyBytes)
    (hvalues : Agrees valuesOk valueBytes) {wire : Wire} {r s : Bytes} (hw : wire.WF) (hfour : wire.FourByteCounts)
    (h : 99 :: (keyBytes ++ valueBytes) ++ r = wire.encode ++ s) :
    keysOk ∧ valuesOk ∧ r = s ∧ ∃ keys values : Wire, keys.WF ∧
      QValue.Wire.SidesOk keys.parsed values.parsed ∧ keyBytes = keys.encode ∧ valueBytes = values.encode := by
  have hctor := ctor_of_head hw h
  cases wire <;> simp only [Wire.ctor, QValue.classify] at hctor <;> try cases hctor
  next wireType keys values =>
  obtain ⟨-, hk, hv, hsides⟩ := hw
  simp only [Wire.encode, List.cons_append, List.append_assoc, List.cons.injEq] at h
  obtain ⟨hkeysOk, hrest⟩ := hkeys keys _ _ hk hfour.1 h.2
  obtain ⟨hvaluesOk, rfl⟩ := hvalues values _ _ hv hfour.2 hrest
  have hkeyBytes := h.2
  rw [hrest] at hkeyBytes
  exact ⟨hkeysOk, hvaluesOk, rfl, keys, values, hk, hsides, List.append_cancel_right hkeyBytes,
    List.append_cancel_right hrest⟩

theorem head_of_table {wire : Wire} (h : wire.parsed.shape = .Table) : ∃ tail, wire.encode = 98 :: tail := by
  cases wire with
  | table attr namesAttr names columnsAttr columns => exact ⟨_, rfl⟩
  | _ => simp [Wire.parsed] at h

/-- What stands beside a table is a table. -/
theorem sides_of_table {keys values : Wire} (hwf : keys.WF) (hsides : QValue.Wire.SidesOk keys.parsed values.parsed)
    {tail : Bytes} (h : keys.encode = 98 :: tail) : values.parsed.shape = .Table := by
  obtain ⟨-, ⟨-, hshape⟩ | ⟨hsequence, -⟩⟩ := hsides
  · exact hshape
  · have hctor : keys.ctor = 6 := ctor_of_head hwf (h ▸ (List.append_nil _).symm : 98 :: tail = keys.encode ++ [])
    cases keys <;> simp only [Wire.ctor] at hctor <;> try omega
    simp [Wire.parsed, QValue.Parsed.sequenceLen] at hsequence

theorem agrees {tree : Native} (hwf : tree.WF) : Agrees tree.Consistent tree.encode := by
  induction tree using Native.induct with
  | atom kType payload => exact atom_agrees hwf
  | symbol text =>
    intro wire r s hw hfour h
    have hctor := ctor_of_head hw h
    cases wire <;> simp only [Wire.ctor, QValue.classify] at hctor <;> try cases hctor
    next text' =>
    simp only [encode, Wire.encode, List.cons_append, List.append_assoc, List.nil_append, List.cons.injEq,
      true_and] at h
    exact ⟨trivial, (QValue.nul_append_inj hwf hw h).2⟩
  | uniform list => exact NativeList.agrees hwf.1
  | mixed attr members ih =>
    have hlist := @generalList_agrees attr _ _ _ _ hwf.1 fun member hmember =>
      ih member hmember (allWF_iff.mp hwf.2 member hmember)
    rw [← encodeAll_eq, ← allConsistent_iff] at hlist
    exact hlist
  | keyedTable keys values ihk ihv =>
    obtain ⟨hkeysWF, hvaluesWF, ⟨_, _, _, _, _, rfl⟩, -, -⟩ := hwf
    intro wire r s hw hfour h
    obtain ⟨hkeys, hvalues, rfl, keys', values', hk, hsides, hkeyBytes, hvalueBytes⟩ :=
      sides_agree (ihk hkeysWF) (ihv hvaluesWF) hw hfour h
    obtain ⟨tail, htail⟩ := head_of_table (sides_of_table hk hsides hkeyBytes.symm)
    have hhead : values.encode ++ [] = 98 :: tail := by rw [List.append_nil, hvalueBytes, htail]
    exact ⟨⟨hkeys, hvalues, table_of_head hvaluesWF hhead⟩, rfl⟩
  | dictionary keys values ih =>
    obtain ⟨hkeysOk, hvaluesWF, -, -⟩ := hwf
    intro wire r s hw hfour h
    obtain ⟨hkeys, hvalues, rfl, -⟩ :=
      sides_agree (NativeList.agrees (keysOk_wf hkeysOk).1) (ih hvaluesWF) hw hfour h
    exact ⟨⟨hkeys, hvalues⟩, rfl⟩
  | table preamble namesAttr names gap columns => exact table_agrees hwf
  | lambda context source => exact lambda_agrees hwf
  | primitive kType opcode => exact primitive_agrees hwf

end Native

/-! ## Outlines tell the counts -/

/-- Bytes with the outline of a tree: the counts of the tree stand in four bytes. -/
def Tells (bytes : Bytes) (outline : Nat → Outline) : Prop :=
  ∀ (wire : Wire) (start : Nat), wire.WF → bytes = wire.encode → outline start = wire.outline start →
    wire.FourByteCounts

section Telling

variable {attr : UInt8}

theorem long_length {rawAttr : UInt8} (h : rawAttr &&& 0x80 ≠ 0) (len : Nat) :
    (listHeader rawAttr len).length = 9 := by
  rw [listHeader, if_neg h, List.length_cons, LittleEndian.encode_length]

theorem short_header {rawAttr : UInt8} {count : Nat} {payload payload' : Bytes}
    (h : attr :: (LittleEndian.encode 4 count ++ payload) = listHeader rawAttr count ++ payload')
    (hlength : payload.length = payload'.length) : rawAttr &&& 0x80 = 0 := by
  by_contra hlong
  have hlen := congrArg List.length h
  simp only [List.length_cons, List.length_append, LittleEndian.encode_length, long_length hlong] at hlen
  omega

theorem fixedList_tells {kType : UInt8} {count : Nat} {payload : Bytes} (hkind : QValue.classify kType = 2)
    (hlength : payload.length = count * typeSize kType) {outline : Nat → Outline}
    (hlen : ∀ start, (outline start).len = count) :
    Tells (kType :: attr :: (LittleEndian.encode 4 count ++ payload)) outline := by
  intro wire start hwf h houtline
  have hctor := (ctor_of_head hwf (h.trans (List.append_nil _).symm)).trans hkind
  cases wire <;> simp only [Wire.ctor] at hctor <;> try omega
  next elementType rawAttr len payload' =>
  obtain ⟨-, -, -, -, -, hlength', -⟩ := hwf
  have hcount : count = len := by rw [← hlen start, houtline, Wire.outline_len]; rfl
  subst hcount
  simp only [Wire.encode, List.cons.injEq] at h
  obtain ⟨rfl, h⟩ := h
  exact short_header h (hlength.trans hlength'.symm)

theorem count_symbolBytes {texts : List Bytes} (hclean : ∀ text ∈ texts, 0 ∉ text) :
    (symbolBytes texts).count 0 = texts.length := by
  induction texts with
  | nil => rfl
  | cons text texts ih =>
    have htext : text.count 0 = 0 := List.count_eq_zero.mpr (hclean text (by simp))
    have hrest := ih fun other hother => hclean other (by simp [hother])
    simp only [symbolBytes, List.count_append, List.count_cons_self, htext, hrest, List.length_cons]
    omega

/-- Symbols of one number behind counts of four and of eight bytes: the upper half of the longer
count is NULs, which would have to end symbols too. -/
theorem symbolList_tells {texts : List Bytes} (hcount : texts.length ≤ i32Max) (hclean : ∀ text ∈ texts, 0 ∉ text)
    {outline : Nat → Outline} (hlen : ∀ start, (outline start).len = texts.length) :
    Tells (11 :: attr :: (LittleEndian.encode 4 texts.length ++ symbolBytes texts)) outline := by
  have hi32 : i32Max = 2 ^ 31 - 1 := rfl
  intro wire start hwf h houtline
  have hctor := ctor_of_head hwf (h.trans (List.append_nil _).symm)
  cases wire <;> simp only [Wire.ctor, QValue.classify] at hctor <;> try cases hctor
  next rawAttr texts' =>
  have hsame : texts'.length = texts.length := by rw [← hlen start, houtline, Wire.outline_len]; rfl
  simp only [Wire.encode, List.cons.injEq, true_and] at h
  by_contra hlong
  have hbit : ¬ rawAttr &&& 0x80 = 0 := hlong
  rw [listHeader, if_neg hbit, hsame, List.cons_append] at h
  have hupper := @LittleEndian.encode_widen 4 texts.length (by omega) 4
  rw [hupper, List.append_assoc] at h
  have hsymbols := List.append_cancel_left (List.cons.inj h).2
  have hzeros := congrArg (List.count 0) hsymbols
  rw [count_symbolBytes hclean, List.count_append, count_symbolBytes hwf.2, hsame] at hzeros
  simp at hzeros

variable {α : Type} {encode : α → Bytes} {outline : α → Nat → Outline} {items : List α}

theorem placed_tells (hstop : ∀ item start, (outline item start).stop = start + (encode item).length)
    (hall : ∀ item ∈ items, Tells (encode item) (outline item)) {children : List Wire} {start : Nat}
    (hwf : Wire.AllWF children) (h : items.flatMap encode = Wire.encodeAll children)
    (houtlines : Outline.placed outline encode items start = Wire.outlineAll children start) :
    Wire.AllFourByteCounts children := by
  induction items generalizing children start with
  | nil =>
    cases children with
    | nil => trivial
    | cons child children => cases houtlines
  | cons item items ih =>
    cases children with
    | nil => cases houtlines
    | cons child children =>
      simp only [Outline.placed, Wire.outlineAll, List.cons.injEq] at houtlines
      obtain ⟨houtline, houtlines⟩ := houtlines
      have hspan : (encode item).length = child.encode.length := by
        have := congrArg Outline.stop houtline
        rw [hstop, Wire.outline_stop] at this
        omega
      rw [List.flatMap_cons, Wire.encodeAll] at h
      obtain ⟨hbytes, hrest⟩ := List.append_inj h hspan
      rw [hspan] at houtlines
      exact ⟨hall item (by simp) child start hwf.1 hbytes houtline,
        ih (fun other hother => hall other (by simp [hother])) hwf.2 hrest houtlines⟩

theorem generalList_tells {whole : Nat → Outline}
    (hchildren : ∀ start, (whole start).children = Outline.placed outline encode items (start + 6))
    (hstop : ∀ item start, (outline item start).stop = start + (encode item).length)
    (hall : ∀ item ∈ items, Tells (encode item) (outline item)) :
    Tells (0 :: attr :: (LittleEndian.encode 4 items.length ++ items.flatMap encode)) whole := by
  intro wire start hwf h houtline
  have hctor := ctor_of_head hwf (h.trans (List.append_nil _).symm)
  cases wire <;> simp only [Wire.ctor, QValue.classify] at hctor <;> try cases hctor
  next attr' children =>
  simp only [Wire.encode, List.cons.injEq, true_and] at h
  obtain ⟨-, hbytes⟩ := List.append_inj h.2 (by simp)
  have houtlines : Outline.placed outline encode items (start + 6) = Wire.outlineAll children (start + 6) := by
    rw [← hchildren, houtline]
    rfl
  exact placed_tells hstop hall hwf.2.2 hbytes houtlines

end Telling

theorem NestedRow.tells {row : NestedRow} (hwf : row.WF) : Tells row.encode row.outline := by
  cases row with
  | empty attr =>
    exact @generalList_tells attr NestedRow encode outline [] _ (fun _ => rfl) (fun _ _ => rfl) (by simp)
  | symbols attr texts => exact symbolList_tells hwf.1 hwf.2 fun _ => rfl
  | fixed kType attr count payload =>
    obtain ⟨hlow, hhigh, -⟩ := nestedTypes_listed hwf.1
    exact fixedList_tells (classify_fixed hlow hhigh hwf.2.1) hwf.2.2.2 fun _ => rfl

theorem NativeList.tells {list : NativeList} (hwf : list.WF) : Tells list.encode list.outline := by
  cases list with
  | fixed kType attr count payload =>
    obtain ⟨hlow, hhigh, heleven, -, -, hlength⟩ := hwf
    exact fixedList_tells (classify_fixed hlow hhigh heleven) hlength fun _ => rfl
  | symbols attr texts => exact symbolList_tells hwf.1 hwf.2 fun _ => rfl
  | nested attr rows =>
    have hlist := @generalList_tells attr NestedRow NestedRow.encode NestedRow.outline rows
      (outline (.nested attr rows)) (fun _ => rfl) (fun _ _ => rfl)
      fun row hrow => NestedRow.tells (rowsFit_wf hwf.2 row hrow)
    rw [← NestedRow.encodeAll_eq] at hlist
    exact hlist

namespace Native

theorem outline_stop (tree : Native) (start : Nat) :
    (tree.outline start).stop = start + tree.encode.length := by
  cases tree <;> rfl

theorem dictionary_tells {keyBytes valueBytes : Bytes} {keyOutline valueOutline whole : Nat → Outline}
    (hchildren : ∀ start, (whole start).children =
      [keyOutline (start + 1), valueOutline (start + 1 + keyBytes.length)])
    (hstop : ∀ start, (keyOutline start).stop = start + keyBytes.length)
    (hkeys : Tells keyBytes keyOutline) (hvalues : Tells valueBytes valueOutline) :
    Tells (99 :: (keyBytes ++ valueBytes)) whole := by
  intro wire start hwf h houtline
  have hctor := ctor_of_head hwf (h.trans (List.append_nil _).symm)
  cases wire <;> simp only [Wire.ctor, QValue.classify] at hctor <;> try cases hctor
  next wireType keys values =>
  obtain ⟨-, hk, hv, -⟩ := hwf
  have hsides : [keyOutline (start + 1), valueOutline (start + 1 + keyBytes.length)] =
      [keys.outline (start + 1), values.outline (start + 1 + keys.encode.length)] := by
    rw [← hchildren, houtline]
    rfl
  simp only [List.cons.injEq, and_true] at hsides
  have hspan : keyBytes.length = keys.encode.length := by
    have := congrArg Outline.stop hsides.1
    rw [hstop, Wire.outline_stop] at this
    omega
  simp only [Wire.encode, List.cons.injEq] at h
  obtain ⟨hkeyBytes, hvalueBytes⟩ := List.append_inj h.2 hspan
  rw [hspan] at hsides
  exact ⟨hkeys keys _ hk hkeyBytes hsides.1, hvalues values _ hv hvalueBytes hsides.2⟩

theorem table_tells {preamble : Bytes} {namesAttr : UInt8} {names : List Bytes} {gap : Bytes}
    {columns : List NativeList} (hwf : (Native.table preamble namesAttr names gap columns).WF) :
    Tells (encode (.table preamble namesAttr names gap columns))
      (outline (.table preamble namesAttr names gap columns)) := by
  obtain ⟨hthree, -, hcount, hclean, hsix, hcolumns, hall⟩ := hwf
  intro wire start hw h houtline
  have hctor := ctor_of_head hw (h.trans (List.append_nil _).symm)
  cases wire <;> simp only [Wire.ctor, QValue.classify] at hctor <;> try cases hctor
  next attr namesAttr' names' columnsAttr columns' =>
  obtain ⟨-, hok, hclean', -, -, -, hwfs, -⟩ := hw
  have hchildren := congrArg Outline.children houtline
  simp only [outline, Wire.outline, node, Wire.node, Outline.children, List.cons.injEq] at hchildren
  obtain ⟨hnames, hlists⟩ := hchildren
  have hspan : (NativeList.symbols namesAttr names).encode.length = (Wire.symbolList namesAttr' names').encode.length := by
    have := congrArg Outline.stop hnames
    simp only [NativeList.outline, Outline.stop] at this
    omega
  rw [hspan] at hlists
  simp only [encode, Wire.encode, List.cons.injEq, true_and] at h
  have hsplit : preamble ++ ((NativeList.symbols namesAttr names).body ++ (gap ++ columns.flatMap NativeList.encode)) =
      [attr, 99, 11] ++ ((listHeader namesAttr' names'.length ++ symbolBytes names') ++
        ((0 :: columnsAttr :: LittleEndian.encode 4 columns'.length) ++ Wire.encodeAll columns')) := by
    simpa only [NativeList.body, List.cons_append, List.append_assoc, List.nil_append] using h
  obtain ⟨-, hnamesBytes⟩ := List.append_inj hsplit hthree
  have hbody : (NativeList.symbols namesAttr names).body.length =
      (listHeader namesAttr' names'.length ++ symbolBytes names').length := by
    simpa [NativeList.encode, Wire.encode] using hspan
  obtain ⟨hsymbols, hgap⟩ := List.append_inj hnamesBytes hbody
  obtain ⟨-, hcolumnBytes⟩ := List.append_inj hgap (by simpa using hsix)
  have hshort := @NativeList.tells (.symbols namesAttr names) ⟨hcount, hclean⟩ (.symbolList namesAttr' names')
    (start + 3) ⟨hok, hclean'⟩ (congrArg (List.cons 11) hsymbols) hnames
  exact ⟨hshort, placed_tells (fun _ _ => rfl)
    (fun column hcolumn => NativeList.tells (hall column hcolumn).1) hwfs hcolumnBytes hlists⟩

/-- A value without lists has no counts. -/
theorem leaf_tells {head : UInt8} {tail : Bytes} {whole : Nat → Outline}
    (hleaf : QValue.classify head ∈ [0, 1, 7, 8]) : Tells (head :: tail) whole := by
  intro wire start hw h _
  rw [← ctor_of_head hw (h.trans (List.append_nil _).symm)] at hleaf
  cases wire with
  | atom kind payload => trivial
  | symbol text => trivial
  | lambda context source => trivial
  | primitive wireType opcode => trivial
  | _ => simp [Wire.ctor] at hleaf

/-- **Outlines tell the counts.** -/
theorem tells {tree : Native} (hwf : tree.WF) : Tells tree.encode tree.outline := by
  induction tree using Native.induct with
  | atom kType payload =>
    have hkind : QValue.classify kType = 0 := by rw [QValue.classify, if_pos hwf.1, if_neg hwf.2.1]
    exact leaf_tells (by simp [hkind])
  | symbol text => exact leaf_tells (by decide)
  | uniform list => exact NativeList.tells hwf.1
  | mixed attr members ih =>
    have hlist := @generalList_tells attr Native encode outline members (outline (.mixed attr members))
      (fun start => outlineAll_eq members (start + 6)) outline_stop
      fun member hmember => ih member hmember (allWF_iff.mp hwf.2 member hmember)
    rw [← encodeAll_eq] at hlist
    exact hlist
  | keyedTable keys values ihk ihv =>
    exact dictionary_tells (fun _ => rfl) (outline_stop keys) (ihk hwf.1) (ihv hwf.2.1)
  | dictionary keys values ih =>
    exact dictionary_tells (fun _ => rfl) (fun _ => rfl) (NativeList.tells (keysOk_wf hwf.1).1) (ih hwf.2.1)
  | table preamble namesAttr names gap columns => exact table_tells hwf
  | lambda context source => exact leaf_tells (by decide)
  | primitive kType opcode => exact leaf_tells (by simp [classify_primitive hwf.1 hwf.2.1])

end Native

end Xqdb
