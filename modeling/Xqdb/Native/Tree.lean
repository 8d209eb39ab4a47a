import Xqdb.ListGrammar

/-! The bodies that the native decoder accepts, as trees. What it steps over without looking is
kept as it stands: the attributes of lists, the three bytes before the names of a table and the
six between the names and the columns. -/

namespace Xqdb

open LittleEndian (encode)
open QValue (symbolBytes)

namespace NestedRow

/-- Booleans are 0 or 1. -/
def BooleansOk : NestedRow → Prop
  | .fixed kType _ _ payload => kType = 1 → ∀ b ∈ payload, b ≤ 1
  | _ => True

end NestedRow

namespace NativeList

def encode (list : NativeList) : Bytes := list.kType :: list.body

def attr : NativeList → UInt8
  | .fixed _ attr _ _ => attr
  | .symbols attr _ => attr
  | .nested attr _ => attr

def count : NativeList → Nat
  | .fixed _ _ count _ => count
  | .symbols _ texts => texts.length
  | .nested _ rows => rows.length

def BooleansOk : NativeList → Prop
  | .fixed kType _ _ payload => kType = 1 → ∀ b ∈ payload, b ≤ 1
  | .symbols _ _ => True
  | .nested _ rows => ∀ row ∈ rows, row.BooleansOk

end NativeList

/-- A value without elements, entries or rows. -/
def K.IsScalar : K → Prop
  | .CharVector _ => False
  | .MixedList _ => False
  | .Series _ => False
  | .DataFrame _ => False
  | .Dict _ => False
  | _ => True

/-- A value with as many elements as a list has. -/
def HasLength (count : Nat) (k : K) : Prop :=
  (∃ series, k = .Series series ∧ series.len = count) ∨ ∃ text, k = .CharVector text ∧ text.length = count

inductive Native where
  | atom (kType : UInt8) (payload : Bytes)
  | symbol (text : Bytes)
  | uniform (list : NativeList)
  | mixed (attr : UInt8) (members : List Native)
  | keyedTable (keys values : Native)
  | dictionary (keys : NativeList) (values : Native)
  | table (preamble : Bytes) (namesAttr : UInt8) (names : List Bytes) (gap : Bytes)
    (columns : List NativeList)
  | lambda (context source : Bytes)
  | primitive (kType opcode : UInt8)

namespace Native

/-- Induction over a tree and the members of its lists. -/
theorem induct {motive : Native → Prop}
    (atom : ∀ kType payload, motive (.atom kType payload)) (symbol : ∀ text, motive (.symbol text))
    (uniform : ∀ list, motive (.uniform list))
    (mixed : ∀ attr members, (∀ member ∈ members, motive member) → motive (.mixed attr members))
    (keyedTable : ∀ keys values, motive keys → motive values → motive (.keyedTable keys values))
    (dictionary : ∀ keys values, motive values → motive (.dictionary keys values))
    (table : ∀ preamble namesAttr names gap columns,
      motive (.table preamble namesAttr names gap columns))
    (lambda : ∀ context source, motive (.lambda context source))
    (primitive : ∀ kType opcode, motive (.primitive kType opcode)) : ∀ tree, motive tree := by
  intro tree
  refine @Native.rec motive (fun trees => ∀ tree ∈ trees, motive tree) atom symbol uniform mixed keyedTable
    dictionary table lambda primitive ?_ ?_ tree
  · simp
  · intro head tail hhead htail tree hmem
    cases hmem with
    | head => exact hhead
    | tail _ hmem => exact htail tree hmem

mutual

def encode : Native → Bytes
  | .atom kType payload => kType :: payload
  | .symbol text => 245 :: (text ++ [0])
  | .uniform list => list.encode
  | .mixed attr members => 0 :: attr :: (LittleEndian.encode 4 members.length ++ encodeAll members)
  | .keyedTable keys values => 99 :: (keys.encode ++ values.encode)
  | .dictionary keys values => 99 :: (keys.encode ++ values.encode)
  | .table preamble namesAttr names gap columns =>
    98 :: (preamble ++ (namesAttr :: (LittleEndian.encode 4 names.length ++ (symbolBytes names ++
      (gap ++ columns.flatMap NativeList.encode)))))
  | .lambda context source =>
    100 :: (context ++ 0 :: 10 :: 0 :: (LittleEndian.encode 4 source.length ++ source))
  | .primitive kType opcode => [kType, opcode]

def encodeAll : List Native → Bytes
  | [] => []
  | tree :: trees => tree.encode ++ encodeAll trees

end

theorem encodeAll_eq (trees : List Native) : encodeAll trees = trees.flatMap encode := by
  induction trees with
  | nil => rfl
  | cons tree trees ih => rw [encodeAll, List.flatMap_cons, ih]

/-- The logical count: elements, entries or rows. -/
def count : Native → Nat
  | .uniform list => list.count
  | .mixed _ members => members.length
  | .keyedTable keys _ => keys.count
  | .dictionary keys _ => keys.count
  | .table _ _ _ _ columns => (columns.map NativeList.count).headD 0
  | _ => 1

def IsTable : Native → Prop
  | .table _ _ _ _ _ => True
  | .keyedTable _ _ => True
  | _ => False

def IsList : Native → Prop
  | .uniform _ => True
  | .mixed _ _ => True
  | _ => False

/-- What can be the keys of a dictionary: symbols, or the empty general list. -/
def KeysOk : NativeList → Prop
  | .symbols _ texts => texts.length ≤ i32Max ∧ ∀ text ∈ texts, 0 ∉ text
  | .nested _ rows => rows = []
  | .fixed _ _ _ _ => False

mutual

def WF : Native → Prop
  | .atom kType payload =>
    237 ≤ kType ∧ kType ≠ 245 ∧ kType ≠ 253 ∧ payload.length = typeSize (0 - kType) ∧
      (kType = 255 → ∀ b ∈ payload, b ≤ 1)
  | .symbol text => 0 ∉ text
  | .uniform list => list.WF ∧ list.BooleansOk
  | .mixed _ members => members.length ≤ i32Max ∧ AllWF members
  | .keyedTable keys values =>
    keys.WF ∧ values.WF ∧ (∃ preamble namesAttr names gap columns,
      keys = .table preamble namesAttr names gap columns) ∧ values.IsTable ∧ keys.count = values.count
  | .dictionary keys values =>
    KeysOk keys ∧ values.WF ∧ values.IsList ∧ keys.count = values.count
  | .table preamble _ names gap columns =>
    preamble.length = 3 ∧ names ≠ [] ∧ names.length ≤ i32Max ∧ (∀ name ∈ names, 0 ∉ name) ∧
      gap.length = 6 ∧ columns.length = names.length ∧
      ∀ column ∈ columns, column.WF ∧ column.BooleansOk ∧
        column.count = (columns.map NativeList.count).headD 0
  | .lambda context source => 0 ∉ context ∧ source.length ≤ i32Max
  | .primitive kType opcode =>
    101 ≤ kType ∧ kType ≤ 103 ∧ QValue.primitiveAccepted kType opcode = true

def AllWF : List Native → Prop
  | [] => True
  | tree :: trees => tree.WF ∧ AllWF trees

end

theorem allWF_iff {trees : List Native} : AllWF trees ↔ ∀ tree ∈ trees, tree.WF := by
  induction trees with
  | nil => simp [AllWF]
  | cons tree trees ih => simp [AllWF, ih]

mutual

/-- How a decoded value shows its tree. -/
def Shows : Native → K → Prop
  | .uniform list, k => HasLength list.count k
  | .mixed _ members, k => ∃ values, k = .MixedList values ∧ AllShow members values
  | .keyedTable keys _, k =>
    ∃ frame, k = .DataFrame frame ∧ frame.height = keys.count ∧ frame.columns ≠ []
  | .dictionary keys _, k => ∃ entries, k = .Dict entries ∧ entries.length = keys.count
  | .table _ _ _ _ columns, k => ∃ frame, k = .DataFrame frame ∧
      frame.height = (columns.map NativeList.count).headD 0 ∧ frame.columns.length = columns.length
  | _, k => k.IsScalar

def AllShow : List Native → List K → Prop
  | [], values => values = []
  | tree :: trees, values => ∃ value rest, values = value :: rest ∧ tree.Shows value ∧ AllShow trees rest

end

theorem allShow_length {trees : List Native} {values : List K} (h : AllShow trees values) :
    values.length = trees.length := by
  induction trees generalizing values with
  | nil =>
    obtain rfl : values = [] := h
    rfl
  | cons tree trees ih =>
    obtain ⟨value, rest, rfl, -, hrest⟩ := h
    simp [ih hrest]

end Native

end Xqdb
