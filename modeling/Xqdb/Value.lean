import Xqdb.Chrono
import Xqdb.Series
import Xqdb.QValue.Parser

/-! The value type `K` of `types.rs`. Floats are bit patterns. A dictionary is
the list of its entries in order; `K.KeysDistinct` is what `IndexMap` adds. -/

namespace Xqdb

/-- `uuid::Uuid`. -/
structure Guid where
  bytes : Bytes
  length_eq : bytes.length = 16
  deriving DecidableEq

inductive K where
  | Boolean (value : Bool)
  | Guid (value : Xqdb.Guid)
  | U8 (value : UInt8)
  | I16 (value : Int16)
  | I32 (value : Int32)
  | I64 (value : Int64)
  | F32 (bits : UInt32)
  | F64 (bits : UInt64)
  | Char (value : UInt8)
  | CharVector (value : Bytes)
  | Symbol (value : Str)
  | String (value : Str)
  | DateTime (value : Xqdb.DateTime)
  | Date (value : NaiveDate)
  | Time (value : NaiveTime)
  | Duration (value : Xqdb.Duration)
  | MixedList (values : List K)
  | Series (value : Xqdb.Series)
  | DataFrame (value : Xqdb.DataFrame)
  | Dict (entries : List (Str × K))
  | QValue (value : Xqdb.QValue)
  | Operator (value : QOperator)
  | Lambda (value : QLambda)
  | Null

namespace K

/-- A value with no values of its own inside. -/
def IsLeaf : K → Prop
  | .MixedList _ => False
  | .Dict _ => False
  | _ => True

/-- Induction over a value, the members of its lists and the values of its dictionaries. -/
theorem induct {motive : K → Prop} (leaf : ∀ k, k.IsLeaf → motive k)
    (mixedList : ∀ values, (∀ value ∈ values, motive value) → motive (.MixedList values))
    (dict : ∀ entries, (∀ entry ∈ entries, motive entry.2) → motive (.Dict entries)) :
    ∀ k, motive k := by
  intro k
  refine @K.rec motive (fun values => ∀ value ∈ values, motive value)
    (fun entries => ∀ entry ∈ entries, motive entry.2) (fun entry => motive entry.2)
    ?_ ?_ ?_ ?_ ?_ ?_ ?_ ?_ ?_ ?_ ?_ ?_ ?_ ?_ ?_ ?_ mixedList ?_ ?_ dict ?_ ?_ ?_ ?_ ?_ ?_ ?_ ?_ ?_ k
  all_goals first
    | exact fun _ => leaf _ trivial
    | exact leaf _ trivial
    | skip
  · simp
  · intro head tail hhead htail value hmem
    cases hmem with
    | head => exact hhead
    | tail _ hmem => exact htail value hmem
  · simp
  · intro head tail hhead htail entry hmem
    cases hmem with
    | head => exact hhead
    | tail _ hmem => exact htail entry hmem
  · intro key value hvalue
    exact hvalue

mutual

/-- Every dictionary in the value has different keys, as an `IndexMap` has. -/
def KeysDistinct : K → Prop
  | .MixedList values => AllKeysDistinct values
  | .Dict entries => (entries.map Prod.fst).Nodup ∧ EntriesKeysDistinct entries
  | _ => True

def AllKeysDistinct : List K → Prop
  | [] => True
  | value :: values => value.KeysDistinct ∧ AllKeysDistinct values

def EntriesKeysDistinct : List (Str × K) → Prop
  | [] => True
  | (_, value) :: entries => value.KeysDistinct ∧ EntriesKeysDistinct entries

end

theorem allKeysDistinct_iff {values : List K} :
    AllKeysDistinct values ↔ ∀ value ∈ values, value.KeysDistinct := by
  induction values with
  | nil => simp [AllKeysDistinct]
  | cons value values ih => simp [AllKeysDistinct, ih]

theorem entriesKeysDistinct_iff {entries : List (Str × K)} :
    EntriesKeysDistinct entries ↔ ∀ entry ∈ entries, entry.2.KeysDistinct := by
  induction entries with
  | nil => simp [EntriesKeysDistinct]
  | cons entry entries ih =>
    obtain ⟨key, value⟩ := entry
    simp [EntriesKeysDistinct, ih]

end K
end Xqdb
