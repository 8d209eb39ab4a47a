import Mathlib.Data.List.Sort

/-! Records whose properties are kept in an order of their own: those whose key has an index first,
by the index, then the others as they were made. -/

namespace PropertyOrder

/-- The order of two indexes. -/
def Precedes : Option Nat → Option Nat → Prop
  | some m, some n => m ≤ n
  | none, some _ => False
  | _, none => True

instance : DecidableRel Precedes
  | some m, some n => inferInstanceAs (Decidable (m ≤ n))
  | none, some _ => inferInstanceAs (Decidable False)
  | some _, none => inferInstanceAs (Decidable True)
  | none, none => inferInstanceAs (Decidable True)

theorem Precedes.total (a b : Option Nat) : Precedes a b ∨ Precedes b a := by
  cases a with
  | none => cases b <;> simp [Precedes]
  | some m =>
    cases b with
    | none => simp [Precedes]
    | some n => simpa [Precedes] using Nat.le_total m n

theorem Precedes.trans {a b c : Option Nat} (hab : Precedes a b) (hbc : Precedes b c) : Precedes a c := by
  cases a with
  | none =>
    cases b with
    | none => exact hbc
    | some n => exact hab.elim
  | some m =>
    cases c with
    | none => trivial
    | some p =>
      cases b with
      | none => exact hbc.elim
      | some n => exact Nat.le_trans hab hbc

section Records

variable {α β γ : Type} (index : α → Option Nat)

/-- The order of two properties. -/
def Before (p q : α × β) : Prop := Precedes (index p.1) (index q.1)

instance : DecidableRel (Before (β := β) index) := fun p q =>
  inferInstanceAs (Decidable (Precedes (index p.1) (index q.1)))

/-- A new property goes behind all that are not after it. -/
def place : List (α × β) → α × β → List (α × β)
  | [], p => [p]
  | q :: rest, p => if Before index q p then q :: place rest p else p :: q :: rest

/-- Sets a property: an old one keeps its place. -/
def define [DecidableEq α] (properties : List (α × β)) (key : α) (value : β) : List (α × β) :=
  if key ∈ properties.map Prod.fst then
    properties.map fun p => if p.1 = key then (key, value) else p
  else place index properties (key, value)

/-- The properties in their order. -/
def ordered (properties : List (α × β)) : List (α × β) := properties.insertionSort (Before index)

theorem place_orderedInsert (p q : α × β) (properties : List (α × β)) :
    place index (properties.orderedInsert (Before index) q) p =
      (place index properties p).orderedInsert (Before index) q := by
  induction properties with
  | nil =>
    rw [List.orderedInsert_nil, place, place, place, List.orderedInsert_cons, List.orderedInsert_nil]
  | cons r rest ih =>
    by_cases hqr : Before index q r
    · rw [List.orderedInsert_cons_of_le _ _ hqr, place, place]
      by_cases hrp : Before index r p
      · have hqp : Before index q p := hqr.trans hrp
        rw [if_pos hqp, if_pos hrp, List.orderedInsert_cons_of_le _ _ hqr]
      · rw [if_neg hrp, List.orderedInsert_cons, List.orderedInsert_cons_of_le _ _ hqr]
    · have hrq : Before index r q := (Precedes.total _ _).resolve_left hqr
      rw [List.orderedInsert_of_not_le _ _ hqr, place, place]
      by_cases hrp : Before index r p
      · rw [if_pos hrp, if_pos hrp, List.orderedInsert_of_not_le _ _ hqr, ih]
      · have hqp : ¬ Before index q p := fun hqp => hrp (hrq.trans hqp)
        rw [if_neg hrp, if_neg hrp, List.orderedInsert_of_not_le _ _ hqp, List.orderedInsert_of_not_le _ _ hqr]

/-- Placing one more is sorting one more. -/
theorem place_ordered (properties : List (α × β)) (p : α × β) :
    place index (ordered index properties) p = ordered index (properties ++ [p]) := by
  induction properties with
  | nil => rfl
  | cons q rest ih =>
    rw [ordered, List.insertionSort_cons, place_orderedInsert]
    exact congrArg (List.orderedInsert (Before index) q) ih

theorem mem_ordered {properties : List (α × β)} {p : α × β} :
    p ∈ ordered index properties ↔ p ∈ properties := List.mem_insertionSort _

theorem ordered_map (f : β → γ) (properties : List (α × β)) :
    (ordered index properties).map (fun p => (p.1, f p.2)) =
      ordered index (properties.map fun p => (p.1, f p.2)) :=
  List.map_insertionSort _ _ _ _ fun _ _ _ _ => Iff.rfl

/-- Properties with new keys end up in their order. -/
theorem define_ordered [DecidableEq α] {properties : List (α × β)} {key : α} (value : β)
    (hnew : key ∉ properties.map Prod.fst) :
    define index (ordered index properties) key value = ordered index (properties ++ [(key, value)]) := by
  have hnew' : key ∉ (ordered index properties).map Prod.fst := by
    intro hmem
    obtain ⟨p, hp, hkey⟩ := List.mem_map.mp hmem
    exact hnew (List.mem_map.mpr ⟨p, (mem_ordered index).mp hp, hkey⟩)
  rw [define, if_neg hnew', place_ordered]

theorem pairwise_ordered (properties : List (α × β)) : (ordered index properties).Pairwise (Before index) := by
  have htrans : IsTrans (α × β) (Before index) := ⟨fun _ _ _ => Precedes.trans⟩
  have htotal : Std.Total (Before (β := β) index) := ⟨fun _ _ => Precedes.total _ _⟩
  exact List.pairwise_insertionSort _ _

/-- They stay as they are exactly if they are in order. -/
theorem ordered_eq_self_iff {properties : List (α × β)} :
    ordered index properties = properties ↔ properties.Pairwise (Before index) := by
  constructor
  · intro h
    rw [← h]
    exact pairwise_ordered index properties
  · exact List.Pairwise.insertionSort_eq

end Records
end PropertyOrder
