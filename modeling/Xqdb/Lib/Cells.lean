import Mathlib.Algebra.BigOperators.Group.Multiset.Basic
import Mathlib.Tactic.Common

/-! A table whose rows hold at most one entry each, and the bag of its entries. An entry that
moves between tables, or changes in place, changes the bag by that entry only. -/

namespace Cells

variable {α β : Type}

/-- The entry of one row. -/
def single : Option β → Multiset β
  | none => 0
  | some b => {b}

@[simp] theorem single_none : single (none : Option β) = 0 := rfl

@[simp] theorem single_some (b : β) : single (some b) = {b} := rfl

/-- The entries of a table. -/
def content (entry : α → Option β) (rows : List α) : Multiset β := (rows.filterMap entry : List β)

variable {entry : α → Option β} {rows : List α}

@[simp] theorem content_nil : content entry [] = 0 := rfl

theorem content_cons (row : α) : content entry (row :: rows) = single (entry row) + content entry rows := by
  unfold content
  cases h : entry row with
  | none => simp [single, h]
  | some b => simp [single, h]

theorem content_append (more : List α) :
    content entry (rows ++ more) = content entry rows + content entry more := by
  simp [content, List.filterMap_append]

theorem content_push (row : α) : content entry (rows ++ [row]) = content entry rows + single (entry row) := by
  rw [content_append, content_cons, content_nil, add_zero]

/-- Writing one row exchanges its entry. -/
theorem content_set (entry : α → Option β) {old : α} (new : α) {i : Nat} (h : rows[i]? = some old) :
    content entry (rows.set i new) + single (entry old) = content entry rows + single (entry new) := by
  induction rows generalizing i with
  | nil => simp at h
  | cons row rows ih =>
    cases i with
    | zero =>
      obtain rfl : row = old := by simpa using h
      rw [List.set_cons_zero, content_cons, content_cons]
      ac_rfl
    | succ i =>
      rw [List.set_cons_succ, content_cons, content_cons, add_assoc, ih (by simpa using h), add_assoc]

/-- What a table shows after one row was written. -/
theorem getElem?_set_cases {new row : α} {i j : Nat} (h : (rows.set i new)[j]? = some row) :
    (j = i ∧ row = new) ∨ (j ≠ i ∧ rows[j]? = some row) := by
  by_cases heq : j = i
  · subst heq
    have hlt : j < rows.length := by
      simpa using (List.getElem?_eq_some_iff.mp h).1
    rw [List.getElem?_set_self hlt] at h
    exact .inl ⟨rfl, (Option.some.inj h).symm⟩
  · rw [List.getElem?_set_ne (Ne.symm heq)] at h
    exact .inr ⟨heq, h⟩

theorem mem_content_of_getElem? {i : Nat} {row : α} {b : β} (hrow : rows[i]? = some row)
    (hentry : entry row = some b) : b ∈ content entry rows := by
  unfold content
  rw [Multiset.mem_coe, List.mem_filterMap]
  exact ⟨row, List.mem_of_getElem? hrow, hentry⟩

/-- A table with no entries. -/
theorem content_eq_zero (h : ∀ row ∈ rows, entry row = none) : content entry rows = 0 := by
  unfold content
  rw [Multiset.coe_eq_zero, List.filterMap_eq_nil_iff]
  exact h

end Cells
