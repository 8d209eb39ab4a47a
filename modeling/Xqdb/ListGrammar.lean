import Xqdb.Cursor
import Xqdb.QValue.Wire

/-! The lists the native decoder can find the end of. Unlike the lossless grammar it
never looks at the attribute, and the count always has four bytes. -/

namespace Xqdb

open LittleEndian (encode)
open QValue (symbolBytes)

/-- A row of a nested list. -/
inductive NestedRow where
  | empty (attr : UInt8)
  | symbols (attr : UInt8) (texts : List Bytes)
  | fixed (kType attr : UInt8) (count : Nat) (payload : Bytes)
  deriving DecidableEq

namespace NestedRow

def kType : NestedRow → UInt8
  | .empty _ => 0
  | .symbols _ _ => 11
  | .fixed kType _ _ _ => kType

def encode : NestedRow → Bytes
  | .empty attr => 0 :: attr :: LittleEndian.encode 4 0
  | .symbols attr texts => 11 :: attr :: (LittleEndian.encode 4 texts.length ++ symbolBytes texts)
  | .fixed kType attr count payload => kType :: attr :: (LittleEndian.encode 4 count ++ payload)

def WF : NestedRow → Prop
  | .empty _ => True
  | .symbols _ texts => texts.length ≤ i32Max ∧ ∀ text ∈ texts, 0 ∉ text
  | .fixed kType _ count payload =>
    kType ∈ nestedTypes ∧ kType ≠ 11 ∧ count ≤ i32Max ∧ payload.length = count * typeSize kType

def attr : NestedRow → UInt8
  | .empty attr => attr
  | .symbols attr _ => attr
  | .fixed _ attr _ _ => attr

def count : NestedRow → Nat
  | .empty _ => 0
  | .symbols _ texts => texts.length
  | .fixed _ _ count _ => count

def payload : NestedRow → Bytes
  | .empty _ => []
  | .symbols _ texts => symbolBytes texts
  | .fixed _ _ _ payload => payload

theorem encode_eq (row : NestedRow) :
    row.encode = row.kType :: row.attr :: (LittleEndian.encode 4 row.count ++ row.payload) := by
  cases row with
  | empty attr => simp [encode, kType, NestedRow.attr, count, payload]
  | symbols attr texts => rfl
  | fixed kType attr count payload => rfl

theorem count_le (row : NestedRow) (h : row.WF) : row.count ≤ i32Max := by
  cases row with
  | empty attr => exact Nat.zero_le _
  | symbols attr texts => exact h.1
  | fixed kType attr count payload => exact h.2.2.1

/-- A row in a list whose rows have the type `child`. -/
def Fits (child : UInt8) (row : NestedRow) : Prop := row.WF ∧ (row.kType = child ∨ row.kType = 0)

def encodeAll : List NestedRow → Bytes
  | [] => []
  | row :: rows => row.encode ++ encodeAll rows

end NestedRow

inductive NativeList where
  | fixed (kType attr : UInt8) (count : Nat) (payload : Bytes)
  | symbols (attr : UInt8) (texts : List Bytes)
  | nested (attr : UInt8) (rows : List NestedRow)
  deriving DecidableEq

namespace NativeList

def kType : NativeList → UInt8
  | .fixed kType _ _ _ => kType
  | .symbols _ _ => 11
  | .nested _ _ => 0

/-- Everything behind the type byte. -/
def body : NativeList → Bytes
  | .fixed _ attr count payload => attr :: (encode 4 count ++ payload)
  | .symbols attr texts => attr :: (encode 4 texts.length ++ symbolBytes texts)
  | .nested attr rows => attr :: (encode 4 rows.length ++ NestedRow.encodeAll rows)

/-- All rows are of the first row's type, or empty general lists behind it. -/
def RowsFit : List NestedRow → Prop
  | [] => True
  | row :: rows => row.kType ∈ nestedTypes ∧ ∀ other ∈ row :: rows, other.Fits row.kType

def WF : NativeList → Prop
  | .fixed kType _ count payload =>
    1 ≤ kType ∧ kType ≤ 19 ∧ kType ≠ 11 ∧ 0 < typeSize kType ∧ count ≤ i32Max ∧
      payload.length = count * typeSize kType
  | .symbols _ texts => texts.length ≤ i32Max ∧ ∀ text ∈ texts, 0 ∉ text
  | .nested _ rows => rows.length ≤ i32Max ∧ RowsFit rows

end NativeList

section Scan

variable {vec rest : Bytes} {pos : Nat}

/-- Symbols on the whole slice. -/
theorem scanSymbols_eq_ok (h : At vec pos rest) {context : String} {rows : Nat}
    {result : ScanOutcome × Nat × Nat} :
    scanSymbols vec vec.length context rows pos = .ok result ↔
      ∃ texts rest', texts.length = rows ∧ (∀ text ∈ texts, 0 ∉ text) ∧
        rest = symbolBytes texts ++ rest' ∧
        result = (.Complete (pos + (symbolBytes texts).length),
          pos + (symbolBytes texts).length, 0) := by
  induction rows generalizing pos rest with
  | zero =>
    constructor
    · intro hok
      cases hok
      exact ⟨[], rest, rfl, by simp, rfl, rfl⟩
    · rintro ⟨texts, rest', hlen, -, -, rfl⟩
      obtain rfl := List.length_eq_zero_iff.mp hlen
      rfl
  | succ rows ih =>
    rw [scanSymbols, sliceFrom, if_pos h.within, Exec.ok_bind, h.ahead]
    cases hnul : memchr rest with
    | none =>
      simp only [Nat.lt_irrefl, if_false, Exec.err_ne_ok, false_iff]
      rintro ⟨texts, rest', hlen, -, rfl, -⟩
      cases texts with
      | nil => cases hlen
      | cons text texts => exact memchr_eq_none.mp hnul (by simp [symbolBytes])
    | some terminator =>
      obtain ⟨text, tail, rfl, hclean, rfl⟩ := memchr_eq_some.mp hnul
      have hnext : At vec (pos + (text.length + 1)) tail := by
        have := @At.skip vec tail pos (text ++ [0]) (by simpa using h)
        simpa using this
      simp only
      rw [ih hnext]
      constructor
      · rintro ⟨texts, rest', hlen, hall, rfl, rfl⟩
        refine ⟨text :: texts, rest', by simp [hlen], ?_, by simp [symbolBytes], ?_⟩
        · intro other hother
          cases hother with
          | head => exact hclean
          | tail _ hother => exact hall other hother
        · simp only [symbolBytes, List.length_append, List.length_cons, Prod.mk.injEq,
            ScanOutcome.Complete.injEq, and_true]
          omega
      · rintro ⟨texts, rest', hlen, hall, hrest, rfl⟩
        cases texts with
        | nil => cases hlen
        | cons first texts =>
          simp only [symbolBytes, List.append_assoc, List.cons_append] at hrest
          have hsame : text.length = first.length := by
            have h₁ : memchr (text ++ 0 :: tail) = some text.length := memchr_append_zero hclean
            have h₂ := @memchr_append_zero first (symbolBytes texts ++ rest') (hall first (by simp))
            rw [← hrest, h₁] at h₂
            exact Option.some.inj h₂
          obtain ⟨rfl, htail⟩ := List.append_inj hrest hsame
          rw [List.cons.injEq] at htail
          refine ⟨texts, rest', by simpa using hlen, fun other hother => hall other (by simp [hother]),
            htail.2, ?_⟩
          simp only [symbolBytes, List.length_append, List.length_cons, Prod.mk.injEq,
            ScanOutcome.Complete.injEq, and_true]
          omega

theorem nestedSymbols_eq_ok (h : At vec pos rest) {child : Option UInt8} {count : Nat}
    {outcome : RowOutcome} :
    nestedSymbols vec vec.length ⟨pos, child, count⟩ = .ok outcome ↔
      ∃ texts rest', texts.length = count ∧ (∀ text ∈ texts, 0 ∉ text) ∧
        rest = symbolBytes texts ++ rest' ∧
        outcome = .done ⟨pos + (symbolBytes texts).length, child, 0⟩ := by
  simp only [nestedSymbols, Exec.bind_eq_ok, Prod.exists, scanSymbols_eq_ok h]
  constructor
  · rintro ⟨_, _, _, ⟨texts, rest', hlen, hall, hrest, heq⟩, hok⟩
    simp only [Prod.mk.injEq] at heq
    obtain ⟨rfl, rfl, rfl⟩ := heq
    cases hok
    exact ⟨texts, rest', hlen, hall, hrest, rfl⟩
  · rintro ⟨texts, rest', hlen, hall, hrest, rfl⟩
    exact ⟨_, _, _, ⟨texts, rest', hlen, hall, hrest, rfl⟩, rfl⟩

theorem nestedPayload_eq_ok (h : At vec pos rest) {child : Option UInt8} {kType : UInt8}
    {count : Nat} {outcome : RowOutcome} :
    nestedPayload vec vec.length kType count ⟨pos, child, 0⟩ = .ok outcome ↔
      ∃ payload rest', payload.length = count * typeSize kType ∧ rest = payload ++ rest' ∧
        outcome = .done ⟨pos + payload.length, child, 0⟩ := by
  have hlen := h.length_eq
  have hbound := h.bounded
  simp only [nestedPayload, Exec.bind_eq_ok, Exec.okOr_eq_ok, checkedMul_eq_some, checkedAdd_eq_some]
  constructor
  · rintro ⟨_, ⟨rfl, -⟩, _, ⟨rfl, -⟩, hok⟩
    split at hok
    · cases hok
    · cases hok
      refine ⟨rest.take (count * typeSize kType), rest.drop (count * typeSize kType), ?_,
        (List.take_append_drop _ _).symm, ?_⟩
      · rw [List.length_take]
        omega
      · rw [List.length_take, Nat.min_eq_left (by omega)]
  · rintro ⟨payload, rest', hpayload, rfl, rfl⟩
    rw [List.length_append] at hlen
    refine ⟨_, ⟨rfl, by omega⟩, _, ⟨rfl, by omega⟩, ?_⟩
    rw [if_neg (by omega), if_neg (by omega), hpayload]

/-- The type the rows have from here on. -/
theorem rowType_eq_ok {child : Option UInt8} {current kType : UInt8} :
    rowType child current = .ok kType ↔
      child = some kType ∨ child = none ∧ current ∈ nestedTypes ∧ kType = current := by
  cases child with
  | some childType => simp [rowType]
  | none =>
    simp only [rowType, reduceCtorEq, true_and, false_or]
    split
    · next h => simp [h, eq_comm]
    · next h => simp [h]

/-- What a row must be, given the type seen so far. -/
def FitsAfter (child : Option UInt8) (row : NestedRow) : Prop :=
  match child with
  | some kType => row.Fits kType
  | none => row.kType ∈ nestedTypes ∧ row.WF

theorem nestedTypes_cases {kType : UInt8} (h : kType ∈ nestedTypes) : kType ≠ 0 := by
  rintro rfl
  exact absurd h (by decide)

theorem nestedTypes_getD {child : Option UInt8} {row : NestedRow}
    (hchild : ∀ kType, child = some kType → kType ∈ nestedTypes) (h : FitsAfter child row) :
    child.getD row.kType ∈ nestedTypes := by
  cases child with
  | some kType => exact hchild kType rfl
  | none => exact h.1

/-- Rows behind rows of the type `child`. -/
def RowsAfter : Option UInt8 → List NestedRow → Prop
  | _, [] => True
  | child, row :: rows => FitsAfter child row ∧ RowsAfter (some (child.getD row.kType)) rows

def typeAfter : Option UInt8 → List NestedRow → Option UInt8
  | child, [] => child
  | child, row :: rows => typeAfter (some (child.getD row.kType)) rows

/-- What follows the header of a row. -/
theorem nestedBody_eq_ok (h : At vec pos rest) {childType kType : UInt8} {child : Option UInt8}
    {count : Nat} {outcome : RowOutcome} (attr : UInt8) (hkind : kType ∈ nestedTypes ∨ kType = 0)
    (hcount : count ≤ i32Max) :
    nestedBody vec vec.length childType kType count ⟨pos, child, 0⟩ = .ok outcome ↔
      ∃ (row : NestedRow) (rest' : Bytes), row.WF ∧ row.kType = kType ∧ row.attr = attr ∧ row.count = count ∧
        rest = row.payload ++ rest' ∧ outcome = .done ⟨pos + row.payload.length, child, 0⟩ := by
  constructor
  · intro hok
    unfold nestedBody at hok
    split at hok
    · next hzero =>
      split at hok
      · cases hok
      next hempty =>
      rw [not_not] at hempty
      cases hok
      subst hzero hempty
      exact ⟨.empty attr, rest, trivial, rfl, rfl, rfl, rfl, rfl⟩
    next hne =>
    split at hok
    · next heleven =>
      subst heleven
      split at hok
      · next hempty =>
        cases hok
        subst hempty
        exact ⟨.symbols attr [], rest, ⟨Nat.zero_le _, by simp⟩, rfl, rfl, rfl, rfl, rfl⟩
      · obtain ⟨texts, rest', rfl, hall, rfl, rfl⟩ := (nestedSymbols_eq_ok h).mp hok
        exact ⟨.symbols attr texts, rest', ⟨hcount, hall⟩, rfl, rfl, rfl, rfl, rfl⟩
    next hsymbol =>
    obtain ⟨payload, rest', hlen, rfl, rfl⟩ := (nestedPayload_eq_ok h).mp hok
    exact ⟨.fixed kType attr count payload, rest', ⟨hkind.resolve_right hne, hsymbol, hcount, hlen⟩,
      rfl, rfl, rfl, rfl, rfl⟩
  · rintro ⟨row, rest', hwf, rfl, -, rfl, rfl, rfl⟩
    cases row with
    | empty attr => simp [nestedBody, NestedRow.kType, NestedRow.count, NestedRow.payload]
    | symbols attr texts =>
      change nestedBody vec vec.length childType 11 texts.length ⟨pos, child, 0⟩ = _
      rw [nestedBody, if_neg (by decide), if_pos rfl]
      split
      · next hempty =>
        obtain rfl := List.length_eq_zero_iff.mp hempty
        rfl
      · exact (nestedSymbols_eq_ok h).mpr ⟨texts, rest', rfl, hwf.2, rfl, rfl⟩
    | fixed kType attr count payload =>
      obtain ⟨hmem, hsymbol, -, hlen⟩ := hwf
      change nestedBody vec vec.length childType kType count ⟨pos, child, 0⟩ = _
      rw [nestedBody, if_neg (nestedTypes_cases hmem), if_neg hsymbol]
      exact (nestedPayload_eq_ok h).mpr ⟨payload, rest', hlen, rfl, rfl⟩

theorem nestedHeader_eq_ok (h : At vec pos rest) {child : Option UInt8} {outcome : RowOutcome}
    (hchild : ∀ kType, child = some kType → kType ∈ nestedTypes) :
    nestedHeader vec vec.length ⟨pos, child, 0⟩ = .ok outcome ↔
      ∃ row rest', FitsAfter child row ∧ rest = row.encode ++ rest' ∧
        outcome = .done ⟨pos + row.encode.length, some (child.getD row.kType), 0⟩ := by
  constructor
  · intro hok
    simp only [nestedHeader, Exec.bind_eq_ok, index_eq_ok, rowType_eq_ok] at hok
    obtain ⟨current, hcurrent, childType, hrowType, hok⟩ := hok
    rw [h.getElem?_eq, List.head?_eq_some_iff] at hcurrent
    obtain ⟨rest₁, rfl⟩ := hcurrent
    split at hok
    · cases hok
    next hmatch =>
    simp only [Exec.bind_eq_ok, Prod.exists, takeListLength_eq_ok h.skip_one] at hok
    obtain ⟨count, _, ⟨attr, rest₂, rfl, hcount, rfl⟩, hok⟩ := hok
    have hnested : childType ∈ nestedTypes := by
      rcases hrowType with hsome | ⟨-, hmem, rfl⟩
      · exact hchild _ hsome
      · exact hmem
    have hcurrent : current ∈ nestedTypes ∨ current = 0 := by
      by_contra hnot
      rw [not_or] at hnot
      exact hmatch ⟨fun heq => hnot.1 (heq ▸ hnested), hnot.2⟩
    have hat : At vec (pos + 1 + 5) rest₂ := by
      have := @At.skip vec rest₂ (pos + 1) (attr :: encode 4 count) (by simpa using h.skip_one)
      simpa using this
    obtain ⟨row, rest', hwf, rfl, rfl, rfl, rfl, rfl⟩ := (nestedBody_eq_ok hat attr hcurrent hcount).mp hok
    -- whatever the row is, its type is the one seen before or the first one
    have hfits : FitsAfter child row ∧ child.getD row.kType = childType := by
      rcases hrowType with rfl | ⟨rfl, hmem, rfl⟩
      · refine ⟨⟨hwf, ?_⟩, rfl⟩
        by_contra hne
        exact hmatch (not_or.mp hne)
      · exact ⟨⟨hmem, hwf⟩, rfl⟩
    refine ⟨row, rest', hfits.1, by simp [row.encode_eq], ?_⟩
    rw [hfits.2]
    simp [row.encode_eq]
    omega
  · rintro ⟨row, rest', hfits, rfl, rfl⟩
    have hrowType : rowType child row.kType = .ok (child.getD row.kType) := by
      rw [rowType_eq_ok]
      cases child with
      | some kType => exact .inl rfl
      | none => exact .inr ⟨rfl, hfits.1, rfl⟩
    have hmatch : ¬ (row.kType ≠ child.getD row.kType ∧ row.kType ≠ 0) := by
      cases child with
      | some kType => exact fun hne => hfits.2.elim hne.1 hne.2
      | none => exact fun hne => hne.1 rfl
    have hwf : row.WF := by
      cases child with
      | some kType => exact hfits.1
      | none => exact hfits.2
    have hkind : row.kType ∈ nestedTypes ∨ row.kType = 0 := by
      cases row with
      | empty attr => exact .inr rfl
      | symbols attr texts => exact .inl (by simp [NestedRow.kType, nestedTypes])
      | fixed kType attr count payload => exact .inl hwf.1
    rw [row.encode_eq] at h ⊢
    have hindex : index vec pos = .ok row.kType := index_eq_ok.mpr h.getElem?
    have hlength := (@takeListLength_eq_ok _ _ _ h.skip_one _ _ "q nested-list element").mpr
      ⟨row.attr, row.payload ++ rest', by simp, row.count_le hwf, rfl⟩
    have hat : At vec (pos + 1 + 5) (row.payload ++ rest') := by
      have := @At.skip vec (row.payload ++ rest') (pos + 1) (row.attr :: encode 4 row.count)
        (by simpa using h.skip_one)
      simpa using this
    simp only [nestedHeader, hindex, Exec.ok_bind, hrowType, if_neg hmatch, hlength]
    rw [nestedBody_eq_ok hat row.attr hkind (row.count_le hwf)]
    refine ⟨row, rest', hwf, rfl, rfl, rfl, rfl, ?_⟩
    congr 2
    simp
    omega

theorem nestedRow_eq_ok (h : At vec pos rest) {child : Option UInt8} {outcome : RowOutcome}
    (hchild : ∀ kType, child = some kType → kType ∈ nestedTypes) :
    nestedRow vec vec.length ⟨pos, child, 0⟩ = .ok outcome ↔
      ∃ row rest', FitsAfter child row ∧ rest = row.encode ++ rest' ∧
        outcome = .done ⟨pos + row.encode.length, some (child.getD row.kType), 0⟩ := by
  by_cases hshort : vec.length < saturatingAdd pos 6
  · have hnot : ∀ outcome, nestedRow vec vec.length ⟨pos, child, 0⟩ ≠ .ok outcome := by
      intro outcome
      simp only [nestedRow, Nat.lt_irrefl, if_false, if_pos hshort, incompleteOrOverrun]
      simp
    simp only [hnot, false_iff]
    rintro ⟨row, rest', -, rfl, -⟩
    have hlen := h.length_eq
    rw [List.length_append, row.encode_eq] at hlen
    simp only [List.length_cons, List.length_append, LittleEndian.encode_length] at hlen
    simp only [saturatingAdd] at hshort
    omega
  · simp only [nestedRow, Nat.lt_irrefl, if_false, if_neg hshort]
    exact nestedHeader_eq_ok h hchild

/-- Rows that follow one another on the whole slice. -/
theorem nestedRows_eq_ok (h : At vec pos rest) {child : Option UInt8} {count : Nat}
    {outcome : ScanOutcome} {cursor : RowCursor} {left : Nat}
    (hchild : ∀ kType, child = some kType → kType ∈ nestedTypes) :
    nestedRows vec vec.length count ⟨pos, child, 0⟩ = .ok (outcome, cursor, left) ↔
      ∃ rows rest', rows.length = count ∧ RowsAfter child rows ∧
        rest = NestedRow.encodeAll rows ++ rest' ∧ left = 0 ∧
        outcome = .Complete (pos + (NestedRow.encodeAll rows).length) ∧
        cursor = ⟨pos + (NestedRow.encodeAll rows).length, typeAfter child rows, 0⟩ := by
  induction count generalizing pos rest child with
  | zero =>
    simp only [nestedRows, if_pos h.within, Except.ok.injEq, Prod.mk.injEq]
    constructor
    · rintro ⟨rfl, rfl, rfl⟩
      exact ⟨[], rest, rfl, trivial, rfl, rfl, rfl, rfl⟩
    · rintro ⟨rows, rest', hlen, -, -, rfl, rfl, rfl⟩
      obtain rfl := List.length_eq_zero_iff.mp hlen
      exact ⟨rfl, rfl, rfl⟩
  | succ count ih =>
    simp only [nestedRows, Exec.bind_eq_ok, nestedRow_eq_ok h hchild]
    constructor
    · rintro ⟨_, ⟨row, rest₁, hfits, rfl, rfl⟩, hok⟩
      have hnext := nestedTypes_getD hchild hfits
      rw [ih h.skip (fun kType heq => Option.some.inj heq ▸ hnext)] at hok
      obtain ⟨rows, rest', rfl, hrows, rfl, rfl, rfl, rfl⟩ := hok
      exact ⟨row :: rows, rest', rfl, ⟨hfits, hrows⟩, by simp [NestedRow.encodeAll], rfl,
        by simp [NestedRow.encodeAll, Nat.add_assoc], by simp [NestedRow.encodeAll, Nat.add_assoc, typeAfter]⟩
    · rintro ⟨rows, rest', hlen, hrows, rfl, rfl, rfl, rfl⟩
      cases rows with
      | nil => cases hlen
      | cons row rows =>
        have hnext := nestedTypes_getD hchild hrows.1
        simp only [NestedRow.encodeAll, List.append_assoc] at h
        refine ⟨_, ⟨row, NestedRow.encodeAll rows ++ rest', hrows.1, by simp [NestedRow.encodeAll], rfl⟩, ?_⟩
        simp only
        rw [ih h.skip (fun kType heq => Option.some.inj heq ▸ hnext)]
        exact ⟨rows, rest', by simpa using hlen, hrows.2, rfl, rfl,
          by simp [NestedRow.encodeAll, Nat.add_assoc], by simp [NestedRow.encodeAll, Nat.add_assoc, typeAfter]⟩

/-- Rows without a type seen before are the rows of a well-formed list. -/
theorem rowsAfter_some {kType : UInt8} {rows : List NestedRow} :
    RowsAfter (some kType) rows ↔ ∀ row ∈ rows, row.Fits kType := by
  induction rows with
  | nil => simp [RowsAfter]
  | cons row rows ih => simp [RowsAfter, FitsAfter, ih]

theorem rowsAfter_none {rows : List NestedRow} : RowsAfter none rows ↔ NativeList.RowsFit rows := by
  cases rows with
  | nil => simp [RowsAfter, NativeList.RowsFit]
  | cons row rows =>
    simp only [RowsAfter, FitsAfter, NativeList.RowsFit, Option.getD_none, rowsAfter_some,
      List.mem_cons, forall_eq_or_imp, NestedRow.Fits, true_or, and_true]
    exact and_assoc

theorem takeHeader_eq_ok {kType : UInt8} {scan : ListScan} (h : At vec pos rest) :
    (⟨kType, none, ⟨pos, none, 0⟩⟩ : ListScan).takeHeader vec vec.length = .ok (some scan) ↔
      ∃ attr count rest', rest = attr :: (encode 4 count ++ rest') ∧ count ≤ i32Max ∧
        if kType = 0 ∨ kType = 11 then scan = ⟨kType, some count, ⟨pos + 5, none, 0⟩⟩
        else count * typeSize kType ≤ rest'.length ∧
          scan = ⟨kType, some 0, ⟨pos + 5 + count * typeSize kType, none, 0⟩⟩ := by
  have hlen := h.length_eq
  have hbound := h.bounded
  by_cases hshort : vec.length < saturatingAdd pos 5
  · simp only [ListScan.takeHeader, if_pos hshort, incompleteOrOverrun, Exec.err_bind,
      Exec.err_ne_ok, false_iff]
    rintro ⟨attr, count, rest', rfl, -, -⟩
    simp only [List.length_cons, List.length_append, LittleEndian.encode_length] at hlen
    simp only [saturatingAdd] at hshort
    omega
  · simp only [ListScan.takeHeader, if_neg hshort, Exec.bind_eq_ok, Prod.exists,
      takeListLength_eq_ok h]
    constructor
    · rintro ⟨count, _, ⟨attr, rest', rfl, hcount, rfl⟩, hok⟩
      refine ⟨attr, count, rest', rfl, hcount, ?_⟩
      split at hok
      · next hkind =>
        cases hok
        rw [if_pos hkind]
      next hkind =>
      rw [if_neg hkind]
      simp only [Exec.bind_eq_ok, ListScan.fixedEnd, Exec.okOr_eq_ok, checkedMul_eq_some,
        checkedAdd_eq_some, Except.ok.injEq, Option.some.injEq] at hok
      obtain ⟨_, ⟨_, ⟨rfl, -⟩, _, ⟨rfl, -⟩, hok⟩, rfl⟩ := hok
      split at hok
      · cases hok
      cases hok
      simp only [List.length_cons, List.length_append, LittleEndian.encode_length] at hlen
      exact ⟨by omega, rfl⟩
    · rintro ⟨attr, count, rest', rfl, hcount, hscan⟩
      refine ⟨count, pos + 5, ⟨attr, rest', rfl, hcount, rfl⟩, ?_⟩
      split at hscan
      · next hkind => rw [if_pos hkind, hscan]
      next hkind =>
      obtain ⟨hfits, rfl⟩ := hscan
      simp only [List.length_cons, List.length_append, LittleEndian.encode_length] at hlen
      have hmul : checkedMul count (typeSize kType) = some (count * typeSize kType) :=
        checkedMul_eq_some.mpr ⟨rfl, by omega⟩
      have hadd : checkedAdd (pos + 5) (count * typeSize kType) =
          some (pos + 5 + count * typeSize kType) := checkedAdd_eq_some.mpr ⟨rfl, by omega⟩
      rw [if_neg hkind]
      simp only [ListScan.fixedEnd, hmul, hadd, Exec.okOr_some, Exec.ok_bind]
      rw [if_neg (by omega)]
      rfl

theorem new_eq_ok {kType : UInt8} {scan : ListScan} :
    ListScan.new kType pos = .ok scan ↔
      (kType = 0 ∨ kType = 11 ∨ (1 ≤ kType ∧ kType ≤ 19 ∧ 0 < typeSize kType)) ∧
        scan = ⟨kType, none, ⟨pos, none, 0⟩⟩ := by
  unfold ListScan.new
  split
  · next h => simp [h, eq_comm]
  · next h => simp [h]

theorem advance_fresh {kType : UInt8} {stop : Nat} {scan : ListScan} :
    (⟨kType, none, ⟨pos, none, 0⟩⟩ : ListScan).advance vec vec.length = .ok (.Complete stop, scan) ↔
      ∃ next, (⟨kType, none, ⟨pos, none, 0⟩⟩ : ListScan).takeHeader vec vec.length =
          .ok (some next) ∧
        next.advanceRows vec vec.length = .ok (.Complete stop, scan) := by
  simp only [ListScan.advance, Exec.bind_eq_ok]
  constructor
  · rintro ⟨header, hheader, hok⟩
    cases header with
    | none => cases hok
    | some next => exact ⟨next, hheader, hok⟩
  · rintro ⟨next, hheader, hok⟩
    exact ⟨some next, hheader, hok⟩

theorem calculateArrayEndIndex_eq {kType : UInt8} {stop : Nat} :
    calculateArrayEndIndex vec pos kType = .ok stop ↔
      (kType = 0 ∨ kType = 11 ∨ (1 ≤ kType ∧ kType ≤ 19 ∧ 0 < typeSize kType)) ∧
      ∃ next scan, (⟨kType, none, ⟨pos, none, 0⟩⟩ : ListScan).takeHeader vec vec.length =
          .ok (some next) ∧
        next.advanceRows vec vec.length = .ok (.Complete stop, scan) := by
  simp only [calculateArrayEndIndex, Exec.bind_eq_ok, new_eq_ok, Prod.exists]
  constructor
  · rintro ⟨_, ⟨hkind, rfl⟩, outcome, scan, hadvance, hok⟩
    cases outcome with
    | Incomplete => cases hok
    | Complete stop' =>
      cases hok
      obtain ⟨next, hheader, hrows⟩ := advance_fresh.mp hadvance
      exact ⟨hkind, next, scan, hheader, hrows⟩
  · rintro ⟨hkind, next, scan, hheader, hrows⟩
    exact ⟨_, ⟨hkind, rfl⟩, _, scan, advance_fresh.mpr ⟨next, hheader, hrows⟩, rfl⟩

/-- What stands behind a header of five bytes. -/
theorem At.header {attr : UInt8} {count : Nat} (h : At vec pos (attr :: (encode 4 count ++ rest))) :
    At vec (pos + 5) rest := by
  have := @At.skip vec rest pos (attr :: encode 4 count) (by simpa using h)
  simpa using this

theorem endIndex_symbols (h : At vec pos rest) {stop : Nat} :
    calculateArrayEndIndex vec pos 11 = .ok stop ↔
      ∃ attr texts rest', texts.length ≤ i32Max ∧ (∀ text ∈ texts, 0 ∉ text) ∧
        rest = attr :: (encode 4 texts.length ++ (symbolBytes texts ++ rest')) ∧
        stop = pos + 5 + (symbolBytes texts).length := by
  rw [calculateArrayEndIndex_eq]
  simp only [takeHeader_eq_ok h, or_true, true_or, if_true, true_and]
  constructor
  · rintro ⟨_, scan, ⟨attr, count, rest₁, rfl, hcount, rfl⟩, hok⟩
    rw [ListScan.advanceRows, if_pos rfl] at hok
    simp only [Exec.bind_eq_ok, Prod.exists, Except.ok.injEq, Prod.mk.injEq] at hok
    obtain ⟨_, _, _, hscan, rfl, -⟩ := hok
    rw [scanSymbols_eq_ok h.header] at hscan
    obtain ⟨texts, rest', hlen, hall, rfl, heq⟩ := hscan
    simp only [Prod.mk.injEq, ScanOutcome.Complete.injEq] at heq
    have hlen' : texts.length = count := hlen
    subst hlen'
    exact ⟨attr, texts, rest', hcount, hall, rfl, heq.1⟩
  · rintro ⟨attr, texts, rest', hcount, hall, rfl, rfl⟩
    have hscan := (@scanSymbols_eq_ok _ _ _ h.header "q symbol-list value" _ _).mpr
      ⟨texts, rest', rfl, hall, rfl, rfl⟩
    refine ⟨_, ⟨11, some 0, ⟨pos + 5 + (symbolBytes texts).length, none, 0⟩⟩,
      ⟨attr, texts.length, _, rfl, hcount, rfl⟩, ?_⟩
    rw [ListScan.advanceRows, if_pos rfl]
    simp only [Option.getD_some, hscan, Exec.ok_bind]

theorem endIndex_nested (h : At vec pos rest) {stop : Nat} :
    calculateArrayEndIndex vec pos 0 = .ok stop ↔
      ∃ attr rows rest', rows.length ≤ i32Max ∧ NativeList.RowsFit rows ∧
        rest = attr :: (encode 4 rows.length ++ (NestedRow.encodeAll rows ++ rest')) ∧
        stop = pos + 5 + (NestedRow.encodeAll rows).length := by
  have hkind : ¬ (0 : UInt8) = 11 := by decide
  rw [calculateArrayEndIndex_eq]
  simp only [takeHeader_eq_ok h, true_or, if_true, true_and]
  constructor
  · rintro ⟨_, scan, ⟨attr, count, rest₁, rfl, hcount, rfl⟩, hok⟩
    rw [ListScan.advanceRows, if_neg hkind, if_pos rfl] at hok
    simp only [Exec.bind_eq_ok, Prod.exists, Except.ok.injEq, Prod.mk.injEq] at hok
    obtain ⟨_, _, _, hscan, rfl, -⟩ := hok
    rw [nestedRows_eq_ok h.header (by simp)] at hscan
    obtain ⟨rows, rest', hlen, hall, rfl, -, heq, -⟩ := hscan
    have hlen' : rows.length = count := hlen
    subst hlen'
    exact ⟨attr, rows, rest', hcount, rowsAfter_none.mp hall, rfl, ScanOutcome.Complete.inj heq⟩
  · rintro ⟨attr, rows, rest', hcount, hall, rfl, rfl⟩
    have hscan := (nestedRows_eq_ok h.header (by simp)).mpr
      ⟨rows, rest', rfl, rowsAfter_none.mpr hall, rfl, rfl, rfl, rfl⟩
    refine ⟨_, ⟨0, some 0, ⟨pos + 5 + (NestedRow.encodeAll rows).length, typeAfter none rows, 0⟩⟩,
      ⟨attr, rows.length, _, rfl, hcount, rfl⟩, ?_⟩
    rw [ListScan.advanceRows, if_neg hkind, if_pos rfl]
    simp only [Option.getD_some, hscan, Exec.ok_bind]

theorem endIndex_fixed (h : At vec pos rest) {kType : UInt8} (hkind : ¬ (kType = 0 ∨ kType = 11))
    {stop : Nat} :
    calculateArrayEndIndex vec pos kType = .ok stop ↔
      (1 ≤ kType ∧ kType ≤ 19 ∧ 0 < typeSize kType) ∧
      ∃ attr count payload rest', count ≤ i32Max ∧ payload.length = count * typeSize kType ∧
        rest = attr :: (encode 4 count ++ (payload ++ rest')) ∧
        stop = pos + 5 + payload.length := by
  have hzero : ¬ kType = 0 := fun hk => hkind (.inl hk)
  have heleven : ¬ kType = 11 := fun hk => hkind (.inr hk)
  rw [calculateArrayEndIndex_eq]
  simp only [takeHeader_eq_ok h, hzero, heleven, false_or]
  refine and_congr_right fun _ => ?_
  constructor
  · rintro ⟨_, scan, ⟨attr, count, rest₁, rfl, hcount, hfits, rfl⟩, hok⟩
    rw [ListScan.advanceRows, if_neg heleven, if_neg hzero] at hok
    split at hok
    · cases hok
      refine ⟨attr, count, rest₁.take (count * typeSize kType), rest₁.drop (count * typeSize kType),
        hcount, ?_, ?_, ?_⟩
      · rw [List.length_take]
        omega
      · rw [List.take_append_drop]
      · rw [List.length_take, Nat.min_eq_left hfits]
    · cases hok
  · rintro ⟨attr, count, payload, rest', hcount, hlen, rfl, rfl⟩
    have hat := h.header.skip
    refine ⟨_, ⟨kType, some 0, ⟨pos + 5 + count * typeSize kType, none, 0⟩⟩,
      ⟨attr, count, payload ++ rest', rfl, hcount, by simp; omega, rfl⟩, ?_⟩
    rw [ListScan.advanceRows, if_neg heleven, if_neg hzero, if_pos, hlen]
    simp only
    rw [← hlen]
    exact hat.within

/-- **The end of a list** is found exactly where a well-formed list stands. -/
theorem calculateArrayEndIndex_eq_ok (h : At vec pos rest) {kType : UInt8} {stop : Nat} :
    calculateArrayEndIndex vec pos kType = .ok stop ↔
      ∃ (list : NativeList) (rest' : Bytes), list.WF ∧ list.kType = kType ∧
        rest = list.body ++ rest' ∧ stop = pos + list.body.length := by
  by_cases heleven : kType = 11
  · subst heleven
    rw [endIndex_symbols h]
    constructor
    · rintro ⟨attr, texts, rest', hcount, hall, rfl, rfl⟩
      exact ⟨.symbols attr texts, rest', ⟨hcount, hall⟩, rfl, by simp [NativeList.body], by
        simp [NativeList.body]
        omega⟩
    · rintro ⟨list, rest', hwf, hkind, rfl, rfl⟩
      cases list with
      | symbols attr texts =>
        exact ⟨attr, texts, rest', hwf.1, hwf.2, by simp [NativeList.body], by
          simp [NativeList.body]
          omega⟩
      | nested attr rows => simp [NativeList.kType] at hkind
      | fixed kType attr count payload => exact absurd hkind hwf.2.2.1
  by_cases hzero : kType = 0
  · subst hzero
    rw [endIndex_nested h]
    constructor
    · rintro ⟨attr, rows, rest', hcount, hall, rfl, rfl⟩
      exact ⟨.nested attr rows, rest', ⟨hcount, hall⟩, rfl, by simp [NativeList.body], by
        simp [NativeList.body]
        omega⟩
    · rintro ⟨list, rest', hwf, hkind, rfl, rfl⟩
      cases list with
      | nested attr rows =>
        exact ⟨attr, rows, rest', hwf.1, hwf.2, by simp [NativeList.body], by
          simp [NativeList.body]
          omega⟩
      | symbols attr texts => simp [NativeList.kType] at hkind
      | fixed kType attr count payload =>
        have hk : kType = 0 := hkind
        subst hk
        exact absurd hwf.1 (by decide)
  · have hkind : ¬ (kType = 0 ∨ kType = 11) := by simp [hzero, heleven]
    rw [endIndex_fixed h hkind]
    constructor
    · rintro ⟨⟨h₁, h₂, h₃⟩, attr, count, payload, rest', hcount, hlen, rfl, rfl⟩
      exact ⟨.fixed kType attr count payload, rest', ⟨h₁, h₂, heleven, h₃, hcount, hlen⟩, rfl,
        by simp [NativeList.body], by
          simp [NativeList.body]
          omega⟩
    · rintro ⟨list, rest', hwf, rfl, rfl, rfl⟩
      cases list with
      | fixed kType attr count payload =>
        obtain ⟨h₁, h₂, -, h₃, hcount, hlen⟩ := hwf
        exact ⟨⟨h₁, h₂, h₃⟩, attr, count, payload, rest', hcount, hlen, by simp [NativeList.body], by
          simp [NativeList.body]
          omega⟩
      | symbols attr texts => exact absurd rfl heleven
      | nested attr rows => exact absurd rfl hzero

end Scan

/-! ## No panic -/

theorem noPanic_takeListLength (bytes : Bytes) (pos : Nat) (context : String) :
    NoPanic (takeListLength bytes pos context) := by
  refine (noPanic_okOr _ _).bind fun stop _ => (noPanic_okOr _ _).bind fun header _ => ?_
  split
  · exact noPanic_err _
  · exact noPanic_ok _

theorem noPanic_incompleteOrOverrun (needed total : Nat) :
    NoPanic (incompleteOrOverrun needed total) := by
  unfold incompleteOrOverrun
  split
  · exact noPanic_err _
  · exact noPanic_ok _

section Panics

variable {received : Bytes} {total : Nat}

theorem noPanic_scanSymbols {context : String} {rows pos : Nat} (hpos : pos ≤ received.length) :
    NoPanic (scanSymbols received total context rows pos) := by
  induction rows generalizing pos with
  | zero => exact noPanic_ok _
  | succ rows ih =>
    rw [scanSymbols, sliceFrom, if_pos hpos, Exec.ok_bind]
    split
    · next terminator hnul =>
      have hlt := memchr_lt hnul
      rw [List.length_drop] at hlt
      exact ih (by omega)
    · split
      · exact noPanic_ok _
      · exact noPanic_err _

theorem noPanic_nestedSymbols {cursor : RowCursor} (hpos : cursor.pos ≤ received.length) :
    NoPanic (nestedSymbols received total cursor) := by
  refine (noPanic_scanSymbols hpos).bind fun result _ => ?_
  obtain ⟨outcome, pos, left⟩ := result
  cases outcome <;> exact noPanic_ok _

theorem noPanic_nestedRow {cursor : RowCursor} (hready : cursor.Ready received)
    (hsize : received.length < usizeMax) : NoPanic (nestedRow received total cursor) := by
  unfold nestedRow
  split
  · next hsymbols => exact noPanic_nestedSymbols (hready hsymbols)
  split
  · exact (noPanic_incompleteOrOverrun _ _).bind fun _ _ => noPanic_ok _
  next hheader =>
  have hpos : cursor.pos < received.length := by
    simp only [saturatingAdd] at hheader
    omega
  refine NoPanic.bind (by rw [index_of_lt hpos]; exact noPanic_ok _) fun current _ => ?_
  refine NoPanic.bind ?_ fun childType _ => ?_
  · unfold rowType
    split
    · exact noPanic_ok _
    · split
      · exact noPanic_ok _
      · exact noPanic_err _
  split
  · exact noPanic_err _
  refine (noPanic_takeListLength _ _ _).bind fun result hlength => ?_
  obtain ⟨subLength, pos⟩ := result
  obtain ⟨-, hstop, -⟩ := takeListLength_stop hlength
  simp only [nestedBody]
  split
  · split
    · exact noPanic_err _
    · exact noPanic_ok _
  split
  · split
    · exact noPanic_ok _
    · exact noPanic_nestedSymbols hstop
  refine (noPanic_okOr _ _).bind fun payloadLength _ => (noPanic_okOr _ _).bind fun stop _ => ?_
  split
  · exact noPanic_err _
  · split <;> exact noPanic_ok _

theorem noPanic_nestedRows {rows : Nat} {cursor : RowCursor} (hready : cursor.Ready received)
    (hsize : received.length < usizeMax) : NoPanic (nestedRows received total rows cursor) := by
  induction rows generalizing cursor with
  | zero => exact noPanic_ok _
  | succ rows ih =>
    rw [nestedRows]
    refine (noPanic_nestedRow hready hsize).bind fun outcome houtcome => ?_
    have hnext := nestedRow_ready hready houtcome
    cases outcome with
    | done next => exact ih fun hleft => absurd hleft (by rw [hnext]; omega)
    | stuck next => exact noPanic_ok _
    | cut next => exact noPanic_ok _

namespace ListScan

theorem noPanic_takeHeader (scan : ListScan) : NoPanic (scan.takeHeader received total) := by
  unfold takeHeader
  split
  · exact (noPanic_incompleteOrOverrun _ _).bind fun _ _ => noPanic_ok _
  refine (noPanic_takeListLength _ _ _).bind fun result _ => ?_
  obtain ⟨rows, pos⟩ := result
  simp only
  split
  · exact noPanic_ok _
  refine NoPanic.bind ?_ fun _ _ => noPanic_ok _
  refine (noPanic_okOr _ _).bind fun payloadLength _ => (noPanic_okOr _ _).bind fun stop _ => ?_
  split
  · exact noPanic_err _
  · exact noPanic_ok _

theorem noPanic_advanceRows {scan : ListScan} (hready : scan.Ready received) (hsome : scan.rowsLeft ≠ none)
    (hsize : received.length < usizeMax) : NoPanic (scan.advanceRows received total) := by
  unfold advanceRows
  split
  · next hkind =>
    exact (noPanic_scanSymbols (hready.symbols hkind hsome)).bind fun _ _ => noPanic_ok _
  split
  · exact (noPanic_nestedRows hready.cursor hsize).bind fun _ _ => noPanic_ok _
  · split <;> exact noPanic_ok _

/-- No index or slice of a scan is out of range of what was received. -/
theorem noPanic_advance {scan : ListScan} (hready : scan.Ready received) (hsize : received.length < usizeMax) :
    NoPanic (scan.advance received total) := by
  unfold advance
  split
  · next rows hrows => exact noPanic_advanceRows hready (by simp [hrows]) hsize
  next hrows =>
  refine (noPanic_takeHeader scan).bind fun header hheader => ?_
  cases header with
  | none => exact noPanic_ok _
  | some next =>
    obtain ⟨hnext, hsome⟩ := takeHeader_ready (hready.fresh hrows) hheader
    exact noPanic_advanceRows hnext hsome hsize

end ListScan

end Panics

/-- The search for the end of a list never panics. -/
theorem noPanic_calculateArrayEndIndex {vec : Bytes} {pos : Nat} {kType : UInt8}
    (hsize : vec.length < usizeMax) : NoPanic (calculateArrayEndIndex vec pos kType) := by
  unfold calculateArrayEndIndex
  refine NoPanic.bind ?_ fun scan hscan => ?_
  · unfold ListScan.new
    split
    · exact noPanic_ok _
    · exact noPanic_err _
  refine (ListScan.noPanic_advance (ListScan.new_ready vec hscan) hsize).bind fun result _ => ?_
  obtain ⟨outcome, scan⟩ := result
  cases outcome with
  | Complete stop => exact noPanic_ok _
  | Incomplete => exact noPanic_err _

end Xqdb
