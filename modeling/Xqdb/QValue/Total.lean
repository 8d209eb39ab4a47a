import Xqdb.QValue.Parser

/-! The lossless parser returns on every input: no index is out of range, and the fuel that
stands for its recursion is enough for every depth it enters. -/

namespace Xqdb.QValue

theorem fail_noPanic {α : Type} (message : String) : NoPanic (fail message : Exec α) := noPanic_err _

theorem take_noPanic (p : Parser) (length : Nat) (context : String) : NoPanic (take p length context) :=
  (noPanic_okOr _ _).bind fun _ _ => (noPanic_okOr _ _).bind fun _ _ => noPanic_ok _

theorem take_length {p p' : Parser} {length : Nat} {context : String} {value : Bytes}
    (h : take p length context = .ok (value, p')) : value.length = length := by
  unfold take at h
  obtain ⟨stop, hstop, h⟩ := Exec.bind_eq_ok.mp h
  obtain ⟨bytes, hbytes, h⟩ := Exec.bind_eq_ok.mp h
  cases h
  obtain ⟨rfl, -⟩ := checkedAdd_eq_some.mp (Exec.okOr_eq_ok.mp hstop)
  rw [getRange_length (Exec.okOr_eq_ok.mp hbytes)]
  omega

theorem takeByte_noPanic (p : Parser) (context : String) : NoPanic (takeByte p context) := by
  refine (take_noPanic p 1 context).bind fun taken htaken => ?_
  obtain ⟨value, p'⟩ := taken
  have hlength := take_length htaken
  refine NoPanic.bind ?_ fun _ _ => noPanic_ok _
  rw [index_of_lt (by omega)]
  exact noPanic_ok _

theorem takeUntilNul_noPanic (p : Parser) (context : String) : NoPanic (takeUntilNul p context) := by
  unfold takeUntilNul
  refine (noPanic_okOr _ _).bind fun tail htail => (noPanic_okOr _ _).bind fun length hlength => ?_
  refine (noPanic_okOr _ _).bind fun stop hstop => (noPanic_okOr _ _).bind fun _ _ => ?_
  refine NoPanic.bind ?_ fun _ _ => noPanic_ok _
  obtain ⟨text, rest, htext, -, rfl⟩ := memchr_eq_some.mp (Exec.okOr_eq_ok.mp hlength)
  obtain ⟨rfl, -⟩ := checkedAdd_eq_some.mp (Exec.okOr_eq_ok.mp hstop)
  have hdrop := Exec.okOr_eq_ok.mp htail
  unfold getFrom at hdrop
  split at hdrop
  · cases hdrop
    have hlong := congrArg List.length htext
    simp only [List.length_drop, List.length_append, List.length_cons] at hlong
    have hslice : getRange p.bytes p.position (p.position + text.length) =
        some ((p.bytes.drop p.position).take (p.position + text.length - p.position)) :=
      getRange_eq_some.mpr ⟨by omega, by omega, rfl⟩
    rw [sliceRange_eq_ok.mpr hslice]
    exact noPanic_ok _
  · cases hdrop

theorem takeWord_noPanic (p : Parser) (width : Nat) (context message : String) :
    NoPanic (takeWord p width context message) := by
  refine (take_noPanic p width context).bind fun taken _ => ?_
  obtain ⟨raw, p'⟩ := taken
  dsimp only
  split
  · exact fail_noPanic _
  · exact noPanic_ok _

theorem takeAttribute_noPanic (p : Parser) (context : String) : NoPanic (takeAttribute p context) := by
  refine (takeByte_noPanic p context).bind fun taken _ => ?_
  obtain ⟨attr, p'⟩ := taken
  dsimp only
  split
  · exact fail_noPanic _
  · exact noPanic_ok _

theorem takeTypedListCount_noPanic (p : Parser) (context : String) :
    NoPanic (takeTypedListCount p context) := by
  refine (takeByte_noPanic p context).bind fun taken _ => ?_
  obtain ⟨raw, p'⟩ := taken
  dsimp only
  split
  · exact fail_noPanic _
  split
  · exact takeWord_noPanic _ _ _ _
  · exact takeWord_noPanic _ _ _ _

theorem takeSymbols_noPanic (context : String) (count : Nat) :
    ∀ p, NoPanic (takeSymbols context count p) := by
  induction count with
  | zero =>
    intro p
    exact noPanic_ok _
  | succ count ih =>
    intro p
    refine (takeUntilNul_noPanic p context).bind fun taken _ => ?_
    obtain ⟨text, p'⟩ := taken
    exact ih p'

theorem noteDepth_noPanic (p : Parser) (depth : Nat) : NoPanic (noteDepth p depth) := by
  unfold noteDepth
  split
  · exact fail_noPanic _
  · exact noPanic_ok _

theorem ensureMatchingCounts_noPanic (left right : Nat) (context : String) :
    NoPanic (ensureMatchingCounts left right context) := by
  unfold ensureMatchingCounts
  split
  · exact noPanic_ok _
  · exact fail_noPanic _

theorem validatePayload_noPanic (kind : UInt8) (payload : Bytes) (context : String) :
    NoPanic (validatePayload kind payload context) := by
  unfold validatePayload validateBooleanBytes
  split
  · split
    · exact fail_noPanic _
    · exact noPanic_ok _
  · exact noPanic_ok _

theorem parseAtom_noPanic (p : Parser) (wireType : UInt8) : NoPanic (parseAtom p wireType) := by
  unfold parseAtom
  dsimp only
  split
  · exact fail_noPanic _
  · refine NoPanic.bind ?_ fun _ _ => noPanic_ok _
    unfold parseAtomPayload parseFixedAtom
    split
    · exact (takeUntilNul_noPanic _ _).bind fun _ _ => noPanic_ok _
    · refine (take_noPanic _ _ _).bind fun _ _ => ?_
      exact (validatePayload_noPanic _ _ _).bind fun _ _ => noPanic_ok _

theorem parseTypedList_noPanic (p : Parser) (elementType : UInt8) : NoPanic (parseTypedList p elementType) := by
  unfold parseTypedList
  split
  · exact fail_noPanic _
  · refine (takeTypedListCount_noPanic _ _).bind fun counted _ => ?_
    obtain ⟨count, p'⟩ := counted
    refine NoPanic.bind ?_ fun _ _ => noPanic_ok _
    unfold parseListPayload parseFixedList
    split
    · exact takeSymbols_noPanic _ _ _
    · refine (noPanic_okOr _ _).bind fun _ _ => (take_noPanic _ _ _).bind fun _ _ => ?_
      exact (validatePayload_noPanic _ _ _).bind fun _ _ => noPanic_ok _

theorem parseLambda_noPanic (p : Parser) (depth : Nat) : NoPanic (parseLambda p depth) := by
  unfold parseLambda
  refine (takeUntilNul_noPanic _ _).bind fun _ _ => (noteDepth_noPanic _ _).bind fun _ _ => ?_
  refine (takeByte_noPanic _ _).bind fun taken _ => ?_
  obtain ⟨sourceType, p₁⟩ := taken
  dsimp only
  split
  · exact fail_noPanic _
  refine (takeByte_noPanic _ _).bind fun taken _ => ?_
  obtain ⟨attr, p₂⟩ := taken
  dsimp only
  split
  · exact fail_noPanic _
  refine (takeWord_noPanic _ _ _ _).bind fun taken _ => ?_
  obtain ⟨sourceLength, p₃⟩ := taken
  exact (take_noPanic _ _ _).bind fun _ _ => noPanic_ok _

theorem parsePrimitive_noPanic (p : Parser) (wireType : UInt8) : NoPanic (parsePrimitive p wireType) := by
  refine (takeByte_noPanic _ _).bind fun taken _ => ?_
  obtain ⟨opcode, p'⟩ := taken
  dsimp only
  split
  · exact noPanic_ok _
  · exact fail_noPanic _

section Children

variable {parse : Nat → Parser → Exec (Parsed × Parser)} {depth : Nat}
  (hparse : ∀ deeper p, depth < deeper → NoPanic (parse deeper p))
include hparse

theorem parseMany_noPanic {deeper : Nat} (hdeeper : depth < deeper) (count : Nat) :
    ∀ p, NoPanic (parseMany parse deeper count p) := by
  induction count with
  | zero =>
    intro p
    exact noPanic_ok _
  | succ count ih =>
    intro p
    refine (hparse deeper p hdeeper).bind fun parsed _ => ?_
    obtain ⟨first, p'⟩ := parsed
    exact (ih p').bind fun _ _ => noPanic_ok _

theorem parseColumns_noPanic {deeper : Nat} (hdeeper : depth < deeper) (count : Nat) :
    ∀ rowCount p, NoPanic (parseColumns parse deeper count rowCount p) := by
  induction count with
  | zero =>
    intro rowCount p
    exact noPanic_ok _
  | succ count ih =>
    intro rowCount p
    refine (hparse deeper p hdeeper).bind fun parsed _ => ?_
    obtain ⟨column, p'⟩ := parsed
    refine NoPanic.bind ?_ fun rows _ => ih (some rows) p'
    refine (noPanic_okOr _ _).bind fun columnLen _ => ?_
    cases rowCount with
    | none => exact noPanic_ok _
    | some expected => exact (ensureMatchingCounts_noPanic _ _ _).bind fun _ _ => noPanic_ok _

theorem parseGeneralList_noPanic (p : Parser) : NoPanic (parseGeneralList parse p depth) := by
  refine (takeAttribute_noPanic _ _).bind fun taken _ => ?_
  obtain ⟨attr, p₁⟩ := taken
  refine (takeWord_noPanic _ _ _ _).bind fun counted _ => ?_
  obtain ⟨count, p₂⟩ := counted
  dsimp only
  split
  · exact fail_noPanic _
  · exact (parseMany_noPanic hparse (Nat.lt_succ_self _) _ _).bind fun _ _ => noPanic_ok _

theorem parseDictionary_noPanic (p : Parser) (wireType : UInt8) :
    NoPanic (parseDictionary parse p wireType depth) := by
  refine (hparse _ _ (Nat.lt_succ_self _)).bind fun parsed _ => ?_
  obtain ⟨keys, p₁⟩ := parsed
  refine (hparse _ _ (Nat.lt_succ_self _)).bind fun parsed _ => ?_
  obtain ⟨values, p₂⟩ := parsed
  refine NoPanic.bind ?_ fun _ _ => noPanic_ok _
  unfold dictionaryShape
  split
  · exact (ensureMatchingCounts_noPanic _ _ _).bind fun _ _ => noPanic_ok _
  · exact fail_noPanic _
  · exact fail_noPanic _
  · refine (noPanic_okOr _ _).bind fun _ _ => (noPanic_okOr _ _).bind fun _ _ => ?_
    exact (ensureMatchingCounts_noPanic _ _ _).bind fun _ _ => noPanic_ok _

theorem parseTable_noPanic (p : Parser) : NoPanic (parseTable parse p depth) := by
  refine (takeAttribute_noPanic _ _).bind fun _ _ => (noteDepth_noPanic _ _).bind fun _ _ => ?_
  refine (takeByte_noPanic _ _).bind fun taken _ => ?_
  obtain ⟨dictionaryType, p₁⟩ := taken
  dsimp only
  split
  · exact fail_noPanic _
  refine (hparse _ _ (by omega)).bind fun parsed _ => ?_
  obtain ⟨names, p₂⟩ := parsed
  dsimp only
  split
  · exact fail_noPanic _
  refine (noteDepth_noPanic _ _).bind fun _ _ => (takeByte_noPanic _ _).bind fun taken _ => ?_
  obtain ⟨columnsType, p₃⟩ := taken
  dsimp only
  split
  · exact fail_noPanic _
  refine (takeAttribute_noPanic _ _).bind fun _ _ => (takeWord_noPanic _ _ _ _).bind fun counted _ => ?_
  obtain ⟨columnCount, p₄⟩ := counted
  refine (ensureMatchingCounts_noPanic _ _ _).bind fun _ _ => ?_
  dsimp only
  split
  · exact fail_noPanic _
  · exact (parseColumns_noPanic hparse (by omega) _ _ _).bind fun _ _ => noPanic_ok _

theorem parseCountedFunction_noPanic (p : Parser) (wireType : UInt8) :
    NoPanic (parseCountedFunction parse p wireType depth) := by
  refine (takeWord_noPanic _ _ _ _).bind fun counted _ => ?_
  obtain ⟨count, p'⟩ := counted
  dsimp only
  split
  · exact fail_noPanic _
  · exact (parseMany_noPanic hparse (Nat.lt_succ_self _) _ _).bind fun _ _ => noPanic_ok _

theorem parseBody_noPanic (p : Parser) (wireType : UInt8) : NoPanic (parseBody parse p wireType depth) := by
  unfold parseBody
  by_cases hatom : 237 ≤ wireType
  · rw [if_pos hatom]
    exact parseAtom_noPanic _ _
  rw [if_neg hatom]
  by_cases hzero : wireType = 0
  · rw [if_pos hzero]
    exact parseGeneralList_noPanic hparse _
  rw [if_neg hzero]
  by_cases hle : wireType ≤ 19
  · rw [if_pos hle]
    exact parseTypedList_noPanic _ _
  rw [if_neg hle]
  by_cases htable : wireType = 98
  · rw [if_pos htable]
    exact parseTable_noPanic hparse _
  rw [if_neg htable]
  by_cases hdictionary : wireType = 99 ∨ wireType = 127
  · rw [if_pos hdictionary]
    exact parseDictionary_noPanic hparse _ _
  rw [if_neg hdictionary]
  by_cases hlambda : wireType = 100
  · rw [if_pos hlambda]
    exact parseLambda_noPanic _ _
  rw [if_neg hlambda]
  by_cases hprimitive : 101 ≤ wireType ∧ wireType ≤ 103
  · rw [if_pos hprimitive]
    exact parsePrimitive_noPanic _ _
  rw [if_neg hprimitive]
  by_cases hcounted : 104 ≤ wireType ∧ wireType ≤ 105
  · rw [if_pos hcounted]
    exact parseCountedFunction_noPanic hparse _ _
  rw [if_neg hcounted]
  by_cases hderived : 106 ≤ wireType ∧ wireType ≤ 111
  · rw [if_pos hderived]
    exact (hparse _ _ (Nat.lt_succ_self _)).bind fun _ _ => noPanic_ok _
  rw [if_neg hderived]
  by_cases hfunction : 112 ≤ wireType ∧ wireType ≤ 126
  · rw [if_pos hfunction]
    exact fail_noPanic _
  rw [if_neg hfunction]
  by_cases herror : wireType = 128
  · rw [if_pos herror]
    exact (takeUntilNul_noPanic _ _).bind fun _ _ => noPanic_err _
  · rw [if_neg herror]
    exact fail_noPanic _

end Children

/-- One unit of fuel for each level that `note_depth` still admits, and one to refuse. -/
theorem parseValue_noPanic (fuel : Nat) :
    ∀ depth p, maxValueDepth + 2 ≤ depth + fuel → 0 < fuel → NoPanic (parseValue fuel depth p) := by
  induction fuel with
  | zero =>
    intro depth p _ hfuel
    exact absurd hfuel (Nat.lt_irrefl 0)
  | succ fuel ih =>
    intro depth p henough _
    refine (noteDepth_noPanic _ _).bind fun noted hnoted => ?_
    have hdepth : depth ≤ maxValueDepth := by
      by_contra hdeep
      rw [noteDepth, if_pos (by omega)] at hnoted
      cases hnoted
    refine (takeByte_noPanic _ _).bind fun taken _ => ?_
    obtain ⟨wireType, p'⟩ := taken
    apply parseBody_noPanic
    intro deeper q hdeeper
    exact ih deeper q (by omega) (by omega)

theorem fromBytes_noPanic (bytes : Bytes) : NoPanic (fromBytes bytes) := by
  have hvalidate : NoPanic (validate bytes) := by
    refine (parseValue_noPanic parseFuel 0 _ (by simp [parseFuel]) (by simp [parseFuel])).bind fun parsed _ => ?_
    obtain ⟨value, p⟩ := parsed
    dsimp only
    split
    · exact fail_noPanic _
    · exact noPanic_ok _
  unfold fromBytes
  split
  · split
    · exact noPanic_ok _
    · exact fail_noPanic _
  · next e he =>
    rw [he] at hvalidate
    intro hpanic
    exact hvalidate (congrArg Except.error (Except.error.inj hpanic))

end Xqdb.QValue
