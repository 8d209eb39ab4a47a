import Xqdb.QValue.Grammar

/-! The other direction: whatever the parser accepts is the encoding of a
well-formed tree, so `validate` decides exactly the bodies of depth at most 64. -/

namespace Xqdb.QValue

open LittleEndian (encode_length)

/-- Whatever `parse` accepts is a tree. -/
def Sound (parse : Nat → Parser → Exec (Parsed × Parser)) : Prop :=
  ∀ {d : Nat} {p p' : Parser} {value : Parsed} {rest : Bytes}, p.At rest →
    parse d p = .ok (value, p') →
    ∃ (wire : Wire) (rest' : Bytes), wire.WF ∧ d + wire.depth ≤ 64 ∧ rest = wire.encode ++ rest' ∧
      value = wire.parsed ∧ p' = (p.skip wire.encode.length).note (d + wire.depth)

/-- The same behind the type byte, on a level the parser has already noted. -/
def BodySound (run : Nat → Parser → Exec (Parsed × Parser)) (wireType : UInt8) : Prop :=
  ∀ {d : Nat} {p p' : Parser} {value : Parsed} {rest : Bytes}, p.At rest → d ≤ 64 →
    d ≤ p.maxDepth → run d p = .ok (value, p') →
    ∃ (wire : Wire) (tail rest' : Bytes), wire.WF ∧ wire.encode = wireType :: tail ∧ d + wire.depth ≤ 64 ∧
      rest = tail ++ rest' ∧ value = wire.parsed ∧
      p' = (p.skip tail.length).note (d + wire.depth)

theorem parseMany_sound {parse : Nat → Parser → Exec (Parsed × Parser)} (hsound : Sound parse)
    {d count : Nat} {p p' : Parser} {values : List Parsed} {rest : Bytes} (h : p.At rest)
    (hd : d ≤ 64) (hnoted : d ≤ p.maxDepth)
    (hok : parseMany parse (d + 1) count p = .ok (values, p')) :
    ∃ wires rest', Wire.AllWF wires ∧ wires.length = count ∧ d + Wire.levels wires ≤ 64 ∧
      rest = Wire.encodeAll wires ++ rest' ∧ values = wires.map Wire.parsed ∧
      p' = (p.skip (Wire.encodeAll wires).length).note (d + Wire.levels wires) := by
  induction count generalizing p rest values with
  | zero =>
    simp only [parseMany, Except.ok.injEq, Prod.mk.injEq] at hok
    obtain ⟨rfl, rfl⟩ := hok
    refine ⟨[], rest, trivial, rfl, by simpa [Wire.levels] using hd, rfl, rfl, ?_⟩
    simp [Wire.encodeAll, Wire.levels, Parser.note_of_le hnoted]
  | succ count ih =>
    simp only [parseMany, Exec.bind_eq_ok, Prod.exists, Except.ok.injEq, Prod.mk.injEq] at hok
    obtain ⟨first, q, hfirst, others, q', hothers, rfl, rfl⟩ := hok
    obtain ⟨wire, rest₁, hwf, hdepth, rfl, rfl, rfl⟩ := hsound h hfirst
    have hnoted' : d ≤ ((p.skip wire.encode.length).note (d + 1 + wire.depth)).maxDepth := by
      have := Parser.le_note (p.skip wire.encode.length) (d + 1 + wire.depth)
      omega
    obtain ⟨wires, rest₂, hall, rfl, hlevels, rfl, rfl, rfl⟩ := ih (h.skip.note _) hnoted' hothers
    refine ⟨wire :: wires, rest₂, ⟨hwf, hall⟩, rfl, ?_, ?_, rfl, ?_⟩
    · simp only [Wire.levels]
      omega
    · simp [Wire.encodeAll]
    · simp only [Parser.skip_note, Parser.skip_skip, Parser.note_note, Wire.encodeAll, Wire.levels,
        List.length_append]
      congr 1
      omega

theorem parseAtom_sound {wireType : UInt8} :
    BodySound (fun _ p => parseAtom p wireType) wireType := by
  intro d p p' value rest h hd hnoted hok
  simp only [parseAtom] at hok
  split at hok
  · cases hok
  next hkind =>
  simp only [not_or, UInt8.not_lt] at hkind
  simp only [Exec.bind_eq_ok, Except.ok.injEq, Prod.mk.injEq] at hok
  obtain ⟨q, hpayload, rfl, rfl⟩ := hok
  unfold parseAtomPayload at hpayload
  split at hpayload
  · next heleven =>
    simp only [Exec.bind_eq_ok, Prod.exists, Except.ok.injEq] at hpayload
    obtain ⟨text, q', htext, rfl⟩ := hpayload
    obtain ⟨rest', rfl, hnul, rfl⟩ := takeUntilNul_sound h htext
    have hwire : wireType = 245 := by
      have := zero_sub_zero_sub wireType
      rw [heleven] at this
      exact this.symm
    refine ⟨.symbol text, text ++ [0], rest', hnul, by simp [Wire.encode, hwire], ?_, by simp, ?_, ?_⟩
    · simpa [Wire.depth] using hd
    · simp [Wire.parsed, heleven]
    · simp [Wire.depth, Parser.skip_note_of_le hnoted]
  · next heleven =>
    simp only [parseFixedAtom, Exec.bind_eq_ok, Prod.exists, Except.ok.injEq,
      validatePayload_eq_ok] at hpayload
    obtain ⟨payload, q', htake, -, hbool, rfl⟩ := hpayload
    obtain ⟨rest', rfl, hlen, rfl⟩ := take_sound h htake
    refine ⟨.atom (0 - wireType) payload, payload, rest',
      ⟨hkind.2.1, hkind.2.2, hkind.1, heleven, hlen, hbool⟩, ?_, ?_, rfl, rfl, ?_⟩
    · simp [Wire.encode]
    · simpa [Wire.depth] using hd
    · simp [Wire.depth, Parser.skip_note_of_le hnoted, hlen]

theorem parseTypedList_sound {elementType : UInt8} (h₁ : 1 ≤ elementType) (h₂ : elementType ≤ 19) :
    BodySound (fun _ p => parseTypedList p elementType) elementType := by
  intro d p p' value rest h hd hnoted hok
  simp only [parseTypedList] at hok
  split at hok
  · cases hok
  next hthree =>
  simp only [Exec.bind_eq_ok, Prod.exists, Except.ok.injEq, Prod.mk.injEq] at hok
  obtain ⟨count, q, hcount, q', hpayload, rfl, rfl⟩ := hok
  obtain ⟨rawAttr, rest₁, hheader, rfl, rfl⟩ := takeTypedListCount_sound h hcount
  unfold parseListPayload at hpayload
  split at hpayload
  · next heleven =>
    subst heleven
    obtain ⟨texts, rest₂, rfl, hnul, rfl, rfl⟩ := takeSymbols_sound h.skip hpayload
    refine ⟨.symbolList rawAttr texts, _, rest₂, ⟨hheader, hnul⟩, rfl, ?_, by simp, rfl, ?_⟩
    · simpa [Wire.depth] using hd
    · simp [Wire.depth, Parser.skip_note_of_le hnoted]
  · next heleven =>
    simp only [parseFixedList, Exec.bind_eq_ok, Exec.okOr_eq_ok, Prod.exists, Except.ok.injEq,
      validatePayload_eq_ok] at hpayload
    obtain ⟨payloadLength, hmul, payload, q'', htake, -, hbool, rfl⟩ := hpayload
    obtain ⟨rest₂, rfl, hlen, rfl⟩ := take_sound h.skip htake
    have hproduct : payloadLength = count * typeSize elementType := by
      unfold checkedMul at hmul
      split at hmul
      · exact (Option.some.inj hmul).symm
      · cases hmul
    refine ⟨.fixedList elementType rawAttr count payload, _, rest₂,
      ⟨h₁, h₂, hthree, heleven, hheader, hlen.trans hproduct, hbool⟩, rfl, ?_, by simp, rfl, ?_⟩
    · simpa [Wire.depth] using hd
    · simp [Wire.depth, Parser.skip_note_of_le hnoted, hlen]

theorem parseLambda_sound : BodySound (fun d p => parseLambda p d) 100 := by
  intro d p p' value rest h hd hnoted hok
  simp only [parseLambda, Exec.bind_eq_ok, Prod.exists, noteDepth_eq_ok] at hok
  obtain ⟨context, q₁, hcontext, q₂, ⟨hdepth, rfl⟩, sourceType, q₃, htype, hok⟩ := hok
  obtain ⟨rest₁, rfl, hnul, rfl⟩ := takeUntilNul_sound h hcontext
  have hat₁ := h.skip_nul.note (d + 1)
  obtain ⟨rest₂, rfl, rfl⟩ := takeByte_sound hat₁ htype
  split at hok
  · cases hok
  next hten =>
  obtain rfl := not_not.mp hten
  simp only [Exec.bind_eq_ok, Prod.exists] at hok
  obtain ⟨attr, q₄, hattr, hok⟩ := hok
  obtain ⟨rest₃, rfl, rfl⟩ := takeByte_sound hat₁.skip_one hattr
  split at hok
  · cases hok
  next hzero =>
  obtain rfl := not_not.mp hzero
  simp only [Exec.bind_eq_ok, Prod.exists, Except.ok.injEq, Prod.mk.injEq] at hok
  obtain ⟨count, q₅, hcount, source, q₆, hsource, rfl, rfl⟩ := hok
  obtain ⟨hlt, rest₄, rfl, rfl⟩ := takeCount_sound hat₁.skip_one.skip_one hcount
  have hat₂ := hat₁.skip_one.skip_one.skip
  rw [encode_length] at hat₂
  obtain ⟨rest₅, rfl, rfl, rfl⟩ := take_sound hat₂ hsource
  refine ⟨.lambda context source, _, rest₅, ⟨hnul, hlt⟩, rfl, by simpa [Wire.depth] using hdepth,
    by simp, rfl, ?_⟩
  simp only [Parser.skip_note, Parser.skip_skip, Wire.depth, List.length_append, List.length_cons,
    encode_length]
  congr 2
  omega

theorem parsePrimitive_sound {wireType : UInt8} (h₁ : 101 ≤ wireType) (h₂ : wireType ≤ 103) :
    BodySound (fun _ p => parsePrimitive p wireType) wireType := by
  intro d p p' value rest h hd hnoted hok
  simp only [parsePrimitive, Exec.bind_eq_ok, Prod.exists] at hok
  obtain ⟨opcode, q, hopcode, hok⟩ := hok
  obtain ⟨rest', rfl, rfl⟩ := takeByte_sound h hopcode
  split at hok
  · next haccepted =>
    simp only [Except.ok.injEq, Prod.mk.injEq] at hok
    obtain ⟨rfl, rfl⟩ := hok
    refine ⟨.primitive wireType opcode, [opcode], rest', ⟨h₁, h₂, haccepted⟩, rfl, ?_, rfl, rfl, ?_⟩
    · simpa [Wire.depth] using hd
    · simp [Wire.depth, Parser.skip_note_of_le hnoted]
  · cases hok

section Children

variable {parse : Nat → Parser → Exec (Parsed × Parser)} (hsound : Sound parse)

include hsound

theorem parseGeneralList_sound : BodySound (fun d p => parseGeneralList parse p d) 0 := by
  intro d p p' value rest h hd hnoted hok
  simp only [parseGeneralList, Exec.bind_eq_ok, Prod.exists] at hok
  obtain ⟨attr, q₁, hattr, count, q₂, hcount, hok⟩ := hok
  obtain ⟨hle, rest₁, rfl, rfl⟩ := takeAttribute_sound h hattr
  obtain ⟨hlt, rest₂, rfl, rfl⟩ := takeCount_sound h.skip_one hcount
  have hat := h.skip_one.skip
  rw [encode_length] at hat
  split at hok
  · cases hok
  simp only [Exec.bind_eq_ok, Prod.exists, Except.ok.injEq, Prod.mk.injEq] at hok
  obtain ⟨values, q₃, hmany, rfl, rfl⟩ := hok
  obtain ⟨wires, rest₃, hall, rfl, hlevels, rfl, -, rfl⟩ := parseMany_sound hsound hat hd hnoted hmany
  refine ⟨.generalList attr wires, _, rest₃, ⟨hle, hlt, hall⟩, rfl, hlevels, by simp, rfl, ?_⟩
  simp only [Parser.skip_skip, Wire.depth, List.length_cons, List.length_append, encode_length]
  congr 2
  omega

theorem parseCountedFunction_sound {wireType : UInt8} (h₁ : 104 ≤ wireType) (h₂ : wireType ≤ 105) :
    BodySound (fun d p => parseCountedFunction parse p wireType d) wireType := by
  intro d p p' value rest h hd hnoted hok
  simp only [parseCountedFunction, Exec.bind_eq_ok, Prod.exists] at hok
  obtain ⟨count, q₂, hcount, hok⟩ := hok
  obtain ⟨hlt, rest₂, rfl, rfl⟩ := takeCount_sound h hcount
  have hat := h.skip
  rw [encode_length] at hat
  split at hok
  · cases hok
  simp only [Exec.bind_eq_ok, Prod.exists, Except.ok.injEq, Prod.mk.injEq] at hok
  obtain ⟨values, q₃, hmany, rfl, rfl⟩ := hok
  obtain ⟨wires, rest₃, hall, rfl, hlevels, rfl, -, rfl⟩ := parseMany_sound hsound hat hd hnoted hmany
  refine ⟨.counted wireType wires, _, rest₃, ⟨h₁, h₂, hlt, hall⟩, rfl, hlevels, by simp, rfl, ?_⟩
  simp only [Parser.skip_skip, Wire.depth, List.length_append, encode_length]

theorem parseDerivedFunction_sound {wireType : UInt8} (h₁ : 106 ≤ wireType) (h₂ : wireType ≤ 111) :
    BodySound (fun d p => parseDerivedFunction parse p wireType d) wireType := by
  intro d p p' value rest h hd hnoted hok
  simp only [parseDerivedFunction, Exec.bind_eq_ok, Prod.exists, Except.ok.injEq,
    Prod.mk.injEq] at hok
  obtain ⟨child, q, hchild, rfl, rfl⟩ := hok
  obtain ⟨wire, rest', hwf, hdepth, rfl, rfl, rfl⟩ := hsound h hchild
  refine ⟨.derived wireType wire, _, rest', ⟨h₁, h₂, hwf⟩, rfl, ?_, rfl, rfl, ?_⟩
  · simp only [Wire.depth]
    omega
  · simp only [Wire.depth]
    congr 1
    omega

theorem parseDictionary_sound {wireType : UInt8} (htype : wireType = 99 ∨ wireType = 127) :
    BodySound (fun d p => parseDictionary parse p wireType d) wireType := by
  intro d p p' value rest h hd hnoted hok
  simp only [parseDictionary, Exec.bind_eq_ok, Prod.exists, Except.ok.injEq, Prod.mk.injEq,
    dictionaryShape_eq_ok] at hok
  obtain ⟨keys, q₁, hkeys, values, q₂, hvalues, len, keyed, ⟨hsides, rfl, rfl⟩, rfl, rfl⟩ := hok
  obtain ⟨keyWire, rest₁, hkeyWF, hkeyDepth, rfl, rfl, rfl⟩ := hsound h hkeys
  obtain ⟨valueWire, rest₂, hvalueWF, hvalueDepth, rfl, rfl, rfl⟩ := hsound (h.skip.note _) hvalues
  refine ⟨.dictionary wireType keyWire valueWire, _, rest₂, ⟨htype, hkeyWF, hvalueWF, hsides⟩, rfl,
    ?_, by simp, rfl, ?_⟩
  · simp only [Wire.depth]
    omega
  · simp only [Parser.skip_note, Parser.skip_skip, Parser.note_note, Wire.depth, List.length_append]
    congr 1
    omega

theorem parseTableColumns_sound {d nameCount : Nat} {p p' : Parser} {value : Parsed} {rest : Bytes}
    (h : p.At rest) (hok : parseTableColumns parse p d nameCount = .ok (value, p')) :
    ∃ (columnsAttr : UInt8) (columns : List Wire) (rest' : Bytes), columnsAttr ≤ 4 ∧
      nameCount = columns.length ∧ columns.length < 2 ^ 31 ∧ Wire.AllWF columns ∧
      (∀ column ∈ columns, column.parsed.sequenceLen = some (Wire.firstLen columns)) ∧
      d + 2 + Wire.levels columns ≤ 64 ∧
      rest = 0 :: columnsAttr :: (LittleEndian.encode 4 columns.length ++
        (Wire.encodeAll columns ++ rest')) ∧
      value = ⟨98, Wire.firstLen columns, .Table⟩ ∧
      p' = (p.skip (6 + (Wire.encodeAll columns).length)).note (d + 2 + Wire.levels columns) := by
  simp only [parseTableColumns, Exec.bind_eq_ok, Prod.exists, noteDepth_eq_ok] at hok
  obtain ⟨q₁, ⟨hdepth, rfl⟩, columnsType, q₂, htype, hok⟩ := hok
  have hat := h.note (d + 2)
  obtain ⟨rest₁, rfl, rfl⟩ := takeByte_sound hat htype
  split at hok
  · cases hok
  next hzero =>
  obtain rfl := not_not.mp hzero
  simp only [Exec.bind_eq_ok, Prod.exists, ensureMatchingCounts_eq_ok] at hok
  obtain ⟨attr, q₃, hattr, count, q₄, hcount, -, rfl, hok⟩ := hok
  obtain ⟨hle, rest₂, rfl, rfl⟩ := takeAttribute_sound hat.skip_one hattr
  obtain ⟨hlt, rest₃, rfl, rfl⟩ := takeCount_sound hat.skip_one.skip_one hcount
  have hcolumnsAt := hat.skip_one.skip_one.skip
  rw [encode_length] at hcolumnsAt
  split at hok
  · cases hok
  simp only [Exec.bind_eq_ok, Prod.exists, Except.ok.injEq, Prod.mk.injEq, parseColumns_eq_ok] at hok
  obtain ⟨rowCount, q₅, ⟨values, hmany, hrows⟩, rfl, rfl⟩ := hok
  obtain ⟨columns, rest₄, hall, rfl, hlevels, rfl, rfl, rfl⟩ :=
    parseMany_sound hsound hcolumnsAt hdepth (Parser.le_note _ _) hmany
  obtain ⟨hlens, rfl⟩ := columnRows_none.mp hrows
  have hfirst : (columns.head?.map fun wire => wire.parsed.len).getD 0 = Wire.firstLen columns := by
    cases columns <;> rfl
  refine ⟨attr, columns, rest₄, hle, rfl, hlt, hall, hlens, hlevels, rfl, by rw [hfirst], ?_⟩
  simp only [Parser.skip_note, Parser.skip_skip, Parser.note_note]
  congr 1
  omega

theorem parseTable_sound : BodySound (fun d p => parseTable parse p d) 98 := by
  intro d p p' value rest h hd hnoted hok
  simp only [parseTable, Exec.bind_eq_ok, Prod.exists, noteDepth_eq_ok] at hok
  obtain ⟨attr, q₁, hattr, q₂, ⟨hdepth, rfl⟩, dictionaryType, q₃, hdict, hok⟩ := hok
  obtain ⟨hle, rest₁, rfl, rfl⟩ := takeAttribute_sound h hattr
  have hat := h.skip_one.note (d + 1)
  obtain ⟨rest₂, rfl, rfl⟩ := takeByte_sound hat hdict
  split at hok
  · cases hok
  next hninety =>
  obtain rfl := not_not.mp hninety
  simp only [Exec.bind_eq_ok, Prod.exists] at hok
  obtain ⟨names, q₄, hnames, hok⟩ := hok
  obtain ⟨namesWire, rest₃, hnamesWF, hnamesDepth, rfl, rfl, rfl⟩ := hsound hat.skip_one hnames
  split at hok
  · cases hok
  next hshape =>
  obtain ⟨columnsAttr, columns, rest₄, hcolumnsLe, hsame, hlt, hall, hlens, hlevels, rfl, rfl, rfl⟩ :=
    parseTableColumns_sound hsound (hat.skip_one.skip.note _) hok
  -- only a symbol list has the shape of the column names
  cases namesWire with
  | symbolList namesAttr texts =>
    obtain ⟨hheader, hnul⟩ := hnamesWF
    refine ⟨.table attr namesAttr texts columnsAttr columns, _, rest₄,
      ⟨hle, hheader, hnul, hcolumnsLe, hsame, hlt, hall, hlens⟩, rfl, ?_, ?_, rfl, ?_⟩
    · simp only [Wire.depth]
      omega
    · simp [Wire.encode]
    · simp only [Parser.skip_note, Parser.skip_skip, Parser.note_note, Wire.depth, Wire.encode,
        List.length_cons, List.length_append, encode_length]
      congr 1
      · congr 1
        omega
      · omega
  | fixedList elementType rawAttr count payload =>
    simp only [Wire.parsed, ne_eq, Shape.Sequence.injEq, Option.some.injEq, not_not] at hshape
    exact absurd hshape hnamesWF.2.2.2.1
  | _ => simp [Wire.parsed] at hshape

theorem parseBody_sound (wireType : UInt8) :
    BodySound (fun d p => parseBody parse p wireType d) wireType := by
  intro d p p' value rest h hd hnoted hok
  simp only [parseBody] at hok
  by_cases hatom : 237 ≤ wireType
  · rw [if_pos hatom] at hok
    exact parseAtom_sound h hd hnoted hok
  rw [if_neg hatom] at hok
  by_cases hzero : wireType = 0
  · rw [if_pos hzero] at hok
    subst hzero
    exact parseGeneralList_sound hsound h hd hnoted hok
  rw [if_neg hzero] at hok
  by_cases hle : wireType ≤ 19
  · rw [if_pos hle] at hok
    have hpos : 1 ≤ wireType := by
      rw [UInt8.le_iff_toNat_le]
      have hne : wireType.toNat ≠ 0 := fun h => hzero (UInt8.toNat_inj.mp h)
      have : (1 : UInt8).toNat = 1 := rfl
      omega
    exact parseTypedList_sound hpos hle h hd hnoted hok
  rw [if_neg hle] at hok
  by_cases htable : wireType = 98
  · rw [if_pos htable] at hok
    subst htable
    exact parseTable_sound hsound h hd hnoted hok
  rw [if_neg htable] at hok
  by_cases hdictionary : wireType = 99 ∨ wireType = 127
  · rw [if_pos hdictionary] at hok
    exact parseDictionary_sound hsound hdictionary h hd hnoted hok
  rw [if_neg hdictionary] at hok
  by_cases hlambda : wireType = 100
  · rw [if_pos hlambda] at hok
    subst hlambda
    exact parseLambda_sound h hd hnoted hok
  rw [if_neg hlambda] at hok
  by_cases hprimitive : 101 ≤ wireType ∧ wireType ≤ 103
  · rw [if_pos hprimitive] at hok
    exact parsePrimitive_sound hprimitive.1 hprimitive.2 h hd hnoted hok
  rw [if_neg hprimitive] at hok
  by_cases hcounted : 104 ≤ wireType ∧ wireType ≤ 105
  · rw [if_pos hcounted] at hok
    exact parseCountedFunction_sound hsound hcounted.1 hcounted.2 h hd hnoted hok
  rw [if_neg hcounted] at hok
  by_cases hderived : 106 ≤ wireType ∧ wireType ≤ 111
  · rw [if_pos hderived] at hok
    exact parseDerivedFunction_sound hsound hderived.1 hderived.2 h hd hnoted hok
  rw [if_neg hderived] at hok
  by_cases hfunction : 112 ≤ wireType ∧ wireType ≤ 126
  · rw [if_pos hfunction] at hok
    cases hok
  rw [if_neg hfunction] at hok
  by_cases herror : wireType = 128
  · rw [if_pos herror] at hok
    simp [parseServerError, Exec.bind_eq_ok] at hok
  · rw [if_neg herror] at hok
    cases hok

end Children

/-- **Soundness.** Whatever `parse_value` accepts is the encoding of a tree. -/
theorem parseValue_sound (fuel : Nat) : Sound (parseValue fuel) := by
  induction fuel with
  | zero =>
    intro d p p' value rest h hok
    cases hok
  | succ fuel ih =>
    intro d p p' value rest h hok
    simp only [parseValue, Exec.bind_eq_ok, Prod.exists, noteDepth_eq_ok] at hok
    obtain ⟨q₁, ⟨hd, rfl⟩, wireType, q₂, hbyte, hbody⟩ := hok
    obtain ⟨rest₁, rfl, rfl⟩ := takeByte_sound (h.note d) hbyte
    have hat := (h.note d).skip_one
    obtain ⟨wire, tail, rest₂, hwf, hencode, hdepth, rfl, rfl, rfl⟩ :=
      parseBody_sound ih wireType hat hd (Parser.le_note p d) hbody
    refine ⟨wire, rest₂, hwf, hdepth, by simp [hencode], rfl, ?_⟩
    simp only [Parser.skip_note, Parser.skip_skip, Parser.note_note, hencode, List.length_cons]
    congr 1
    · congr 1
      omega
    · omega

/-! ## What `validate` decides -/

def Wire.metadata (wire : Wire) : Metadata :=
  ⟨wire.parsed.typeCode, wire.parsed.len,
    wire.parsed.shape == .Table || wire.parsed.shape == .Dictionary true, wire.depth⟩

theorem at_start {bytes : Bytes} (h : bytes.length ≤ usizeMax) : (⟨bytes, 0, 0⟩ : Parser).At bytes :=
  ⟨Nat.zero_le _, h, rfl⟩

theorem parseFuel_eq : parseFuel = 66 := rfl

theorem validate_encode {wire : Wire} (hwf : wire.WF) (hdepth : wire.depth ≤ 64)
    (hlen : wire.encode.length ≤ usizeMax) : validate wire.encode = .ok wire.metadata := by
  have hat : (⟨wire.encode, 0, 0⟩ : Parser).At (wire.encode ++ []) := by
    simpa using at_start hlen
  have hparse := parseValue_complete hwf (by rw [parseFuel_eq]; omega : wire.depth < parseFuel) 0 _ []
    (by omega) hat
  simp only [validate, hparse, Exec.ok_bind, Parser.note_position, Parser.skip_position]
  simp [Wire.metadata, Parser.note]

/-- `validate` accepts exactly the encodings of well-formed trees of at most 64 levels. -/
theorem validate_eq_ok {bytes : Bytes} (hlen : bytes.length ≤ usizeMax) {metadata : Metadata} :
    validate bytes = .ok metadata ↔
      ∃ wire : Wire, wire.WF ∧ wire.depth ≤ 64 ∧ bytes = wire.encode ∧ metadata = wire.metadata := by
  constructor
  · intro hok
    have hvalid := hok
    simp only [validate, Exec.bind_eq_ok, Prod.exists] at hok
    obtain ⟨value, p, hparse, hok⟩ := hok
    obtain ⟨wire, rest, hwf, hdepth, hbytes, rfl, rfl⟩ := parseValue_sound _ (at_start hlen) hparse
    split at hok
    · cases hok
    next hend =>
    simp only [Parser.note_position, Parser.skip_position, not_not] at hend
    have hrest : rest = [] := by
      have hsize := congrArg List.length hbytes
      rw [List.length_append] at hsize
      exact List.length_eq_zero_iff.mp (by omega)
    subst hrest
    rw [List.append_nil] at hbytes
    subst hbytes
    have hwire := validate_encode hwf (by omega) hlen
    exact ⟨wire, hwf, by omega, rfl, Except.ok.inj (hvalid.symm.trans hwire)⟩
  · rintro ⟨wire, hwf, hdepth, rfl, rfl⟩
    exact validate_encode hwf hdepth hlen

end Xqdb.QValue
