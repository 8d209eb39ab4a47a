import Xqdb.QValue.Wire

/-! The parser reads exactly the language of `Wire`. `parseValue_complete`: it
accepts every well-formed tree that is shallow enough, wherever it stands.
`parseValue_sound`: whatever it accepts is the encoding of such a tree. -/

namespace Xqdb.QValue

open LittleEndian (decode signed decode_encode encode_length)

namespace Parser

/-- `p` stands before `rest`. -/
structure At (p : Parser) (rest : Bytes) : Prop where
  inside : p.position ≤ p.bytes.length
  bounded : p.bytes.length ≤ usizeMax
  drop_eq : p.bytes.drop p.position = rest

def skip (p : Parser) (n : Nat) : Parser := { p with position := p.position + n }

def note (p : Parser) (depth : Nat) : Parser := { p with maxDepth := max p.maxDepth depth }

@[simp] theorem skip_zero (p : Parser) : p.skip 0 = p := rfl

@[simp] theorem skip_skip (p : Parser) (m n : Nat) : (p.skip m).skip n = p.skip (m + n) := by
  simp [skip, Nat.add_assoc]

@[simp] theorem skip_note (p : Parser) (n depth : Nat) :
    (p.note depth).skip n = (p.skip n).note depth := rfl

@[simp] theorem note_note (p : Parser) (d e : Nat) : (p.note d).note e = p.note (max d e) := by
  simp [note, Nat.max_assoc]

@[simp] theorem skip_position (p : Parser) (n : Nat) : (p.skip n).position = p.position + n := rfl

@[simp] theorem skip_bytes (p : Parser) (n : Nat) : (p.skip n).bytes = p.bytes := rfl

@[simp] theorem note_bytes (p : Parser) (d : Nat) : (p.note d).bytes = p.bytes := rfl

@[simp] theorem note_position (p : Parser) (d : Nat) : (p.note d).position = p.position := rfl

theorem note_of_le {p : Parser} {d : Nat} (h : d ≤ p.maxDepth) : p.note d = p := by
  simp [note, Nat.max_eq_left h]

theorem skip_note_of_le {p : Parser} {n d : Nat} (h : d ≤ p.maxDepth) :
    (p.skip n).note d = p.skip n := note_of_le h

theorem le_note (p : Parser) (d : Nat) : d ≤ (p.note d).maxDepth := Nat.le_max_right _ _

@[simp] theorem skip_maxDepth (p : Parser) (n : Nat) : (p.skip n).maxDepth = p.maxDepth := rfl

namespace At

theorem note {p : Parser} {rest : Bytes} (h : p.At rest) (d : Nat) : (p.note d).At rest :=
  ⟨h.inside, h.bounded, h.drop_eq⟩

theorem length_eq {p : Parser} {rest : Bytes} (h : p.At rest) :
    p.bytes.length = p.position + rest.length := by
  have := h.inside
  rw [← h.drop_eq, List.length_drop]
  omega

theorem skip {p : Parser} {text rest : Bytes} (h : p.At (text ++ rest)) :
    (p.skip text.length).At rest := by
  have hlen := h.length_eq
  rw [List.length_append] at hlen
  refine ⟨?_, h.bounded, ?_⟩
  · simp only [skip_position, skip_bytes]
    omega
  · simp only [skip_position, skip_bytes, ← List.drop_drop, h.drop_eq, List.drop_left]

theorem skip_one {p : Parser} {b : UInt8} {rest : Bytes} (h : p.At (b :: rest)) :
    (p.skip 1).At rest := by
  have h' : p.At ([b] ++ rest) := h
  exact h'.skip

theorem skip_nul {p : Parser} {text rest : Bytes} (h : p.At (text ++ 0 :: rest)) :
    (p.skip (text.length + 1)).At rest := by
  have h' : p.At ((text ++ [0]) ++ rest) := by simpa using h
  simpa using h'.skip

end At
end Parser

/-! ## Taking bytes -/

theorem take_complete {p : Parser} {text rest : Bytes} (h : p.At (text ++ rest)) (context : String) :
    take p text.length context = .ok (text, p.skip text.length) := by
  have hlen := h.length_eq
  have hbound := h.bounded
  rw [List.length_append] at hlen
  have hadd : checkedAdd p.position text.length = some (p.position + text.length) := by
    rw [checkedAdd, if_pos (by omega)]
  have hget : getRange p.bytes p.position (p.position + text.length) = some text := by
    rw [getRange_eq_some]
    refine ⟨by omega, by omega, ?_⟩
    rw [h.drop_eq, Nat.add_sub_cancel_left, List.take_left]
  simp only [take, hadd, hget, Exec.okOr_some, Exec.ok_bind]
  rfl

theorem take_sound {p p' : Parser} {rest value : Bytes} {n : Nat} {context : String}
    (h : p.At rest) (hok : take p n context = .ok (value, p')) :
    ∃ rest', rest = value ++ rest' ∧ value.length = n ∧ p' = p.skip n := by
  simp only [take, Exec.bind_eq_ok, Exec.okOr_eq_ok] at hok
  obtain ⟨stop, hstop, out, hout, heq⟩ := hok
  simp only [Except.ok.injEq, Prod.mk.injEq] at heq
  obtain ⟨rfl, rfl⟩ := heq
  obtain rfl : stop = p.position + n := by
    unfold checkedAdd at hstop
    split at hstop
    · exact (Option.some.inj hstop).symm
    · cases hstop
  obtain ⟨-, h₂, rfl⟩ := getRange_eq_some.mp hout
  have hlen := h.length_eq
  rw [h.drop_eq, Nat.add_sub_cancel_left]
  refine ⟨rest.drop n, (List.take_append_drop n rest).symm, ?_, rfl⟩
  rw [List.length_take]
  omega

theorem takeByte_complete {p : Parser} {b : UInt8} {rest : Bytes} (h : p.At (b :: rest))
    (context : String) : takeByte p context = .ok (b, p.skip 1) := by
  have h' : p.At ([b] ++ rest) := h
  have htake : take p 1 context = .ok ([b], p.skip 1) := take_complete h' context
  rw [takeByte, htake]
  rfl

theorem takeByte_sound {p p' : Parser} {rest : Bytes} {b : UInt8} {context : String}
    (h : p.At rest) (hok : takeByte p context = .ok (b, p')) :
    ∃ rest', rest = b :: rest' ∧ p' = p.skip 1 := by
  simp only [takeByte, Exec.bind_eq_ok, Prod.exists] at hok
  obtain ⟨value, q, htake, c, hc, heq⟩ := hok
  simp only [Except.ok.injEq, Prod.mk.injEq] at heq
  obtain ⟨rfl, rfl⟩ := heq
  obtain ⟨rest', rfl, hlen, rfl⟩ := take_sound h htake
  obtain ⟨x, rfl⟩ := List.length_eq_one_iff.mp hlen
  rw [index_eq_ok] at hc
  simp only [List.getElem?_cons_zero, Option.some.injEq] at hc
  exact ⟨rest', by simp [hc], rfl⟩

theorem takeUntilNul_complete {p : Parser} {text rest : Bytes} (h : p.At (text ++ 0 :: rest))
    (hnul : 0 ∉ text) (context : String) :
    takeUntilNul p context = .ok (text, p.skip (text.length + 1)) := by
  have hlen := h.length_eq
  have hbound := h.bounded
  simp only [List.length_append, List.length_cons] at hlen
  have hfrom : getFrom p.bytes p.position = some (text ++ 0 :: rest) := by
    rw [getFrom, if_pos h.inside, h.drop_eq]
  have hadd : checkedAdd p.position text.length = some (p.position + text.length) := by
    rw [checkedAdd, if_pos (by omega)]
  have hnext : checkedAdd (p.position + text.length) 1 = some (p.position + text.length + 1) := by
    rw [checkedAdd, if_pos (by omega)]
  have hslice : sliceRange p.bytes p.position (p.position + text.length) = .ok text := by
    rw [sliceRange_eq_ok, getRange_eq_some]
    refine ⟨by omega, by omega, ?_⟩
    rw [h.drop_eq, Nat.add_sub_cancel_left, List.take_left]
  simp only [takeUntilNul, hfrom, memchr_append_zero hnul, hadd, hnext, hslice, Exec.okOr_some,
    Exec.ok_bind]
  rfl

theorem takeUntilNul_sound {p p' : Parser} {rest text : Bytes} {context : String}
    (h : p.At rest) (hok : takeUntilNul p context = .ok (text, p')) :
    ∃ rest', rest = text ++ 0 :: rest' ∧ 0 ∉ text ∧ p' = p.skip (text.length + 1) := by
  simp only [takeUntilNul, Exec.bind_eq_ok, Exec.okOr_eq_ok] at hok
  obtain ⟨tail, htail, length, hlength, -⟩ := id hok
  have htail' : tail = rest := by
    unfold getFrom at htail
    rw [if_pos h.inside, h.drop_eq] at htail
    exact (Option.some.inj htail).symm
  subst htail'
  obtain ⟨text', rest', rfl, hnul, rfl⟩ := memchr_eq_some.mp hlength
  have hcomplete := takeUntilNul_complete h hnul context
  have hsame : takeUntilNul p context = .ok (text, p') := by
    simp only [takeUntilNul, Exec.bind_eq_ok, Exec.okOr_eq_ok]
    exact hok
  rw [hcomplete] at hsame
  simp only [Except.ok.injEq, Prod.mk.injEq] at hsame
  obtain ⟨rfl, rfl⟩ := hsame
  exact ⟨rest', rfl, hnul, rfl⟩

theorem takeWord_complete {p : Parser} {width count : Nat} {rest : Bytes}
    (hwidth : 0 < width) (hcount : count < 2 ^ (8 * width - 1))
    (h : p.At (LittleEndian.encode width count ++ rest)) (context message : String) :
    takeWord p width context message = .ok (count, p.skip width) := by
  have htake := take_complete h context
  rw [encode_length] at htake
  have hpow : 256 ^ width = 2 ^ (8 * width) := by rw [Nat.pow_mul]
  have hdecode : decode (LittleEndian.encode width count) = count := by
    apply decode_encode
    rw [hpow]
    exact lt_of_lt_of_le hcount (Nat.pow_le_pow_right (by omega) (by omega))
  have hsign : ¬ signed (8 * width) count < 0 := by
    rw [LittleEndian.signed_nonneg hcount]
    omega
  simp only [takeWord, htake, Exec.ok_bind, hdecode, if_neg hsign]

theorem takeWord_sound {p p' : Parser} {width count : Nat} {rest : Bytes}
    {context message : String} (h : p.At rest)
    (hok : takeWord p width context message = .ok (count, p')) :
    count < 2 ^ (8 * width - 1) ∧
      ∃ rest', rest = LittleEndian.encode width count ++ rest' ∧ p' = p.skip width := by
  simp only [takeWord, Exec.bind_eq_ok, Prod.exists] at hok
  obtain ⟨raw, q, htake, hok⟩ := hok
  obtain ⟨rest', rfl, rfl, rfl⟩ := take_sound h htake
  split at hok
  · cases hok
  · next hsign =>
    simp only [Except.ok.injEq, Prod.mk.injEq] at hok
    obtain ⟨rfl, rfl⟩ := hok
    refine ⟨?_, rest', by rw [LittleEndian.encode_decode], rfl⟩
    by_contra hlt
    have hbound := LittleEndian.decode_lt raw
    have hpow : 256 ^ raw.length = 2 ^ (8 * raw.length) := by rw [Nat.pow_mul]
    exact hsign (LittleEndian.signed_neg (by omega) hlt)

theorem takeCount_complete {p : Parser} {count : Nat} {rest : Bytes} (hcount : count < 2 ^ 31)
    (h : p.At (LittleEndian.encode 4 count ++ rest)) (context : String) :
    takeCount p context = .ok (count, p.skip 4) :=
  takeWord_complete (by decide) hcount h _ _

theorem takeCount_sound {p p' : Parser} {rest : Bytes} {count : Nat} {context : String}
    (h : p.At rest) (hok : takeCount p context = .ok (count, p')) :
    count < 2 ^ 31 ∧ ∃ rest', rest = LittleEndian.encode 4 count ++ rest' ∧ p' = p.skip 4 :=
  takeWord_sound h hok

theorem takeAttribute_complete {p : Parser} {attr : UInt8} {rest : Bytes} (hattr : attr ≤ 4)
    (h : p.At (attr :: rest)) (context : String) :
    takeAttribute p context = .ok (attr, p.skip 1) := by
  simp [takeAttribute, takeByte_complete h, UInt8.not_lt.mpr hattr]

theorem takeAttribute_sound {p p' : Parser} {attr : UInt8} {rest : Bytes} {context : String}
    (h : p.At rest) (hok : takeAttribute p context = .ok (attr, p')) :
    attr ≤ 4 ∧ ∃ rest', rest = attr :: rest' ∧ p' = p.skip 1 := by
  simp only [takeAttribute, Exec.bind_eq_ok, Prod.exists] at hok
  obtain ⟨b, q, hbyte, hok⟩ := hok
  split at hok
  · cases hok
  · next hle =>
    simp only [Except.ok.injEq, Prod.mk.injEq] at hok
    obtain ⟨rfl, rfl⟩ := hok
    exact ⟨UInt8.not_lt.mp hle, takeByte_sound h hbyte⟩

theorem listHeader_length (rawAttr : UInt8) (count : Nat) :
    (listHeader rawAttr count).length = if rawAttr &&& 0x80 = 0 then 5 else 9 := by
  simp only [listHeader, List.length_cons, encode_length]
  split <;> rfl

theorem takeTypedListCount_complete {p : Parser} {rawAttr : UInt8} {count : Nat} {rest : Bytes}
    (hok : HeaderOk rawAttr count) (h : p.At (listHeader rawAttr count ++ rest))
    (context : String) :
    takeTypedListCount p context = .ok (count, p.skip (listHeader rawAttr count).length) := by
  obtain ⟨hattr, hcount⟩ := hok
  rw [listHeader, List.cons_append] at h
  have hnext := h.skip_one
  simp only [takeTypedListCount, takeByte_complete h, Exec.ok_bind, UInt8.not_lt.mpr hattr, if_false,
    listHeader_length]
  split
  · next hbit =>
    rw [if_pos hbit] at hcount hnext
    rw [takeCount_complete hcount hnext, Parser.skip_skip]
  · next hbit =>
    rw [if_neg hbit] at hcount hnext
    rw [takeExtendedCount, takeWord_complete (by decide) hcount hnext, Parser.skip_skip]

theorem takeTypedListCount_sound {p p' : Parser} {count : Nat} {rest : Bytes} {context : String}
    (h : p.At rest) (hok : takeTypedListCount p context = .ok (count, p')) :
    ∃ rawAttr rest', HeaderOk rawAttr count ∧ rest = listHeader rawAttr count ++ rest' ∧
      p' = p.skip (listHeader rawAttr count).length := by
  simp only [takeTypedListCount, Exec.bind_eq_ok, Prod.exists] at hok
  obtain ⟨rawAttr, q, hbyte, hok⟩ := hok
  obtain ⟨rest₁, rfl, rfl⟩ := takeByte_sound h hbyte
  split at hok
  · cases hok
  next hle =>
  refine ⟨rawAttr, ?_⟩
  unfold HeaderOk listHeader
  split at hok
  · next hbit =>
    obtain ⟨hcount, rest₂, rfl, rfl⟩ := takeCount_sound h.skip_one hok
    refine ⟨rest₂, ⟨UInt8.not_lt.mp hle, by simpa [hbit] using hcount⟩, by simp [hbit], ?_⟩
    simp [hbit, encode_length]
  · next hbit =>
    obtain ⟨hcount, rest₂, rfl, rfl⟩ := takeWord_sound h.skip_one hok
    refine ⟨rest₂, ⟨UInt8.not_lt.mp hle, by simpa [hbit] using hcount⟩, by simp [hbit], ?_⟩
    simp [hbit, encode_length]

theorem takeSymbols_complete {texts : List Bytes} {rest : Bytes} (hnul : ∀ text ∈ texts, 0 ∉ text)
    (context : String) (p : Parser) (h : p.At (symbolBytes texts ++ rest)) :
    takeSymbols context texts.length p = .ok (p.skip (symbolBytes texts).length) := by
  induction texts generalizing p with
  | nil => rfl
  | cons text texts ih =>
    have hat : p.At (text ++ 0 :: (symbolBytes texts ++ rest)) := by
      simpa [symbolBytes] using h
    simp only [List.length_cons, takeSymbols, Exec.ok_bind,
      takeUntilNul_complete hat (hnul text (by simp)),
      ih (fun t ht => hnul t (by simp [ht])) _ hat.skip_nul, Parser.skip_skip]
    congr 2
    simp only [symbolBytes, List.length_append, List.length_cons]
    omega

theorem takeSymbols_sound {context : String} {count : Nat} {p p' : Parser} {rest : Bytes}
    (h : p.At rest) (hok : takeSymbols context count p = .ok p') :
    ∃ texts rest', texts.length = count ∧ (∀ text ∈ texts, 0 ∉ text) ∧
      rest = symbolBytes texts ++ rest' ∧ p' = p.skip (symbolBytes texts).length := by
  induction count generalizing p rest with
  | zero =>
    cases hok
    exact ⟨[], rest, rfl, by simp, rfl, rfl⟩
  | succ count ih =>
    simp only [takeSymbols, Exec.bind_eq_ok, Prod.exists] at hok
    obtain ⟨text, q, htake, hok⟩ := hok
    obtain ⟨rest₁, rfl, hnul, rfl⟩ := takeUntilNul_sound h htake
    obtain ⟨texts, rest₂, rfl, hnuls, rfl, rfl⟩ := ih h.skip_nul hok
    refine ⟨text :: texts, rest₂, rfl, ?_, by simp [symbolBytes], ?_⟩
    · simpa using ⟨hnul, hnuls⟩
    · simp only [Parser.skip_skip, symbolBytes, List.length_append, List.length_cons]
      congr 1
      omega

theorem validatePayload_eq_ok {kind : UInt8} {payload : Bytes} {context : String} {u : Unit} :
    validatePayload kind payload context = .ok u ↔ (kind = 1 → ∀ b ∈ payload, b ≤ 1) := by
  unfold validatePayload
  split
  · next hkind =>
    unfold validateBooleanBytes
    cases hfind : payload.find? (1 < ·) with
    | none =>
      simp only [hkind, true_implies, true_iff]
      intro b hb
      have := List.find?_eq_none.mp hfind b hb
      exact UInt8.not_lt.mp (by simpa using this)
    | some value =>
      have hvalue := List.find?_some hfind
      have hmem := List.mem_of_find?_eq_some hfind
      simp only [fail, Exec.err_ne_ok, hkind, true_implies, false_iff]
      intro hall
      exact UInt8.not_lt.mpr (hall value hmem) (by simpa using hvalue)
  · next hkind => simp [hkind]

theorem noteDepth_eq_ok {p p' : Parser} {depth : Nat} :
    noteDepth p depth = .ok p' ↔ depth ≤ 64 ∧ p' = p.note depth := by
  unfold noteDepth maxValueDepth
  split
  · simp only [fail, Exec.err_ne_ok, false_iff]
    omega
  · simp only [Except.ok.injEq]
    constructor
    · rintro rfl
      exact ⟨by omega, rfl⟩
    · rintro ⟨-, rfl⟩
      rfl

theorem ensureMatchingCounts_eq_ok {left right : Nat} {context : String} {u : Unit} :
    ensureMatchingCounts left right context = .ok u ↔ left = right := by
  unfold ensureMatchingCounts
  split <;> simp_all [fail]

/-! ## Completeness -/

/-- `parse` reads the tree `wire` wherever it stands, from every level it fits under. -/
def Reads (parse : Nat → Parser → Exec (Parsed × Parser)) (wire : Wire) : Prop :=
  ∀ (d : Nat) (p : Parser) (rest : Bytes), d + wire.depth ≤ 64 → p.At (wire.encode ++ rest) →
    parse d p = .ok (wire.parsed, (p.skip wire.encode.length).note (d + wire.depth))

theorem parseMany_complete {parse : Nat → Parser → Exec (Parsed × Parser)} {wires : List Wire}
    (hreads : ∀ wire ∈ wires, Reads parse wire) (d : Nat) (p : Parser) (rest : Bytes)
    (hdepth : d + Wire.levels wires ≤ 64) (hnoted : d ≤ p.maxDepth)
    (h : p.At (Wire.encodeAll wires ++ rest)) :
    parseMany parse (d + 1) wires.length p =
      .ok (wires.map Wire.parsed,
        (p.skip (Wire.encodeAll wires).length).note (d + Wire.levels wires)) := by
  induction wires generalizing p with
  | nil => simp [parseMany, Wire.encodeAll, Wire.levels, Parser.note_of_le hnoted]
  | cons wire wires ih =>
    simp only [Wire.levels] at hdepth
    rw [Wire.encodeAll, List.append_assoc] at h
    have hhead := hreads wire (by simp) (d + 1) p _ (by omega) h
    have htail := ih (fun w hw => hreads w (by simp [hw]))
      ((p.skip wire.encode.length).note (d + 1 + wire.depth)) (by omega)
      (by have := Parser.le_note (p.skip wire.encode.length) (d + 1 + wire.depth); omega)
      (h.skip.note _)
    simp only [List.length_cons, parseMany, hhead, Exec.ok_bind, htail, List.map_cons,
      Parser.skip_note, Parser.skip_skip, Parser.note_note, Wire.encodeAll, Wire.levels,
      List.length_append]
    congr 3
    omega

/-- The row counts of the columns, checked in the order they are read. -/
def columnRows : Option Nat → List Parsed → Exec (Option Nat)
  | rowCount, [] => .ok rowCount
  | rowCount, column :: columns => do
    let rows ← checkColumn rowCount column
    columnRows (some rows) columns

theorem parseColumns_eq_ok {parse : Nat → Parser → Exec (Parsed × Parser)} {depth count : Nat}
    {rowCount rowCount' : Option Nat} {p p' : Parser} :
    parseColumns parse depth count rowCount p = .ok (rowCount', p') ↔
      ∃ columns, parseMany parse depth count p = .ok (columns, p') ∧
        columnRows rowCount columns = .ok rowCount' := by
  induction count generalizing rowCount p with
  | zero =>
    simp only [parseColumns, parseMany, Except.ok.injEq, Prod.mk.injEq]
    constructor
    · rintro ⟨rfl, rfl⟩
      exact ⟨[], ⟨rfl, rfl⟩, rfl⟩
    · rintro ⟨columns, ⟨rfl, rfl⟩, hrows⟩
      exact ⟨Except.ok.inj hrows, rfl⟩
  | succ count ih =>
    simp only [parseColumns, parseMany, Exec.bind_eq_ok, Prod.exists, ih, Except.ok.injEq,
      Prod.mk.injEq]
    constructor
    · rintro ⟨column, q, hparse, rows, hcheck, columns, hmany, hrows⟩
      refine ⟨column :: columns, ⟨column, q, hparse, columns, p', hmany, rfl, rfl⟩, ?_⟩
      simpa [columnRows, Exec.bind_eq_ok] using ⟨rows, hcheck, hrows⟩
    · rintro ⟨columns, ⟨column, q, hparse, rest, q', hmany, rfl, rfl⟩, hrows⟩
      simp only [columnRows, Exec.bind_eq_ok] at hrows
      obtain ⟨rows, hcheck, hrows⟩ := hrows
      exact ⟨column, q, hparse, rows, hcheck, rest, hmany, hrows⟩

theorem checkColumn_eq_ok {rowCount : Option Nat} {column : Parsed} {rows : Nat} :
    checkColumn rowCount column = .ok rows ↔
      column.sequenceLen = some rows ∧ ∀ expected ∈ rowCount, expected = rows := by
  simp only [checkColumn, Exec.bind_eq_ok, Exec.okOr_eq_ok]
  cases rowCount with
  | none => simp
  | some expected =>
    simp only [Exec.bind_eq_ok, ensureMatchingCounts_eq_ok, Except.ok.injEq, Option.mem_def,
      Option.some.injEq, forall_eq']
    constructor
    · rintro ⟨len, hlen, -, rfl, rfl⟩
      exact ⟨hlen, rfl⟩
    · rintro ⟨hlen, rfl⟩
      exact ⟨_, hlen, (), rfl, rfl⟩

theorem columnRows_some {expected : Nat} {columns : List Parsed} {rowCount : Option Nat} :
    columnRows (some expected) columns = .ok rowCount ↔
      rowCount = some expected ∧ ∀ column ∈ columns, column.sequenceLen = some expected := by
  induction columns with
  | nil => simp [columnRows, eq_comm]
  | cons column columns ih =>
    simp only [columnRows, Exec.bind_eq_ok, checkColumn_eq_ok, Option.mem_def, Option.some.injEq,
      forall_eq', List.mem_cons, forall_eq_or_imp]
    constructor
    · rintro ⟨rows, ⟨hlen, rfl⟩, hrest⟩
      obtain ⟨hcount, hall⟩ := ih.mp hrest
      exact ⟨hcount, hlen, hall⟩
    · rintro ⟨hcount, hlen, hall⟩
      exact ⟨expected, ⟨hlen, rfl⟩, ih.mpr ⟨hcount, hall⟩⟩

/-- A table's columns are lists of one length, which becomes the table's. -/
theorem columnRows_none {wires : List Wire} {rowCount : Option Nat} :
    columnRows none (wires.map Wire.parsed) = .ok rowCount ↔
      (∀ wire ∈ wires, wire.parsed.sequenceLen = some (Wire.firstLen wires)) ∧
        rowCount = wires.head?.map fun wire => wire.parsed.len := by
  cases wires with
  | nil => simp [columnRows, eq_comm]
  | cons wire wires =>
    have hlen : ∀ {rows}, wire.parsed.sequenceLen = some rows → rows = wire.parsed.len := by
      intro rows h
      unfold Parsed.sequenceLen at h
      split at h
      · exact (Option.some.inj h).symm
      · cases h
    simp only [List.map_cons, columnRows, Exec.bind_eq_ok, checkColumn_eq_ok, Option.mem_def,
      reduceCtorEq, false_implies, implies_true, and_true, columnRows_some, Wire.firstLen,
      List.mem_cons, forall_eq_or_imp, List.head?_cons, Option.map_some, List.mem_map,
      forall_exists_index, and_imp, forall_apply_eq_imp_iff₂]
    constructor
    · rintro ⟨rows, hhead, rfl, hall⟩
      obtain rfl := hlen hhead
      exact ⟨⟨hhead, hall⟩, rfl⟩
    · rintro ⟨⟨hhead, hall⟩, rfl⟩
      exact ⟨_, hhead, rfl, hall⟩

theorem dictionaryShape_eq_ok {keys values : Parsed} {len : Nat} {keyedTable : Bool} :
    dictionaryShape keys values = .ok (len, keyedTable) ↔
      Wire.SidesOk keys values ∧ len = keys.len ∧ keyedTable = (keys.shape == .Table) := by
  obtain ⟨_, keyLen, keyShape⟩ := keys
  obtain ⟨_, valueLen, valueShape⟩ := values
  cases keyShape <;> cases valueShape <;>
    simp [dictionaryShape, Wire.SidesOk, Parsed.sequenceLen, Exec.bind_eq_ok,
      ensureMatchingCounts_eq_ok, fail, Exec.err]
  case Sequence.Sequence element _ =>
    intro _
    have hshape : (Shape.Sequence element == Shape.Table) = false := rfl
    rw [hshape, @eq_comm _ len]
  case Table.Table =>
    intro _ _
    exact eq_comm

/-- One more level of `parse_value` around the type byte. -/
theorem reads_of_body {fuel : Nat} {wire : Wire} {wireType : UInt8} {tail : Bytes}
    (hencode : wire.encode = wireType :: tail)
    (hbody : ∀ (d : Nat) (p : Parser) (rest : Bytes), d + wire.depth ≤ 64 → d ≤ p.maxDepth →
      p.At (tail ++ rest) →
      parseBody (parseValue fuel) p wireType d =
        .ok (wire.parsed, (p.skip tail.length).note (d + wire.depth))) :
    Reads (parseValue (fuel + 1)) wire := by
  intro d p rest hdepth h
  rw [hencode, List.cons_append] at h
  have hnote : noteDepth p d = .ok (p.note d) := noteDepth_eq_ok.mpr ⟨by omega, rfl⟩
  have hbody' := hbody d ((p.skip 1).note d) rest hdepth (Parser.le_note _ d) (h.skip_one.note d)
  simp only [parseValue, hnote, Exec.ok_bind, takeByte_complete (h.note d), hbody', hencode,
    Parser.skip_note, Parser.skip_skip, Parser.note_note, List.length_cons, Nat.add_comm 1]
  congr 3
  omega

/-- The children of a counted node, wherever their list stands. -/
theorem count_guard {p : Parser} {wires : List Wire} {rest : Bytes} {size : Nat} (hsize : 0 < size)
    (hlong : ∀ wire ∈ wires, size ≤ wire.encode.length)
    (h : p.At (Wire.encodeAll wires ++ rest)) : ¬ remaining p / size < wires.length := by
  have hlen := h.length_eq
  have hall := Wire.length_le_encodeAll hlong
  rw [List.length_append] at hlen
  rw [Nat.not_lt, Nat.le_div_iff_mul_le hsize, remaining]
  omega

theorem parseBody_atom {parse : Nat → Parser → Exec (Parsed × Parser)} {p : Parser} {kind : UInt8}
    {d : Nat} (h₁ : 1 ≤ kind) (h₂ : kind ≤ 19) :
    parseBody parse p (0 - kind) d = parseAtom p (0 - kind) := by
  have hle : (237 : UInt8) ≤ 0 - kind := by
    rw [UInt8.le_iff_toNat_le] at *
    have : (0 - kind).toNat = 256 - kind.toNat := by
      rw [UInt8.toNat_sub]
      have := kind.toNat_lt
      have : (1 : UInt8).toNat = 1 := rfl
      have : (0 : UInt8).toNat = 0 := rfl
      omega
    have : (237 : UInt8).toNat = 237 := rfl
    have : (19 : UInt8).toNat = 19 := rfl
    omega
  rw [parseBody, if_pos hle]

theorem zero_sub_zero_sub (kind : UInt8) : 0 - (0 - kind) = kind := by
  apply UInt8.toBitVec_inj.mp
  simp

/-- The type byte of a fixed list selects the typed-list branch. -/
theorem parseBody_typedList {parse : Nat → Parser → Exec (Parsed × Parser)} {p : Parser}
    {elementType : UInt8} {d : Nat} (h₁ : 1 ≤ elementType) (h₂ : elementType ≤ 19) :
    parseBody parse p elementType d = parseTypedList p elementType := by
  have hlow : ¬ (237 : UInt8) ≤ elementType := by
    rw [UInt8.le_iff_toNat_le] at *
    have : (237 : UInt8).toNat = 237 := rfl
    have : (19 : UInt8).toNat = 19 := rfl
    omega
  have hzero : elementType ≠ 0 := by
    rintro rfl
    exact absurd h₁ (by decide)
  rw [parseBody, if_neg hlow, if_neg hzero, if_pos h₂]

theorem reads_atom {fuel : Nat} {kind : UInt8} {payload : Bytes}
    (hwf : (Wire.atom kind payload).WF) : Reads (parseValue (fuel + 1)) (.atom kind payload) := by
  obtain ⟨h₁, h₂, h₃, h₄, hlen, hbool⟩ := hwf
  refine reads_of_body rfl fun d p rest hdepth hnoted h => ?_
  have htake := take_complete h "q atom payload"
  rw [hlen] at htake
  have hkind : ¬ (kind = 3 ∨ kind < 1 ∨ 19 < kind) := by
    simp only [not_or, UInt8.not_lt]
    exact ⟨h₃, h₁, h₂⟩
  have hvalid : validatePayload kind payload "q boolean atom" = .ok () :=
    validatePayload_eq_ok.mpr hbool
  rw [parseBody_atom h₁ h₂]
  simp only [parseAtom, zero_sub_zero_sub, if_neg hkind, parseAtomPayload, if_neg h₄,
    parseFixedAtom, htake, Exec.ok_bind, hvalid, Wire.depth, Wire.parsed, Nat.add_zero, hlen]
  rw [Parser.skip_note_of_le hnoted]

theorem reads_symbol {fuel : Nat} {text : Bytes} (hwf : (Wire.symbol text).WF) :
    Reads (parseValue (fuel + 1)) (.symbol text) := by
  refine reads_of_body rfl fun d p rest hdepth hnoted h => ?_
  have hat : p.At (text ++ 0 :: rest) := by simpa using h
  have htake := takeUntilNul_complete hat hwf "q symbol atom"
  have hbody : parseBody (parseValue fuel) p 245 d = parseAtom p 245 := by simp [parseBody]
  have hkind : (0 : UInt8) - 245 = 11 := rfl
  have hskip : (p.skip (text ++ [0]).length).note (d + Wire.depth (.symbol text)) =
      p.skip (text.length + 1) := by
    rw [Wire.depth, Nat.add_zero, List.length_append]
    exact Parser.note_of_le hnoted
  rw [hbody, hskip]
  simp only [parseAtom, hkind, parseAtomPayload, htake, Exec.ok_bind, if_true]
  rfl

theorem reads_fixedList {fuel : Nat} {elementType rawAttr : UInt8} {count : Nat} {payload : Bytes}
    (hwf : (Wire.fixedList elementType rawAttr count payload).WF) :
    Reads (parseValue (fuel + 1)) (.fixedList elementType rawAttr count payload) := by
  obtain ⟨h₁, h₂, h₃, h₄, hheader, hlen, hbool⟩ := hwf
  refine reads_of_body rfl fun d p rest hdepth hnoted h => ?_
  rw [List.append_assoc] at h
  have hcount := takeTypedListCount_complete hheader h "q typed list"
  have hat := h.skip
  have htake := take_complete hat "q typed-list payload"
  have hbytes := hat.length_eq
  have hbound := hat.bounded
  rw [List.length_append] at hbytes
  have hmul : checkedMul count (typeSize elementType) = some payload.length := by
    rw [checkedMul, ← hlen, if_pos (by omega)]
  have hvalid : validatePayload elementType payload "q boolean list" = .ok () :=
    validatePayload_eq_ok.mpr hbool
  rw [parseBody_typedList h₁ h₂]
  simp only [parseTypedList, if_neg h₃, hcount, Exec.ok_bind, parseListPayload, if_neg h₄,
    parseFixedList, hmul, Exec.okOr_some, htake, hvalid, Wire.depth, Wire.parsed, Nat.add_zero,
    Parser.skip_skip, List.length_append]
  rw [Parser.skip_note_of_le hnoted]

theorem reads_symbolList {fuel : Nat} {rawAttr : UInt8} {texts : List Bytes}
    (hwf : (Wire.symbolList rawAttr texts).WF) :
    Reads (parseValue (fuel + 1)) (.symbolList rawAttr texts) := by
  obtain ⟨hheader, hnul⟩ := hwf
  refine reads_of_body rfl fun d p rest hdepth hnoted h => ?_
  rw [List.append_assoc] at h
  have hcount := takeTypedListCount_complete hheader h "q typed list"
  have hsymbols := takeSymbols_complete hnul "q symbol-list element" _ h.skip
  have hthree : (11 : UInt8) ≠ 3 := by decide
  rw [parseBody_typedList (by decide) (by decide)]
  simp only [parseTypedList, if_neg hthree, hcount, Exec.ok_bind, parseListPayload, if_true,
    hsymbols, Wire.depth, Wire.parsed, Nat.add_zero, Parser.skip_skip, List.length_append]
  rw [Parser.skip_note_of_le hnoted]
  rfl

theorem reads_generalList {fuel : Nat} {attr : UInt8} {children : List Wire}
    (hwf : (Wire.generalList attr children).WF)
    (hreads : ∀ child ∈ children, Reads (parseValue fuel) child) :
    Reads (parseValue (fuel + 1)) (.generalList attr children) := by
  obtain ⟨hattr, hcount, hall⟩ := hwf
  refine reads_of_body rfl fun d p rest hdepth hnoted h => ?_
  rw [List.cons_append, List.append_assoc] at h
  have htake := takeAttribute_complete hattr h "q general list"
  have hnumber := takeCount_complete hcount h.skip_one "q general list"
  have hat := h.skip_one.skip
  rw [encode_length, Parser.skip_skip] at hat
  have hguard := count_guard (by decide) (fun w hw => Wire.two_le_encode (Wire.allWF_iff.mp hall w hw)) hat
  have hmany := parseMany_complete hreads d (p.skip (1 + 4)) rest
    (by simpa [Wire.depth] using hdepth) hnoted hat
  have hbody : parseBody (parseValue fuel) p 0 d = parseGeneralList (parseValue fuel) p d := by
    simp [parseBody]
  rw [hbody]
  simp only [parseGeneralList, htake, Exec.ok_bind, hnumber, Parser.skip_skip, if_neg hguard, hmany,
    Wire.depth, Wire.parsed, List.length_cons, List.length_append, encode_length]
  congr 4
  omega

theorem reads_counted {fuel : Nat} {wireType : UInt8} {children : List Wire}
    (hwf : (Wire.counted wireType children).WF)
    (hreads : ∀ child ∈ children, Reads (parseValue fuel) child) :
    Reads (parseValue (fuel + 1)) (.counted wireType children) := by
  obtain ⟨h₁, h₂, hcount, hall⟩ := hwf
  refine reads_of_body rfl fun d p rest hdepth hnoted h => ?_
  rw [List.append_assoc] at h
  have hnumber := fun context => takeCount_complete hcount h context
  have hat := h.skip
  rw [encode_length] at hat
  have hguard := count_guard (by decide) (fun w hw => Wire.two_le_encode (Wire.allWF_iff.mp hall w hw)) hat
  have hmany := parseMany_complete hreads d (p.skip 4) rest
    (by simpa [Wire.depth] using hdepth) hnoted hat
  have hbody : parseBody (parseValue fuel) p wireType d =
      parseCountedFunction (parseValue fuel) p wireType d := by
    obtain rfl | rfl : wireType = 104 ∨ wireType = 105 := by
      have hle : (wireType.toNat = 104) ∨ (wireType.toNat = 105) := by
        rw [UInt8.le_iff_toNat_le] at h₁ h₂
        have : (104 : UInt8).toNat = 104 := rfl
        have : (105 : UInt8).toNat = 105 := rfl
        omega
      exact hle.imp (fun h => UInt8.toNat_inj.mp h) (fun h => UInt8.toNat_inj.mp h)
    · rfl
    · rfl
  rw [hbody]
  simp only [parseCountedFunction, hnumber, Exec.ok_bind, if_neg hguard, hmany, Parser.skip_skip,
    Wire.depth, Wire.parsed, List.length_append, encode_length]

theorem reads_dictionary {fuel : Nat} {wireType : UInt8} {keys values : Wire}
    (hwf : (Wire.dictionary wireType keys values).WF) (hkeys : Reads (parseValue fuel) keys)
    (hvalues : Reads (parseValue fuel) values) :
    Reads (parseValue (fuel + 1)) (.dictionary wireType keys values) := by
  obtain ⟨htype, -, -, hsides⟩ := hwf
  refine reads_of_body rfl fun d p rest hdepth hnoted h => ?_
  rw [Wire.depth] at hdepth
  rw [List.append_assoc] at h
  have hfirst := hkeys (d + 1) p _ (by omega) h
  have hsecond := hvalues (d + 1) ((p.skip keys.encode.length).note (d + 1 + keys.depth)) rest
    (by omega) (h.skip.note _)
  have hshape := dictionaryShape_eq_ok.mpr ⟨hsides, rfl, rfl⟩
  have hbody : parseBody (parseValue fuel) p wireType d =
      parseDictionary (parseValue fuel) p wireType d := by
    obtain rfl | rfl := htype
    · rfl
    · rfl
  rw [hbody]
  simp only [parseDictionary, hfirst, Exec.ok_bind, hsecond, hshape, Wire.parsed, Wire.depth,
    Parser.skip_note, Parser.skip_skip, Parser.note_note, List.length_append]
  congr 3
  omega

theorem reads_lambda {fuel : Nat} {context source : Bytes} (hwf : (Wire.lambda context source).WF) :
    Reads (parseValue (fuel + 1)) (.lambda context source) := by
  obtain ⟨hnul, hlen⟩ := hwf
  refine reads_of_body rfl fun d p rest hdepth hnoted h => ?_
  rw [Wire.depth] at hdepth
  have hat : p.At (context ++ 0 :: 10 :: 0 ::
      (LittleEndian.encode 4 source.length ++ (source ++ rest))) := by simpa using h
  have hcontext := takeUntilNul_complete hat hnul "q lambda context"
  have hnote : noteDepth (p.skip (context.length + 1)) (d + 1) =
      .ok ((p.skip (context.length + 1)).note (d + 1)) := noteDepth_eq_ok.mpr ⟨hdepth, rfl⟩
  have htype := hat.skip_nul.note (d + 1)
  have hattr := htype.skip_one
  have hcount := hattr.skip_one
  have hsource := hcount.skip
  have hbody : parseBody (parseValue fuel) p 100 d = parseLambda p d := rfl
  have hten : ¬ (10 : UInt8) ≠ 10 := by decide
  have hzero : ¬ (0 : UInt8) ≠ 0 := by decide
  simp only [Parser.skip_note, Parser.skip_skip, encode_length] at hattr hcount hsource
  rw [hbody]
  simp only [parseLambda, hcontext, Exec.ok_bind, hnote, takeByte_complete htype, if_neg hten,
    takeByte_complete hattr, if_neg hzero, takeCount_complete hlen hcount, take_complete hsource,
    Wire.parsed, Wire.depth, Parser.skip_note, Parser.skip_skip, List.length_append,
    List.length_cons, encode_length]
  congr 4
  omega

theorem reads_primitive {fuel : Nat} {wireType opcode : UInt8}
    (hwf : (Wire.primitive wireType opcode).WF) :
    Reads (parseValue (fuel + 1)) (.primitive wireType opcode) := by
  obtain ⟨h₁, h₂, haccepted⟩ := hwf
  refine reads_of_body rfl fun d p rest hdepth hnoted h => ?_
  have hat : p.At (opcode :: rest) := h
  have hbyte := takeByte_complete hat "q primitive opcode"
  have hbody : parseBody (parseValue fuel) p wireType d = parsePrimitive p wireType := by
    have hle : wireType.toNat = 101 ∨ wireType.toNat = 102 ∨ wireType.toNat = 103 := by
      rw [UInt8.le_iff_toNat_le] at h₁ h₂
      have : (101 : UInt8).toNat = 101 := rfl
      have : (103 : UInt8).toNat = 103 := rfl
      omega
    obtain h | h | h := hle
    · rw [show wireType = 101 from UInt8.toNat_inj.mp h]
      rfl
    · rw [show wireType = 102 from UInt8.toNat_inj.mp h]
      rfl
    · rw [show wireType = 103 from UInt8.toNat_inj.mp h]
      rfl
  rw [hbody]
  simp only [parsePrimitive, hbyte, Exec.ok_bind, haccepted, if_true, Wire.parsed, Wire.depth,
    Nat.add_zero, List.length_singleton, Parser.skip_note_of_le hnoted]

theorem reads_derived {fuel : Nat} {wireType : UInt8} {child : Wire}
    (hwf : (Wire.derived wireType child).WF) (hchild : Reads (parseValue fuel) child) :
    Reads (parseValue (fuel + 1)) (.derived wireType child) := by
  obtain ⟨h₁, h₂, -⟩ := hwf
  refine reads_of_body rfl fun d p rest hdepth hnoted h => ?_
  rw [Wire.depth] at hdepth
  have hparse := hchild (d + 1) p rest (by omega) h
  have hbody : parseBody (parseValue fuel) p wireType d =
      parseDerivedFunction (parseValue fuel) p wireType d := by
    have h₁' := UInt8.le_iff_toNat_le.mp h₁
    have h₂' := UInt8.le_iff_toNat_le.mp h₂
    simp only [UInt8.reduceToNat] at h₁' h₂'
    simp only [parseBody, UInt8.le_iff_toNat_le, ← UInt8.toNat_inj, UInt8.reduceToNat]
    repeat rw [if_neg (by omega)]
    rw [if_pos (by omega)]
  rw [hbody]
  simp only [parseDerivedFunction, hparse, Exec.ok_bind, Wire.parsed, Wire.depth]
  congr 3
  omega

theorem parseTableColumns_complete {parse : Nat → Parser → Exec (Parsed × Parser)}
    {columnsAttr : UInt8} {columns : List Wire} {p : Parser} {d : Nat} {rest : Bytes}
    (hattr : columnsAttr ≤ 4) (hcount : columns.length < 2 ^ 31)
    (hlens : ∀ column ∈ columns, column.parsed.sequenceLen = some (Wire.firstLen columns))
    (hreads : ∀ column ∈ columns, Reads parse column) (hdepth : d + 2 + Wire.levels columns ≤ 64)
    (h : p.At (0 :: columnsAttr :: (LittleEndian.encode 4 columns.length ++
      (Wire.encodeAll columns ++ rest)))) :
    parseTableColumns parse p d columns.length =
      .ok (⟨98, Wire.firstLen columns, .Table⟩,
        (p.skip (6 + (Wire.encodeAll columns).length)).note (d + 2 + Wire.levels columns)) := by
  have hnote : noteDepth p (d + 2) = .ok (p.note (d + 2)) := noteDepth_eq_ok.mpr ⟨by omega, rfl⟩
  have htype := h.note (d + 2)
  have hattrAt := htype.skip_one
  have hcountAt := hattrAt.skip_one
  have hcolumnsAt := hcountAt.skip
  simp only [Parser.skip_note, Parser.skip_skip, encode_length, Nat.reduceAdd]
    at hattrAt hcountAt hcolumnsAt
  have hguard := count_guard (by decide) (fun w hw => Wire.six_le_encode (hlens w hw)) hcolumnsAt
  have hmany := parseMany_complete hreads (d + 2) ((p.skip 6).note (d + 2)) rest (by omega)
    (Parser.le_note _ _) hcolumnsAt
  have hcolumns := parseColumns_eq_ok.mpr ⟨_, hmany, columnRows_none.mpr ⟨hlens, rfl⟩⟩
  have hmatch : ensureMatchingCounts columns.length columns.length "table name/column" = .ok () :=
    ensureMatchingCounts_eq_ok.mpr rfl
  have hzero : ¬ (0 : UInt8) ≠ 0 := by decide
  have hfirst : (columns.head?.map fun wire => wire.parsed.len).getD 0 = Wire.firstLen columns := by
    cases columns <;> rfl
  simp only [parseTableColumns, hnote, Exec.ok_bind, takeByte_complete htype, if_neg hzero,
    Parser.skip_note, Parser.skip_skip, takeAttribute_complete hattr hattrAt, Nat.reduceAdd,
    takeCount_complete hcount hcountAt, hmatch, if_neg hguard, hcolumns, hfirst, Parser.note_note]
  congr 3
  omega

theorem reads_table {fuel : Nat} {attr namesAttr columnsAttr : UInt8} {names : List Bytes}
    {columns : List Wire} (hwf : (Wire.table attr namesAttr names columnsAttr columns).WF)
    (hreads : ∀ column ∈ columns, Reads (parseValue (fuel + 1)) column) :
    Reads (parseValue (fuel + 2)) (.table attr namesAttr names columnsAttr columns) := by
  obtain ⟨hattr, hheader, hnul, hcolumnsAttr, hsame, hcount, hall, hlens⟩ := hwf
  refine reads_of_body rfl fun d p rest hdepth hnoted h => ?_
  rw [Wire.depth] at hdepth
  let namesWire := Wire.symbolList namesAttr names
  have hat : p.At (attr :: 99 :: (namesWire.encode ++
      (0 :: columnsAttr :: (LittleEndian.encode 4 columns.length ++
        (Wire.encodeAll columns ++ rest))))) := by
    simpa [namesWire, Wire.encode] using h
  have hdict := hat.skip_one.note (d + 1)
  have hnamesAt := hdict.skip_one
  simp only [Parser.skip_note, Parser.skip_skip, Nat.reduceAdd] at hnamesAt
  have hnote : noteDepth (p.skip 1) (d + 1) = .ok ((p.skip 1).note (d + 1)) :=
    noteDepth_eq_ok.mpr ⟨by omega, rfl⟩
  have hnamesRead : Reads (parseValue (fuel + 1)) namesWire := reads_symbolList ⟨hheader, hnul⟩
  have hnames := hnamesRead (d + 2) _ _ (by simp only [namesWire, Wire.depth]; omega) hnamesAt
  have hcolumnsAt := hnamesAt.skip.note (d + 2)
  have hcolumnsDepth : d + 2 + Wire.levels columns ≤ 64 := by omega
  have hcolumns := parseTableColumns_complete hcolumnsAttr hcount hlens hreads hcolumnsDepth hcolumnsAt
  have hdictType : ¬ (99 : UInt8) ≠ 99 := by decide
  have hbody : parseBody (parseValue (fuel + 1)) p 98 d = parseTable (parseValue (fuel + 1)) p d :=
    rfl
  have hshape : ¬ namesWire.parsed.shape ≠ .Sequence (some 11) := by simp [namesWire, Wire.parsed]
  have hlen : namesWire.parsed.len = columns.length := by simp [namesWire, Wire.parsed, hsame]
  have hdepthNames : d + 2 + namesWire.depth = d + 2 := rfl
  have hsize : namesWire.encode.length =
      1 + ((listHeader namesAttr names.length).length + (symbolBytes names).length) := by
    simp only [namesWire, Wire.encode, List.length_cons, List.length_append]
    omega
  rw [hdepthNames] at hnames
  rw [hbody]
  simp only [parseTable, takeAttribute_complete hattr hat, Exec.ok_bind, hnote,
    takeByte_complete hdict, if_neg hdictType, Parser.skip_note, Parser.skip_skip, Nat.reduceAdd,
    hnames, if_neg hshape, hlen, Parser.note_note]
  simp only [Parser.skip_note, Parser.skip_skip, Parser.note_note] at hcolumns
  rw [hcolumns, hsize]
  simp only [Wire.parsed, Wire.depth, List.length_cons, List.length_append, encode_length]
  congr 3
  · congr 1
    omega
  · omega

/-- **Completeness.** A well-formed tree is read back wherever it stands. -/
theorem parseValue_complete {wire : Wire} (hwf : wire.WF) {fuel : Nat} (hfuel : wire.depth < fuel) :
    Reads (parseValue fuel) wire := by
  induction wire using Wire.induct generalizing fuel with
  | atom kind payload =>
    obtain ⟨fuel, rfl⟩ := Nat.exists_eq_add_one_of_ne_zero (by omega : fuel ≠ 0)
    exact reads_atom hwf
  | symbol text =>
    obtain ⟨fuel, rfl⟩ := Nat.exists_eq_add_one_of_ne_zero (by omega : fuel ≠ 0)
    exact reads_symbol hwf
  | fixedList elementType rawAttr count payload =>
    obtain ⟨fuel, rfl⟩ := Nat.exists_eq_add_one_of_ne_zero (by omega : fuel ≠ 0)
    exact reads_fixedList hwf
  | symbolList rawAttr texts =>
    obtain ⟨fuel, rfl⟩ := Nat.exists_eq_add_one_of_ne_zero (by omega : fuel ≠ 0)
    exact reads_symbolList hwf
  | generalList attr children ih =>
    obtain ⟨fuel, rfl⟩ := Nat.exists_eq_add_one_of_ne_zero (by omega : fuel ≠ 0)
    rw [Wire.depth] at hfuel
    refine reads_generalList hwf fun child hmem => ih child hmem ?_ ?_
    · exact Wire.allWF_iff.mp hwf.2.2 child hmem
    · have := Wire.levels_le hmem
      omega
  | dictionary wireType keys values ihk ihv =>
    obtain ⟨fuel, rfl⟩ := Nat.exists_eq_add_one_of_ne_zero (by omega : fuel ≠ 0)
    rw [Wire.depth] at hfuel
    exact reads_dictionary hwf (ihk hwf.2.1 (by omega)) (ihv hwf.2.2.1 (by omega))
  | table attr namesAttr names columnsAttr columns ih =>
    rw [Wire.depth] at hfuel
    obtain ⟨fuel, rfl⟩ := Nat.exists_eq_add_of_le (by omega : 2 ≤ fuel)
    rw [Nat.add_comm]
    refine reads_table hwf fun column hmem => ih column hmem ?_ ?_
    · exact Wire.allWF_iff.mp hwf.2.2.2.2.2.2.1 column hmem
    · have := Wire.levels_le hmem
      omega
  | lambda context source =>
    obtain ⟨fuel, rfl⟩ := Nat.exists_eq_add_one_of_ne_zero (by omega : fuel ≠ 0)
    exact reads_lambda hwf
  | primitive wireType opcode =>
    obtain ⟨fuel, rfl⟩ := Nat.exists_eq_add_one_of_ne_zero (by omega : fuel ≠ 0)
    exact reads_primitive hwf
  | counted wireType children ih =>
    obtain ⟨fuel, rfl⟩ := Nat.exists_eq_add_one_of_ne_zero (by omega : fuel ≠ 0)
    rw [Wire.depth] at hfuel
    refine reads_counted hwf fun child hmem => ih child hmem ?_ ?_
    · exact Wire.allWF_iff.mp hwf.2.2.2 child hmem
    · have := Wire.levels_le hmem
      omega
  | derived wireType child ih =>
    obtain ⟨fuel, rfl⟩ := Nat.exists_eq_add_one_of_ne_zero (by omega : fuel ≠ 0)
    rw [Wire.depth] at hfuel
    exact reads_derived hwf (ih hwf.2.2 (by omega))

end Xqdb.QValue
