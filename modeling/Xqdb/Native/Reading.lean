import Xqdb.DictionaryValues
import Xqdb.Native.Lists

/-! What the native decoder has read is a tree. The value it returns shows the tree, the strict
encoding has found all its texts valid, and on valid texts the two encodings return the same. -/

namespace Xqdb

open LittleEndian (encode)
open QValue (symbolBytes)

namespace Native

mutual

/-- The texts in a tree are valid, each on its own. -/
def TextsOk : Native → Prop
  | .atom _ _ => True
  | .symbol text => Utf8.Valid text
  | .uniform list => list.TextsOk (list.kType != 10)
  | .mixed _ members => AllTextsOk members
  | .keyedTable keys values => keys.TextsOk ∧ values.TextsOk
  | .dictionary keys values => keys.TextsOk true ∧ values.TextsOk
  | .table _ _ names _ columns =>
    (∀ name ∈ names, Utf8.Valid name) ∧ ∀ column ∈ columns, column.TextsOk true
  | .lambda context source => Utf8.Valid context ∧ Utf8.Valid source
  | .primitive _ _ => True

def AllTextsOk : List Native → Prop
  | [] => True
  | tree :: trees => tree.TextsOk ∧ AllTextsOk trees

end

/-- A run under `encoding` that has read `tree` at the front of `rest`. -/
structure ReadAs (rest : Bytes) (pos : Nat) (run : SymbolEncoding → Exec (K × Nat))
    (encoding : SymbolEncoding) (k : K) (stop : Nat) (tree : Native) : Prop where
  wf : tree.WF
  shown : tree.Shows k
  bytes : ∃ rest', rest = tree.encode ++ rest'
  stop_eq : stop = pos + tree.encode.length
  strict : encoding = .Strict → tree.TextsOk
  alike : tree.TextsOk → ∀ other, run other = .ok (k, stop)

end Native

/-! ## Atoms -/

section Atoms

variable {vec rest : Bytes} {pos : Nat} {k : K} {stop : Nat}

/-- The payload of an atom that is no symbol. -/
def AtomRead (kType : UInt8) (rest : Bytes) (pos : Nat) (k : K) (stop : Nat) : Prop :=
  k.IsScalar ∧ ∃ payload rest', payload.length = typeSize (0 - kType) ∧ rest = payload ++ rest' ∧
    stop = pos + payload.length ∧ (kType = 255 → ∀ b ∈ payload, b ≤ 1)

theorem numberAtom_reads {α : Type} [WireNumber α] {context : String} {convert : α → Exec K} {kType : UInt8}
    (h : At vec pos rest) (hwidth : WireNumber.width α = typeSize (0 - kType)) (hkind : kType ≠ 255)
    (hscalar : ∀ value k, convert value = .ok k → k.IsScalar)
    (hok : numberAtom α vec pos context convert = .ok (k, stop)) : AtomRead kType rest pos k stop := by
  obtain ⟨bytes, rest', hlen, rfl, hk, rfl⟩ := (numberAtom_eq_ok h).mp hok
  exact ⟨hscalar _ _ hk, bytes, rest', hlen.trans hwidth, rfl, rfl, fun hbool => absurd hbool hkind⟩

theorem byteAtom_reads {context : String} {convert : UInt8 → Exec K} {kType : UInt8} (h : At vec pos rest)
    (hwidth : 1 = typeSize (0 - kType)) (hscalar : ∀ value k, convert value = .ok k → k.IsScalar)
    (hbool : kType = 255 → ∀ value k, convert value = .ok k → value ≤ 1)
    (hok : byteAtom vec pos context convert = .ok (k, stop)) : AtomRead kType rest pos k stop := by
  obtain ⟨byte, rest', rfl, hk, rfl⟩ := (byteAtom_eq_ok h).mp hok
  refine ⟨hscalar _ _ hk, [byte], rest', hwidth, rfl, rfl, fun hkind b hb => ?_⟩
  rw [List.mem_singleton.mp hb]
  exact hbool hkind _ _ hk

theorem booleanAtom_eq_ok {value : UInt8} (h : booleanAtom value = .ok k) : k.IsScalar ∧ value ≤ 1 := by
  unfold booleanAtom at h
  split at h
  · next hvalue =>
    cases h
    subst hvalue
    exact ⟨trivial, by decide⟩
  split at h
  · next hvalue =>
    cases h
    subst hvalue
    exact ⟨trivial, by decide⟩
  · cases h

theorem timeAtom_scalar {kType : UInt8} {multiplier : Int} {unit : Int32}
    (h : timeAtom kType multiplier unit = .ok k) : k.IsScalar := by
  unfold timeAtom at h
  split at h
  · cases h
  · simp only [Exec.bind_eq_ok, Except.ok.injEq] at h
    obtain ⟨_, -, _, -, rfl⟩ := h
    exact trivial

theorem deserializeAtom_alike {kType : UInt8} (hsymbol : kType ≠ 245) (encoding other : SymbolEncoding) :
    deserializeAtom vec pos kType other = deserializeAtom vec pos kType encoding := by
  unfold deserializeAtom
  split
  all_goals first
    | rfl
    | next hkind => exact absurd (UInt8.toNat_inj.mp hkind) hsymbol

theorem timestampAtom_scalar {value : Int64} (h : timestampAtom value = .ok k) : k.IsScalar := by
  unfold timestampAtom at h
  split at h
  · cases h
    exact trivial
  · simp only [Exec.bind_eq_ok, Except.ok.injEq] at h
    obtain ⟨_, -, rfl⟩ := h
    exact trivial

theorem datetimeAtom_scalar {bits : UInt64} (h : datetimeAtom bits = .ok k) : k.IsScalar := by
  unfold datetimeAtom at h
  split at h
  · cases h
    exact trivial
  split at h
  · cases h
  · simp only [Exec.bind_eq_ok, Except.ok.injEq] at h
    obtain ⟨_, -, rfl⟩ := h
    exact trivial

theorem monthAtom_scalar {unit : Int32} (h : monthAtom unit = .ok k) : k.IsScalar := by
  simp only [monthAtom, Exec.bind_eq_ok, Except.ok.injEq] at h
  obtain ⟨_, -, _, -, rfl⟩ := h
  exact trivial

theorem dateAtom_scalar {qDays : Int32} (h : dateAtom qDays = .ok k) : k.IsScalar := by
  simp only [dateAtom, Exec.bind_eq_ok, Except.ok.injEq] at h
  obtain ⟨_, -, _, -, rfl⟩ := h
  exact trivial

theorem guidAtom_reads (h : At vec pos rest) (hok : deserializeAtom vec pos 254 .Lossy = .ok (k, stop)) :
    AtomRead 254 rest pos k stop := by
  change (takeBytes vec pos 16 "q GUID atom" >>= fun taken => guidAtom taken.1 >>= fun k =>
    .ok (k, taken.2)) = _ at hok
  simp only [Exec.bind_eq_ok, Prod.exists, takeBytes_eq_ok h, Except.ok.injEq, Prod.mk.injEq] at hok
  obtain ⟨bytes, _, ⟨hlen, rest', rfl, rfl⟩, _, hk, rfl, rfl⟩ := hok
  rw [guidAtom, dif_pos hlen] at hk
  cases hk
  exact ⟨trivial, bytes, rest', hlen, rfl, by rw [hlen], fun hbool => absurd hbool (by decide)⟩

/-- An atom that is no symbol, and its payload. -/
theorem deserializeAtom_reads {kType : UInt8} {encoding : SymbolEncoding} (hsymbol : kType ≠ 245)
    (h : At vec pos rest) (hok : deserializeAtom vec pos kType encoding = .ok (k, stop)) :
    AtomRead kType rest pos k stop ∧ kType ≠ 253 := by
  rw [deserializeAtom_alike hsymbol .Lossy encoding] at hok
  have hkind : ∀ {n : Nat} {known : UInt8}, kType.toNat = n → n = known.toNat → kType = known :=
    fun hn hknown => UInt8.toNat_inj.mp (hn.trans hknown)
  have hguid := hok
  unfold deserializeAtom at hok
  split at hok
  · next hn =>
    obtain rfl := @hkind _ 255 hn rfl
    exact ⟨byteAtom_reads h rfl (fun _ _ hk => (booleanAtom_eq_ok hk).1)
      (fun _ _ _ hk => (booleanAtom_eq_ok hk).2) hok, by decide⟩
  · next hn =>
    obtain rfl := @hkind _ 254 hn rfl
    exact ⟨guidAtom_reads h hguid, by decide⟩
  · next hn =>
    obtain rfl := @hkind _ 252 hn rfl
    refine ⟨byteAtom_reads h rfl ?_ (fun hbool => absurd hbool (by decide)) hok, by decide⟩
    rintro _ _ ⟨⟩
    exact trivial
  · next hn =>
    obtain rfl := @hkind _ 251 hn rfl
    refine ⟨numberAtom_reads h rfl (by decide) ?_ hok, by decide⟩
    rintro _ _ ⟨⟩
    exact trivial
  · next hn =>
    obtain rfl := @hkind _ 250 hn rfl
    refine ⟨numberAtom_reads h rfl (by decide) ?_ hok, by decide⟩
    rintro _ _ ⟨⟩
    exact trivial
  · next hn =>
    obtain rfl := @hkind _ 249 hn rfl
    refine ⟨numberAtom_reads h rfl (by decide) ?_ hok, by decide⟩
    rintro _ _ ⟨⟩
    exact trivial
  · next hn =>
    obtain rfl := @hkind _ 248 hn rfl
    refine ⟨numberAtom_reads h rfl (by decide) ?_ hok, by decide⟩
    rintro _ _ ⟨⟩
    exact trivial
  · next hn =>
    obtain rfl := @hkind _ 247 hn rfl
    refine ⟨numberAtom_reads h rfl (by decide) ?_ hok, by decide⟩
    rintro _ _ ⟨⟩
    exact trivial
  · next hn =>
    obtain rfl := @hkind _ 246 hn rfl
    refine ⟨byteAtom_reads h rfl ?_ (fun hbool => absurd hbool (by decide)) hok, by decide⟩
    rintro _ _ ⟨⟩
    exact trivial
  · next hn => exact absurd (@hkind _ 245 hn rfl) hsymbol
  · next hn =>
    obtain rfl := @hkind _ 244 hn rfl
    exact ⟨numberAtom_reads h rfl (by decide) (fun _ _ => timestampAtom_scalar) hok, by decide⟩
  · next hn =>
    obtain rfl := @hkind _ 243 hn rfl
    exact ⟨numberAtom_reads h rfl (by decide) (fun _ _ => monthAtom_scalar) hok, by decide⟩
  · next hn =>
    obtain rfl := @hkind _ 242 hn rfl
    exact ⟨numberAtom_reads h rfl (by decide) (fun _ _ => dateAtom_scalar) hok, by decide⟩
  · next hn =>
    obtain rfl := @hkind _ 241 hn rfl
    exact ⟨numberAtom_reads h rfl (by decide) (fun _ _ => datetimeAtom_scalar) hok, by decide⟩
  · next hn =>
    obtain rfl := @hkind _ 240 hn rfl
    refine ⟨numberAtom_reads h rfl (by decide) ?_ hok, by decide⟩
    rintro _ _ ⟨⟩
    exact trivial
  · next hn =>
    obtain rfl := @hkind _ 239 hn rfl
    exact ⟨numberAtom_reads h rfl (by decide) (fun _ _ => timeAtom_scalar) hok, by decide⟩
  · next hn =>
    obtain rfl := @hkind _ 238 hn rfl
    exact ⟨numberAtom_reads h rfl (by decide) (fun _ _ => timeAtom_scalar) hok, by decide⟩
  · next hn =>
    obtain rfl := @hkind _ 237 hn rfl
    exact ⟨numberAtom_reads h rfl (by decide) (fun _ _ => timeAtom_scalar) hok, by decide⟩
  · cases hok

end Atoms

/-! ## Symbols and functions -/

section Functions

variable {vec rest : Bytes} {pos : Nat} {encoding : SymbolEncoding} {k : K} {stop : Nat}

theorem deserializeAtom_symbol (h : At vec pos rest) :
    deserializeAtom vec pos 245 encoding = .ok (k, stop) ↔
      ∃ text rest', 0 ∉ text ∧ (encoding = .Lossy ∨ Utf8.Valid text) ∧ k = .Symbol (lossyText text) ∧
        rest = text ++ 0 :: rest' ∧ stop = pos + text.length + 1 := by
  change (takeUtf8UntilNul vec pos encoding "q symbol atom" >>= fun taken =>
    .ok (K.Symbol taken.1, taken.2)) = _ ↔ _
  simp only [Exec.bind_eq_ok, Prod.exists, takeUtf8UntilNul_eq_ok h, decodeUtf8_eq_ok, Except.ok.injEq,
    Prod.mk.injEq]
  constructor
  · rintro ⟨_, _, ⟨text, rest', hclean, rfl, ⟨hread, rfl⟩, rfl⟩, rfl, rfl⟩
    exact ⟨text, rest', hclean, hread, rfl, rfl, rfl⟩
  · rintro ⟨text, rest', hclean, hread, rfl, rfl, rfl⟩
    exact ⟨_, _, ⟨text, rest', hclean, rfl, ⟨hread, rfl⟩, rfl⟩, rfl, rfl⟩

theorem lambdaHeader_eq_ok {header : Bytes} {length : Nat} (hlength : header.length = 6)
    (h : deserializeLambda.lambdaHeader header = .ok length) :
    header = 10 :: 0 :: encode 4 length ∧ length ≤ i32Max := by
  have hi32 : i32Max = 2 ^ 31 - 1 := rfl
  obtain ⟨kind, attr, count, rfl⟩ : ∃ kind attr count, header = kind :: attr :: count := by
    cases header with
    | nil => cases hlength
    | cons kind tail =>
      cases tail with
      | nil => cases hlength
      | cons attr count => exact ⟨kind, attr, count, rfl⟩
  have hcount : count.length = 4 := by simpa using hlength
  simp only [deserializeLambda.lambdaHeader, index, List.getElem?_cons_zero, List.getElem?_cons_succ,
    Exec.ok_bind, List.drop_succ_cons, List.drop_zero] at h
  split at h
  · cases h
  next hkind =>
  split at h
  · cases h
  next hattr =>
  split at h
  · cases h
  next hneg =>
  cases h
  have hlt := LittleEndian.decode_lt count
  have hround := LittleEndian.encode_decode count
  rw [hcount] at hlt hround
  rw [hround, not_not.mp hkind, not_not.mp hattr]
  refine ⟨rfl, ?_⟩
  by_contra hbig
  exact hneg (LittleEndian.signed_neg hlt (by omega))

theorem lambdaHeader_encode {length : Nat} (h : length ≤ i32Max) :
    deserializeLambda.lambdaHeader (10 :: 0 :: encode 4 length) = .ok length := by
  have hi32 : i32Max = 2 ^ 31 - 1 := rfl
  have hdecode : LittleEndian.decode (encode 4 length) = length :=
    LittleEndian.decode_encode 4 length (by omega)
  simp only [deserializeLambda.lambdaHeader, index, List.getElem?_cons_zero, List.getElem?_cons_succ,
    Exec.ok_bind, List.drop_succ_cons, List.drop_zero, hdecode]
  rw [if_neg (by decide), if_neg (by decide), if_neg]
  rw [LittleEndian.signed_nonneg (by omega)]
  omega

/-- **Lambdas.** -/
theorem deserializeLambda_eq_ok (h : At vec pos rest) :
    deserializeLambda vec pos encoding = .ok (k, stop) ↔
      ∃ context source rest' lambda, 0 ∉ context ∧ source.length ≤ i32Max ∧
        (encoding = .Lossy ∨ Utf8.Valid context) ∧ (encoding = .Lossy ∨ Utf8.Valid source) ∧
        QLambda.withContext (lossyText source) (lossyText context) = .ok lambda ∧ k = .Lambda lambda ∧
        rest = context ++ 0 :: 10 :: 0 :: (encode 4 source.length ++ (source ++ rest')) ∧
        stop = pos + context.length + 7 + source.length := by
  have hfrom : getFrom vec pos = some rest := by rw [getFrom, if_pos h.within, h.ahead]
  simp only [deserializeLambda, hfrom, Exec.okOr_some, Exec.ok_bind, Exec.bind_eq_ok, Exec.okOr_eq_ok,
    checkedAdd_eq_some, sliceRange_at h, decodeUtf8_eq_ok]
  constructor
  · rintro ⟨_, hnul, _, ⟨rfl, -⟩, value, ⟨_, hvalue, hstop⟩, _, ⟨hcontext, rfl⟩, _, ⟨rfl, -⟩, _, ⟨rfl, -⟩,
      header, hheader, length, hlength, _, ⟨rfl, -⟩, source, hsource, _, ⟨hread, rfl⟩, hok⟩
    obtain ⟨context, tail, rfl, hclean, rfl⟩ := memchr_eq_some.mp hnul
    have hsame : context.length = value.length := by omega
    obtain ⟨rfl, -⟩ := List.append_inj hvalue hsame
    have hvector := h.skip_symbol
    rw [← Nat.add_assoc] at hvector
    have hsix := getRange_length hheader
    obtain ⟨rest₁, rfl, -⟩ := (getRange_at hvector).mp hheader
    obtain ⟨rfl, hcount⟩ := lambdaHeader_eq_ok (by omega) hlength
    have hat := hvector.skip
    rw [show (10 :: 0 :: encode 4 length).length = 6 by simp] at hat
    obtain ⟨rest', rfl, hend⟩ := (getRange_at hat).mp hsource
    obtain rfl : length = source.length := by omega
    cases hlambda : QLambda.withContext (lossyText source) (lossyText context) with
    | error e => simp [hlambda, deserializationErr] at hok
    | ok lambda =>
      simp only [hlambda, Except.ok.injEq, Prod.mk.injEq] at hok
      obtain ⟨rfl, rfl⟩ := hok
      exact ⟨context, source, rest', lambda, hclean, hcount, hcontext, hread, hlambda, rfl, by simp, by omega⟩
  · rintro ⟨context, source, rest', lambda, hclean, hcount, hcontext, hread, hlambda, rfl, rfl, rfl⟩
    have hlen := h.length_eq
    have hbound := h.bounded
    simp only [List.length_append, List.length_cons, LittleEndian.encode_length] at hlen
    have hvector : At vec (pos + context.length + 1)
        ((10 :: 0 :: encode 4 source.length) ++ (source ++ rest')) := by
      have hskip := h.skip_symbol
      rw [← Nat.add_assoc] at hskip
      simpa using hskip
    have hat := hvector.skip
    rw [show (10 :: 0 :: encode 4 source.length).length = 6 by simp] at hat
    refine ⟨_, memchr_append_zero hclean, _, ⟨rfl, by omega⟩, context, ⟨_, rfl, rfl⟩, _, ⟨hcontext, rfl⟩,
      _, ⟨rfl, by omega⟩, _, ⟨rfl, by omega⟩, _, (getRange_at hvector).mpr ⟨_, rfl, by simp⟩, _,
      lambdaHeader_encode hcount, _, ⟨rfl, by omega⟩, source, (getRange_at hat).mpr ⟨rest', rfl, rfl⟩, _,
      ⟨hread, rfl⟩, ?_⟩
    simp only [hlambda]

theorem deserializePrimitive_reads {kType : UInt8} (h : At vec pos rest)
    (hok : deserializePrimitive vec pos kType = .ok (k, stop)) :
    k.IsScalar ∧ ∃ opcode rest', QValue.primitiveAccepted kType opcode = true ∧ rest = opcode :: rest' ∧
      stop = pos + 1 := by
  simp only [deserializePrimitive, Exec.bind_eq_ok, Exec.okOr_eq_ok, h.getElem?_eq] at hok
  obtain ⟨opcode, hhead, hok⟩ := hok
  obtain ⟨rest', rfl⟩ := List.head?_eq_some_iff.mp hhead
  split at hok
  · next hnull =>
    cases hok
    obtain ⟨rfl, rfl⟩ := hnull
    exact ⟨trivial, 0, rest', by decide, rfl, rfl⟩
  · simp only [Exec.bind_eq_ok, Exec.okOr_eq_ok, Except.ok.injEq, Prod.mk.injEq] at hok
    obtain ⟨operator, hoperator, rfl, rfl⟩ := hok
    exact ⟨trivial, opcode, rest', by simp [QValue.primitiveAccepted, hoperator], rfl, rfl⟩

end Functions

end Xqdb
