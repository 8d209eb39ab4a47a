import Xqdb.QValue.Soundness

/-! A byte string has at most one tree as a prefix. The type byte selects the
constructor and every part behind it ends where its own count or terminator
says. -/

namespace Xqdb.QValue

open LittleEndian (encode_length decode_encode)

/-- The constructors, numbered. -/
def Wire.ctor : Wire → Nat
  | .atom _ _ => 0
  | .symbol _ => 1
  | .fixedList _ _ _ _ => 2
  | .symbolList _ _ => 3
  | .generalList _ _ => 4
  | .dictionary _ _ _ => 5
  | .table _ _ _ _ _ => 6
  | .lambda _ _ => 7
  | .primitive _ _ => 8
  | .counted _ _ => 9
  | .derived _ _ => 10

/-- The constructor a type byte stands for. -/
def classify (b : UInt8) : Nat :=
  if 237 ≤ b then if b = 245 then 1 else 0
  else if b = 0 then 4
  else if b = 11 then 3
  else if b ≤ 19 then 2
  else if b = 98 then 6
  else if b = 99 ∨ b = 127 then 5
  else if b = 100 then 7
  else if b ≤ 103 then 8
  else if b ≤ 105 then 9
  else 10

theorem Wire.classify_head {wire : Wire} (h : wire.WF) :
    ∃ head tail, wire.encode = head :: tail ∧ classify head = wire.ctor := by
  cases wire with
  | atom kind payload =>
    obtain ⟨h₁, h₂, -, h₄, -, -⟩ := h
    refine ⟨_, _, rfl, ?_⟩
    exact Wire.byte_in_range (P := fun b => b ≠ 11 → classify (0 - b) = 0) 1 20 (by decide)
      (UInt8.le_iff_toNat_le.mp h₁) (Nat.lt_succ_of_le (UInt8.le_iff_toNat_le.mp h₂)) h₄
  | symbol text => exact ⟨_, _, rfl, rfl⟩
  | fixedList elementType rawAttr count payload =>
    obtain ⟨h₁, h₂, -, h₄, -⟩ := h
    refine ⟨_, _, rfl, ?_⟩
    exact Wire.byte_in_range (P := fun b => b ≠ 11 → classify b = 2) 1 20 (by decide)
      (UInt8.le_iff_toNat_le.mp h₁) (Nat.lt_succ_of_le (UInt8.le_iff_toNat_le.mp h₂)) h₄
  | symbolList rawAttr texts => exact ⟨_, _, rfl, rfl⟩
  | generalList attr children => exact ⟨_, _, rfl, rfl⟩
  | dictionary wireType keys values =>
    obtain ⟨rfl | rfl, -⟩ := h
    · exact ⟨_, _, rfl, rfl⟩
    · exact ⟨_, _, rfl, rfl⟩
  | table attr namesAttr names columnsAttr columns => exact ⟨_, _, rfl, rfl⟩
  | lambda context source => exact ⟨_, _, rfl, rfl⟩
  | primitive wireType opcode =>
    obtain ⟨h₁, h₂, -⟩ := h
    refine ⟨_, _, rfl, ?_⟩
    exact Wire.byte_in_range (P := fun b => classify b = 8) 101 104 (by decide)
      (UInt8.le_iff_toNat_le.mp h₁) (Nat.lt_succ_of_le (UInt8.le_iff_toNat_le.mp h₂))
  | counted wireType children =>
    obtain ⟨h₁, h₂, -⟩ := h
    refine ⟨_, _, rfl, ?_⟩
    exact Wire.byte_in_range (P := fun b => classify b = 9) 104 106 (by decide)
      (UInt8.le_iff_toNat_le.mp h₁) (Nat.lt_succ_of_le (UInt8.le_iff_toNat_le.mp h₂))
  | derived wireType child =>
    obtain ⟨h₁, h₂, -⟩ := h
    refine ⟨_, _, rfl, ?_⟩
    exact Wire.byte_in_range (P := fun b => classify b = 10) 106 112 (by decide)
      (UInt8.le_iff_toNat_le.mp h₁) (Nat.lt_succ_of_le (UInt8.le_iff_toNat_le.mp h₂))

theorem Wire.ctor_eq {a b : Wire} (ha : a.WF) (hb : b.WF) {r s : Bytes}
    (h : a.encode ++ r = b.encode ++ s) : a.ctor = b.ctor := by
  obtain ⟨x, xs, hx, hcx⟩ := Wire.classify_head ha
  obtain ⟨y, ys, hy, hcy⟩ := Wire.classify_head hb
  rw [hx, hy, List.cons_append, List.cons_append] at h
  rw [← hcx, ← hcy, (List.cons.inj h).1]

/-! ## Parts that end by themselves -/

theorem nul_append_inj {a b r s : Bytes} (ha : 0 ∉ a) (hb : 0 ∉ b)
    (h : a ++ 0 :: r = b ++ 0 :: s) : a = b ∧ r = s := by
  have hlen : a.length = b.length := by
    have h₁ : memchr (a ++ 0 :: r) = some a.length := memchr_append_zero ha
    have h₂ : memchr (b ++ 0 :: s) = some b.length := memchr_append_zero hb
    rw [h, h₂] at h₁
    exact (Option.some.inj h₁).symm
  obtain ⟨rfl, htail⟩ := List.append_inj h hlen
  exact ⟨rfl, (List.cons.inj htail).2⟩

theorem symbolBytes_append_inj {a b : List Bytes} {r s : Bytes} (hlen : a.length = b.length)
    (ha : ∀ text ∈ a, 0 ∉ text) (hb : ∀ text ∈ b, 0 ∉ text)
    (h : symbolBytes a ++ r = symbolBytes b ++ s) : a = b ∧ r = s := by
  induction a generalizing b with
  | nil =>
    obtain rfl : b = [] := List.length_eq_zero_iff.mp hlen.symm
    exact ⟨rfl, h⟩
  | cons x a ih =>
    cases b with
    | nil => cases hlen
    | cons y b =>
      simp only [symbolBytes, List.append_assoc, List.cons_append] at h
      obtain ⟨rfl, htail⟩ := nul_append_inj (ha x (by simp)) (hb y (by simp)) h
      obtain ⟨rfl, rfl⟩ := ih (by simpa using hlen) (fun t ht => ha t (by simp [ht]))
        (fun t ht => hb t (by simp [ht])) htail
      exact ⟨rfl, rfl⟩

theorem count_append_inj {width m n : Nat} {r s : Bytes} (hm : m < 256 ^ width)
    (hn : n < 256 ^ width) (h : LittleEndian.encode width m ++ r = LittleEndian.encode width n ++ s) :
    m = n ∧ r = s := by
  obtain ⟨hcount, rfl⟩ := List.append_inj h (by simp)
  refine ⟨?_, rfl⟩
  rw [← decode_encode width m hm, ← decode_encode width n hn, hcount]

theorem listHeader_append_inj {x y : UInt8} {m n : Nat} {r s : Bytes} (hx : HeaderOk x m)
    (hy : HeaderOk y n) (h : listHeader x m ++ r = listHeader y n ++ s) :
    x = y ∧ m = n ∧ r = s := by
  unfold listHeader at h
  simp only [List.cons_append, List.cons.injEq] at h
  obtain ⟨rfl, h⟩ := h
  have hbound : ∀ k, HeaderOk x k → k < 256 ^ (if x &&& 0x80 = 0 then 4 else 8) := by
    intro k hk
    have := hk.2
    split at this <;> simp_all <;> omega
  obtain ⟨rfl, rfl⟩ := count_append_inj (hbound m hx) (hbound n hy) h
  exact ⟨rfl, rfl, rfl⟩

/-- The prefix property for a list of trees whose members have it. -/
theorem encodeAll_append_inj {a b : List Wire} {r s : Bytes} (hlen : a.length = b.length)
    (ha : Wire.AllWF a) (hb : Wire.AllWF b)
    (hinj : ∀ x ∈ a, ∀ {y : Wire} {r s : Bytes}, x.WF → y.WF → x.encode ++ r = y.encode ++ s →
      x = y ∧ r = s)
    (h : Wire.encodeAll a ++ r = Wire.encodeAll b ++ s) : a = b ∧ r = s := by
  induction a generalizing b with
  | nil =>
    obtain rfl : b = [] := List.length_eq_zero_iff.mp hlen.symm
    exact ⟨rfl, h⟩
  | cons x a ih =>
    cases b with
    | nil => cases hlen
    | cons y b =>
      simp only [Wire.encodeAll, List.append_assoc] at h
      obtain ⟨rfl, htail⟩ := hinj x (by simp) ha.1 hb.1 h
      obtain ⟨rfl, rfl⟩ := ih (by simpa using hlen) ha.2 hb.2 (fun z hz => hinj z (by simp [hz])) htail
      exact ⟨rfl, rfl⟩

/-- **Unambiguity.** No tree's encoding is a proper prefix of another's. -/
theorem Wire.encode_append_inj {a b : Wire} {r s : Bytes} (ha : a.WF) (hb : b.WF)
    (h : a.encode ++ r = b.encode ++ s) : a = b ∧ r = s := by
  have hctor := Wire.ctor_eq ha hb h
  induction a using Wire.induct generalizing b r s with
  | atom kind payload =>
    cases b <;> simp only [Wire.ctor] at hctor <;> try omega
    next kind' payload' =>
    simp only [Wire.encode, List.cons_append, List.cons.injEq] at h
    obtain ⟨hkind, h⟩ := h
    obtain rfl : kind = kind' := by rw [← zero_sub_zero_sub kind, hkind, zero_sub_zero_sub]
    obtain ⟨rfl, rfl⟩ := List.append_inj h (ha.2.2.2.2.1.trans hb.2.2.2.2.1.symm)
    exact ⟨rfl, rfl⟩
  | symbol text =>
    cases b <;> simp only [Wire.ctor] at hctor <;> try omega
    next text' =>
    simp only [Wire.encode, List.cons_append, List.append_assoc, List.nil_append, List.cons.injEq,
      true_and] at h
    obtain ⟨rfl, rfl⟩ := nul_append_inj ha hb h
    exact ⟨rfl, rfl⟩
  | fixedList elementType rawAttr count payload =>
    cases b <;> simp only [Wire.ctor] at hctor <;> try omega
    next elementType' rawAttr' count' payload' =>
    simp only [Wire.encode, List.cons_append, List.append_assoc, List.cons.injEq] at h
    obtain ⟨rfl, h⟩ := h
    obtain ⟨rfl, rfl, hpayload⟩ := listHeader_append_inj ha.2.2.2.2.1 hb.2.2.2.2.1 h
    obtain ⟨rfl, rfl⟩ := List.append_inj hpayload (ha.2.2.2.2.2.1.trans hb.2.2.2.2.2.1.symm)
    exact ⟨rfl, rfl⟩
  | symbolList rawAttr texts =>
    cases b <;> simp only [Wire.ctor] at hctor <;> try omega
    next rawAttr' texts' =>
    simp only [Wire.encode, List.cons_append, List.append_assoc, List.cons.injEq, true_and] at h
    obtain ⟨rfl, hlen, hsymbols⟩ := listHeader_append_inj ha.1 hb.1 h
    obtain ⟨rfl, rfl⟩ := symbolBytes_append_inj hlen ha.2 hb.2 hsymbols
    exact ⟨rfl, rfl⟩
  | generalList attr children ih =>
    cases b <;> simp only [Wire.ctor] at hctor <;> try omega
    next attr' children' =>
    simp only [Wire.encode, List.cons_append, List.append_assoc, List.cons.injEq, true_and] at h
    obtain ⟨rfl, h⟩ := h
    obtain ⟨-, hlt, hall⟩ := ha
    obtain ⟨-, hlt', hall'⟩ := hb
    obtain ⟨hlen, h⟩ := count_append_inj (by omega) (by omega) h
    obtain ⟨rfl, rfl⟩ := encodeAll_append_inj hlen hall hall'
      (fun x hx _ _ _ hxWF hyWF h => ih x hx hxWF hyWF h (Wire.ctor_eq hxWF hyWF h)) h
    exact ⟨rfl, rfl⟩
  | dictionary wireType keys values ihk ihv =>
    cases b <;> simp only [Wire.ctor] at hctor <;> try omega
    next wireType' keys' values' =>
    simp only [Wire.encode, List.cons_append, List.append_assoc, List.cons.injEq] at h
    obtain ⟨rfl, h⟩ := h
    obtain ⟨-, hk, hv, -⟩ := ha
    obtain ⟨-, hk', hv', -⟩ := hb
    obtain ⟨rfl, hvalues⟩ := ihk hk hk' h (Wire.ctor_eq hk hk' h)
    obtain ⟨rfl, rfl⟩ := ihv hv hv' hvalues (Wire.ctor_eq hv hv' hvalues)
    exact ⟨rfl, rfl⟩
  | table attr namesAttr names columnsAttr columns ih =>
    cases b <;> simp only [Wire.ctor] at hctor <;> try omega
    next attr' namesAttr' names' columnsAttr' columns' =>
    simp only [Wire.encode, List.cons_append, List.append_assoc, List.cons.injEq, true_and] at h
    obtain ⟨rfl, h⟩ := h
    obtain ⟨-, hheader, hnul, -, -, hlt, hall, -⟩ := ha
    obtain ⟨-, hheader', hnul', -, -, hlt', hall', -⟩ := hb
    obtain ⟨rfl, hnames, hsymbols⟩ := listHeader_append_inj hheader hheader' h
    obtain ⟨rfl, hrest⟩ := symbolBytes_append_inj hnames hnul hnul' hsymbols
    simp only [List.cons.injEq, true_and] at hrest
    obtain ⟨rfl, hcount⟩ := hrest
    obtain ⟨hlen, hcolumns⟩ := count_append_inj (by omega) (by omega) hcount
    obtain ⟨rfl, rfl⟩ := encodeAll_append_inj hlen hall hall'
      (fun x hx _ _ _ hxWF hyWF h => ih x hx hxWF hyWF h (Wire.ctor_eq hxWF hyWF h)) hcolumns
    exact ⟨rfl, rfl⟩
  | lambda context source =>
    cases b <;> simp only [Wire.ctor] at hctor <;> try omega
    next context' source' =>
    simp only [Wire.encode, List.cons_append, List.append_assoc, List.cons.injEq, true_and] at h
    obtain ⟨hnul, hlt⟩ := ha
    obtain ⟨hnul', hlt'⟩ := hb
    obtain ⟨rfl, hrest⟩ := nul_append_inj hnul hnul' h
    simp only [List.cons.injEq, true_and] at hrest
    obtain ⟨hlen, hsource⟩ := count_append_inj (by omega) (by omega) hrest
    obtain ⟨rfl, rfl⟩ := List.append_inj hsource hlen
    exact ⟨rfl, rfl⟩
  | primitive wireType opcode =>
    cases b <;> simp only [Wire.ctor] at hctor <;> try omega
    next wireType' opcode' =>
    simp only [Wire.encode, List.cons_append, List.nil_append, List.cons.injEq] at h
    obtain ⟨rfl, rfl, rfl⟩ := h
    exact ⟨rfl, rfl⟩
  | counted wireType children ih =>
    cases b <;> simp only [Wire.ctor] at hctor <;> try omega
    next wireType' children' =>
    simp only [Wire.encode, List.cons_append, List.append_assoc, List.cons.injEq] at h
    obtain ⟨rfl, h⟩ := h
    obtain ⟨-, -, hlt, hall⟩ := ha
    obtain ⟨-, -, hlt', hall'⟩ := hb
    obtain ⟨hlen, h⟩ := count_append_inj (by omega) (by omega) h
    obtain ⟨rfl, rfl⟩ := encodeAll_append_inj hlen hall hall'
      (fun x hx _ _ _ hxWF hyWF h => ih x hx hxWF hyWF h (Wire.ctor_eq hxWF hyWF h)) h
    exact ⟨rfl, rfl⟩
  | derived wireType child ih =>
    cases b <;> simp only [Wire.ctor] at hctor <;> try omega
    next wireType' child' =>
    simp only [Wire.encode, List.cons_append, List.cons.injEq] at h
    obtain ⟨rfl, h⟩ := h
    obtain ⟨rfl, rfl⟩ := ih ha.2.2 hb.2.2 h (Wire.ctor_eq ha.2.2 hb.2.2 h)
    exact ⟨rfl, rfl⟩

/-- A well-formed tree is a valid body exactly when it has at most 64 levels. -/
theorem fromBytes_encode {wire : Wire} (hwf : wire.WF) (hlen : wire.encode.length ≤ usizeMax) :
    (∃ value, fromBytes wire.encode = .ok value) ↔ wire.depth ≤ 64 := by
  rw [fromBytes_isOk]
  constructor
  · rintro ⟨⟨metadata, hok⟩, -⟩
    obtain ⟨wire', hwf', hdepth, hsame, -⟩ := (validate_eq_ok hlen).mp hok
    have hsame' : wire.encode ++ [] = wire'.encode ++ [] := by simpa using hsame
    obtain ⟨rfl, -⟩ := Wire.encode_append_inj hwf hwf' hsame'
    exact hdepth
  · intro hdepth
    exact ⟨⟨_, validate_encode hwf hdepth hlen⟩, hlen⟩

end Xqdb.QValue
