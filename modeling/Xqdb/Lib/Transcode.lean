import Xqdb.Lib.Unicode

/-! Texts read back from their units and octets. Units that are no text are read with the
replacement character for every surrogate without its other half, and written again they differ
there only. -/

namespace Unicode

/-! ## From UTF-16 -/

def isHigh (unit : UInt16) : Bool := 0xD800 ≤ unit && unit < 0xDC00

def isLow (unit : UInt16) : Bool := 0xDC00 ≤ unit && unit < 0xE000

def isSurrogate (unit : UInt16) : Bool := isHigh unit || isLow unit

/-- The unit of U+FFFD. -/
def replacementUnit : UInt16 := 0xFFFD

/-- A unit that is read on its own. -/
def ofUnit (unit : UInt16) : Char := if isSurrogate unit then '\uFFFD' else Char.ofNat unit.toNat

/-- The character of a pair of surrogates. -/
def ofPair (high low : UInt16) : Char :=
  Char.ofNat (0x10000 + 0x400 * (high.toNat - 0xD800) + (low.toNat - 0xDC00))

def ofUtf16 : List UInt16 → List Char
  | [] => []
  | [unit] => [ofUnit unit]
  | high :: low :: rest =>
    if isHigh high && isLow low then ofPair high low :: ofUtf16 rest
    else ofUnit high :: ofUtf16 (low :: rest)

/-- The units with U+FFFD for every surrogate without its other half. -/
def scrub (units : List UInt16) : List UInt16 := utf16 (ofUtf16 units)

theorem isSurrogate_iff {unit : UInt16} :
    isSurrogate unit = true ↔ 0xD800 ≤ unit.toNat ∧ unit.toNat < 0xE000 := by
  simp only [isSurrogate, isHigh, isLow, Bool.or_eq_true, Bool.and_eq_true, decide_eq_true_eq, UInt16.le_iff_toNat_le,
    UInt16.lt_iff_toNat_lt]
  have h₁ : (0xD800 : UInt16).toNat = 0xD800 := rfl
  have h₂ : (0xDC00 : UInt16).toNat = 0xDC00 := rfl
  have h₃ : (0xE000 : UInt16).toNat = 0xE000 := rfl
  omega

theorem isHigh_iff {unit : UInt16} : isHigh unit = true ↔ 0xD800 ≤ unit.toNat ∧ unit.toNat < 0xDC00 := by
  simp only [isHigh, Bool.and_eq_true, decide_eq_true_eq, UInt16.le_iff_toNat_le, UInt16.lt_iff_toNat_lt]
  exact Iff.rfl

theorem isLow_iff {unit : UInt16} : isLow unit = true ↔ 0xDC00 ≤ unit.toNat ∧ unit.toNat < 0xE000 := by
  simp only [isLow, Bool.and_eq_true, decide_eq_true_eq, UInt16.le_iff_toNat_le, UInt16.lt_iff_toNat_lt]
  exact Iff.rfl

theorem toNat_unit {n : Nat} (h : n < 0x10000) : (UInt16.ofNat n).toNat = n := by
  rw [UInt16.toNat_ofNat']
  omega

/-- A unit that is no surrogate is a character of its own, whatever follows. -/
theorem ofUtf16_cons {unit : UInt16} (h : isSurrogate unit = false) (rest : List UInt16) :
    ofUtf16 (unit :: rest) = Char.ofNat unit.toNat :: ofUtf16 rest := by
  have hhigh : isHigh unit = false := by
    rw [isSurrogate, Bool.or_eq_false_iff] at h
    exact h.1
  cases rest with
  | nil => simp [ofUtf16, ofUnit, h]
  | cons next rest => simp [ofUtf16, ofUnit, h, hhigh]

/-- Texts are read back. -/
theorem ofUtf16_utf16 (text : List Char) : ofUtf16 (utf16 text) = text := by
  induction text with
  | nil => rfl
  | cons c text ih =>
    rw [utf16, List.flatMap_cons]
    obtain ⟨n, hn, hrange, hsmall, hunits⟩ | ⟨high, low, hn, hhigh, hlow, hunits⟩ := utf16Char_cases c
    · have hplain : isSurrogate (UInt16.ofNat n) = false := by
        rw [Bool.eq_false_iff, ne_eq, isSurrogate_iff, toNat_unit hsmall]
        omega
      rw [hunits, List.singleton_append, ofUtf16_cons hplain, toNat_unit hsmall, ← hn, Char.ofNat_toNat]
      exact congrArg _ ih
    · have hfirst : (UInt16.ofNat (0xD800 + high)).toNat = 0xD800 + high := toNat_unit (by omega)
      have hsecond : (UInt16.ofNat (0xDC00 + low)).toNat = 0xDC00 + low := toNat_unit (by omega)
      have hpair : (isHigh (UInt16.ofNat (0xD800 + high)) && isLow (UInt16.ofNat (0xDC00 + low))) = true := by
        rw [Bool.and_eq_true, isHigh_iff, isLow_iff, hfirst, hsecond]
        omega
      rw [hunits, List.cons_append, List.singleton_append, ofUtf16, if_pos hpair, ofPair, hfirst, hsecond,
        Nat.add_sub_cancel_left, Nat.add_sub_cancel_left, ← hn, Char.ofNat_toNat]
      exact congrArg _ ih

theorem scrub_utf16 (text : List Char) : scrub (utf16 text) = utf16 text := by
  rw [scrub, ofUtf16_utf16]

/-- A unit and what stands for it in the text. -/
def Kept (unit unit' : UInt16) : Prop := unit' = unit ∨ isSurrogate unit = true ∧ unit' = replacementUnit

theorem toNat_ofNat {n : Nat} (h : n.isValidChar) : (Char.ofNat n).toNat = n := by
  rw [Char.ofNat, dif_pos h]
  rfl

theorem utf16Char_ofUnit (unit : UInt16) : ∃ unit', utf16Char (ofUnit unit) = [unit'] ∧ Kept unit unit' := by
  by_cases h : isSurrogate unit = true
  · refine ⟨replacementUnit, ?_, .inr ⟨h, rfl⟩⟩
    rw [ofUnit, if_pos h]
    rfl
  · refine ⟨unit, ?_, .inl rfl⟩
    have hlt := unit.toNat_lt
    rw [isSurrogate_iff] at h
    have hvalid : Nat.isValidChar unit.toNat := by
      simp only [Nat.isValidChar]
      omega
    have hnat : (Char.ofNat unit.toNat).toNat = unit.toNat := toNat_ofNat hvalid
    rw [ofUnit, if_neg (by rw [isSurrogate_iff]; exact h), utf16Char, hnat, if_pos (by omega), UInt16.ofNat_toNat]

theorem utf16Char_ofPair {high low : UInt16} (hhigh : isHigh high = true) (hlow : isLow low = true) :
    utf16Char (ofPair high low) = [high, low] := by
  rw [isHigh_iff] at hhigh
  rw [isLow_iff] at hlow
  have hvalid : Nat.isValidChar (0x10000 + 0x400 * (high.toNat - 0xD800) + (low.toNat - 0xDC00)) := by
    simp only [Nat.isValidChar]
    omega
  have hnat := toNat_ofNat hvalid
  have hfirst : 0xD800 + (0x10000 + 0x400 * (high.toNat - 0xD800) + (low.toNat - 0xDC00) - 0x10000) / 0x400 =
      high.toNat := by omega
  have hsecond : 0xDC00 + (0x10000 + 0x400 * (high.toNat - 0xD800) + (low.toNat - 0xDC00) - 0x10000) % 0x400 =
      low.toNat := by omega
  rw [ofPair, utf16Char, hnat, if_neg (by omega), hfirst, hsecond, UInt16.ofNat_toNat, UInt16.ofNat_toNat]

/-- Unit by unit, a text differs from the units it was read from in lone surrogates only. -/
theorem kept_scrub (units : List UInt16) : List.Forall₂ Kept units (scrub units) := by
  fun_induction ofUtf16 units with
  | case1 => exact .nil
  | case2 unit =>
    obtain ⟨unit', hunits, hkept⟩ := utf16Char_ofUnit unit
    rw [scrub, ofUtf16, utf16, List.flatMap_cons, List.flatMap_nil, hunits]
    exact .cons hkept .nil
  | case3 high low rest hpair ih =>
    rw [scrub, ofUtf16, if_pos hpair, utf16, List.flatMap_cons]
    rw [Bool.and_eq_true] at hpair
    rw [utf16Char_ofPair hpair.1 hpair.2]
    exact .cons (.inl rfl) (.cons (.inl rfl) ih)
  | case4 high low rest hpair ih =>
    obtain ⟨unit', hunits, hkept⟩ := utf16Char_ofUnit high
    rw [scrub, ofUtf16, if_neg hpair, utf16, List.flatMap_cons, hunits]
    exact .cons hkept ih

/-! ## From UTF-8 -/

/-- A text from its octets; octets that are no text are read somehow. -/
def ofUtf8 : List UInt8 → List Char
  | [] => []
  | a :: rest =>
    if a < 0x80 then Char.ofNat a.toNat :: ofUtf8 rest
    else if a < 0xE0 then
      match rest with
      | b :: rest => Char.ofNat ((a.toNat - 0xC0) * 0x40 + (b.toNat - 0x80)) :: ofUtf8 rest
      | [] => []
    else if a < 0xF0 then
      match rest with
      | b :: c :: rest =>
        Char.ofNat ((a.toNat - 0xE0) * 0x1000 + (b.toNat - 0x80) * 0x40 + (c.toNat - 0x80)) :: ofUtf8 rest
      | _ => []
    else
      match rest with
      | b :: c :: d :: rest =>
        Char.ofNat ((a.toNat - 0xF0) * 0x40000 + (b.toNat - 0x80) * 0x1000 + (c.toNat - 0x80) * 0x40 +
          (d.toNat - 0x80)) :: ofUtf8 rest
      | _ => []

theorem toNat_octet {n : Nat} (h : n < 256) : (UInt8.ofNat n).toNat = n := by
  rw [UInt8.toNat_ofNat']
  omega

section Octets

variable {a b c d : Nat} {rest : List UInt8}

theorem octet_lt {m : Nat} (ha : a < 256) (hm : m < 256) : UInt8.ofNat a < UInt8.ofNat m ↔ a < m := by
  rw [UInt8.lt_iff_toNat_lt, toNat_octet ha, toNat_octet hm]

theorem ofUtf8_one (ha : a < 0x80) : ofUtf8 (UInt8.ofNat a :: rest) = Char.ofNat a :: ofUtf8 rest := by
  have hone : UInt8.ofNat a < 0x80 := (octet_lt (by omega) (by decide)).mpr ha
  have hnat : (UInt8.ofNat a).toNat = a := toNat_octet (by omega)
  rw [ofUtf8.eq_def]
  simp only [if_pos hone, hnat]

theorem ofUtf8_two (hlow : 0xC0 ≤ a) (hhigh : a < 0xE0) (hb : b < 256) :
    ofUtf8 (UInt8.ofNat a :: UInt8.ofNat b :: rest) =
      Char.ofNat ((a - 0xC0) * 0x40 + (b - 0x80)) :: ofUtf8 rest := by
  have hone : ¬ UInt8.ofNat a < 0x80 := by
    rw [show (0x80 : UInt8) = UInt8.ofNat 0x80 from rfl, octet_lt (by omega) (by decide)]
    omega
  have htwo : UInt8.ofNat a < 0xE0 := (octet_lt (by omega) (by decide)).mpr hhigh
  have hnat : (UInt8.ofNat a).toNat = a := toNat_octet (by omega)
  rw [ofUtf8.eq_def]
  simp only [if_neg hone, if_pos htwo, hnat, toNat_octet hb]

theorem ofUtf8_three (hlow : 0xE0 ≤ a) (hhigh : a < 0xF0) (hb : b < 256) (hc : c < 256) :
    ofUtf8 (UInt8.ofNat a :: UInt8.ofNat b :: UInt8.ofNat c :: rest) =
      Char.ofNat ((a - 0xE0) * 0x1000 + (b - 0x80) * 0x40 + (c - 0x80)) :: ofUtf8 rest := by
  have hone : ¬ UInt8.ofNat a < 0x80 := by
    rw [show (0x80 : UInt8) = UInt8.ofNat 0x80 from rfl, octet_lt (by omega) (by decide)]
    omega
  have htwo : ¬ UInt8.ofNat a < 0xE0 := by
    rw [show (0xE0 : UInt8) = UInt8.ofNat 0xE0 from rfl, octet_lt (by omega) (by decide)]
    omega
  have hthree : UInt8.ofNat a < 0xF0 := (octet_lt (by omega) (by decide)).mpr hhigh
  have hnat : (UInt8.ofNat a).toNat = a := toNat_octet (by omega)
  rw [ofUtf8.eq_def]
  simp only [if_neg hone, if_neg htwo, if_pos hthree, hnat, toNat_octet hb, toNat_octet hc]

theorem ofUtf8_four (hlow : 0xF0 ≤ a) (ha : a < 256) (hb : b < 256) (hc : c < 256) (hd : d < 256) :
    ofUtf8 (UInt8.ofNat a :: UInt8.ofNat b :: UInt8.ofNat c :: UInt8.ofNat d :: rest) =
      Char.ofNat ((a - 0xF0) * 0x40000 + (b - 0x80) * 0x1000 + (c - 0x80) * 0x40 + (d - 0x80)) :: ofUtf8 rest := by
  have hone : ¬ UInt8.ofNat a < 0x80 := by
    rw [show (0x80 : UInt8) = UInt8.ofNat 0x80 from rfl, octet_lt ha (by decide)]
    omega
  have htwo : ¬ UInt8.ofNat a < 0xE0 := by
    rw [show (0xE0 : UInt8) = UInt8.ofNat 0xE0 from rfl, octet_lt ha (by decide)]
    omega
  have hthree : ¬ UInt8.ofNat a < 0xF0 := by
    rw [show (0xF0 : UInt8) = UInt8.ofNat 0xF0 from rfl, octet_lt ha (by decide)]
    omega
  rw [ofUtf8.eq_def]
  simp only [if_neg hone, if_neg htwo, if_neg hthree, toNat_octet ha, toNat_octet hb, toNat_octet hc, toNat_octet hd]

end Octets

/-- The word of a character is read as the character, whatever follows. -/
theorem ofUtf8_char (c : Char) (rest : List UInt8) :
    ofUtf8 (String.utf8EncodeChar c ++ rest) = c :: ofUtf8 rest := by
  have hvalid : c.val.toNat < 0xD800 ∨ 0xDFFF < c.val.toNat ∧ c.val.toNat < 0x110000 := c.valid
  have hc : Char.ofNat c.val.toNat = c := Char.ofNat_toNat c
  unfold String.utf8EncodeChar
  generalize c.val.toNat = n at hvalid hc
  simp only
  by_cases hone : n ≤ 0x7F
  · rw [if_pos hone, List.singleton_append, ofUtf8_one (by omega), hc]
  rw [if_neg hone]
  by_cases htwo : n ≤ 0x7FF
  · have hn : (n / 64 % 0x20 + 0xC0 - 0xC0) * 0x40 + (n % 0x40 + 0x80 - 0x80) = n := by omega
    rw [if_pos htwo, List.cons_append, List.singleton_append, ofUtf8_two (by omega) (by omega) (by omega), hn, hc]
  rw [if_neg htwo]
  by_cases hthree : n ≤ 0xFFFF
  · have hn : (n / 4096 % 0x10 + 0xE0 - 0xE0) * 0x1000 + (n / 64 % 0x40 + 0x80 - 0x80) * 0x40 +
        (n % 0x40 + 0x80 - 0x80) = n := by omega
    rw [if_pos hthree, List.cons_append, List.cons_append, List.singleton_append,
      ofUtf8_three (by omega) (by omega) (by omega) (by omega), hn, hc]
  rw [if_neg hthree]
  have hn : (n / 262144 % 0x08 + 0xF0 - 0xF0) * 0x40000 + (n / 4096 % 0x40 + 0x80 - 0x80) * 0x1000 +
      (n / 64 % 0x40 + 0x80 - 0x80) * 0x40 + (n % 0x40 + 0x80 - 0x80) = n := by omega
  rw [List.cons_append, List.cons_append, List.cons_append, List.singleton_append,
    ofUtf8_four (by omega) (by omega) (by omega) (by omega) (by omega), hn, hc]

/-- Texts are read back. -/
theorem ofUtf8_utf8 (text : List Char) : ofUtf8 (utf8 text) = text := by
  induction text with
  | nil => rfl
  | cons c text ih => rw [utf8, List.flatMap_cons, ofUtf8_char, ← utf8, ih]

end Unicode
