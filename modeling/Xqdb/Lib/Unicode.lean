import Mathlib.Data.List.Infix
import Xqdb.Lib.Utf8

/-! Text as its characters, and the two encodings of it. Both are codes that can be cut from
either end: no character's word begins or ends another one's. -/

namespace Unicode

/-- No word of the code begins another one, whatever follows. -/
def PrefixFree {α β : Type} (encode : α → List β) : Prop :=
  ∀ a b rest, encode a <+: encode b ++ rest → a = b

/-- No word of the code ends another one, whatever stands before. -/
def SuffixFree {α β : Type} (encode : α → List β) : Prop :=
  ∀ a b rest, encode a <:+ rest ++ encode b → a = b

theorem SuffixFree.reverse {α β : Type} {encode : α → List β} (h : SuffixFree encode) :
    PrefixFree fun a => (encode a).reverse := by
  intro a b rest hfront
  refine h a b rest.reverse ?_
  rw [← List.reverse_prefix, List.reverse_append, List.reverse_reverse]
  exact hfront

/-- Whole words begin a text exactly if their characters do. -/
theorem PrefixFree.prefix_flatMap {α β : Type} {encode : α → List β} (h : PrefixFree encode)
    (hne : ∀ a, encode a ≠ []) {word text : List α} :
    word.flatMap encode <+: text.flatMap encode ↔ word <+: text := by
  induction word generalizing text with
  | nil => simp
  | cons c word ih =>
    cases text with
    | nil => simp [hne]
    | cons d text =>
      rw [List.flatMap_cons, List.flatMap_cons, List.cons_prefix_cons]
      constructor
      · intro hfront
        obtain rfl : c = d := h c d _ ((List.prefix_append _ _).trans hfront)
        exact ⟨rfl, ih.mp ((List.prefix_append_right_inj _).mp hfront)⟩
      · rintro ⟨rfl, hfront⟩
        exact (List.prefix_append_right_inj _).mpr (ih.mpr hfront)

theorem SuffixFree.suffix_flatMap {α β : Type} {encode : α → List β} (h : SuffixFree encode)
    (hne : ∀ a, encode a ≠ []) {word text : List α} :
    word.flatMap encode <:+ text.flatMap encode ↔ word <:+ text := by
  rw [← List.reverse_prefix, List.reverse_flatMap, List.reverse_flatMap, ← @List.reverse_prefix _ word]
  exact h.reverse.prefix_flatMap fun a => by simpa using hne a

/-! ## UTF-8 -/

def utf8 (text : List Char) : List UInt8 := text.flatMap String.utf8EncodeChar

@[simp] theorem utf8_nil : utf8 [] = [] := rfl

@[simp] theorem utf8_cons (c : Char) (text : List Char) :
    utf8 (c :: text) = String.utf8EncodeChar c ++ utf8 text := rfl

theorem utf8_append (a b : List Char) : utf8 (a ++ b) = utf8 a ++ utf8 b := List.flatMap_append

theorem toByteArray_prefix {a b : List UInt8} (h : a <+: b) :
    ∃ rest : ByteArray, b.toByteArray = a.toByteArray ++ rest := by
  obtain ⟨rest, rfl⟩ := h
  exact ⟨rest.toByteArray, List.toByteArray_append⟩

theorem utf8_prefixFree : PrefixFree String.utf8EncodeChar := by
  intro a b rest h
  obtain ⟨tail, htail⟩ := toByteArray_prefix h
  rw [List.toByteArray_append] at htail
  have hb := ByteArray.utf8DecodeChar?_utf8EncodeChar_append (b := rest.toByteArray) (c := b)
  rw [htail, ByteArray.utf8DecodeChar?_utf8EncodeChar_append] at hb
  exact Option.some.inj hb

/-- The first octet of a word is told apart from the others, so a word that ends another is that
word. -/
theorem eq_of_suffix {a b : Char} (h : String.utf8EncodeChar a <:+ String.utf8EncodeChar b) : a = b := by
  obtain ⟨front, hfront⟩ := h
  have hpos : 0 < (String.utf8EncodeChar a).length := by
    rw [String.length_utf8EncodeChar]
    exact a.utf8Size_pos
  have hlt : front.length < (String.utf8EncodeChar b).length := by
    rw [← hfront, List.length_append]
    omega
  have hsame : (String.utf8EncodeChar b)[front.length] = (String.utf8EncodeChar a)[0] := by
    simp only [← hfront]
    rw [List.getElem_append_right (le_refl _)]
    simp only [Nat.sub_self]
  have hfirst : (String.utf8EncodeChar b)[front.length].IsUTF8FirstByte := by
    rw [hsame, UInt8.isUTF8FirstByte_getElem_utf8EncodeChar]
  rw [UInt8.isUTF8FirstByte_getElem_utf8EncodeChar, List.length_eq_zero_iff] at hfirst
  subst hfirst
  rw [List.nil_append] at hfront
  refine utf8_prefixFree a b [] ?_
  rw [hfront, List.append_nil]

theorem utf8_suffixFree : SuffixFree String.utf8EncodeChar := by
  intro a b rest h
  obtain hab | hba := List.suffix_or_suffix_of_suffix h (List.suffix_append rest _)
  · exact eq_of_suffix hab
  · exact (eq_of_suffix hba).symm

/-! ### ASCII -/

/-- A character of its own octet. -/
def IsAscii (c : Char) : Prop := c.toNat < 128

theorem utf8_ascii {c : Char} (h : IsAscii c) : String.utf8EncodeChar c = [UInt8.ofNat c.toNat] := by
  have hle : c.val.toNat ≤ 127 := Nat.le_of_lt_succ h
  exact if_pos hle

/-- An octet below 128 begins a word. -/
theorem isFirst_ascii {c : Char} (h : IsAscii c) : (UInt8.ofNat c.toNat).IsUTF8FirstByte := by
  have hget : (String.utf8EncodeChar c)[0]? = some (UInt8.ofNat c.toNat) := by rw [utf8_ascii h]; rfl
  obtain ⟨hlt, hzero⟩ := List.getElem?_eq_some_iff.mp hget
  rw [← hzero, UInt8.isUTF8FirstByte_getElem_utf8EncodeChar]

/-- The octet of an ASCII character stands in its own word only. -/
theorem mem_utf8EncodeChar {a c : Char} (ha : IsAscii a) :
    UInt8.ofNat a.toNat ∈ String.utf8EncodeChar c ↔ c = a := by
  constructor
  · intro hmem
    obtain ⟨i, hlt, hi⟩ := List.mem_iff_getElem.mp hmem
    have hfirst := isFirst_ascii ha
    rw [← hi, UInt8.isUTF8FirstByte_getElem_utf8EncodeChar] at hfirst
    subst hfirst
    refine (utf8_prefixFree a c [] ?_).symm
    rw [utf8_ascii ha, List.append_nil, ← hi]
    obtain ⟨b, rest, hcons⟩ := List.exists_cons_of_length_pos hlt
    simp [hcons]
  · rintro rfl
    rw [utf8_ascii ha]
    exact List.mem_singleton_self _

theorem mem_utf8 {a : Char} (ha : IsAscii a) {text : List Char} : UInt8.ofNat a.toNat ∈ utf8 text ↔ a ∈ text := by
  rw [utf8, List.mem_flatMap]
  constructor
  · rintro ⟨c, hc, hmem⟩
    rw [mem_utf8EncodeChar ha] at hmem
    exact hmem ▸ hc
  · intro hmem
    exact ⟨a, hmem, (mem_utf8EncodeChar ha).mpr rfl⟩

theorem prefix_utf8 {word text : List Char} : utf8 word <+: utf8 text ↔ word <+: text :=
  utf8_prefixFree.prefix_flatMap fun _ => String.utf8EncodeChar_ne_nil

theorem utf8_inj {a b : List Char} : utf8 a = utf8 b ↔ a = b := by
  constructor
  · intro h
    have hfront : a <+: b := prefix_utf8.mp (by rw [h])
    have hback : b <+: a := prefix_utf8.mp (by rw [h])
    exact hfront.eq_of_length (Nat.le_antisymm hfront.length_le hback.length_le)
  · exact congrArg utf8

theorem suffix_utf8 {word text : List Char} : utf8 word <:+ utf8 text ↔ word <:+ text :=
  utf8_suffixFree.suffix_flatMap fun _ => String.utf8EncodeChar_ne_nil

/-! ### Validity -/

/-- The octets on which the automaton goes from one state to another, as a range. -/
def Moves (s s' : Utf8.State) (low high : Nat) : Prop :=
  ∀ n : Fin 256, low ≤ n.val → n.val ≤ high → Utf8.step s (UInt8.ofNat n.val) = some s'

instance (s s' : Utf8.State) (low high : Nat) : Decidable (Moves s s' low high) :=
  inferInstanceAs (Decidable (∀ _ : Fin 256, _))

theorem Moves.run {s s' : Utf8.State} {low high n : Nat} {rest : List UInt8} (h : Moves s s' low high)
    (hlow : low ≤ n) (hhigh : n ≤ high) (hlt : n < 256) :
    Utf8.run s (UInt8.ofNat n :: rest) = Utf8.run s' rest := by
  rw [Utf8.run, h ⟨n, hlt⟩ hlow hhigh, Option.bind_some]

theorem run_utf8EncodeChar (c : Char) : Utf8.run .start (String.utf8EncodeChar c) = some .start := by
  have hvalid : c.val.toNat < 0xD800 ∨ 0xDFFF < c.val.toNat ∧ c.val.toNat < 0x110000 := c.valid
  have htail : Moves .one .start 0x80 0xBF := by decide +kernel
  have htail₂ : Moves .two .one 0x80 0xBF := by decide +kernel
  unfold String.utf8EncodeChar
  generalize c.val.toNat = n at hvalid
  simp only
  by_cases hone : n ≤ 0x7F
  · have hlead : Moves .start .start 0 0x7F := by decide +kernel
    rw [if_pos hone, hlead.run (by omega) hone (by omega)]
    rfl
  rw [if_neg hone]
  by_cases htwo : n ≤ 0x7FF
  · have hlead : Moves .start .one 0xC2 0xDF := by decide +kernel
    rw [if_pos htwo, hlead.run (by omega) (by omega) (by omega), htail.run (by omega) (by omega) (by omega)]
    rfl
  rw [if_neg htwo]
  by_cases hthree : n ≤ 0xFFFF
  · rw [if_pos hthree]
    -- the second octet after E0 and after ED has a range of its own
    by_cases he0 : n < 0x1000
    · have hlead : Moves .start .afterE0 0xE0 0xE0 := by decide +kernel
      have hsecond : Moves .afterE0 .one 0xA0 0xBF := by decide +kernel
      rw [hlead.run (by omega) (by omega) (by omega), hsecond.run (by omega) (by omega) (by omega),
        htail.run (by omega) (by omega) (by omega)]
      rfl
    by_cases hed : 0xD000 ≤ n ∧ n < 0xE000
    · have hlead : Moves .start .afterED 0xED 0xED := by decide +kernel
      have hsecond : Moves .afterED .one 0x80 0x9F := by decide +kernel
      rw [hlead.run (by omega) (by omega) (by omega), hsecond.run (by omega) (by omega) (by omega),
        htail.run (by omega) (by omega) (by omega)]
      rfl
    by_cases hlow : n < 0xD000
    · have hlead : Moves .start .two 0xE1 0xEC := by decide +kernel
      rw [hlead.run (by omega) (by omega) (by omega), htail₂.run (by omega) (by omega) (by omega),
        htail.run (by omega) (by omega) (by omega)]
      rfl
    · have hlead : Moves .start .two 0xEE 0xEF := by decide +kernel
      rw [hlead.run (by omega) (by omega) (by omega), htail₂.run (by omega) (by omega) (by omega),
        htail.run (by omega) (by omega) (by omega)]
      rfl
  rw [if_neg hthree]
  have htail₃ : Moves .three .two 0x80 0xBF := by decide +kernel
  by_cases hf0 : n < 0x40000
  · have hlead : Moves .start .afterF0 0xF0 0xF0 := by decide +kernel
    have hsecond : Moves .afterF0 .two 0x90 0xBF := by decide +kernel
    rw [hlead.run (by omega) (by omega) (by omega), hsecond.run (by omega) (by omega) (by omega),
      htail₂.run (by omega) (by omega) (by omega), htail.run (by omega) (by omega) (by omega)]
    rfl
  by_cases hf4 : 0x100000 ≤ n
  · have hlead : Moves .start .afterF4 0xF4 0xF4 := by decide +kernel
    have hsecond : Moves .afterF4 .two 0x80 0x8F := by decide +kernel
    rw [hlead.run (by omega) (by omega) (by omega), hsecond.run (by omega) (by omega) (by omega),
      htail₂.run (by omega) (by omega) (by omega), htail.run (by omega) (by omega) (by omega)]
    rfl
  · have hlead : Moves .start .three 0xF1 0xF3 := by decide +kernel
    rw [hlead.run (by omega) (by omega) (by omega), htail₃.run (by omega) (by omega) (by omega),
      htail₂.run (by omega) (by omega) (by omega), htail.run (by omega) (by omega) (by omega)]
    rfl

/-- Every text is valid UTF-8. -/
theorem valid_utf8 (text : List Char) : Utf8.Valid (utf8 text) := by
  induction text with
  | nil => exact Utf8.valid_nil
  | cons c text ih => exact Utf8.Valid.append (run_utf8EncodeChar c) ih

/-! ## UTF-16 -/

/-- A unit below the surrogates or above them, or a pair of surrogates. -/
def utf16Char (c : Char) : List UInt16 :=
  if c.toNat < 0x10000 then [UInt16.ofNat c.toNat]
  else [UInt16.ofNat (0xD800 + (c.toNat - 0x10000) / 0x400), UInt16.ofNat (0xDC00 + (c.toNat - 0x10000) % 0x400)]

def utf16 (text : List Char) : List UInt16 := text.flatMap utf16Char

theorem utf16Char_ne_nil (c : Char) : utf16Char c ≠ [] := by
  unfold utf16Char
  split <;> simp

/-- The words of UTF-16: one unit that is no surrogate, or a pair of them. -/
theorem utf16Char_cases (c : Char) :
    (∃ n, c.toNat = n ∧ (n < 0xD800 ∨ 0xDFFF < n) ∧ n < 0x10000 ∧ utf16Char c = [UInt16.ofNat n]) ∨
    ∃ high low, c.toNat = 0x10000 + 0x400 * high + low ∧ high < 0x400 ∧ low < 0x400 ∧
      utf16Char c = [UInt16.ofNat (0xD800 + high), UInt16.ofNat (0xDC00 + low)] := by
  have hvalid : c.toNat < 0xD800 ∨ 0xDFFF < c.toNat ∧ c.toNat < 0x110000 := c.valid
  unfold utf16Char
  split
  · next hlt => exact .inl ⟨c.toNat, rfl, by omega, hlt, rfl⟩
  · exact .inr ⟨(c.toNat - 0x10000) / 0x400, (c.toNat - 0x10000) % 0x400, by omega, by omega, by omega, rfl⟩

theorem ofNat_inj {m n : Nat} (hm : m < 0x10000) (hn : n < 0x10000) (h : UInt16.ofNat m = UInt16.ofNat n) :
    m = n := by
  have hnat := congrArg UInt16.toNat h
  rw [UInt16.toNat_ofNat', UInt16.toNat_ofNat'] at hnat
  omega

theorem utf16_prefixFree : PrefixFree utf16Char := by
  intro a b rest h
  apply Char.toNat_inj.mp
  obtain ⟨m, ham, hm, hm', ha⟩ | ⟨m, m', ham, hm, hm', ha⟩ := utf16Char_cases a
  · obtain ⟨n, hbn, hn, hn', hb⟩ | ⟨n, n', hbn, hn, hn', hb⟩ := utf16Char_cases b
    · rw [ha, hb, List.singleton_append, List.cons_prefix_cons] at h
      have := ofNat_inj (by omega) (by omega) h.1
      omega
    · rw [ha, hb, List.cons_append, List.cons_prefix_cons] at h
      have := ofNat_inj (by omega) (by omega) h.1
      omega
  · obtain ⟨n, hbn, hn, hn', hb⟩ | ⟨n, n', hbn, hn, hn', hb⟩ := utf16Char_cases b
    · rw [ha, hb, List.singleton_append, List.cons_prefix_cons] at h
      have := ofNat_inj (by omega) (by omega) h.1
      omega
    · rw [ha, hb, List.cons_append, List.cons_prefix_cons, List.cons_append, List.cons_prefix_cons] at h
      have := ofNat_inj (by omega) (by omega) h.1
      have := ofNat_inj (by omega) (by omega) h.2.1
      omega

theorem utf16_suffixFree : SuffixFree utf16Char := by
  intro a b rest h
  apply Char.toNat_inj.mp
  obtain ⟨m, ham, hm, hm', ha⟩ | ⟨m, m', ham, hm, hm', ha⟩ := utf16Char_cases a
  · obtain ⟨n, hbn, hn, hn', hb⟩ | ⟨n, n', hbn, hn, hn', hb⟩ := utf16Char_cases b
    · rw [ha, hb, ← List.reverse_prefix] at h
      simp only [List.reverse_append, List.reverse_singleton, List.singleton_append, List.cons_prefix_cons] at h
      have := ofNat_inj (by omega) (by omega) h.1
      omega
    · rw [ha, hb, ← List.reverse_prefix] at h
      simp only [List.reverse_append, List.reverse_cons, List.reverse_nil, List.nil_append, List.cons_append,
        List.cons_prefix_cons] at h
      have := ofNat_inj (by omega) (by omega) h.1
      omega
  · obtain ⟨n, hbn, hn, hn', hb⟩ | ⟨n, n', hbn, hn, hn', hb⟩ := utf16Char_cases b
    · rw [ha, hb, ← List.reverse_prefix] at h
      simp only [List.reverse_append, List.reverse_cons, List.reverse_nil, List.nil_append, List.cons_append,
        List.cons_prefix_cons] at h
      have := ofNat_inj (by omega) (by omega) h.1
      omega
    · rw [ha, hb, ← List.reverse_prefix] at h
      simp only [List.reverse_append, List.reverse_cons, List.reverse_nil, List.nil_append, List.cons_append,
        List.cons_prefix_cons] at h
      have := ofNat_inj (by omega) (by omega) h.1
      have := ofNat_inj (by omega) (by omega) h.2.1
      omega

theorem prefix_utf16 {word text : List Char} : utf16 word <+: utf16 text ↔ word <+: text :=
  utf16_prefixFree.prefix_flatMap utf16Char_ne_nil

theorem suffix_utf16 {word text : List Char} : utf16 word <:+ utf16 text ↔ word <:+ text :=
  utf16_suffixFree.suffix_flatMap utf16Char_ne_nil

end Unicode
