import Xqdb.Errors

/-! GUID atoms of the Python binding (`parse_guid_bytes` of `py-xqdb/src/connector.rs`). Text is
its characters: the parser counts octets, but every text that comes past the counts is ASCII. -/

namespace Xqdb.Python

inductive PyError where
  | ValueError (message : String)
  | TypeError (message : String)
  deriving DecidableEq, Repr

/-- What the parser can tell apart: bytes, text, and anything else by its attribute `bytes`,
which may raise, be missing, or not be a bytes object. -/
inductive PyValue where
  | bytes (value : Bytes)
  | text (value : List Char)
  | other (bytesAttribute : Except PyError (Option (Option Bytes)))

/-- `text.len()`: the octets of the text. -/
def utf8Length : List Char → Nat
  | [] => 0
  | c :: text => c.utf8Size + utf8Length text

def isAsciiText (text : List Char) : Bool := text.all fun c => c.toNat < 128

/-- `char::to_digit(16)`. -/
def toDigit (c : Char) : Option Nat :=
  if 48 ≤ c.toNat ∧ c.toNat ≤ 57 then some (c.toNat - 48)
  else if 97 ≤ c.toNat ∧ c.toNat ≤ 102 then some (c.toNat - 87)
  else if 65 ≤ c.toNat ∧ c.toNat ≤ 70 then some (c.toNat - 55)
  else none

/-- Digits behind a value; the value must stay below 256. -/
def digitsFrom : Nat → List Char → Option Nat
  | value, [] => some value
  | value, c :: rest =>
    match toDigit c with
    | some digit => if 16 * value + digit < 256 then digitsFrom (16 * value + digit) rest else none
    | none => none

/-- `u8::from_str_radix(text, 16)`. A plus may stand in front of the digits. -/
def u8FromStrRadix (text : List Char) : Option UInt8 :=
  match text with
  | [] => none
  | ['+'] => none
  | ['-'] => none
  | '+' :: digits => (digitsFrom 0 digits).map UInt8.ofNat
  | digits => (digitsFrom 0 digits).map UInt8.ofNat

def notUuid : PyError := .ValueError "q GUID atom value must be 16 bytes or a UUID string"

/-- `for offset in (0..32).step_by(2)`: the bytes from `offset` on. -/
def parsePairs (compact : List Char) : Nat → Nat → Except PyError Bytes
  | 0, _ => .ok []
  | count + 1, offset =>
    match u8FromStrRadix ((compact.drop offset).take 2) with
    | none => .error notUuid
    | some byte =>
      match parsePairs compact count (offset + 2) with
      | .ok rest => .ok (byte :: rest)
      | .error e => .error e

def parseText (text : List Char) : Except PyError Bytes :=
  if ¬ (utf8Length text = 32 ∨ utf8Length text = 36) then .error notUuid
  else
    let compact := text.filter (· ≠ '-')
    if utf8Length compact ≠ 32 ∨ isAsciiText compact = false then .error notUuid
    else parsePairs compact 16 0

def parseGuidBytes (value : PyValue) : Except PyError Bytes :=
  match value with
  | .bytes value =>
    if value.length ≠ 16 then .error (.ValueError "q GUID atom value must contain exactly 16 bytes")
    else .ok value
  | .text text => parseText text
  | .other bytesAttribute =>
    match bytesAttribute with
    | .error e => .error e
    | .ok (some (some value)) =>
      if value.length = 16 then .ok value
      else .error (.TypeError "q GUID atom value must be 16 bytes, a UUID string, or uuid.UUID")
    | .ok _ => .error (.TypeError "q GUID atom value must be 16 bytes, a UUID string, or uuid.UUID")

/-! ## UUID text -/

def IsHex (c : Char) : Prop := (toDigit c).isSome

instance : DecidablePred IsHex := fun c => inferInstanceAs (Decidable ((toDigit c).isSome = true))

/-- Groups of hexadecimal digits, joined by hyphens. -/
def Hyphenated (text : List Char) : Prop :=
  ∃ a b c d e : List Char, a.length = 8 ∧ b.length = 4 ∧ c.length = 4 ∧ d.length = 4 ∧ e.length = 12 ∧
    (∀ x ∈ a ++ b ++ c ++ d ++ e, IsHex x) ∧
    text = a ++ '-' :: b ++ '-' :: c ++ '-' :: d ++ '-' :: e

/-- 32 hexadecimal digits, or the canonical form. -/
def UuidText (text : List Char) : Prop :=
  (text.length = 32 ∧ ∀ x ∈ text, IsHex x) ∨ Hyphenated text

/-- The bytes of hexadecimal digits, two a byte. -/
inductive Denotes : List Char → Bytes → Prop
  | nil : Denotes [] []
  | cons {high low : Char} {h l : Nat} {digits : List Char} {bytes : Bytes} (hhigh : toDigit high = some h)
      (hlow : toDigit low = some l) (hrest : Denotes digits bytes) :
      Denotes (high :: low :: digits) (UInt8.ofNat (16 * h + l) :: bytes)

/-- The text is accepted exactly if it is a UUID, and then as the bytes it denotes. -/
def ParsedExactly (text : List Char) : Prop :=
  ((∃ bytes, parseGuidBytes (.text text) = .ok bytes) ↔ UuidText text) ∧
    ∀ bytes, parseGuidBytes (.text text) = .ok bytes →
      bytes.length = 16 ∧ Denotes (text.filter (· ≠ '-')) bytes

/-- Pairs of a hexadecimal digit, or a plus in its place, and a hexadecimal digit. -/
def Pairs : List Char → Prop
  | [] => True
  | [_] => False
  | high :: low :: rest => (IsHex high ∨ high = '+') ∧ IsHex low ∧ Pairs rest

def hyphenPlaces : List Nat := [8, 13, 18, 23]

/-- No UUID, but 16 pairs once the hyphens are dropped. -/
def Tolerated (text : List Char) : Prop :=
  (text.count '-' = 0 ∨ text.count '-' = 4) ∧ (text.filter (· ≠ '-')).length = 32 ∧
    Pairs (text.filter (· ≠ '-')) ∧
    ('+' ∈ text ∨ ∃ i, text[i]? = some '-' ∧ i ∉ hyphenPlaces)

/-! ## What is read -/

/-- The bytes of pairs, one after the other. -/
inductive Reads : List Char → Bytes → Prop
  | nil : Reads [] []
  | cons {high low : Char} {byte : UInt8} {rest : List Char} {bytes : Bytes}
      (hpair : u8FromStrRadix [high, low] = some byte) (hrest : Reads rest bytes) :
      Reads (high :: low :: rest) (byte :: bytes)

theorem toDigit_lt {c : Char} {digit : Nat} (h : toDigit c = some digit) : digit < 16 ∧ c.toNat < 128 := by
  unfold toDigit at h
  split at h
  · cases h
    omega
  split at h
  · cases h
    omega
  split at h
  · cases h
    omega
  · cases h

theorem u8FromStrRadix_plus (low : Char) :
    u8FromStrRadix ['+', low] = (toDigit low).map UInt8.ofNat := by
  cases hlow : toDigit low with
  | none => simp [u8FromStrRadix, digitsFrom, hlow]
  | some l =>
    have hlt := (toDigit_lt hlow).1
    simp [u8FromStrRadix, digitsFrom, hlow, show l < 256 by omega]

theorem u8FromStrRadix_pair {high : Char} (hhigh : high ≠ '+') (low : Char) :
    u8FromStrRadix [high, low] =
      (toDigit high).bind fun h => (toDigit low).map fun l => UInt8.ofNat (16 * h + l) := by
  have hdigits : u8FromStrRadix [high, low] = (digitsFrom 0 [high, low]).map UInt8.ofNat := by
    unfold u8FromStrRadix
    split
    · next h => cases h
    · next h => cases h
    · next h => cases h
    · next h =>
      obtain ⟨rfl, -⟩ := List.cons.inj h
      exact absurd rfl hhigh
    · rfl
  rw [hdigits]
  cases hh : toDigit high with
  | none => simp [digitsFrom, hh]
  | some h =>
    have hlt := (toDigit_lt hh).1
    cases hl : toDigit low with
    | none => simp [digitsFrom, hh, hl, show h < 256 by omega]
    | some l =>
      have hlt' := (toDigit_lt hl).1
      simp [digitsFrom, hh, hl, show h < 256 by omega, show 16 * h + l < 256 by omega]

theorem u8FromStrRadix_isSome {high low : Char} :
    (∃ byte, u8FromStrRadix [high, low] = some byte) ↔ (IsHex high ∨ high = '+') ∧ IsHex low := by
  by_cases hplus : high = '+'
  · subst hplus
    rw [u8FromStrRadix_plus]
    cases hlow : toDigit low <;> simp [IsHex, hlow]
  · rw [u8FromStrRadix_pair hplus]
    cases hhigh : toDigit high <;> cases hlow : toDigit low <;> simp [IsHex, hhigh, hlow, hplus]

theorem pairs_iff_reads {text : List Char} : Pairs text ↔ ∃ bytes, Reads text bytes := by
  induction text using Pairs.induct with
  | case1 => exact ⟨fun _ => ⟨[], .nil⟩, fun _ => trivial⟩
  | case2 c =>
    constructor
    · intro h
      exact h.elim
    · rintro ⟨bytes, h⟩
      cases h
  | case3 high low rest ih =>
    rw [Pairs, ih, ← and_assoc, ← u8FromStrRadix_isSome]
    constructor
    · rintro ⟨⟨byte, hpair⟩, bytes, hrest⟩
      exact ⟨byte :: bytes, .cons hpair hrest⟩
    · rintro ⟨_, h⟩
      cases h with
      | cons hpair hrest => exact ⟨⟨_, hpair⟩, _, hrest⟩

theorem Reads.length {text : List Char} {bytes : Bytes} (h : Reads text bytes) :
    text.length = 2 * bytes.length := by
  induction h with
  | nil => rfl
  | cons hpair hrest ih =>
    simp only [List.length_cons, ih]
    omega

/-- The loop reads the pairs from its offset on. -/
theorem parsePairs_eq_ok {compact : List Char} {count offset : Nat} {bytes : Bytes}
    (hlength : compact.length = offset + 2 * count) :
    parsePairs compact count offset = .ok bytes ↔ Reads (compact.drop offset) bytes := by
  induction count generalizing offset bytes with
  | zero =>
    rw [List.drop_of_length_le (by omega)]
    constructor
    · intro h
      cases h
      exact .nil
    · intro h
      cases h
      rfl
  | succ count ih =>
    obtain ⟨high, low, hdrop⟩ : ∃ high low, compact.drop offset = high :: low :: compact.drop (offset + 2) :=
      ⟨compact[offset], compact[offset + 1], by
        rw [List.drop_eq_getElem_cons (by omega), List.drop_eq_getElem_cons (by omega)]⟩
    have ih := @ih (offset + 2)
    rw [parsePairs, hdrop]
    simp only [List.take_succ_cons, List.take_zero]
    cases hpair : u8FromStrRadix [high, low] with
    | none =>
      simp only [reduceCtorEq, false_iff]
      intro h
      cases h with
      | cons hread hrest => cases hpair.symm.trans hread
    | some byte =>
      cases hrest : parsePairs compact count (offset + 2) with
      | error e =>
        simp only [reduceCtorEq, false_iff]
        intro h
        cases h with
        | cons hread htail => cases hrest.symm.trans ((ih (by omega)).mpr htail)
      | ok rest =>
        simp only [Except.ok.injEq]
        constructor
        · rintro rfl
          exact .cons hpair ((ih (by omega)).mp hrest)
        · intro h
          cases h with
          | cons hread htail =>
            cases hpair.symm.trans hread
            cases hrest.symm.trans ((ih (by omega)).mpr htail)
            rfl

/-! ## Lengths -/

theorem utf8Size_of_lt {c : Char} (h : c.toNat < 128) : c.utf8Size = 1 := by
  have hval : c.val ≤ 127 := by
    rw [UInt32.le_iff_toNat_le]
    exact Nat.le_of_lt_succ h
  exact if_pos hval

theorem isAsciiText_iff {text : List Char} : isAsciiText text = true ↔ ∀ c ∈ text, c.toNat < 128 := by
  simp [isAsciiText]

theorem utf8Length_ascii {text : List Char} (h : ∀ c ∈ text, c.toNat < 128) : utf8Length text = text.length := by
  induction text with
  | nil => rfl
  | cons c text ih =>
    have hrest : utf8Length text = text.length := ih fun d hd => h d (by simp [hd])
    have hsize : c.utf8Size = 1 := utf8Size_of_lt (h c (by simp))
    rw [utf8Length, hsize, hrest, List.length_cons, Nat.add_comm]

theorem utf8Length_filter (text : List Char) :
    utf8Length text = utf8Length (text.filter (· ≠ '-')) + text.count '-' := by
  induction text with
  | nil => rfl
  | cons c text ih =>
    by_cases hc : c = '-'
    · subst hc
      have hsize : '-'.utf8Size = 1 := by decide
      simp only [utf8Length, hsize, ne_eq, not_true_eq_false, decide_false,
        Bool.false_eq_true, not_false_eq_true, List.filter_cons_of_neg, List.count_cons_self] at ih ⊢
      omega
    · have hkeep : (c :: text).filter (· ≠ '-') = c :: text.filter (· ≠ '-') :=
        List.filter_cons_of_pos (by simpa using hc)
      rw [hkeep, List.count_cons_of_ne hc]
      simp only [utf8Length] at ih ⊢
      omega

theorem length_filter_hyphens (text : List Char) :
    text.length = (text.filter (· ≠ '-')).length + text.count '-' := by
  induction text with
  | nil => rfl
  | cons c text ih =>
    by_cases hc : c = '-'
    · subst hc
      simp only [List.length_cons, List.count_cons_self, ne_eq, not_true_eq_false, decide_false,
        Bool.false_eq_true, not_false_eq_true, List.filter_cons_of_neg] at ih ⊢
      omega
    · have hkeep : (c :: text).filter (· ≠ '-') = c :: text.filter (· ≠ '-') :=
        List.filter_cons_of_pos (by simpa using hc)
      rw [hkeep, List.count_cons_of_ne hc, List.length_cons, List.length_cons]
      omega

theorem isHex_lt {c : Char} (h : IsHex c) : c.toNat < 128 := by
  obtain ⟨digit, hdigit⟩ := Option.isSome_iff_exists.mp h
  exact (toDigit_lt hdigit).2

theorem Pairs.ascii {text : List Char} (h : Pairs text) : ∀ c ∈ text, c.toNat < 128 := by
  induction text using Pairs.induct with
  | case1 => simp
  | case2 c => exact h.elim
  | case3 high low rest ih =>
    obtain ⟨hhigh, hlow, hrest⟩ := h
    intro c hc
    simp only [List.mem_cons] at hc
    obtain rfl | rfl | hc := hc
    · obtain hhex | rfl := hhigh
      · exact isHex_lt hhex
      · decide
    · exact isHex_lt hlow
    · exact ih hrest c hc

/-- **The accepted texts**: no hyphen or four of them, and 16 pairs beside. -/
theorem parseText_eq_ok {text : List Char} {bytes : Bytes} :
    parseText text = .ok bytes ↔
      (text.count '-' = 0 ∨ text.count '-' = 4) ∧ (text.filter (· ≠ '-')).length = 32 ∧
        Reads (text.filter (· ≠ '-')) bytes := by
  have hsum := utf8Length_filter text
  simp only [parseText]
  constructor
  · intro h
    split at h
    · cases h
    next hcounts =>
    rw [not_not] at hcounts
    split at h
    · cases h
    next hcompact =>
    rw [not_or, not_not, Bool.not_eq_false] at hcompact
    obtain ⟨hlength, hascii⟩ := hcompact
    have hall := isAsciiText_iff.mp hascii
    have hchars : (text.filter (· ≠ '-')).length = 32 := (utf8Length_ascii hall).symm.trans hlength
    have hstart : (text.filter (· ≠ '-')).length = 0 + 2 * 16 := hchars
    exact ⟨by omega, hchars, (parsePairs_eq_ok hstart).mp h⟩
  · rintro ⟨hcount, hchars, hreads⟩
    have hall := (pairs_iff_reads.mpr ⟨bytes, hreads⟩).ascii
    have hlength : utf8Length (text.filter (· ≠ '-')) = 32 := (utf8Length_ascii hall).trans hchars
    have hascii := isAsciiText_iff.mpr hall
    have hcompact : ¬ (utf8Length (text.filter (· ≠ '-')) ≠ 32 ∨ isAsciiText (text.filter (· ≠ '-')) = false) := by
      rw [not_or, not_not, Bool.not_eq_false]
      exact ⟨hlength, hascii⟩
    rw [if_neg (by omega), if_neg hcompact]
    have hstart : (text.filter (· ≠ '-')).length = 0 + 2 * 16 := hchars
    exact (parsePairs_eq_ok hstart).mpr hreads

/-! ## UUIDs -/

/-- Without a plus the pairs denote what was read. -/
theorem Reads.denotes {text : List Char} {bytes : Bytes} (h : Reads text bytes) (hplus : '+' ∉ text) :
    Denotes text bytes := by
  induction h with
  | nil => exact .nil
  | @cons high low byte rest bytes hpair hrest ih =>
    have hhigh : high ≠ '+' := by
      rintro rfl
      exact hplus (by simp)
    have hbyte := (u8FromStrRadix_pair hhigh low).symm.trans hpair
    rw [Option.bind_eq_some_iff] at hbyte
    obtain ⟨h, hh, hbyte⟩ := hbyte
    rw [Option.map_eq_some_iff] at hbyte
    obtain ⟨l, hl, rfl⟩ := hbyte
    exact .cons hh hl (ih fun hmem => hplus (by simp [hmem]))

theorem Denotes.isHex {text : List Char} {bytes : Bytes} (h : Denotes text bytes) : ∀ c ∈ text, IsHex c := by
  induction h with
  | nil => simp
  | cons hhigh hlow hrest ih =>
    intro c hc
    simp only [List.mem_cons] at hc
    obtain rfl | rfl | hc := hc
    · simp [IsHex, hhigh]
    · simp [IsHex, hlow]
    · exact ih c hc

theorem pairs_of_isHex {text : List Char} (h : ∀ c ∈ text, IsHex c) {count : Nat}
    (hlength : text.length = 2 * count) : Pairs text := by
  induction text using Pairs.induct generalizing count with
  | case1 => trivial
  | case2 c =>
    rw [List.length_singleton] at hlength
    omega
  | case3 high low rest ih =>
    have hless : rest.length = 2 * (count - 1) := by
      simp only [List.length_cons] at hlength
      omega
    exact ⟨.inl (h high (by simp)), h low (by simp), ih (fun c hc => h c (by simp [hc])) hless⟩

theorem not_isHex_hyphen : ¬ IsHex '-' := by decide

theorem filter_isHex {text : List Char} (h : ∀ c ∈ text, IsHex c) : text.filter (· ≠ '-') = text := by
  rw [List.filter_eq_self]
  intro c hc
  have hne : c ≠ '-' := by
    rintro rfl
    exact not_isHex_hyphen (h _ hc)
  simpa using hne

theorem count_isHex {text : List Char} (h : ∀ c ∈ text, IsHex c) : text.count '-' = 0 := by
  rw [List.count_eq_zero]
  intro hmem
  exact not_isHex_hyphen (h _ hmem)

section Places

variable {front rest text : List Char} {i : Nat}

theorem hyphen_behind (hfront : ∀ c ∈ front, IsHex c) (h : (front ++ rest)[i]? = some '-') :
    ∃ j, i = front.length + j ∧ rest[j]? = some '-' := by
  by_cases hlt : i < front.length
  · rw [List.getElem?_append_left hlt] at h
    exact absurd (hfront _ (List.mem_of_getElem? h)) not_isHex_hyphen
  · rw [List.getElem?_append_right (by omega)] at h
    exact ⟨i - front.length, by omega, h⟩

theorem hyphen_or_behind (h : ('-' :: rest)[i]? = some '-') : i = 0 ∨ ∃ j, i = j + 1 ∧ rest[j]? = some '-' := by
  cases i with
  | zero => exact .inl rfl
  | succ j => exact .inr ⟨j, rfl, by simpa using h⟩

theorem exists_of_mem_slice {start count : Nat} (h : '-' ∈ (text.drop start).take count) :
    ∃ j, start ≤ j ∧ j < start + count ∧ text[j]? = some '-' := by
  obtain ⟨j, hj⟩ := List.mem_iff_getElem?.mp h
  rw [List.getElem?_take] at hj
  split at hj
  · next hlt =>
    rw [List.getElem?_drop] at hj
    exact ⟨start + j, by omega, by omega, hj⟩
  · cases hj

end Places

theorem Hyphenated.compact {text : List Char} (h : Hyphenated text) :
    text.count '-' = 4 ∧ (text.filter (· ≠ '-')).length = 32 ∧ (∀ c ∈ text.filter (· ≠ '-'), IsHex c) ∧
      ∀ i, text[i]? = some '-' → i ∈ hyphenPlaces := by
  obtain ⟨a, b, c, d, e, ha, hb, hc, hd, he, hhex, rfl⟩ := h
  have hxa : ∀ x ∈ a, IsHex x := fun x hx => hhex x (by simp [hx])
  have hxb : ∀ x ∈ b, IsHex x := fun x hx => hhex x (by simp [hx])
  have hxc : ∀ x ∈ c, IsHex x := fun x hx => hhex x (by simp [hx])
  have hxd : ∀ x ∈ d, IsHex x := fun x hx => hhex x (by simp [hx])
  have hxe : ∀ x ∈ e, IsHex x := fun x hx => hhex x (by simp [hx])
  have hfilter : (a ++ '-' :: b ++ '-' :: c ++ '-' :: d ++ '-' :: e).filter (· ≠ '-') =
      a ++ b ++ c ++ d ++ e := by
    simp only [List.filter_append, List.filter_cons, filter_isHex hxa, filter_isHex hxb, filter_isHex hxc,
      filter_isHex hxd, filter_isHex hxe]
    simp
  rw [hfilter]
  refine ⟨?_, by simp [ha, hb, hc, hd, he], hhex, ?_⟩
  · simp [count_isHex hxa, count_isHex hxb, count_isHex hxc, count_isHex hxd, count_isHex hxe]
  · intro i hi
    simp only [List.append_assoc, List.cons_append] at hi
    obtain ⟨i₁, rfl, h₁⟩ := hyphen_behind hxa hi
    obtain rfl | ⟨i₂, rfl, h₂⟩ := hyphen_or_behind h₁
    · simp [hyphenPlaces, ha]
    obtain ⟨i₃, rfl, h₃⟩ := hyphen_behind hxb h₂
    obtain rfl | ⟨i₄, rfl, h₄⟩ := hyphen_or_behind h₃
    · simp [hyphenPlaces, ha, hb]
    obtain ⟨i₅, rfl, h₅⟩ := hyphen_behind hxc h₄
    obtain rfl | ⟨i₆, rfl, h₆⟩ := hyphen_or_behind h₅
    · simp [hyphenPlaces, ha, hb, hc]
    obtain ⟨i₇, rfl, h₇⟩ := hyphen_behind hxd h₆
    obtain rfl | ⟨i₈, rfl, h₈⟩ := hyphen_or_behind h₇
    · simp [hyphenPlaces, ha, hb, hc, hd]
    exact absurd (hxe _ (List.mem_of_getElem? h₈)) not_isHex_hyphen

theorem drop_eq_slice {text : List Char} (start count : Nat) (h : start + count < text.length) :
    text.drop start = (text.drop start).take count ++ text[start + count] :: text.drop (start + count + 1) := by
  rw [← List.drop_eq_getElem_cons h, ← List.drop_drop, List.take_append_drop]

/-- Four hyphens that stand only at the four places cut the text into its groups. -/
theorem hyphenated_of_places {text : List Char} (hlength : text.length = 36) (hcount : text.count '-' = 4)
    (hhex : ∀ c ∈ text.filter (· ≠ '-'), IsHex c) (hplaces : ∀ i, text[i]? = some '-' → i ∈ hyphenPlaces) :
    Hyphenated text := by
  have hclean : ∀ start count, (∀ j, start ≤ j → j < start + count → j ∉ hyphenPlaces) →
      ((text.drop start).take count).count '-' = 0 := by
    intro start count hfree
    rw [List.count_eq_zero]
    intro hmem
    obtain ⟨j, hle, hlt, hj⟩ := exists_of_mem_slice hmem
    exact hfree j hle hlt (hplaces j hj)
  have hsplit : text = (text.drop 0).take 8 ++ text[8] :: (text.drop 9).take 4 ++ text[13] ::
      (text.drop 14).take 4 ++ text[18] :: (text.drop 19).take 4 ++ text[23] :: (text.drop 24).take 12 := by
    have hend : (text.drop 24).take 12 = text.drop 24 := List.take_of_length_le (by simp [hlength])
    simp only [List.append_assoc, List.cons_append, hend]
    rw [← drop_eq_slice 19 4 (by omega),
      ← drop_eq_slice 14 4 (by omega),
      ← drop_eq_slice 9 4 (by omega),
      ← drop_eq_slice 0 8 (by omega), List.drop_zero]
  have ha := hclean 0 8 (by intro j h₁ h₂; simp only [hyphenPlaces, List.mem_cons]; simp; omega)
  have hb := hclean 9 4 (by intro j h₁ h₂; simp only [hyphenPlaces, List.mem_cons]; simp; omega)
  have hc := hclean 14 4 (by intro j h₁ h₂; simp only [hyphenPlaces, List.mem_cons]; simp; omega)
  have hd := hclean 19 4 (by intro j h₁ h₂; simp only [hyphenPlaces, List.mem_cons]; simp; omega)
  have he := hclean 24 12 (by intro j h₁ h₂; simp only [hyphenPlaces, List.mem_cons]; simp; omega)
  generalize text[8] = x at hsplit
  generalize text[13] = y at hsplit
  generalize text[18] = z at hsplit
  generalize text[23] = w at hsplit
  have hfour : x = '-' ∧ y = '-' ∧ z = '-' ∧ w = '-' := by
    rw [hsplit] at hcount
    simp only [List.count_append, List.count_cons, ha, hb, hc, hd, he, beq_iff_eq] at hcount
    refine ⟨?_, ?_, ?_, ?_⟩ <;> by_contra hne <;> rw [if_neg hne] at hcount <;>
      (split at hcount <;> split at hcount <;> split at hcount <;> omega)
  obtain ⟨rfl, rfl, rfl, rfl⟩ := hfour
  refine ⟨_, _, _, _, _, ?_, ?_, ?_, ?_, ?_, ?_, hsplit⟩
  · simp [hlength]
  · simp [hlength]
  · simp [hlength]
  · simp [hlength]
  · simp [hlength]
  · intro c hc'
    apply hhex
    rw [List.mem_filter]
    have hne : c ≠ '-' := by
      rintro rfl
      simp only [List.mem_append] at hc'
      rcases hc' with (((h | h) | h) | h) | h
      · exact List.count_eq_zero.mp ha h
      · exact List.count_eq_zero.mp hb h
      · exact List.count_eq_zero.mp hc h
      · exact List.count_eq_zero.mp hd h
      · exact List.count_eq_zero.mp he h
    refine ⟨?_, by simpa using hne⟩
    simp only [List.mem_append] at hc'
    rcases hc' with (((h | h) | h) | h) | h
    all_goals exact List.mem_of_mem_drop (List.mem_of_mem_take h)

/-- What a UUID is to the parser: hexadecimal pairs, and hyphens only where they belong. -/
theorem uuidText_iff {text : List Char} :
    UuidText text ↔ (text.count '-' = 0 ∨ text.count '-' = 4) ∧ (text.filter (· ≠ '-')).length = 32 ∧
      (∀ c ∈ text.filter (· ≠ '-'), IsHex c) ∧ ∀ i, text[i]? = some '-' → i ∈ hyphenPlaces := by
  constructor
  · rintro (⟨hlength, hhex⟩ | hgroups)
    · rw [filter_isHex hhex]
      refine ⟨.inl (count_isHex hhex), hlength, hhex, ?_⟩
      intro i hi
      exact absurd (hhex _ (List.mem_of_getElem? hi)) not_isHex_hyphen
    · obtain ⟨hcount, hchars, hhex, hplaces⟩ := hgroups.compact
      exact ⟨.inr hcount, hchars, hhex, hplaces⟩
  · rintro ⟨hcount, hchars, hhex, hplaces⟩
    have hlength := length_filter_hyphens text
    obtain hcount | hcount := hcount
    · have hfilter : text.filter (· ≠ '-') = text := by
        rw [List.filter_eq_self]
        intro c hc
        have hne : c ≠ '-' := by
          rintro rfl
          exact List.count_eq_zero.mp hcount hc
        simpa using hne
      rw [hfilter] at hchars hhex
      exact .inl ⟨hchars, hhex⟩
    · exact .inr (hyphenated_of_places (by omega) hcount hhex hplaces)

theorem plus_mem_filter {text : List Char} : '+' ∈ text.filter (· ≠ '-') ↔ '+' ∈ text := by
  simp [List.mem_filter]

/-- **GUID text is parsed exactly**, but for the texts that are only nearly UUIDs. -/
theorem parsedExactly_iff (text : List Char) : ParsedExactly text ↔ ¬ Tolerated text := by
  unfold ParsedExactly Tolerated
  simp only [parseGuidBytes, parseText_eq_ok, uuidText_iff]
  constructor
  · rintro ⟨haccepts, hbytes⟩ ⟨hcount, hchars, hpairs, hodd⟩
    obtain ⟨bytes, hreads⟩ := pairs_iff_reads.mp hpairs
    obtain ⟨-, -, hhex, hplaces⟩ := haccepts.mp ⟨bytes, hcount, hchars, hreads⟩
    obtain hplus | ⟨i, hi, hplace⟩ := hodd
    · exact absurd (hhex '+' (plus_mem_filter.mpr hplus)) (by decide)
    · exact hplace (hplaces i hi)
  · intro hexact
    have hread : ∀ bytes, (text.count '-' = 0 ∨ text.count '-' = 4) → (text.filter (· ≠ '-')).length = 32 →
        Reads (text.filter (· ≠ '-')) bytes →
          Denotes (text.filter (· ≠ '-')) bytes ∧ ∀ i, text[i]? = some '-' → i ∈ hyphenPlaces := by
      intro bytes hcount hchars hreads
      have hpairs := pairs_iff_reads.mpr ⟨bytes, hreads⟩
      have hplus : '+' ∉ text := fun hplus => hexact ⟨hcount, hchars, hpairs, .inl hplus⟩
      refine ⟨hreads.denotes fun hmem => hplus (plus_mem_filter.mp hmem), ?_⟩
      intro i hi
      by_contra hplace
      exact hexact ⟨hcount, hchars, hpairs, .inr ⟨i, hi, hplace⟩⟩
    refine ⟨⟨?_, ?_⟩, ?_⟩
    · rintro ⟨bytes, hcount, hchars, hreads⟩
      obtain ⟨hdenotes, hplaces⟩ := hread bytes hcount hchars hreads
      exact ⟨hcount, hchars, hdenotes.isHex, hplaces⟩
    · rintro ⟨hcount, hchars, hhex, -⟩
      have hpairs : (text.filter (· ≠ '-')).length = 2 * 16 := hchars
      obtain ⟨bytes, hreads⟩ := pairs_iff_reads.mp (pairs_of_isHex hhex hpairs)
      exact ⟨bytes, hcount, hchars, hreads⟩
    · rintro bytes ⟨hcount, hchars, hreads⟩
      have hlength := hreads.length
      exact ⟨by omega, (hread bytes hcount hchars hreads).1⟩

/-- 16 pairs of a plus and a digit. -/
theorem plus_accepted : ¬ ParsedExactly (List.replicate 16 ['+', 'a']).flatten := by
  intro h
  have haccepted : parseGuidBytes (.text (List.replicate 16 ['+', 'a']).flatten) =
      .ok (List.replicate 16 10) := by decide +kernel
  have huuid := h.1.mp ⟨_, haccepted⟩
  obtain ⟨-, -, hhex, -⟩ := uuidText_iff.mp huuid
  exact absurd (hhex '+' (by decide)) (by decide)

end Xqdb.Python
