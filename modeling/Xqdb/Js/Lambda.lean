import Mathlib.Data.List.TakeWhile
import Xqdb.Lib.Unicode
import Xqdb.Types

/-! The two validators of q lambdas: `validateQLambdaParts` of `js-xqdb/src/types.ts`, on UTF-16
units, and `QLambda::with_context`, on UTF-8. They trim with the white space of their languages,
which differ in two characters: U+0085 is white space only in Rust, U+FEFF only in JavaScript. -/

namespace Xqdb

/-- A text as Rust holds it. -/
def Str.ofText (text : List Char) : Str := ⟨Unicode.utf8 text, Unicode.valid_utf8 text⟩

namespace Js

/-- A JavaScript string: its code units. -/
abbrev JsString := List UInt16

/-- `WhiteSpace` and `LineTerminator` of ECMAScript: tab, VT, FF, U+FEFF and the space
separators, then LF, CR, LS and PS. -/
def whiteSpace : List UInt16 :=
  [0x09, 0x0B, 0x0C, 0xFEFF, 0x20, 0xA0, 0x1680, 0x2000, 0x2001, 0x2002, 0x2003, 0x2004, 0x2005, 0x2006,
   0x2007, 0x2008, 0x2009, 0x200A, 0x202F, 0x205F, 0x3000, 0x0A, 0x0D, 0x2028, 0x2029]

namespace JsString

def trimStart (text : JsString) : JsString := text.dropWhile (· ∈ whiteSpace)

def trimEnd (text : JsString) : JsString := (text.reverse.dropWhile (· ∈ whiteSpace)).reverse

/-- `String.prototype.trim`. -/
def trim (text : JsString) : JsString := trimEnd (trimStart text)

def startsWith (text word : JsString) : Bool := word.isPrefixOf text

def endsWith (text word : JsString) : Bool := word.isSuffixOf text

/-- `text.includes("\0")`. -/
def includesNul (text : JsString) : Bool := text.contains 0

end JsString

/-- `k)`. -/
def kLanguage : JsString := [0x6B, 0x29]

/-- The checks of the `XqdbQLambda` constructor on two strings, in their order. The error is the
message of the conversion error. -/
def validateQLambdaParts (source context : JsString) : Except String (JsString × JsString) :=
  if source.includesNul then .error "XqdbQLambda.source cannot contain NUL bytes"
  else if context.includesNul then .error "XqdbQLambda.context cannot contain NUL bytes"
  else if context ≠ [] ∧ context.startsWith [0x2E] then .error "q lambda context omits the leading dot"
  else
    let trimmed := source.trim
    let lambdaSource : JsString := if trimmed.startsWith kLanguage then trimmed.drop 2 else trimmed
    if ¬ lambdaSource.startsWith [0x7B] ∨ ¬ lambdaSource.endsWith [0x7D] then
      .error "XqdbQLambda.source must be brace-delimited"
    else .ok (source, context)

end Js

/-! ## Trimming characters -/

/-- Drops the characters of `space` at both ends. -/
def trimText (space text : List Char) : List Char :=
  ((text.dropWhile (· ∈ space)).reverse.dropWhile (· ∈ space)).reverse

/-- The white space of Rust, in the order of `whitespace`. -/
def rustSpace : List Char :=
  ['\x09', '\x0A', '\x0B', '\x0C', '\x0D', '\x20', '\u0085', '\u00A0', '\u1680', '\u2000', '\u2001', '\u2002',
   '\u2003', '\u2004', '\u2005', '\u2006', '\u2007', '\u2008', '\u2009', '\u200A', '\u2028', '\u2029', '\u202F',
   '\u205F', '\u3000']

/-- The white space of JavaScript, in the order of `Js.whiteSpace`. -/
def jsSpace : List Char :=
  ['\x09', '\x0B', '\x0C', '\uFEFF', '\x20', '\u00A0', '\u1680', '\u2000', '\u2001', '\u2002', '\u2003', '\u2004',
   '\u2005', '\u2006', '\u2007', '\u2008', '\u2009', '\u200A', '\u202F', '\u205F', '\u3000', '\x0A', '\x0D', '\u2028',
   '\u2029']

theorem whitespace_eq : whitespace = rustSpace.map String.utf8EncodeChar := by decide

theorem whiteSpace_eq : Js.whiteSpace = jsSpace.map fun c => UInt16.ofNat c.toNat := by decide

section Words

variable {α : Type} {encode : α → List UInt8} (hfree : Unicode.PrefixFree encode)

include hfree in
/-- One character of a text is dropped if it is in the set. -/
theorem dropChar_flatMap [DecidableEq α] {set : List α} {c : α} {text : List α} :
    dropChar (set.map encode) ((c :: text).flatMap encode) =
      if c ∈ set then some (text.flatMap encode) else none := by
  rw [dropChar, List.flatMap_cons]
  by_cases hc : c ∈ set
  · rw [if_pos hc]
    have hsome : ((set.map encode).find? fun word => word.isPrefixOf (encode c ++ text.flatMap encode)).isSome := by
      rw [List.find?_isSome]
      exact ⟨encode c, List.mem_map_of_mem hc, List.isPrefixOf_iff_prefix.mpr (List.prefix_append _ _)⟩
    obtain ⟨word, hword⟩ := Option.isSome_iff_exists.mp hsome
    obtain ⟨d, -, rfl⟩ := List.mem_map.mp (List.mem_of_find?_eq_some hword)
    have hfront : (encode d).isPrefixOf (encode c ++ text.flatMap encode) = true :=
      List.find?_some (p := fun word : Bytes => word.isPrefixOf (encode c ++ text.flatMap encode)) hword
    obtain rfl : d = c := hfree d c _ (List.isPrefixOf_iff_prefix.mp hfront)
    rw [hword, Option.map_some, List.drop_left]
  · rw [if_neg hc, Option.map_eq_none_iff, List.find?_eq_none]
    intro word hword hfront
    obtain ⟨d, hd, rfl⟩ := List.mem_map.mp hword
    obtain rfl : d = c := hfree d c _ (List.isPrefixOf_iff_prefix.mp hfront)
    exact hc hd

include hfree in
theorem trimChars_flatMap [DecidableEq α] (hne : ∀ a, encode a ≠ []) (set : List α) {text : List α} {fuel : Nat} (hfuel : text.length ≤ fuel) :
    trimChars (set.map encode) fuel (text.flatMap encode) = (text.dropWhile (· ∈ set)).flatMap encode := by
  induction text generalizing fuel with
  | nil =>
    cases fuel with
    | zero => rfl
    | succ fuel =>
      have hnone : dropChar (set.map encode) [] = none := by
        rw [dropChar, Option.map_eq_none_iff, List.find?_eq_none]
        intro word hword hfront
        obtain ⟨d, -, rfl⟩ := List.mem_map.mp hword
        exact hne d (List.prefix_nil.mp (List.isPrefixOf_iff_prefix.mp hfront))
      simp only [List.flatMap_nil, trimChars, hnone, List.dropWhile_nil]
  | cons c text ih =>
    rw [List.length_cons] at hfuel
    cases fuel with
    | zero => omega
    | succ fuel =>
      rw [trimChars, dropChar_flatMap hfree]
      by_cases hc : c ∈ set
      · rw [if_pos hc, List.dropWhile_cons_of_pos (by simpa using hc)]
        exact ih (by omega)
      · rw [if_neg hc, List.dropWhile_cons_of_neg (by simpa using hc)]

end Words

theorem length_le_flatMap {α β : Type} {encode : α → List β} (hne : ∀ a, encode a ≠ []) (text : List α) :
    text.length ≤ (text.flatMap encode).length := by
  induction text with
  | nil => simp
  | cons c text ih =>
    have := List.length_pos_of_ne_nil (hne c)
    rw [List.flatMap_cons, List.length_append, List.length_cons]
    omega

theorem trim_utf8 (text : List Char) : trim (Unicode.utf8 text) = Unicode.utf8 (trimText rustSpace text) := by
  have hne : ∀ c, String.utf8EncodeChar c ≠ [] := fun c => String.utf8EncodeChar_ne_nil
  have hstart : trimStart (Unicode.utf8 text) = Unicode.utf8 (text.dropWhile (· ∈ rustSpace)) := by
    rw [trimStart, whitespace_eq]
    exact trimChars_flatMap Unicode.utf8_prefixFree hne rustSpace (length_le_flatMap hne text)
  have hrne : ∀ c, (String.utf8EncodeChar c).reverse ≠ [] := fun c => by simp [hne c]
  rw [trim, hstart, trimEnd, trimText, whitespace_eq, List.map_map]
  generalize text.dropWhile (· ∈ rustSpace) = front
  have hreverse : (Unicode.utf8 front).reverse =
      front.reverse.flatMap fun c => (String.utf8EncodeChar c).reverse := List.reverse_flatMap
  have hlength : front.reverse.length ≤ (Unicode.utf8 front).length := by
    rw [List.length_reverse]
    exact length_le_flatMap hne front
  have hend := trimChars_flatMap Unicode.utf8_suffixFree.reverse hrne rustSpace hlength
  rw [hreverse]
  refine (congrArg List.reverse hend).trans ?_
  rw [List.reverse_flatMap]
  simp [Unicode.utf8, Function.comp_def]

/-! ## Trimming units -/

/-- Units are dropped as the characters are whose words they are. -/
theorem dropWhile_flatMap {α β : Type} {encode : α → List β} {p : β → Bool} {q : α → Bool}
    (hyes : ∀ a, q a = true → ∀ unit ∈ encode a, p unit = true)
    (hno : ∀ a, q a = false → ∃ unit rest, encode a = unit :: rest ∧ p unit = false) (text : List α) :
    (text.flatMap encode).dropWhile p = (text.dropWhile q).flatMap encode := by
  induction text with
  | nil => rfl
  | cons c text ih =>
    cases hc : q c with
    | true =>
      rw [List.flatMap_cons, List.dropWhile_cons_of_pos hc, List.dropWhile_append_of_pos (hyes c hc), ih]
    | false =>
      obtain ⟨unit, rest, hunit, hp⟩ := hno c hc
      rw [List.dropWhile_cons_of_neg (by simp [hc]), List.flatMap_cons, hunit, List.cons_append,
        List.dropWhile_cons_of_neg (by simp [hp])]

theorem whiteSpace_noSurrogate : ∀ unit ∈ Js.whiteSpace, unit.toNat < 0xD800 ∨ 0xDFFF < unit.toNat := by
  have hall : Js.whiteSpace.all (fun unit => unit.toNat < 0xD800 ∨ 0xDFFF < unit.toNat) = true := by decide
  intro unit hunit
  exact of_decide_eq_true (List.all_eq_true.mp hall unit hunit)

theorem jsSpace_lt : ∀ c ∈ jsSpace, c.toNat < 0x10000 := by
  have hall : jsSpace.all (fun c => c.toNat < 0x10000) = true := by decide
  intro c hc
  exact of_decide_eq_true (List.all_eq_true.mp hall c hc)

/-- The words of the white space are its units, and no other word has one of them. -/
theorem mem_whiteSpace {c : Char} {unit : UInt16} (hunit : unit ∈ Unicode.utf16Char c) :
    unit ∈ Js.whiteSpace ↔ c ∈ jsSpace := by
  obtain ⟨n, hn, hrange, hlt, hword⟩ | ⟨high, low, hn, hhigh, hlow, hword⟩ := Unicode.utf16Char_cases c
  · rw [hword, List.mem_singleton] at hunit
    subst hunit
    rw [whiteSpace_eq, List.mem_map]
    constructor
    · rintro ⟨d, hd, hsame⟩
      have hnat := Unicode.ofNat_inj (jsSpace_lt d hd) hlt hsame
      obtain rfl : d = c := Char.toNat_inj.mp (by omega)
      exact hd
    · intro hc
      exact ⟨c, hc, by rw [hn]⟩
  · rw [hword] at hunit
    constructor
    · intro hmem
      have hrange := whiteSpace_noSurrogate unit hmem
      simp only [List.mem_cons, List.not_mem_nil, or_false] at hunit
      obtain rfl | rfl := hunit
      · rw [UInt16.toNat_ofNat'] at hrange
        omega
      · rw [UInt16.toNat_ofNat'] at hrange
        omega
    · intro hc
      have := jsSpace_lt c hc
      omega

theorem trim_utf16 (text : List Char) :
    Js.JsString.trim (Unicode.utf16 text) = Unicode.utf16 (trimText jsSpace text) := by
  have hstart : ∀ text : List Char, (Unicode.utf16 text).dropWhile (· ∈ Js.whiteSpace) =
      Unicode.utf16 (text.dropWhile (· ∈ jsSpace)) := by
    refine dropWhile_flatMap ?_ ?_
    · intro c hc unit hunit
      simpa [mem_whiteSpace hunit] using hc
    · intro c hc
      obtain ⟨unit, rest, hword⟩ := List.exists_cons_of_ne_nil (Unicode.utf16Char_ne_nil c)
      refine ⟨unit, rest, hword, ?_⟩
      have hunit : unit ∈ Unicode.utf16Char c := by simp [hword]
      simpa [mem_whiteSpace hunit] using hc
  have hend : ∀ text : List Char, (text.flatMap fun c => (Unicode.utf16Char c).reverse).dropWhile
      (· ∈ Js.whiteSpace) = (text.dropWhile (· ∈ jsSpace)).flatMap fun c => (Unicode.utf16Char c).reverse := by
    refine dropWhile_flatMap ?_ ?_
    · intro c hc unit hunit
      rw [List.mem_reverse] at hunit
      simpa [mem_whiteSpace hunit] using hc
    · intro c hc
      obtain ⟨unit, rest, hword⟩ : ∃ unit rest, (Unicode.utf16Char c).reverse = unit :: rest :=
        List.exists_cons_of_ne_nil (by simpa using Unicode.utf16Char_ne_nil c)
      refine ⟨unit, rest, hword, ?_⟩
      have hunit : unit ∈ Unicode.utf16Char c := List.mem_reverse.mp (by simp [hword])
      simpa [mem_whiteSpace hunit] using hc
  rw [Js.JsString.trim, Js.JsString.trimStart, hstart, Js.JsString.trimEnd, trimText]
  generalize text.dropWhile (· ∈ jsSpace) = front
  rw [Unicode.utf16, List.reverse_flatMap, Function.comp_def, hend, List.reverse_flatMap]
  simp [Unicode.utf16, Function.comp_def]

/-! ## The checks on characters -/

/-- `text.strip_prefix("k)").unwrap_or(text)`, on characters. -/
def stripKText (text : List Char) : List Char := if ['k', ')'] <+: text then text.drop 2 else text

/-- A brace-delimited text. -/
def Braced (text : List Char) : Prop := ['{'] <+: stripKText text ∧ ['}'] <:+ stripKText text

/-- What both validators check beside the source's shape. -/
def Clean (source context : List Char) : Prop :=
  Char.ofNat 0 ∉ source ∧ Char.ofNat 0 ∉ context ∧ ¬ ['.'] <+: context

theorem head?_eq_some_iff_leads {α : Type} {a : α} {list : List α} : list.head? = some a ↔ [a] <+: list := by
  cases list with
  | nil => simp
  | cons b list => simp [List.cons_prefix_cons, eq_comm]

theorem getLast?_eq_some_iff_ends {α : Type} {a : α} {list : List α} :
    list.getLast? = some a ↔ [a] <:+ list := by
  rw [← List.head?_reverse, head?_eq_some_iff_leads, ← List.reverse_prefix, List.reverse_singleton]

theorem stripK_utf8 (text : List Char) : stripK (Unicode.utf8 text) = Unicode.utf8 (stripKText text) := by
  have hword : ([0x6B, 0x29] : Bytes) = Unicode.utf8 ['k', ')'] := by decide
  have hfront : ([0x6B, 0x29] : Bytes).isPrefixOf (Unicode.utf8 text) = true ↔ ['k', ')'] <+: text := by
    rw [List.isPrefixOf_iff_prefix, hword, Unicode.prefix_utf8]
  unfold stripK stripKText
  by_cases h : ['k', ')'] <+: text
  · rw [if_pos (hfront.mpr h), if_pos h]
    obtain ⟨rest, rfl⟩ := h
    rw [Unicode.utf8_append, ← hword]
    rfl
  · rw [if_neg (fun hc => h (hfront.mp hc)), if_neg h]

theorem stripK_utf16 (text : List Char) :
    (if Js.JsString.startsWith (Unicode.utf16 text) Js.kLanguage then (Unicode.utf16 text).drop 2
      else Unicode.utf16 text) = Unicode.utf16 (stripKText text) := by
  have hword : Js.kLanguage = Unicode.utf16 ['k', ')'] := by decide
  have hfront : Js.JsString.startsWith (Unicode.utf16 text) Js.kLanguage = true ↔ ['k', ')'] <+: text := by
    rw [Js.JsString.startsWith, List.isPrefixOf_iff_prefix, hword, Unicode.prefix_utf16]
  unfold stripKText
  by_cases h : ['k', ')'] <+: text
  · rw [if_pos (hfront.mpr h), if_pos h]
    obtain ⟨rest, rfl⟩ := h
    rw [Unicode.utf16, List.flatMap_append]
    rfl
  · rw [if_neg (fun hc => h (hfront.mp hc)), if_neg h]

theorem mem_utf16_nul {text : List Char} : (0 : UInt16) ∈ Unicode.utf16 text ↔ Char.ofNat 0 ∈ text := by
  rw [Unicode.utf16, List.mem_flatMap]
  constructor
  · rintro ⟨c, hc, hmem⟩
    obtain ⟨n, hn, -, hlt, hword⟩ | ⟨high, low, hn, hhigh, hlow, hword⟩ := Unicode.utf16Char_cases c
    · rw [hword, List.mem_singleton] at hmem
      have hzero : 0 = n := Unicode.ofNat_inj (by omega) hlt hmem
      have hnul : c = Char.ofNat 0 := Char.toNat_inj.mp (by rw [hn, ← hzero]; rfl)
      exact hnul ▸ hc
    · rw [hword] at hmem
      simp only [List.mem_cons, List.not_mem_nil, or_false] at hmem
      obtain hmem | hmem := hmem
      · have := Unicode.ofNat_inj (m := 0) (by omega) (by omega) hmem
        omega
      · have := Unicode.ofNat_inj (m := 0) (by omega) (by omega) hmem
        omega
  · intro hmem
    exact ⟨Char.ofNat 0, hmem, by decide⟩

theorem mem_utf8_nul {text : List Char} : (0 : UInt8) ∈ Unicode.utf8 text ↔ Char.ofNat 0 ∈ text :=
  Unicode.mem_utf8 (a := Char.ofNat 0) (show (Char.ofNat 0).toNat < 128 by decide)

/-- The Rust validator, on characters. -/
theorem withContext_iff {source context : List Char} :
    (∃ lambda, QLambda.withContext (Str.ofText source) (Str.ofText context) = .ok lambda) ↔
      Clean source context ∧ Braced (trimText rustSpace source) := by
  have hcheck : (∃ lambda, QLambda.withContext (Str.ofText source) (Str.ofText context) = .ok lambda) ↔
      QLambda.check (Unicode.utf8 source) (Unicode.utf8 context) = .ok () := by
    unfold QLambda.withContext
    split
    · next h => exact ⟨fun _ => h, fun _ => ⟨_, rfl⟩⟩
    · next e h =>
      constructor
      · rintro ⟨lambda, hok⟩
        cases hok
      · intro hok
        cases h.symm.trans hok
  have hdot : (Unicode.utf8 context).head? = some 0x2E ↔ ['.'] <+: context := by
    rw [head?_eq_some_iff_leads, ← Unicode.prefix_utf8]
    rfl
  have hopen : (Unicode.utf8 (stripKText (trimText rustSpace source))).head? = some 0x7B ↔
      ['{'] <+: stripKText (trimText rustSpace source) := by
    rw [head?_eq_some_iff_leads, ← Unicode.prefix_utf8]
    rfl
  have hclose : (Unicode.utf8 (stripKText (trimText rustSpace source))).getLast? = some 0x7D ↔
      ['}'] <:+ stripKText (trimText rustSpace source) := by
    rw [getLast?_eq_some_iff_ends, ← Unicode.suffix_utf8]
    rfl
  rw [hcheck, QLambda.check, trim_utf8, stripK_utf8]
  simp only [mem_utf8_nul, hdot, hopen, hclose, Clean, Braced]
  by_cases h₁ : Char.ofNat 0 ∈ source
  · simp [h₁]
  by_cases h₂ : Char.ofNat 0 ∈ context
  · simp [h₁, h₂]
  by_cases h₃ : ['.'] <+: context
  · simp [h₁, h₂, h₃]
  simp only [h₁, h₂, h₃, if_false, not_false_eq_true, true_and]
  split <;> simp_all

/-- The TypeScript validator, on characters. -/
theorem validateQLambdaParts_iff {source context : List Char} :
    (∃ parts, Js.validateQLambdaParts (Unicode.utf16 source) (Unicode.utf16 context) = .ok parts) ↔
      Clean source context ∧ Braced (trimText jsSpace source) := by
  have hnul : ∀ text : List Char, Js.JsString.includesNul (Unicode.utf16 text) = true ↔ Char.ofNat 0 ∈ text := by
    intro text
    rw [Js.JsString.includesNul, List.contains_iff_mem, mem_utf16_nul]
  have hdot : Unicode.utf16 context ≠ [] ∧ Js.JsString.startsWith (Unicode.utf16 context) [0x2E] = true ↔
      ['.'] <+: context := by
    rw [Js.JsString.startsWith, List.isPrefixOf_iff_prefix]
    have hfront : ([0x2E] : Js.JsString) <+: Unicode.utf16 context ↔ ['.'] <+: context := by
      rw [← Unicode.prefix_utf16]
      rfl
    rw [hfront]
    constructor
    · exact And.right
    · intro h
      refine ⟨?_, h⟩
      intro hnil
      rw [hnil] at hfront
      exact absurd (hfront.mpr h) (by simp)
  have hopen : Js.JsString.startsWith (Unicode.utf16 (stripKText (trimText jsSpace source))) [0x7B] = true ↔
      ['{'] <+: stripKText (trimText jsSpace source) := by
    rw [Js.JsString.startsWith, List.isPrefixOf_iff_prefix, ← Unicode.prefix_utf16]
    rfl
  have hclose : Js.JsString.endsWith (Unicode.utf16 (stripKText (trimText jsSpace source))) [0x7D] = true ↔
      ['}'] <:+ stripKText (trimText jsSpace source) := by
    rw [Js.JsString.endsWith, List.isSuffixOf_iff_suffix, ← Unicode.suffix_utf16]
    rfl
  simp only [Js.validateQLambdaParts, trim_utf16, stripK_utf16]
  simp only [hnul, hdot, hopen, hclose, Clean, Braced]
  by_cases h₁ : Char.ofNat 0 ∈ source
  · simp [h₁]
  by_cases h₂ : Char.ofNat 0 ∈ context
  · simp [h₁, h₂]
  by_cases h₃ : ['.'] <+: context
  · simp [h₁, h₂, h₃]
  simp only [h₁, h₂, h₃, if_false, not_false_eq_true, true_and]
  split
  · next hbad =>
    simp only [reduceCtorEq, exists_false, false_iff, not_and_or]
    exact hbad
  · next hgood =>
    rw [not_or, not_not, not_not] at hgood
    simp [hgood]

/-! ## Where they differ -/

/-- White space of either language. -/
def anySpace : List Char := '\uFEFF' :: rustSpace

theorem mem_jsSpace {c : Char} : c ∈ jsSpace ↔ c ∈ anySpace ∧ c ≠ '\u0085' := by
  have hjs : jsSpace.all (fun c => c ∈ anySpace ∧ c ≠ '\u0085') = true := by decide
  have hany : anySpace.all (fun c => c ∈ jsSpace ∨ c = '\u0085') = true := by decide
  constructor
  · intro hc
    exact of_decide_eq_true (List.all_eq_true.mp hjs c hc)
  · rintro ⟨hc, hne⟩
    exact (of_decide_eq_true (List.all_eq_true.mp hany c hc)).resolve_right hne

theorem mem_rustSpace {c : Char} : c ∈ rustSpace ↔ c ∈ anySpace ∧ c ≠ '\uFEFF' := by
  have hrust : rustSpace.all (fun c => c ∈ anySpace ∧ c ≠ '\uFEFF') = true := by decide
  constructor
  · intro hc
    exact of_decide_eq_true (List.all_eq_true.mp hrust c hc)
  · rintro ⟨hc, hne⟩
    exact (List.mem_cons.mp hc).resolve_left hne

/-- A text that starts and ends with something else than white space. -/
def Solid (text : List Char) : Prop :=
  ∃ first last, [first] <+: text ∧ [last] <:+ text ∧ first ∉ anySpace ∧ last ∉ anySpace

theorem Braced.solid {text : List Char} (h : Braced text) : Solid text := by
  obtain ⟨hopen, hclose⟩ := h
  unfold stripKText at hopen hclose
  split at hopen
  · next hk =>
    rw [if_pos hk] at hclose
    refine ⟨'k', '}', (show ['k'] <+: ['k', ')'] by decide).trans hk, hclose.trans (List.drop_suffix 2 text), by decide, by decide⟩
  · next hk =>
    rw [if_neg hk] at hclose
    exact ⟨'{', '}', hopen, hclose, by decide, by decide⟩

/-- White space around a solid text is what is trimmed. -/
theorem trimText_padded {space left core right : List Char} (hspace : ∀ c ∈ space, c ∈ anySpace)
    (hleft : ∀ c ∈ left, c ∈ space) (hright : ∀ c ∈ right, c ∈ space) (hcore : Solid core) :
    trimText space (left ++ core ++ right) = core := by
  obtain ⟨first, last, hfirst, hlast, hnone, hnone'⟩ := hcore
  obtain ⟨tail, rfl⟩ := hfirst
  have hstart : (left ++ ([first] ++ tail) ++ right).dropWhile (· ∈ space) = [first] ++ tail ++ right := by
    rw [List.append_assoc, List.dropWhile_append_of_pos (by simpa using hleft), List.append_assoc,
      List.singleton_append, List.dropWhile_cons_of_neg (by simpa using fun hc => hnone (hspace _ hc))]
  rw [trimText, hstart]
  obtain ⟨front, hfront⟩ := hlast
  rw [← hfront, List.reverse_append, List.dropWhile_append_of_pos (by simpa using hright), List.reverse_append,
    List.reverse_singleton, List.singleton_append,
    List.dropWhile_cons_of_neg (by simpa using fun hc => hnone' (hspace _ hc))]
  simp

/-- A source is trimmed to a brace-delimited text exactly if it is one in white space. -/
theorem braced_trimText {space source : List Char} (hspace : ∀ c ∈ space, c ∈ anySpace) :
    Braced (trimText space source) ↔
      ∃ left core right, source = left ++ core ++ right ∧ (∀ c ∈ left ++ right, c ∈ space) ∧ Braced core := by
  constructor
  · intro hbraced
    refine ⟨source.takeWhile (· ∈ space), trimText space source,
      ((source.dropWhile (· ∈ space)).reverse.takeWhile (· ∈ space)).reverse, ?_, ?_, hbraced⟩
    · have hend : trimText space source ++
          ((source.dropWhile (· ∈ space)).reverse.takeWhile (· ∈ space)).reverse =
            source.dropWhile (· ∈ space) := by
        rw [trimText, ← List.reverse_append, List.takeWhile_append_dropWhile, List.reverse_reverse]
      rw [List.append_assoc, hend, List.takeWhile_append_dropWhile]
    · intro c hc
      rw [List.mem_append, List.mem_reverse] at hc
      obtain hc | hc := hc
      · simpa using List.mem_takeWhile_imp hc
      · simpa using List.mem_takeWhile_imp hc
  · rintro ⟨left, core, right, rfl, hpad, hbraced⟩
    rw [trimText_padded hspace (fun c hc => hpad c (by simp [hc])) (fun c hc => hpad c (by simp [hc])) hbraced.solid]
    exact hbraced

/-- There is one way to see a source as a solid text in white space. -/
theorem padding_unique {left core right left' core' right' : List Char}
    (h : left ++ core ++ right = left' ++ core' ++ right') (hpad : ∀ c ∈ left ++ right, c ∈ anySpace)
    (hpad' : ∀ c ∈ left' ++ right', c ∈ anySpace) (hcore : Solid core) (hcore' : Solid core') :
    left = left' ∧ right = right' := by
  have htake : ∀ {left core right : List Char}, (∀ c ∈ left, c ∈ anySpace) → Solid core →
      (left ++ core ++ right).takeWhile (· ∈ anySpace) = left := by
    rintro left _ right hleft ⟨first, last, ⟨tail, rfl⟩, -, hnone, -⟩
    rw [List.append_assoc, List.takeWhile_append_of_pos (by simpa using hleft), List.append_assoc,
      List.singleton_append, List.takeWhile_cons_of_neg (by simpa using hnone), List.append_nil]
  have hl : ∀ c ∈ left, c ∈ anySpace := fun c hc => hpad c (List.mem_append_left _ hc)
  have hl' : ∀ c ∈ left', c ∈ anySpace := fun c hc => hpad' c (List.mem_append_left _ hc)
  have hr : ∀ c ∈ right, c ∈ anySpace := fun c hc => hpad c (List.mem_append_right _ hc)
  have hr' : ∀ c ∈ right', c ∈ anySpace := fun c hc => hpad' c (List.mem_append_right _ hc)
  have hleft : left = left' := by
    calc left = (left ++ core ++ right).takeWhile (· ∈ anySpace) := (htake hl hcore).symm
      _ = (left' ++ core' ++ right').takeWhile (· ∈ anySpace) := by rw [h]
      _ = left' := htake hl' hcore'
  have hsame : core = core' := by
    calc core = trimText anySpace (left ++ core ++ right) := (trimText_padded (fun _ hc => hc) hl hr hcore).symm
      _ = trimText anySpace (left' ++ core' ++ right') := by rw [h]
      _ = core' := trimText_padded (fun _ hc => hc) hl' hr' hcore'
  subst hleft hsame
  exact ⟨rfl, List.append_cancel_left h⟩

/-- A lambda in white space that has U+0085 or U+FEFF in it, but not both. -/
def OddlyPadded (source context : List Char) : Prop :=
  Clean source context ∧ ∃ left core right, source = left ++ core ++ right ∧
    (∀ c ∈ left ++ right, c ∈ anySpace) ∧ Braced core ∧
    ¬ ('\u0085' ∈ left ++ right ↔ '\uFEFF' ∈ left ++ right)

/-- **The two validators agree** but on a lambda whose white space only one language trims. -/
theorem lambda_validators_agree_iff (source context : List Char) :
    ((∃ parts, Js.validateQLambdaParts (Unicode.utf16 source) (Unicode.utf16 context) = .ok parts) ↔
      ∃ lambda, QLambda.withContext (Str.ofText source) (Str.ofText context) = .ok lambda) ↔
      ¬ OddlyPadded source context := by
  have hjs : ∀ c ∈ jsSpace, c ∈ anySpace := fun c hc => (mem_jsSpace.mp hc).1
  have hrust : ∀ c ∈ rustSpace, c ∈ anySpace := fun c hc => (mem_rustSpace.mp hc).1
  rw [validateQLambdaParts_iff, withContext_iff, braced_trimText hjs, braced_trimText hrust]
  constructor
  · rintro hagree ⟨hclean, left, core, right, rfl, hpad, hbraced, hodd⟩
    rw [not_iff] at hodd
    by_cases hbom : '\uFEFF' ∈ left ++ right
    · -- trimmed by JavaScript, but not by Rust
      have hnel : '\u0085' ∉ left ++ right := hodd.mpr hbom
      have hpadJs : ∀ c ∈ left ++ right, c ∈ jsSpace := fun c hc =>
        mem_jsSpace.mpr ⟨hpad c hc, fun heq => hnel (heq ▸ hc)⟩
      obtain ⟨-, left', core', right', heq, hpad', hbraced'⟩ :=
        hagree.mp ⟨hclean, left, core, right, rfl, hpadJs, hbraced⟩
      obtain ⟨rfl, rfl⟩ := padding_unique heq hpad (fun c hc => hrust c (hpad' c hc)) hbraced.solid hbraced'.solid
      exact (mem_rustSpace.mp (hpad' _ hbom)).2 rfl
    · have hnel : '\u0085' ∈ left ++ right := not_not.mp fun h => hbom (hodd.mp h)
      have hpadRust : ∀ c ∈ left ++ right, c ∈ rustSpace := fun c hc =>
        mem_rustSpace.mpr ⟨hpad c hc, fun heq => hbom (heq ▸ hc)⟩
      obtain ⟨-, left', core', right', heq, hpad', hbraced'⟩ :=
        hagree.mpr ⟨hclean, left, core, right, rfl, hpadRust, hbraced⟩
      obtain ⟨rfl, rfl⟩ := padding_unique heq hpad (fun c hc => hjs c (hpad' c hc)) hbraced.solid hbraced'.solid
      exact (mem_jsSpace.mp (hpad' _ hnel)).2 rfl
  · intro heven
    constructor
    · rintro ⟨hclean, left, core, right, rfl, hpad, hbraced⟩
      have hnel : '\u0085' ∉ left ++ right := fun h => (mem_jsSpace.mp (hpad _ h)).2 rfl
      have hbom : '\uFEFF' ∉ left ++ right := by
        intro hbom
        exact heven ⟨hclean, left, core, right, rfl, fun c hc => hjs c (hpad c hc), hbraced,
          fun hboth => hnel (hboth.mpr hbom)⟩
      refine ⟨hclean, left, core, right, rfl, fun c hc => ?_, hbraced⟩
      exact mem_rustSpace.mpr ⟨hjs c (hpad c hc), fun heq => hbom (heq ▸ hc)⟩
    · rintro ⟨hclean, left, core, right, rfl, hpad, hbraced⟩
      have hbom : '\uFEFF' ∉ left ++ right := fun h => (mem_rustSpace.mp (hpad _ h)).2 rfl
      have hnel : '\u0085' ∉ left ++ right := by
        intro hnel
        exact heven ⟨hclean, left, core, right, rfl, fun c hc => hrust c (hpad c hc), hbraced,
          fun hboth => hbom (hboth.mp hnel)⟩
      refine ⟨hclean, left, core, right, rfl, fun c hc => ?_, hbraced⟩
      exact mem_jsSpace.mpr ⟨hrust c (hpad c hc), fun heq => hnel (heq ▸ hc)⟩

/-- A next-line character before a lambda: Rust takes it, JavaScript does not. -/
theorem lambda_validators_differ :
    ¬ ((∃ parts, Js.validateQLambdaParts (Unicode.utf16 ['\u0085', '{', '}']) (Unicode.utf16 []) = .ok parts) ↔
      ∃ lambda, QLambda.withContext (Str.ofText ['\u0085', '{', '}']) (Str.ofText []) = .ok lambda) := by
  have hjs : Js.validateQLambdaParts (Unicode.utf16 ['\u0085', '{', '}']) (Unicode.utf16 []) =
      .error "XqdbQLambda.source must be brace-delimited" := by decide
  have hrust : QLambda.check (Unicode.utf8 ['\u0085', '{', '}']) (Unicode.utf8 []) = .ok () := by decide
  intro hagree
  have hlambda := QLambda.withContext_parts
    ⟨Str.ofText ['\u0085', '{', '}'], Str.ofText [], hrust⟩
  obtain ⟨parts, hok⟩ := hagree.mpr ⟨_, hlambda⟩
  cases hjs.symm.trans hok

end Xqdb
