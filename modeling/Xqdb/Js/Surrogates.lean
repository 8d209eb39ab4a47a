import Mathlib.Data.List.Forall2
import Xqdb.Js.Facade
import Xqdb.Lib.Transcode

/-! Strings with lone surrogates in them. Crossing into Rust replaces these units and no others, and
none of the facade's checks looks at them: what it accepts stays accepted, and a key that is an
array index stays one. -/

namespace Xqdb
namespace Js

open Unicode (Kept kept_scrub scrub isSurrogate isSurrogate_iff replacementUnit)

/-! ## Units that are looked at -/

/-- A unit that is neither a surrogate nor stands for one. -/
def Plain (unit : UInt16) : Prop := isSurrogate unit = false ∧ unit ≠ replacementUnit

instance (unit : UInt16) : Decidable (Plain unit) := inferInstanceAs (Decidable (_ ∧ _))

theorem Plain.kept_iff {unit a b : UInt16} (hplain : Plain unit) (h : Kept a b) : a = unit ↔ b = unit := by
  obtain rfl | ⟨hsurrogate, rfl⟩ := h
  · exact Iff.rfl
  · constructor
    · rintro rfl
      rw [hplain.1] at hsurrogate
      cases hsurrogate
    · intro heq
      exact absurd heq.symm hplain.2

theorem plain_of_all {units : List UInt16} (h : units.all (fun unit => decide (Plain unit)) = true) :
    ∀ unit ∈ units, Plain unit := fun unit hmem => of_decide_eq_true (List.all_eq_true.mp h unit hmem)

theorem plain_whiteSpace : ∀ unit ∈ whiteSpace, Plain unit := plain_of_all (by decide)

theorem mem_whiteSpace_kept {a b : UInt16} (h : Kept a b) : a ∈ whiteSpace ↔ b ∈ whiteSpace := by
  constructor
  · intro hmem
    rwa [← (plain_whiteSpace a hmem).kept_iff h |>.mp rfl] at hmem
  · intro hmem
    rwa [← (plain_whiteSpace b hmem).kept_iff h |>.mpr rfl] at hmem

section

variable {text text' : JsString}

theorem includesNul_kept (h : List.Forall₂ Kept text text') : text'.includesNul = text.includesNul := by
  have hnul : Plain 0 := by decide
  unfold JsString.includesNul
  induction h with
  | nil => rfl
  | @cons a b _ _ hab _ ih =>
    rw [List.contains_cons, List.contains_cons, ih]
    congr 1
    rw [Bool.eq_iff_iff, beq_iff_eq, beq_iff_eq, eq_comm, eq_comm (a := 0), hnul.kept_iff hab]

theorem dropWhile_kept {p : UInt16 → Bool} (hp : ∀ {a b}, Kept a b → p a = p b) (h : List.Forall₂ Kept text text') :
    List.Forall₂ Kept (text.dropWhile p) (text'.dropWhile p) := by
  induction h with
  | nil => exact .nil
  | @cons a b _ _ hab hrest ih =>
    rw [List.dropWhile_cons, List.dropWhile_cons, hp hab]
    split
    · exact ih
    · exact .cons hab hrest

theorem trim_kept (h : List.Forall₂ Kept text text') : List.Forall₂ Kept text.trim text'.trim := by
  have hspace : ∀ {a b}, Kept a b → decide (a ∈ whiteSpace) = decide (b ∈ whiteSpace) := fun hab =>
    decide_eq_decide.mpr (mem_whiteSpace_kept hab)
  have hstart := dropWhile_kept hspace h
  exact List.forall₂_reverse_iff.mpr (dropWhile_kept hspace (List.forall₂_reverse_iff.mpr hstart))

theorem isPrefixOf_kept {word : JsString} (hword : ∀ unit ∈ word, Plain unit) (h : List.Forall₂ Kept text text') :
    word.isPrefixOf text' = word.isPrefixOf text := by
  induction word generalizing text text' with
  | nil => simp
  | cons unit word ih =>
    cases h with
    | nil => rfl
    | @cons a b _ _ hab hrest =>
      rw [List.isPrefixOf_cons_cons, List.isPrefixOf_cons_cons, ih (fun unit hmem => hword unit (by simp [hmem])) hrest]
      congr 1
      rw [Bool.eq_iff_iff, beq_iff_eq, beq_iff_eq, eq_comm, eq_comm (a := unit), (hword unit (by simp)).kept_iff hab]

theorem startsWith_kept {word : JsString} (hword : ∀ unit ∈ word, Plain unit) (h : List.Forall₂ Kept text text') :
    text'.startsWith word = text.startsWith word := isPrefixOf_kept hword h

theorem endsWith_kept {word : JsString} (hword : ∀ unit ∈ word, Plain unit) (h : List.Forall₂ Kept text text') :
    text'.endsWith word = text.endsWith word :=
  isPrefixOf_kept (fun unit hmem => hword unit (List.mem_reverse.mp hmem)) (List.forall₂_reverse_iff.mpr h)

end

/-! ## The checks -/

/-- A lambda that is accepted is accepted with its lone surrogates replaced. -/
theorem validateQLambdaParts_kept {source source' context context' : JsString} (hsource : List.Forall₂ Kept source source')
    (hcontext : List.Forall₂ Kept context context') {parts : JsString × JsString}
    (h : validateQLambdaParts source context = .ok parts) :
    validateQLambdaParts source' context' = .ok (source', context') := by
  have hempty : context' = [] ↔ context = [] := by
    cases hcontext with
    | nil => exact Iff.rfl
    | cons _ _ => simp
  have htrim := trim_kept hsource
  have hlanguage : source'.trim.startsWith kLanguage = source.trim.startsWith kLanguage :=
    startsWith_kept (plain_of_all (by decide)) htrim
  -- the text behind the language prefix is cut at the same place
  have hbody : List.Forall₂ Kept (if source.trim.startsWith kLanguage then source.trim.drop 2 else source.trim)
      (if source'.trim.startsWith kLanguage then source'.trim.drop 2 else source'.trim) := by
    rw [hlanguage]
    split
    · exact List.forall₂_drop 2 htrim
    · exact htrim
  unfold validateQLambdaParts at h ⊢
  simp only at h ⊢
  generalize (if source.trim.startsWith kLanguage then source.trim.drop 2 else source.trim) = body at h hbody
  generalize (if source'.trim.startsWith kLanguage then source'.trim.drop 2 else source'.trim) = body' at hbody ⊢
  rw [includesNul_kept hsource, includesNul_kept hcontext]
  split at h
  · cases h
  next h₁ =>
  split at h
  · cases h
  next h₂ =>
  split at h
  · cases h
  next h₃ =>
  split at h
  · cases h
  next h₄ =>
  have h₃' : ¬ (context' ≠ [] ∧ context'.startsWith [0x2E] = true) := by
    rw [startsWith_kept (plain_of_all (by decide)) hcontext, ne_eq, hempty]
    exact h₃
  rw [if_neg h₁, if_neg h₂, if_neg h₃', if_neg]
  rw [startsWith_kept (plain_of_all (by decide)) hbody, endsWith_kept (plain_of_all (by decide)) hbody]
  exact h₄

theorem validatedQLambdaParts_scrub {source context : JsString} {parts : JsString × JsString}
    (h : validatedQLambdaParts source context = .ok parts) :
    validatedQLambdaParts (scrub source) (scrub context) = .ok (scrub source, scrub context) := by
  unfold validatedQLambdaParts at h
  split at h
  · next found hfound =>
    exact Tree.validatedQLambdaParts_ok (validateQLambdaParts_kept (kept_scrub source) (kept_scrub context) hfound)
  · cases h

/-! ## Property keys -/

/-- A string with nothing to replace. -/
theorem scrub_of_plain {text : JsString} (h : ∀ unit ∈ text, Plain unit) : scrub text = text := by
  have hkept := kept_scrub text
  generalize scrub text = text' at hkept
  induction hkept with
  | nil => rfl
  | @cons a b _ _ hab _ ih =>
    rw [ih fun unit hmem => h unit (by simp [hmem]), ((h a (by simp)).kept_iff hab).mp rfl]

/-- Where nothing was put in, nothing was replaced. -/
theorem scrub_of_plain_scrub {text : JsString} (h : ∀ unit ∈ scrub text, Plain unit) : scrub text = text := by
  have hkept := kept_scrub text
  generalize scrub text = text' at hkept h
  induction hkept with
  | nil => rfl
  | @cons a b _ _ hab _ ih =>
    rw [ih fun unit hmem => h unit (by simp [hmem]), ((h b (by simp)).kept_iff hab).mpr rfl]

theorem decimalFrom_digits {text : JsString} {start value : Nat} (h : decimalFrom start text = some value) :
    ∀ unit ∈ text, 0x30 ≤ unit ∧ unit ≤ 0x39 := by
  induction text generalizing start with
  | nil => simp
  | cons unit rest ih =>
    rw [decimalFrom] at h
    split at h
    · next hdigit =>
      intro other hmem
      cases hmem with
      | head => exact hdigit
      | tail _ hmem => exact ih h other hmem
    · cases h

theorem plain_of_digit {unit : UInt16} (h : 0x30 ≤ unit ∧ unit ≤ 0x39) : Plain unit := by
  rw [UInt16.le_iff_toNat_le, UInt16.le_iff_toNat_le] at h
  have hlow : (0x30 : UInt16).toNat = 0x30 := rfl
  have hhigh : (0x39 : UInt16).toNat = 0x39 := rfl
  constructor
  · rw [Bool.eq_false_iff, ne_eq, isSurrogate_iff]
    omega
  · rintro rfl
    have : replacementUnit.toNat = 0xFFFD := rfl
    omega

/-- An array index is written in digits. -/
theorem plain_of_arrayIndex {key : JsString} {n : Nat} (h : arrayIndex key = some n) : ∀ unit ∈ key, Plain unit := by
  unfold arrayIndex at h
  split at h
  · next hzero =>
    rw [hzero]
    exact plain_of_all (by decide)
  split at h
  · cases h
  obtain ⟨hvalue, -⟩ := Option.filter_eq_some_iff.mp h
  intro unit hmem
  exact plain_of_digit (decimalFrom_digits hvalue unit hmem)

theorem arrayIndex_scrub (key : JsString) : arrayIndex (scrub key) = arrayIndex key := by
  cases hkey : arrayIndex key with
  | some n => rw [scrub_of_plain (plain_of_arrayIndex hkey), hkey]
  | none =>
    cases hscrub : arrayIndex (scrub key) with
    | none => rfl
    | some n => rw [scrub_of_plain_scrub (plain_of_arrayIndex hscrub), hkey] at hscrub; cases hscrub

end Js
end Xqdb
