import Mathlib.Tactic.Common

/-! UTF-8 as an automaton over octets. A byte string is text when the automaton
ends between two characters. The automaton splits at every NUL: a zero octet is
a character of its own and is refused inside any other. `lossy` replaces every
maximal invalid part by U+FFFD. -/

namespace Utf8

/-- What the automaton still expects of the current character. -/
inductive State where
  | start
  | one
  | two
  | three
  | afterE0
  | afterED
  | afterF0
  | afterF4
  deriving DecidableEq, Repr

def isTail (b : UInt8) : Bool := 0x80 ≤ b && b ≤ 0xBF

def lead (b : UInt8) : Option State :=
  if b < 0x80 then some .start
  else if 0xC2 ≤ b && b ≤ 0xDF then some .one
  else if b = 0xE0 then some .afterE0
  else if b = 0xED then some .afterED
  else if 0xE1 ≤ b && b ≤ 0xEF then some .two
  else if b = 0xF0 then some .afterF0
  else if 0xF1 ≤ b && b ≤ 0xF3 then some .three
  else if b = 0xF4 then some .afterF4
  else none

/-- One octet; `none` when no character continues this way. -/
def step : State → UInt8 → Option State
  | .start, b => lead b
  | .one, b => if isTail b then some .start else none
  | .two, b => if isTail b then some .one else none
  | .three, b => if isTail b then some .two else none
  | .afterE0, b => if 0xA0 ≤ b && b ≤ 0xBF then some .one else none
  | .afterED, b => if 0x80 ≤ b && b ≤ 0x9F then some .one else none
  | .afterF0, b => if 0x90 ≤ b && b ≤ 0xBF then some .two else none
  | .afterF4, b => if 0x80 ≤ b && b ≤ 0x8F then some .two else none

def run : State → List UInt8 → Option State
  | s, [] => some s
  | s, b :: bs => (step s b).bind fun s' => run s' bs

def Valid (bs : List UInt8) : Prop := run .start bs = some .start

instance (bs : List UInt8) : Decidable (Valid bs) :=
  inferInstanceAs (Decidable (run .start bs = some .start))

theorem run_append (s : State) (a b : List UInt8) :
    run s (a ++ b) = (run s a).bind fun s' => run s' b := by
  induction a generalizing s with
  | nil => rfl
  | cons x a ih =>
    simp only [List.cons_append, run]
    cases step s x with
    | none => rfl
    | some s' => exact ih s'

@[simp] theorem valid_nil : Valid [] := rfl

theorem Valid.append {a b : List UInt8} (ha : Valid a) (hb : Valid b) : Valid (a ++ b) := by
  unfold Valid at *
  rw [run_append, ha, Option.bind_some, hb]

/-- A NUL ends the text before it and starts the text after it. -/
theorem run_zero (s : State) (bs : List UInt8) :
    run s (0 :: bs) = if s = .start then run .start bs else none := by
  cases s <;> rfl

theorem valid_split {a b : List UInt8} : Valid (a ++ 0 :: b) ↔ Valid a ∧ Valid b := by
  unfold Valid
  rw [run_append]
  cases hrun : run .start a with
  | none => simp
  | some s =>
    rw [Option.bind_some, run_zero]
    by_cases hs : s = .start
    · simp [hs]
    · simp [hs]

theorem valid_ascii {bs : List UInt8} (h : ∀ b ∈ bs, b < 0x80) : Valid bs := by
  induction bs with
  | nil => rfl
  | cons b bs ih =>
    have hb : step .start b = some .start := by
      simp [step, lead, h b (by simp)]
    unfold Valid
    rw [run, hb, Option.bind_some]
    exact ih (fun c hc => h c (by simp [hc]))

/-! ## Replacement of invalid text -/

/-- U+FFFD. -/
def replacement : List UInt8 := [0xEF, 0xBF, 0xBD]

/-- Output for the octets of a text, of which `pending` were read as the front of
a character that is still open in state `s`. -/
def lossyFrom : State → List UInt8 → List UInt8 → List UInt8
  | s, _, [] => if s = .start then [] else replacement
  | s, pending, b :: bs =>
    match step s b with
    | some .start => pending ++ b :: lossyFrom .start [] bs
    | some s' => lossyFrom s' (pending ++ [b]) bs
    | none =>
      if s = .start then replacement ++ lossyFrom .start [] bs
      -- the character breaks off before `b`, which starts the next one
      else replacement ++
        match lead b with
        | some .start => b :: lossyFrom .start [] bs
        | some s' => lossyFrom s' [b] bs
        | none => replacement ++ lossyFrom .start [] bs

def lossy (bs : List UInt8) : List UInt8 := lossyFrom .start [] bs

theorem valid_replacement : Valid replacement := by decide

theorem valid_lossyFrom (s : State) (pending bs : List UInt8)
    (hpending : run .start pending = some s) : Valid (lossyFrom s pending bs) := by
  induction bs generalizing s pending with
  | nil =>
    unfold lossyFrom
    split
    · exact valid_nil
    · exact valid_replacement
  | cons b bs ih =>
    have hnext : ∀ s', step s b = some s' → run .start (pending ++ [b]) = some s' := by
      intro s' hs'
      rw [run_append, hpending, Option.bind_some, run, hs']
      rfl
    have hlead : ∀ s', lead b = some s' → run .start [b] = some s' := by
      intro s' hs'
      rw [run, show step .start b = some s' from hs']
      rfl
    unfold lossyFrom
    split
    · next heq =>
      have hchar : Valid (pending ++ [b]) := hnext _ heq
      have := hchar.append (ih .start [] rfl)
      simpa using this
    · next s' hne heq => exact ih s' _ (hnext s' heq)
    · split
      · exact valid_replacement.append (ih .start [] rfl)
      · apply valid_replacement.append
        split
        · next heq =>
          have hchar : Valid [b] := hlead _ heq
          exact hchar.append (ih .start [] rfl)
        · next s' hne heq => exact ih s' _ (hlead s' heq)
        · exact valid_replacement.append (ih .start [] rfl)

theorem valid_lossy (bs : List UInt8) : Valid (lossy bs) := valid_lossyFrom .start [] bs rfl

/-! ### Replacement at a NUL -/

theorem lossyFrom_zero {s : State} {pending : List UInt8} (hpending : s = .start → pending = [])
    (bs : List UInt8) :
    lossyFrom s pending (0 :: bs) = lossyFrom s pending [] ++ 0 :: lossyFrom .start [] bs := by
  cases s with
  | start =>
    rw [hpending rfl]
    rfl
  | _ => rfl

/-- A NUL ends the part before it, whatever is open there, and nothing of that part reaches
behind it. -/
theorem lossyFrom_append_zero {s : State} {pending : List UInt8} (hpending : s = .start → pending = [])
    (as bs : List UInt8) :
    lossyFrom s pending (as ++ 0 :: bs) =
      lossyFrom s pending as ++ 0 :: lossyFrom .start [] bs := by
  induction as generalizing s pending with
  | nil => exact lossyFrom_zero hpending bs
  | cons a as ih =>
    have hstart := @ih .start [] fun _ => rfl
    have hopen : ∀ next pending, next ≠ .start → lossyFrom next pending (as ++ 0 :: bs) =
        lossyFrom next pending as ++ 0 :: lossyFrom .start [] bs :=
      fun next pending hne => ih fun h => absurd h hne
    rw [List.cons_append, lossyFrom, lossyFrom]
    cases step s a with
    | none =>
      simp only
      split
      · rw [hstart, List.append_assoc]
      · cases lead a with
        | none => simp only [hstart, List.append_assoc]
        | some next =>
          cases next with
          | start => simp only [hstart, List.append_assoc, List.cons_append]
          | _ => simp (disch := decide) only [hopen, List.append_assoc]
    | some next =>
      cases next with
      | start => simp only [hstart, List.append_assoc, List.cons_append]
      | _ => exact hopen _ _ (by decide)

theorem lossy_append_zero (as bs : List UInt8) :
    lossy (as ++ 0 :: bs) = lossy as ++ 0 :: lossy bs :=
  lossyFrom_append_zero (fun _ => rfl) as bs

/-- Replacement brings in no NUL. -/
theorem zero_notMem_lossyFrom {s : State} {pending bs : List UInt8} (hpending : 0 ∉ pending)
    (hbs : 0 ∉ bs) : 0 ∉ lossyFrom s pending bs := by
  have hreplacement : (0 : UInt8) ∉ replacement := by decide
  induction bs generalizing s pending with
  | nil =>
    unfold lossyFrom
    split
    · exact List.not_mem_nil
    · exact hreplacement
  | cons b bs ih =>
    have hb : (0 : UInt8) ≠ b := fun h => hbs (h ▸ List.mem_cons_self)
    have hrest : 0 ∉ bs := fun h => hbs (List.mem_cons_of_mem _ h)
    have hstart := @ih .start [] List.not_mem_nil hrest
    unfold lossyFrom
    split
    · simp [hpending, hb, hstart]
    · exact ih (by simp [hpending, hb]) hrest
    · split
      · simp [hreplacement, hstart]
      · rw [List.mem_append, not_or]
        refine ⟨hreplacement, ?_⟩
        split
        · simp [hb, hstart]
        · exact ih (by simp [hb]) hrest
        · simp [hreplacement, hstart]

theorem zero_notMem_lossy {bs : List UInt8} (h : 0 ∉ bs) : 0 ∉ lossy bs :=
  zero_notMem_lossyFrom List.not_mem_nil h

/-- Valid text is left alone. -/
theorem lossyFrom_valid {s : State} {pending bs : List UInt8} (h : run s bs = some .start)
    (hpending : s = .start → pending = []) : lossyFrom s pending bs = pending ++ bs := by
  induction bs generalizing s pending with
  | nil =>
    obtain rfl := Option.some.inj h
    rw [hpending rfl]
    rfl
  | cons b bs ih =>
    rw [run, Option.bind_eq_some_iff] at h
    obtain ⟨next, hstep, hrun⟩ := h
    rw [lossyFrom, hstep]
    by_cases hnext : next = .start
    · subst hnext
      simp only [ih hrun fun _ => rfl, List.nil_append]
    · have hopen := @ih next (pending ++ [b]) hrun fun hc => absurd hc hnext
      rw [List.append_assoc, List.singleton_append] at hopen
      cases next with
      | start => exact absurd rfl hnext
      | _ => exact hopen

theorem lossy_valid {bs : List UInt8} (h : Valid bs) : lossy bs = bs :=
  lossyFrom_valid h fun _ => rfl

end Utf8
