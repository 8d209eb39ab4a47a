import Xqdb.Lib.Incoming

/-! A program that works on a list while the list is still arriving. It says how much of
the list it needs before it goes on, sees whatever has arrived by then, and hands tasks to
workers. A reader appends to the list, the program resumes and the workers finish their
tasks in any order. Where the program does not depend on how much more than it needed it
was shown, every complete run ends as if the whole list had been there from the start. -/

namespace Prefetch

open Incoming (Event Stop content readSome readSome_content)

inductive Program (α τ ρ : Type) where
  | halt (result : ρ)
  | wait (needed : Nat) (next : List α → Program α τ ρ)
  | spawn (task : τ) (next : Program α τ ρ)

variable {α ε τ ρ : Type}

namespace Program

/-- The tasks and the result of a program that is shown the whole list at once. -/
def run (whole : List α) : Program α τ ρ → List τ × ρ
  | .halt result => ([], result)
  | .wait _ next => (next whole).run whole
  | .spawn task next => (task :: (next.run whole).1, (next.run whole).2)

/-- Shown any part of the list that has what it needs, the program goes on as if it had been
shown the whole list. What it is shown only grows. -/
def Coherent (whole : List α) : List α → Program α τ ρ → Prop
  | _, .halt _ => True
  | seen, .wait needed next => needed ≤ whole.length ∧
      ∀ part, seen <+: part → part <+: whole → needed ≤ part.length →
        (next part).Coherent whole part ∧ (next part).run whole = (next whole).run whole
  | seen, .spawn _ next => next.Coherent whole seen

end Program

/-- The list so far, the reader's outcome, and the tasks that wait and that are finished. -/
structure State (α ε τ ρ : Type) where
  source : List (Event α ε)
  arrived : List α
  reader : Option (Stop ε)
  program : Program α τ ρ
  pending : List τ
  finished : List τ

/-- One step of the reader, the program or a worker. The reader stops after `total`
elements; `lost` is what a program results in whose list will not be completed. -/
inductive Step (total : Nat) (lost : ρ) : State α ε τ ρ → State α ε τ ρ → Prop
  | read {st : State α ε τ ρ} {bytes : List α} {source : List (Event α ε)}
      (hreading : st.reader = none) (hmore : st.arrived.length < total)
      (hread : readSome (total - st.arrived.length) st.source = (bytes, .full, source)) :
      Step total lost st { st with source := source, arrived := st.arrived ++ bytes }
  | lose {st : State α ε τ ρ} {bytes : List α} {stop : Stop ε} {source : List (Event α ε)}
      (hreading : st.reader = none) (hmore : st.arrived.length < total)
      (hread : readSome (total - st.arrived.length) st.source = (bytes, stop, source))
      (hstop : stop ≠ .full) :
      Step total lost st { st with source := source, reader := some stop }
  | done {st : State α ε τ ρ} (hreading : st.reader = none) (hall : total ≤ st.arrived.length) :
      Step total lost st { st with reader := some .full }
  | resume {st : State α ε τ ρ} {needed : Nat} {next : List α → Program α τ ρ}
      (hprogram : st.program = .wait needed next)
      (hopen : st.reader = none ∨ st.reader = some .full) (hneeded : needed ≤ st.arrived.length) :
      Step total lost st { st with program := next st.arrived }
  | forsake {st : State α ε τ ρ} {needed : Nat} {next : List α → Program α τ ρ} {stop : Stop ε}
      (hprogram : st.program = .wait needed next) (hreader : st.reader = some stop)
      (hstop : stop ≠ .full) :
      Step total lost st { st with program := .halt lost }
  | spawn {st : State α ε τ ρ} {task : τ} {next : Program α τ ρ}
      (hprogram : st.program = .spawn task next) :
      Step total lost st { st with program := next, pending := st.pending ++ [task] }
  | finish {st : State α ε τ ρ} {before after : List τ} {task : τ}
      (hpending : st.pending = before ++ task :: after) :
      Step total lost st { st with pending := before ++ after, finished := st.finished ++ [task] }

/-- Steps of all three in any order. -/
inductive Steps (total : Nat) (lost : ρ) : State α ε τ ρ → State α ε τ ρ → Prop
  | refl (st : State α ε τ ρ) : Steps total lost st st
  | next {a b c : State α ε τ ρ} (first : Step total lost a b) (rest : Steps total lost b c) :
      Steps total lost a c

/-- Nothing is left to do. -/
def State.Final (st : State α ε τ ρ) : Prop :=
  st.reader ≠ none ∧ (∃ result, st.program = .halt result) ∧ st.pending = []

def State.start (source : List (Event α ε)) (arrived : List α) (program : Program α τ ρ) :
    State α ε τ ρ :=
  ⟨source, arrived, none, program, [], []⟩

section Runs

variable {total : Nat} {lost : ρ} {whole rest : List α} {p : Program α τ ρ} {a b st : State α ε τ ρ}

/-! ## A list that arrives -/

/-- The list is on its way, and the program has done a part of what it does on the whole. -/
structure Arriving (total : Nat) (whole rest : List α) (p : Program α τ ρ) (st : State α ε τ ρ) :
    Prop where
  size : whole.length = total
  list : st.arrived ++ content st.source = whole ++ rest
  within : st.arrived.length ≤ total
  reader : st.reader = none ∨ st.reader = some .full ∧ st.arrived.length = total
  program : ∃ seen spawned, seen <+: st.arrived ∧ st.program.Coherent whole seen ∧
    spawned ++ (st.program.run whole).1 = (p.run whole).1 ∧
    (st.program.run whole).2 = (p.run whole).2 ∧ (st.finished ++ st.pending).Perm spawned

theorem Arriving.isPrefix (h : Arriving total whole rest p st) : st.arrived <+: whole := by
  refine List.prefix_of_prefix_length_le ⟨_, h.list⟩ ⟨rest, rfl⟩ ?_
  rw [h.size]
  exact h.within

theorem Step.arriving (h : Step total lost a b) (hinv : Arriving total whole rest p a) :
    Arriving total whole rest p b := by
  obtain ⟨seen, spawned, hseen, hcoherent, htasks, hresult, hperm⟩ := hinv.program
  have hsize := hinv.size
  have hwithin := hinv.within
  -- the stream still has what is missing, so it neither ends nor fails first
  have hahead : a.arrived.length < total → content a.source ≠ [] := by
    intro hmore hnil
    have hlen := congrArg List.length hinv.list
    simp only [hnil, List.append_nil, List.length_append] at hlen
    omega
  cases h with
  | read hreading hmore hread =>
    rcases readSome_content (total - a.arrived.length) (by omega) a.source with
      ⟨bytes, source, hsome, -, hlen, hcontent⟩ | ⟨hnil, -⟩
    · rw [hread] at hsome
      cases hsome
      refine ⟨hsize, ?_, ?_, .inl hreading, seen, spawned, hseen.trans ⟨_, rfl⟩, hcoherent, htasks,
        hresult, hperm⟩
      · rw [← hinv.list, hcontent, List.append_assoc]
      · simp only [List.length_append]
        omega
    · exact absurd hnil (hahead hmore)
  | lose hreading hmore hread hstop =>
    rcases readSome_content (total - a.arrived.length) (by omega) a.source with
      ⟨bytes, source, hsome, -⟩ | ⟨hnil, -⟩
    · rw [hread] at hsome
      cases hsome
      exact absurd rfl hstop
    · exact absurd hnil (hahead hmore)
  | done hreading hall =>
    exact ⟨hsize, hinv.list, hwithin, .inr ⟨rfl, Nat.le_antisymm hwithin hall⟩, seen, spawned, hseen,
      hcoherent, htasks, hresult, hperm⟩
  | resume hprogram hopen hneeded =>
    rw [hprogram] at hcoherent htasks hresult
    obtain ⟨hnext, hrun⟩ := hcoherent.2 a.arrived hseen hinv.isPrefix hneeded
    refine ⟨hsize, hinv.list, hwithin, hinv.reader, a.arrived, spawned, List.prefix_refl _, hnext, ?_,
      ?_, hperm⟩
    · rw [hrun]
      exact htasks
    · rw [hrun]
      exact hresult
  | forsake hprogram hreader hstop =>
    rcases hinv.reader with hnone | ⟨hfull, -⟩
    · rw [hreader] at hnone
      cases hnone
    · rw [hreader] at hfull
      exact absurd (Option.some.inj hfull) hstop
  | @spawn task next hprogram =>
    rw [hprogram] at hcoherent htasks hresult
    refine ⟨hsize, hinv.list, hwithin, hinv.reader, seen, spawned ++ [task], hseen, hcoherent, ?_,
      hresult, ?_⟩
    · rw [List.append_assoc]
      exact htasks
    · rw [← List.append_assoc]
      exact hperm.append_right [task]
  | @finish before after task hpending =>
    refine ⟨hsize, hinv.list, hwithin, hinv.reader, seen, spawned, hseen, hcoherent, htasks, hresult,
      List.Perm.trans ?_ hperm⟩
    have hmoved : (task :: (before ++ after)).Perm (before ++ task :: after) := List.perm_middle.symm
    rw [hpending, List.append_assoc]
    exact hmoved.append_left a.finished

theorem Steps.arriving (h : Steps total lost a b) (hinv : Arriving total whole rest p a) :
    Arriving total whole rest p b := by
  induction h with
  | refl => exact hinv
  | next first _ ih => exact ih (first.arriving hinv)

/-- **Every complete run** over a list that arrives ends with the result of the program on
the whole list, with its tasks finished in some order, and with nothing behind the list
taken from the source. -/
theorem Arriving.final (h : Arriving total whole rest p st) (hfinal : st.Final) :
    st.reader = some .full ∧ st.program = .halt (p.run whole).2 ∧
      st.finished.Perm (p.run whole).1 ∧ st.arrived = whole ∧ content st.source = rest := by
  obtain ⟨hreader, ⟨result, hprogram⟩, hpending⟩ := hfinal
  obtain ⟨seen, spawned, -, -, htasks, hresult, hperm⟩ := h.program
  rw [hprogram] at htasks hresult
  simp only [Program.run, List.append_nil] at htasks hresult
  rw [hpending, List.append_nil, htasks] at hperm
  rcases h.reader with hnone | ⟨hfull, hall⟩
  · exact absurd hnone hreader
  · have hwhole : st.arrived = whole := h.isPrefix.eq_of_length (by rw [hall, h.size])
    refine ⟨hfull, by rw [hprogram, hresult], hperm, hwhole, ?_⟩
    have hlist := h.list
    rw [hwhole] at hlist
    exact List.append_cancel_left hlist

/-! ## A list that does not arrive -/

/-- The source will end or fail before the list is complete. -/
structure Starving (total : Nat) (st : State α ε τ ρ) : Prop where
  short : st.reader = none → st.arrived.length + (content st.source).length < total
  reader : st.reader ≠ some .full

theorem Step.starving (h : Step total lost a b) (hinv : Starving total a) : Starving total b := by
  cases h with
  | read hreading hmore hread =>
    have hshort := hinv.short hreading
    rcases readSome_content (total - a.arrived.length) (by omega) a.source with
      ⟨bytes, source, hsome, -, -, hcontent⟩ | ⟨-, stop, source, hsome, hstop⟩
    · rw [hread] at hsome
      cases hsome
      refine ⟨fun _ => ?_, hinv.reader⟩
      rw [hcontent] at hshort
      simp only [List.length_append] at hshort ⊢
      omega
    · rw [hread] at hsome
      cases hsome
      rcases hstop with hended | ⟨e, hfailed⟩
      · cases hended
      · cases hfailed
  | lose hreading hmore hread hstop =>
    exact ⟨fun hnone => absurd hnone (Option.some_ne_none _), fun hfull => hstop (Option.some.inj hfull)⟩
  | done hreading hall =>
    have hshort := hinv.short hreading
    omega
  | resume hprogram hopen hneeded => exact ⟨hinv.short, hinv.reader⟩
  | forsake hprogram hreader hstop => exact ⟨hinv.short, hinv.reader⟩
  | spawn hprogram => exact ⟨hinv.short, hinv.reader⟩
  | finish hpending => exact ⟨hinv.short, hinv.reader⟩

theorem Steps.starving (h : Steps total lost a b) (hinv : Starving total a) : Starving total b := by
  induction h with
  | refl => exact hinv
  | next first _ ih => exact ih (first.starving hinv)

/-! ## No run is stuck, no run is endless -/

theorem progress (hinv : Arriving total whole rest p st ∨ Starving total st) (hopen : ¬ st.Final) :
    ∃ st', Step total lost st st' := by
  cases hreader : st.reader with
  | none =>
    by_cases hmore : st.arrived.length < total
    · rcases readSome_content (total - st.arrived.length) (by omega) st.source with
        ⟨bytes, source, hsome, -⟩ | ⟨-, stop, source, hsome, hstop⟩
      · exact ⟨_, .read hreader hmore hsome⟩
      · refine ⟨_, .lose hreader hmore hsome ?_⟩
        rcases hstop with rfl | ⟨e, rfl⟩
        · simp
        · simp
    · exact ⟨_, .done hreader (by omega)⟩
  | some stop =>
    cases hpending : st.pending with
    | cons task after => exact ⟨_, @Step.finish _ _ _ _ _ _ _ [] after task hpending⟩
    | nil =>
      cases hprogram : st.program with
      | halt result => exact absurd ⟨by simp [hreader], ⟨result, hprogram⟩, hpending⟩ hopen
      | spawn task next => exact ⟨_, .spawn hprogram⟩
      | wait needed next =>
        rcases hinv with harriving | hstarving
        · obtain ⟨seen, spawned, -, hcoherent, -⟩ := harriving.program
          rw [hprogram] at hcoherent
          rcases harriving.reader with hnone | ⟨hfull, hall⟩
          · rw [hreader] at hnone
            cases hnone
          · refine ⟨_, .resume hprogram (.inr hfull) ?_⟩
            rw [hall, ← harriving.size]
            exact hcoherent.1
        · refine ⟨_, .forsake hprogram hreader ?_⟩
          rintro rfl
          exact hstarving.reader hreader

/-- What the reader and the workers have left to do. -/
def State.work (total : Nat) (st : State α ε τ ρ) : Nat :=
  (total - st.arrived.length) + (if st.reader = none then 1 else 0) + st.pending.length

/-- A step of the program, or one that leaves it alone and does a part of the work. -/
theorem Step.cases_work (h : Step total lost a b) :
    (b.program = a.program ∧ b.work total < a.work total) ∨
    (∃ needed next, a.program = .wait needed next ∧
      (b.program = next a.arrived ∨ b.program = .halt lost)) ∨
    (∃ task next, a.program = .spawn task next ∧ b.program = next) := by
  cases h with
  | read hreading hmore hread =>
    refine .inl ⟨rfl, ?_⟩
    rcases readSome_content (total - a.arrived.length) (by omega) a.source with
      ⟨bytes, source, hsome, hne, -⟩ | ⟨-, stop, source, hsome, hstop⟩
    · rw [hread] at hsome
      cases hsome
      have hpos := List.length_pos_iff.mpr hne
      simp only [State.work, List.length_append]
      omega
    · rw [hread] at hsome
      cases hsome
      rcases hstop with hended | ⟨e, hfailed⟩
      · cases hended
      · cases hfailed
  | lose hreading hmore hread hstop =>
    refine .inl ⟨rfl, ?_⟩
    simp [State.work, hreading]
  | done hreading hall =>
    refine .inl ⟨rfl, ?_⟩
    simp [State.work, hreading]
  | resume hprogram hopen hneeded => exact .inr (.inl ⟨_, _, hprogram, .inl rfl⟩)
  | forsake hprogram hreader hstop => exact .inr (.inl ⟨_, _, hprogram, .inr rfl⟩)
  | spawn hprogram => exact .inr (.inr ⟨_, _, hprogram, rfl⟩)
  | finish hpending =>
    refine .inl ⟨rfl, ?_⟩
    simp only [State.work, hpending, List.length_append, List.length_cons]
    omega

/-- A program whose own steps lead to runs that end is in a run that ends: between two of
its steps the reader and the workers use up their work. -/
theorem ends_of_leave {total : Nat} {lost : ρ} {p : Program α τ ρ}
    (hleave : ∀ a b : State α ε τ ρ, a.program = p → Step total lost a b →
      b.program = a.program ∧ b.work total < a.work total ∨
        Acc (fun b a => Step total lost a b) b)
    (n : Nat) :
    ∀ st : State α ε τ ρ, st.program = p → st.work total < n →
      Acc (fun b a => Step total lost a b) st := by
  induction n with
  | zero =>
    intro st _ hwork
    omega
  | succ n ih =>
    intro st hst hwork
    refine ⟨_, fun b hstep => ?_⟩
    rcases hleave st b hst hstep with ⟨hsame, hless⟩ | hends
    · exact ih b (hsame.trans hst) (by omega)
    · exact hends

theorem halt_ends (total : Nat) (lost result : ρ) (st : State α ε τ ρ)
    (hst : st.program = .halt result) : Acc (fun b a => Step total lost a b) st := by
  refine ends_of_leave (fun a b ha hstep => .inl ?_) (st.work total + 1) st hst (Nat.lt_succ_self _)
  rcases hstep.cases_work with hwork | ⟨needed, next, hprogram, -⟩ | ⟨task, next, hprogram, -⟩
  · exact hwork
  · rw [ha] at hprogram
    cases hprogram
  · rw [ha] at hprogram
    cases hprogram

/-- **No run is endless**, whatever arrives. -/
theorem terminates (total : Nat) (lost : ρ) (p : Program α τ ρ) :
    ∀ st : State α ε τ ρ, st.program = p → Acc (fun b a => Step total lost a b) st := by
  induction p with
  | halt result => exact halt_ends total lost result
  | wait needed next ih =>
    intro st hst
    refine ends_of_leave (fun a b ha hstep => ?_) (st.work total + 1) st hst (Nat.lt_succ_self _)
    rcases hstep.cases_work with hwork | ⟨needed', next', hprogram, hnext⟩ |
      ⟨task, next', hprogram, -⟩
    · exact .inl hwork
    · rw [ha] at hprogram
      cases hprogram
      rcases hnext with hnext | hlost
      · exact .inr (ih a.arrived b hnext)
      · exact .inr (halt_ends total lost lost b hlost)
    · rw [ha] at hprogram
      cases hprogram
  | spawn task next ih =>
    intro st hst
    refine ends_of_leave (fun a b ha hstep => ?_) (st.work total + 1) st hst (Nat.lt_succ_self _)
    rcases hstep.cases_work with hwork | ⟨needed, next', hprogram, -⟩ | ⟨task', next', hprogram, hnext⟩
    · exact .inl hwork
    · rw [ha] at hprogram
      cases hprogram
    · rw [ha] at hprogram
      cases hprogram
      exact .inr (ih b hnext)

/-- Every run can be completed. -/
theorem completes (hinv : Arriving total whole rest p st ∨ Starving total st) :
    ∃ st', Steps total lost st st' ∧ st'.Final := by
  induction terminates total lost st.program st rfl with
  | intro st _ ih =>
    by_cases hfinal : st.Final
    · exact ⟨st, .refl st, hfinal⟩
    · obtain ⟨next, hstep⟩ := @progress _ _ _ _ total lost whole rest p st hinv hfinal
      have hnext : Arriving total whole rest p next ∨ Starving total next := by
        rcases hinv with harriving | hstarving
        · exact .inl (hstep.arriving harriving)
        · exact .inr (hstep.starving hstarving)
      obtain ⟨st', hsteps, hfinal'⟩ := ih next hstep hnext
      exact ⟨st', .next hstep hsteps, hfinal'⟩

end Runs

end Prefetch
