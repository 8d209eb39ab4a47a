import Mathlib.Tactic.Common

/-! When a computation that may fail succeeds, and what is left of it when the reason of a failure is
dropped. -/

namespace Outcome

variable {ε ε' α β : Type}

theorem bind_eq_ok {run : Except ε α} {next : α → Except ε β} {b : β} :
    run >>= next = .ok b ↔ ∃ a, run = .ok a ∧ next a = .ok b := by
  cases run with
  | error e => simp [bind, Except.bind]
  | ok a => simp [bind, Except.bind]

theorem pure_eq_ok {a b : α} : (pure a : Except ε α) = .ok b ↔ a = b := by
  simp [pure, Except.pure]

theorem map_eq_ok {run : Except ε α} {next : α → β} {b : β} :
    run.map next = .ok b ↔ ∃ a, run = .ok a ∧ next a = b := by
  cases run with
  | error e => simp [Except.map]
  | ok a => simp [Except.map]

theorem mapError_eq_ok {f : ε → ε'} {run : Except ε α} {a : α} : run.mapError f = .ok a ↔ run = .ok a := by
  cases run with
  | error e => simp [Except.mapError]
  | ok a => simp [Except.mapError]

/-! ## Without the reason -/

@[simp] theorem toOption_ok (a : α) : (Except.ok a : Except ε α).toOption = some a := rfl

@[simp] theorem toOption_error (e : ε) : (Except.error e : Except ε α).toOption = none := rfl

@[simp] theorem toOption_pure (a : α) : (pure a : Except ε α).toOption = some a := rfl

theorem toOption_bind (run : Except ε α) (next : α → Except ε β) :
    (run >>= next).toOption = run.toOption.bind fun a => (next a).toOption := by
  cases run with
  | error e => rfl
  | ok a => rfl

theorem toOption_mapError (f : ε → ε') (run : Except ε α) : (run.mapError f).toOption = run.toOption := by
  cases run with
  | error e => rfl
  | ok a => rfl

theorem toOption_eq_some {run : Except ε α} {a : α} : run.toOption = some a ↔ run = .ok a := by
  cases run with
  | error e => simp
  | ok a => simp

theorem toOption_eq_none {run : Except ε α} : run.toOption = none ↔ ∃ e, run = .error e := by
  cases run with
  | error e => simp
  | ok a => simp

end Outcome
