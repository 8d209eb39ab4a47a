import Mathlib.Tactic.Common

/-! Reading from a stream that delivers its bytes in pieces of any size. A stream is the
list of what its reads will report; the list ends where the peer has closed. The readers
follow the loops of a standard library: an interrupted read is tried again, any other
failure stops, and no reader takes a byte more than it was asked for. -/

namespace Incoming

/-- What one read of the underlying stream can report. Data is never empty: an empty read
is how the end of the stream is told. -/
inductive Event (α ε : Type) where
  | data (head : α) (tail : List α)
  | interrupted
  | failed (e : ε)

/-- Why a reader stopped. -/
inductive Stop (ε : Type) where
  | full
  | ended
  | failed (e : ε)

variable {α ε : Type}

/-- Puts what a read did not take back in front. -/
def putBack : List α → List (Event α ε) → List (Event α ε)
  | [], s => s
  | a :: l, s => .data a l :: s

/-- The bytes that arrive before the first failure. -/
def content : List (Event α ε) → List α
  | [] => []
  | .data a l :: s => a :: l ++ content s
  | .interrupted :: s => content s
  | .failed _ :: _ => []

/-- One successful call to `read` with room for `want` bytes, interruptions retried. -/
def readSome (want : Nat) : List (Event α ε) → List α × Stop ε × List (Event α ε)
  | [] => ([], .ended, [])
  | .data a l :: s => ((a :: l).take want, .full, putBack ((a :: l).drop want) s)
  | .interrupted :: s => readSome want s
  | .failed e :: s => ([], .failed e, s)

/-- Reads until `want` bytes have arrived, the stream ends or it fails. -/
def drain : Nat → List (Event α ε) → List α × Stop ε × List (Event α ε)
  | 0, s => ([], .full, s)
  | _ + 1, [] => ([], .ended, [])
  | want + 1, .data a l :: s =>
    if l.length ≤ want then
      let more := drain (want - l.length) s
      (a :: l ++ more.1, more.2.1, more.2.2)
    else ((a :: l).take (want + 1), .full, putBack ((a :: l).drop (want + 1)) s)
  | want + 1, .interrupted :: s => drain (want + 1) s
  | _ + 1, .failed e :: s => ([], .failed e, s)

@[simp] theorem content_putBack (l : List α) (s : List (Event α ε)) :
    content (putBack l s) = l ++ content s := by
  cases l with
  | nil => rfl
  | cons a l => rfl

/-- **Enough bytes ahead**: exactly `want` of them are taken, however they are cut. -/
theorem drain_full (s : List (Event α ε)) :
    ∀ want, want ≤ (content s).length →
      ∃ s', drain want s = ((content s).take want, .full, s') ∧ content s' = (content s).drop want := by
  induction s with
  | nil =>
    intro want hwant
    obtain rfl : want = 0 := by simpa [content] using hwant
    exact ⟨[], rfl, rfl⟩
  | cons event s ih =>
    intro want hwant
    cases want with
    | zero =>
      cases event with
      | data a l => exact ⟨_, rfl, rfl⟩
      | interrupted => exact ⟨_, rfl, rfl⟩
      | failed e => exact ⟨_, rfl, rfl⟩
    | succ want =>
      cases event with
      | data a l =>
        simp only [content, List.length_append, List.length_cons] at hwant
        by_cases hshort : l.length ≤ want
        · obtain ⟨s', hdrain, hahead⟩ := ih (want - l.length) (by omega)
          have hlen : (a :: l).length ≤ want + 1 := by simpa using hshort
          refine ⟨s', ?_, ?_⟩
          · rw [drain, if_pos hshort, hdrain, content, List.take_append, List.take_of_length_le hlen,
              List.length_cons, Nat.add_sub_add_right]
          · rw [hahead, content, List.drop_append, List.drop_eq_nil_of_le hlen, List.length_cons,
              Nat.add_sub_add_right, List.nil_append]
        · refine ⟨putBack ((a :: l).drop (want + 1)) s, ?_, ?_⟩
          · rw [drain, if_neg hshort, content, List.take_append_of_le_length (by simp; omega)]
          · rw [content_putBack, content, List.drop_append_of_le_length (by simp; omega)]
      | interrupted => exact ih (want + 1) hwant
      | failed e =>
        simp only [content, List.length_nil] at hwant
        omega

/-- **Too few bytes ahead**: all of them are taken and the reader reports why it stopped. -/
theorem drain_short (s : List (Event α ε)) :
    ∀ want, (content s).length < want →
      ∃ stop s', drain want s = (content s, stop, s') ∧
        (stop = .ended ∧ s' = [] ∨ ∃ e, stop = .failed e) := by
  induction s with
  | nil =>
    intro want hwant
    cases want with
    | zero => omega
    | succ want => exact ⟨_, _, rfl, .inl ⟨rfl, rfl⟩⟩
  | cons event s ih =>
    intro want hwant
    cases want with
    | zero => omega
    | succ want =>
      cases event with
      | data a l =>
        simp only [content, List.length_append, List.length_cons] at hwant
        obtain ⟨stop, s', hdrain, hstop⟩ := ih (want - l.length) (by omega)
        refine ⟨stop, s', ?_, hstop⟩
        rw [drain, if_pos (by omega), hdrain, content]
      | interrupted => exact ih (want + 1) hwant
      | failed e => exact ⟨_, _, rfl, .inr ⟨e, rfl⟩⟩

/-- One read takes a nonempty piece of what is ahead. -/
theorem readSome_content (want : Nat) (hwant : 0 < want) (s : List (Event α ε)) :
    (∃ bytes s', readSome want s = (bytes, .full, s') ∧ bytes ≠ [] ∧ bytes.length ≤ want ∧
      content s = bytes ++ content s') ∨
    (content s = [] ∧ ∃ stop s', readSome want s = ([], stop, s') ∧
      (stop = .ended ∨ ∃ e, stop = .failed e)) := by
  induction s with
  | nil => exact .inr ⟨rfl, _, _, rfl, .inl rfl⟩
  | cons event s ih =>
    cases event with
    | data a l =>
      refine .inl ⟨_, _, rfl, ?_, ?_, ?_⟩
      · cases want with
        | zero => omega
        | succ want => simp
      · exact List.length_take_le _ _
      · rw [content_putBack, ← List.append_assoc, List.take_append_drop, content]
    | interrupted => exact ih
    | failed e => exact .inr ⟨rfl, _, _, rfl, .inr ⟨e, rfl⟩⟩

/-! ## Streams whose reads do not fail -/

/-- Every read delivers, is interrupted or finds the end. -/
def Unfailing (s : List (Event α ε)) : Prop := ∀ e, .failed e ∉ s

theorem Unfailing.tail {event : Event α ε} {s : List (Event α ε)} (h : Unfailing (event :: s)) : Unfailing s :=
  fun e he => h e (List.mem_cons_of_mem _ he)

theorem Unfailing.putBack {s : List (Event α ε)} (h : Unfailing s) (l : List α) : Unfailing (putBack l s) := by
  cases l with
  | nil => exact h
  | cons a l =>
    intro e he
    simp only [Incoming.putBack, List.mem_cons, reduceCtorEq, false_or] at he
    exact h e he

theorem drain_unfailing {s : List (Event α ε)} (h : Unfailing s) :
    ∀ want, Unfailing (drain want s).2.2 ∧ ∀ e, (drain want s).2.1 ≠ .failed e := by
  induction s with
  | nil =>
    intro want
    cases want with
    | zero => simpa [drain] using h
    | succ want => simpa [drain] using h
  | cons event s ih =>
    intro want
    cases want with
    | zero => simpa [drain] using h
    | succ want =>
      cases event with
      | data a l =>
        by_cases hshort : l.length ≤ want
        · rw [drain, if_pos hshort]
          exact ih h.tail (want - l.length)
        · rw [drain, if_neg hshort]
          exact ⟨h.tail.putBack _, by simp⟩
      | interrupted => exact ih h.tail (want + 1)
      | failed e => exact absurd List.mem_cons_self (h e)

theorem readSome_unfailing {s : List (Event α ε)} (h : Unfailing s) (want : Nat) :
    Unfailing (readSome want s).2.2 ∧ ∀ e, (readSome want s).2.1 ≠ .failed e := by
  induction s with
  | nil => simpa [readSome] using h
  | cons event s ih =>
    cases event with
    | data a l => exact ⟨h.tail.putBack _, by simp [readSome]⟩
    | interrupted => exact ih h.tail
    | failed e => exact absurd List.mem_cons_self (h e)

end Incoming
