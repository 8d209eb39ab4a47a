import Xqdb.Errors
import Xqdb.Lib.Incoming

/-! The socket as the connector reads it. `read_exact` and `read_to_end` are the loops of
the standard library; a failed read ends the operation, so only successful ones say what is
left of the stream. -/

namespace Xqdb.Connector

open Incoming (Event Stop content drain drain_full drain_short)

/-- A failed read. Interrupted reads are tried again and never reported. -/
structure IoFailure where
  kind : ErrorKind
  message : String
  reported : kind ≠ .interrupted

def IoFailure.toError (e : IoFailure) : XqdbError := .IOError e.kind e.message

abbrev QStream := List (Event UInt8 IoFailure)

def readExact (want : Nat) (stream : QStream) : Exec (Bytes × QStream) :=
  match drain want stream with
  | (bytes, .full, stream) => .ok (bytes, stream)
  | (_, .ended, _) => Exec.err (.IOError .unexpectedEof "failed to fill whole buffer")
  | (_, .failed e, _) => Exec.err e.toError

/-- `take(limit).read_to_end(..)`: the bytes it appends. -/
def readToEnd (limit : Nat) (stream : QStream) : Exec (Bytes × QStream) :=
  match drain limit stream with
  | (_, .failed e, _) => Exec.err e.toError
  | (bytes, _, stream) => .ok (bytes, stream)

theorem readExact_full {want : Nat} {stream : QStream} (h : want ≤ (content stream).length) :
    ∃ rest, readExact want stream = .ok ((content stream).take want, rest) ∧
      content rest = (content stream).drop want := by
  obtain ⟨rest, hdrain, hahead⟩ := drain_full stream want h
  exact ⟨rest, by rw [readExact, hdrain], hahead⟩

theorem readExact_short {want : Nat} {stream : QStream} (h : (content stream).length < want) :
    ∃ e, readExact want stream = Exec.err e := by
  obtain ⟨stop, rest, hdrain, hstop⟩ := drain_short stream want h
  rw [readExact, hdrain]
  rcases hstop with ⟨rfl, -⟩ | ⟨e, rfl⟩
  · exact ⟨_, rfl⟩
  · exact ⟨_, rfl⟩

theorem readToEnd_full {limit : Nat} {stream : QStream} (h : limit ≤ (content stream).length) :
    ∃ rest, readToEnd limit stream = .ok ((content stream).take limit, rest) ∧
      content rest = (content stream).drop limit := by
  obtain ⟨rest, hdrain, hahead⟩ := drain_full stream limit h
  exact ⟨rest, by rw [readToEnd, hdrain], hahead⟩

/-- A short stream is read to its end, or reported as failed. -/
theorem readToEnd_short {limit : Nat} {stream : QStream} (h : (content stream).length < limit) :
    (∃ e, readToEnd limit stream = Exec.err e) ∨
      readToEnd limit stream = .ok (content stream, []) := by
  obtain ⟨stop, rest, hdrain, hstop⟩ := drain_short stream limit h
  rw [readToEnd, hdrain]
  rcases hstop with ⟨rfl, rfl⟩ | ⟨e, rfl⟩
  · exact .inr rfl
  · exact .inl ⟨_, rfl⟩

/-! ## Buffers -/

/-- A `Vec<u8>` with the capacity it has. -/
structure Buffer where
  bytes : Bytes
  capacity : Nat
  fits : bytes.length ≤ capacity

/-- How much the allocator hands out for a request; at least the request. -/
structure Allocator where
  capacityFor : Nat → Nat
  enough : ∀ n, n ≤ capacityFor n

namespace Buffer

/-- `Vec::new()`. -/
def empty : Buffer := ⟨[], 0, Nat.le_refl 0⟩

def clear (buffer : Buffer) : Buffer := ⟨[], buffer.capacity, Nat.zero_le _⟩

def extendFromSlice (buffer : Buffer) (bytes : Bytes) : Buffer :=
  ⟨buffer.bytes ++ bytes, max buffer.capacity (buffer.bytes ++ bytes).length, Nat.le_max_right _ _⟩

/-- `try_reserve_exact`. -/
def tryReserveExact (alloc : Allocator) (buffer : Buffer) (additional : Nat) : Buffer :=
  if buffer.bytes.length + additional ≤ buffer.capacity then buffer
  else
    ⟨buffer.bytes, max buffer.capacity (alloc.capacityFor (buffer.bytes.length + additional)),
      Nat.le_trans buffer.fits (Nat.le_max_left _ _)⟩

theorem tryReserveExact_capacity (alloc : Allocator) (buffer : Buffer) (additional : Nat) :
    buffer.bytes.length + additional ≤ (buffer.tryReserveExact alloc additional).capacity ∧
      buffer.capacity ≤ (buffer.tryReserveExact alloc additional).capacity := by
  unfold tryReserveExact
  split
  · exact ⟨by assumption, Nat.le_refl _⟩
  · exact ⟨Nat.le_trans (alloc.enough _) (Nat.le_max_right _ _), Nat.le_max_left _ _⟩

@[simp] theorem tryReserveExact_bytes (alloc : Allocator) (buffer : Buffer) (additional : Nat) :
    (buffer.tryReserveExact alloc additional).bytes = buffer.bytes := by
  unfold tryReserveExact
  split <;> rfl

end Buffer

end Xqdb.Connector
