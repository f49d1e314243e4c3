import Mathlib.Data.List.Basic

/-!
# One way between two parties

One direction of a connection: what has been sent and not yet received, in order, and
whether the sender has said that there is no more. A receiver gets some of what is on
its way, as much as the connection likes, and waits where nothing is; it gets the empty
list only at the end of the stream.

* `recv_cases` — what a receiver gets;
* `exists_recv` — when it need not wait.
-/

/-- What is on its way, and whether that is all. -/
structure OneWay (α : Type) : Type where
  pending : List α
  ended : Bool
  deriving DecidableEq, Repr

namespace OneWay

variable {α : Type}

/-- Nothing has been sent. -/
def fresh : OneWay α := ⟨[], false⟩

def send (s : OneWay α) (xs : List α) : OneWay α := { s with pending := s.pending ++ xs }

def finish (s : OneWay α) : OneWay α := { s with ended := true }

/-- Receive into an array with `room`; `amount` is how much the connection hands over.
`none` is a receiver that waits, and an amount that does not happen. -/
def recv (s : OneWay α) (room amount : Nat) : Option (List α × OneWay α) :=
  if s.pending = [] then if s.ended then some ([], s) else none
  else if 0 < amount ∧ amount ≤ room ∧ amount ≤ s.pending.length then
    some (s.pending.take amount, { s with pending := s.pending.drop amount })
  else none

variable {s s' : OneWay α} {xs : List α} {room amount : Nat}

/-- **What a receiver gets**: the end, or the next elements. -/
theorem recv_cases (h : s.recv room amount = some (xs, s')) :
    xs = [] ∧ s' = s ∧ s.ended = true ∧ s.pending = [] ∨
    xs ≠ [] ∧ s.pending = xs ++ s'.pending ∧ s'.ended = s.ended := by
  rw [recv] at h
  split at h
  · next hnothing =>
    split at h
    · next hended =>
      obtain ⟨rfl, rfl⟩ := Prod.mk.inj (Option.some.inj h)
      exact Or.inl ⟨rfl, rfl, hended, hnothing⟩
    · cases h
  · next hsome =>
    split at h
    · next hamount =>
      obtain ⟨rfl, rfl⟩ := Prod.mk.inj (Option.some.inj h)
      refine Or.inr ⟨?_, (List.take_append_drop amount s.pending).symm, rfl⟩
      rw [Ne, List.take_eq_nil_iff, not_or]
      exact ⟨Nat.ne_of_gt hamount.1, hsome⟩
    · cases h

/-- **A receiver waits only** for a sender that has not said all. -/
theorem exists_recv (hroom : 0 < room) (h : s.pending ≠ [] ∨ s.ended = true) :
    ∃ amount, (s.recv room amount).isSome = true := by
  refine ⟨1, ?_⟩
  rw [recv]
  by_cases hnothing : s.pending = []
  · rw [if_pos hnothing, if_pos (h.resolve_left (not_not.mpr hnothing))]
    rfl
  · rw [if_neg hnothing, if_pos ⟨Nat.one_pos, hroom, List.length_pos_iff.mpr hnothing⟩]
    rfl

end OneWay
