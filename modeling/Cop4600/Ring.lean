import Mathlib.Data.List.Basic

/-!
# Rings with a spare slot

A ring of slots between two indices that wrap around: `Keeps slots head tail xs`
says that the slots from `head` up to `tail` hold `xs`. One slot is always spare, so
equal indices mean that the ring is empty.

* `Keeps.pop`, `Keeps.push` — taking from the head and adding at the tail;
* `Keeps.push_full` — adding to a full ring pushes the oldest element out;
* `lastN` — the last elements of a list, which is what a ring keeps of a history
  (`lastN_concat`).
-/

namespace Ring

variable {α : Type}

/-- The index behind `i`, in a ring of `cap` slots. -/
def next (cap i : Nat) : Nat := if i + 1 = cap then 0 else i + 1

/-- The index `k` steps behind `head`. -/
def place (cap head k : Nat) : Nat := if head + k < cap then head + k else head + k - cap

variable {cap head i j : Nat}

/-- A place is one of the slots. -/
theorem place_lt (hhead : head < cap) (hi : i ≤ cap) : place cap head i < cap := by
  rw [place]
  split <;> omega

@[simp] theorem place_zero (hhead : head < cap) : place cap head 0 = head := if_pos hhead

/-- Steps of less than one round lead to different slots. -/
theorem place_injective (_ : head < cap) (hi : i < cap) (hj : j < cap)
    (h : place cap head i = place cap head j) : i = j := by
  revert h
  rw [place, place]
  split <;> split <;> omega

/-- The next index is one of the slots, too. -/
theorem next_lt (_ : head < cap) : next cap head < cap := by
  rw [next]
  split <;> omega

/-- The next index behind a place is the next place. -/
theorem next_place (_ : head < cap) (hi : i < cap) :
    next cap (place cap head i) = place cap head (i + 1) := by
  rw [next, place, place]
  split <;> split <;> split <;> omega

/-- Counted from the next index, each place is one nearer. -/
theorem place_next (_ : head < cap) (hi : i + 1 ≤ cap) :
    place cap (next cap head) i = place cap head (i + 1) := by
  rw [next, place, place]
  split <;> split <;> split <;> omega

/-- The slots from `head` up to `tail` hold `xs`. -/
structure Keeps (slots : List α) (head tail : Nat) (xs : List α) : Prop where
  /-- one slot is free -/
  room : xs.length < slots.length
  /-- the first index is one of a slot -/
  head_lt : head < slots.length
  /-- the second is behind the last element -/
  tail_eq : tail = place slots.length head xs.length
  /-- the elements stand between them -/
  slot : ∀ i, i < xs.length → slots[place slots.length head i]? = xs[i]?

variable {slots xs : List α} {tail : Nat} {x : α}

/-- Where both indices are the same, the ring is empty. -/
theorem Keeps.nil (hhead : head < slots.length) : Keeps slots head head [] where
  room := Nat.lt_of_le_of_lt (Nat.zero_le _) hhead
  head_lt := hhead
  tail_eq := (place_zero hhead).symm
  slot := fun i hi => absurd hi (Nat.not_lt_zero i)

/-- The second index is one of a slot. -/
theorem Keeps.tail_lt (h : Keeps slots head tail xs) : tail < slots.length := by
  rw [h.tail_eq]
  exact place_lt h.head_lt (Nat.le_of_lt h.room)

/-- **Equal indices mean an empty ring.** -/
theorem Keeps.head_eq_tail_iff (h : Keeps slots head tail xs) : head = tail ↔ xs = [] := by
  have hcap := h.room
  rw [h.tail_eq, ← List.length_eq_zero_iff]
  refine ⟨?_, ?_⟩
  · intro heq
    refine place_injective h.head_lt hcap (Nat.lt_of_le_of_lt (Nat.zero_le _) hcap) ?_
    rw [place_zero h.head_lt, ← heq]
  · intro hzero
    rw [hzero, place_zero h.head_lt]

/-- **Taking the first element** moves the first index on. -/
theorem Keeps.pop (h : Keeps slots head tail (x :: xs)) :
    slots[head]? = some x ∧ Keeps slots (next slots.length head) tail xs := by
  have hroom := h.room
  rw [List.length_cons] at hroom
  refine ⟨?_, ?_⟩
  · have hslot := h.slot 0 (Nat.succ_pos _)
    rwa [place_zero h.head_lt, List.getElem?_cons_zero] at hslot
  · refine ⟨by omega, next_lt h.head_lt, ?_, fun i hi => ?_⟩
    · rw [place_next h.head_lt (by omega), h.tail_eq, List.length_cons]
    · have hslot := h.slot (i + 1) (Nat.succ_lt_succ hi)
      rwa [place_next h.head_lt (by omega), ← List.getElem?_cons_succ (a := x)]

/-- **Adding an element** moves the second one on, if a slot stays free. -/
theorem Keeps.push (h : Keeps slots head tail xs) (hroom : xs.length + 1 < slots.length) (x : α) :
    Keeps (slots.set tail x) head (next slots.length tail) (xs ++ [x]) := by
  have htail := h.tail_lt
  have hlen : (slots.set tail x).length = slots.length := List.length_set
  refine ⟨by rw [hlen]; simpa using hroom, by rw [hlen]; exact h.head_lt, ?_, fun i hi => ?_⟩
  · rw [hlen, h.tail_eq, next_place h.head_lt h.room, List.length_append, List.length_singleton]
  · rw [List.length_append, List.length_singleton] at hi
    rw [hlen]
    rcases Nat.lt_succ_iff_lt_or_eq.mp hi with hold | rfl
    · -- the older elements stand in other slots
      have hne : tail ≠ place slots.length head i := fun heq => by
        rw [h.tail_eq] at heq
        have := place_injective h.head_lt h.room (by omega) heq
        omega
      rw [List.getElem?_set_ne hne, h.slot i hold, List.getElem?_append_left hold]
    · rw [← h.tail_eq, List.getElem?_set_self htail, List.getElem?_append_right (Nat.le_refl _),
        Nat.sub_self, List.getElem?_cons_zero]

/-- In a full ring the tail comes round to the head, and the oldest element goes. -/
theorem Keeps.push_full (h : Keeps slots head tail xs) (hne : xs ≠ [])
    (hfull : xs.length + 1 = slots.length) (x : α) :
    next slots.length tail = head ∧
      Keeps (slots.set tail x) (next slots.length head) (next slots.length tail)
        (xs.tail ++ [x]) := by
  have hhead := h.head_lt
  refine ⟨?_, ?_⟩
  · rw [h.tail_eq, next_place hhead h.room, place, hfull, if_neg (by omega)]
    omega
  · obtain ⟨y, ys, rfl⟩ := List.exists_cons_of_ne_nil hne
    refine h.pop.2.push ?_ x
    rw [List.length_cons] at hfull
    omega

/-! ## The last elements of a history -/

/-- The last `n` elements, or all where there are fewer. -/
def lastN (n : Nat) (xs : List α) : List α := xs.drop (xs.length - n)

@[simp] theorem lastN_nil (n : Nat) : lastN n ([] : List α) = [] := List.drop_nil

/-- There are `n` of them, or all. -/
theorem length_lastN (n : Nat) (xs : List α) : (lastN n xs).length = min xs.length n := by
  rw [lastN, List.length_drop]
  omega

/-- The last elements from those that were kept so far. -/
theorem lastN_concat (n : Nat) (xs : List α) (x : α) :
    lastN (n + 1) (xs ++ [x]) =
      if (lastN (n + 1) xs).length < n + 1 then lastN (n + 1) xs ++ [x]
      else (lastN (n + 1) xs).tail ++ [x] := by
  have hlen := length_lastN (n + 1) xs
  rw [hlen, lastN, List.length_append, List.length_singleton]
  split
  · next hlt =>
    have hzero : xs.length - (n + 1) = 0 := by omega
    have hzero' : xs.length + 1 - (n + 1) = 0 := by omega
    rw [lastN, hzero, hzero', List.drop_zero, List.drop_zero]
  · next hge =>
    have hsucc : xs.length + 1 - (n + 1) = xs.length - (n + 1) + 1 := by omega
    rw [hsucc, List.drop_append_of_le_length (by omega), lastN, List.tail_drop]

end Ring
