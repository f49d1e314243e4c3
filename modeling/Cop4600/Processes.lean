import Mathlib.Data.List.Basic
import Mathlib.Logic.Function.Basic

/-!
# Processes that share pipes

Processes run side by side, and each of their system calls is a step of the system. A
process holds ends of pipes, and a child gets a copy of what its parent holds. Reading
from an empty pipe waits as long as anybody holds its writing end, and gets the empty list
after that; writing waits for room, and ends a process where nobody holds the reading end.
So what a process does depends on what the others have closed.

* `step` — the step of one of the processes;
* `step_close`, `step_read`, … — one lemma for each call;
* `Script` — a process that closes some ends and then makes its calls, one after the other.
-/

namespace Processes

/-! ## Programs -/

/-- An end of a pipe: one to read from, or one to write to. -/
inductive End (χ : Type) : Type where
  | reading (c : χ)
  | writing (c : χ)
  deriving DecidableEq, Repr

/-- What a process has still to do: pipes are called `χ`, elements of type `α` go through
them, and lines of type `β` are printed. -/
inductive Proc (χ α β : Type) : Type where
  | close (e : End χ) (next : Proc χ α β)
  | read (c : χ) (room : Nat) (next : List α → Proc χ α β)
  | write (c : χ) (xs : List α) (next : Proc χ α β)
  | print (line : β) (next : Proc χ α β)
  | fork (parent child : Proc χ α β)
  | exit

/-- A process: the ends that it has open, and what it has still to do. -/
structure Process (χ α β : Type) : Type where
  /-- the ends that it has open -/
  ends : List (End χ)
  /-- what it has still to do -/
  code : Proc χ α β

/-- All processes, what is in the pipes, and what has been printed. -/
structure System (χ α β : Type) : Type where
  /-- in the order in which they were forked -/
  processes : List (Process χ α β)
  /-- what has been written and not been read -/
  pipes : χ → List α
  /-- the lines so far -/
  printed : List β

variable {χ α β : Type} [DecidableEq χ]

/-- Somebody holds this end. -/
def System.Held (s : System χ α β) (e : End χ) : Prop := ∃ p ∈ s.processes, e ∈ p.ends

instance (s : System χ α β) (e : End χ) : Decidable (s.Held e) :=
  inferInstanceAs (Decidable (∃ p ∈ s.processes, e ∈ p.ends))

/-- Process `i` becomes another one. -/
def System.become (s : System χ α β) (i : Nat) (p : Process χ α β) : System χ α β :=
  { s with processes := s.processes.set i p }

/-- A system call of process `i`, in pipes with room for `capacity`. `none` is a process
that waits or has exited, and a call on an end that the process does not hold. -/
def System.step (capacity : Nat) (s : System χ α β) (i : Nat) : Option (System χ α β) :=
  match s.processes[i]? with
  | none => none
  | some ⟨ends, .close e next⟩ => some (s.become i ⟨ends.erase e, next⟩)
  | some ⟨ends, .read c room next⟩ =>
    if .reading c ∉ ends then none
    else if s.pipes c = [] then
      if s.Held (.writing c) then none else some (s.become i ⟨ends, next []⟩)
    else
      some { s.become i ⟨ends, next ((s.pipes c).take room)⟩ with
        pipes := Function.update s.pipes c ((s.pipes c).drop room) }
  | some ⟨ends, .write c xs next⟩ =>
    if .writing c ∉ ends then none
    else if s.Held (.reading c) then
      if (s.pipes c).length + xs.length ≤ capacity then
        some { s.become i ⟨ends, next⟩ with pipes := Function.update s.pipes c (s.pipes c ++ xs) }
      else none
    else some (s.become i ⟨[], .exit⟩)
  | some ⟨ends, .print line next⟩ =>
    some { s.become i ⟨ends, next⟩ with printed := s.printed ++ [line] }
  | some ⟨ends, .fork parent child⟩ =>
    some { s with processes := s.processes.set i ⟨ends, parent⟩ ++ [⟨ends, child⟩] }
  | some ⟨ends, .exit⟩ => if ends = [] then none else some (s.become i ⟨[], .exit⟩)

/-! ## One call -/

section

variable {s : System χ α β} {i capacity : Nat} {ends : List (End χ)} {next : Proc χ α β}

/-- Where there is no process, nothing happens. -/
theorem step_nobody (h : s.processes[i]? = none) : s.step capacity i = none := by
  rw [System.step, h]

/-- `close` takes an end from the process. -/
theorem step_close {e : End χ} (h : s.processes[i]? = some ⟨ends, .close e next⟩) :
    s.step capacity i = some (s.become i ⟨ends.erase e, next⟩) := by
  rw [System.step, h]

/-- A process that waits for somebody to write. -/
theorem step_read_wait {c : χ} {room : Nat} {next : List α → Proc χ α β}
    (h : s.processes[i]? = some ⟨ends, .read c room next⟩) (hempty : s.pipes c = [])
    (hheld : s.Held (.writing c)) : s.step capacity i = none := by
  rw [System.step, h]
  dsimp only
  rw [if_pos hempty, if_pos hheld, ite_self]

/-- A process that reads all there is. -/
theorem step_read {c : χ} {room : Nat} {next : List α → Proc χ α β} {xs : List α}
    (h : s.processes[i]? = some ⟨ends, .read c room next⟩) (hend : .reading c ∈ ends)
    (hpipe : s.pipes c = xs) (hne : xs ≠ []) (hle : xs.length ≤ room) :
    s.step capacity i =
      some { s.become i ⟨ends, next xs⟩ with pipes := Function.update s.pipes c [] } := by
  rw [System.step, h]
  dsimp only
  rw [if_neg (not_not.mpr hend), hpipe, if_neg hne, List.take_of_length_le hle,
    List.drop_eq_nil_of_le hle]

/-- A process that writes into an empty pipe. -/
theorem step_write {c : χ} {xs : List α} (h : s.processes[i]? = some ⟨ends, .write c xs next⟩)
    (hend : .writing c ∈ ends) (hheld : s.Held (.reading c)) (hempty : s.pipes c = [])
    (hroom : xs.length ≤ capacity) :
    s.step capacity i =
      some { s.become i ⟨ends, next⟩ with pipes := Function.update s.pipes c xs } := by
  rw [System.step, h]
  dsimp only
  rw [if_neg (not_not.mpr hend), if_pos hheld, hempty, List.length_nil, Nat.zero_add,
    if_pos hroom, List.nil_append]

/-- A print adds a line to the output. -/
theorem step_print {line : β} (h : s.processes[i]? = some ⟨ends, .print line next⟩) :
    s.step capacity i = some { s.become i ⟨ends, next⟩ with printed := s.printed ++ [line] } := by
  rw [System.step, h]

/-- `fork` adds a process, which has the same ends open. -/
theorem step_fork {parent child : Proc χ α β}
    (h : s.processes[i]? = some ⟨ends, .fork parent child⟩) :
    s.step capacity i =
      some { s with processes := s.processes.set i ⟨ends, parent⟩ ++ [⟨ends, child⟩] } := by
  rw [System.step, h]

/-- `exit` closes all of them. -/
theorem step_exit (h : s.processes[i]? = some ⟨ends, .exit⟩) (hne : ends ≠ []) :
    s.step capacity i = some (s.become i ⟨[], .exit⟩) := by
  rw [System.step, h]
  dsimp only
  rw [if_neg hne]

/-- A process that has exited has nothing more to do. -/
theorem step_exited (h : s.processes[i]? = some ⟨[], .exit⟩) : s.step capacity i = none := by
  rw [System.step, h]
  rfl

end

/-! ## Scripts -/

/-- Close these ends, and go on. -/
def closeAll (es : List (End χ)) (next : Proc χ α β) : Proc χ α β := es.foldr .close next

/-- A process without a `fork`: the ends it closes, and what it has still to do at each call
after that, up to its `exit`. -/
structure Script (χ α β : Type) : Type where
  closes : List (End χ)
  calls : List (Proc χ α β)

/-- The process after `k` of its calls. -/
def Script.at (script : Script χ α β) (ends : List (End χ)) (k : Nat) : Process χ α β where
  ends :=
    if k ≤ script.closes.length + script.calls.length then
      (script.closes.take k).foldl List.erase ends
    else []
  code :=
    closeAll (script.closes.drop k) (script.calls[k - script.closes.length]?.getD .exit)

variable {s : System χ α β} {i capacity k : Nat} {ends : List (End χ)} (script : Script χ α β)

/-- At the beginning of a script each call closes an end. -/
theorem step_closing (h : s.processes[i]? = some (script.at ends k))
    (hk : k < script.closes.length) :
    s.step capacity i = some (s.become i (script.at ends (k + 1))) := by
  have hle : k + 1 ≤ script.closes.length + script.calls.length := by omega
  rw [Script.at, if_pos (Nat.le_of_succ_le hle), List.drop_eq_getElem_cons hk, closeAll,
    List.foldr_cons] at h
  rw [step_close h, Script.at, if_pos hle, List.take_succ_eq_append_getElem hk,
    List.foldl_concat, Nat.sub_eq_zero_of_le hk, Nat.sub_eq_zero_of_le (Nat.le_of_lt hk)]
  rfl

variable {script}

/-- What is not closed is held until the process exits. -/
theorem Script.mem_at {e : End χ} (hk : k ≤ script.closes.length + script.calls.length)
    (he : e ∈ ends) (hes : e ∉ script.closes) : e ∈ (script.at ends k).ends := by
  have hmem : ∀ (fs ends : List (End χ)), e ∉ fs → e ∈ ends → e ∈ fs.foldl List.erase ends := by
    intro fs
    induction fs with
    | nil => exact fun _ _ h => h
    | cons f fs ih =>
      intro ends hfs h
      rw [List.mem_cons, not_or] at hfs
      exact ih _ hfs.2 ((List.mem_erase_of_ne hfs.1).mpr h)
  rw [Script.at]
  dsimp only
  rw [if_pos hk]
  exact hmem _ _ (fun h => hes (List.mem_of_mem_take h)) he

end Processes
