import Cop4600.PartialRuns
import Cop4600.Printing
import Cop4600.Processes
import Cop4600.SelectionSort
import Mathlib.Data.Int.Order.Basic

/-!
# Three processes and four pipes

The program of the third part of exercise 7. `main` forks twice: its parent sorts five
numbers, the first child finds the median of what the parent has sorted, and the second
child, which is what is left of `main`, sends the numbers, and prints what it gets. Each of
the three closes the ends that it does not use, at a time of its own.

In every order of steps, the three are where three counters say, and one goes on exactly if
the counters allow it (`sorter_goes`, `sorter_waits`, and so on). So nobody waits for ever or
is killed by a pipe that the others have closed (`numbers_are_sorted`).
-/

namespace Cop4600

open PartialRuns Processes SelectionSort

/-! ## The program -/

/-- The four pipes. The digits say from where to where: 0 is the last child, 1 is `sorter`
and 2 is `finder`. -/
inductive PipeName : Type where
  | p01
  | p10
  | p12
  | p20
  deriving DecidableEq, Repr

namespace Pipeline

/-- What `read` makes of an array. -/
def overwrite (nums got : List Int) : List Int := got ++ nums.drop got.length

/-- `sorter(pipes)`: five numbers are read and sorted, and go to the last child and to
`finder`. -/
def sorter (next : Proc PipeName Int Bytes) : Proc PipeName Int Bytes :=
  .read .p01 5 fun nums => .write .p10 (sort 5 nums) (.write .p12 (sort 5 nums) next)

/-- `finder(pipes)`: the third of the sorted numbers goes to the last child. -/
def finder (next : Proc PipeName Int Bytes) : Proc PipeName Int Bytes :=
  .read .p12 5 fun nums => .write .p20 ((nums.drop 2).take 1) next

/-- The line of the sorted numbers. -/
def sortedLine (nums : List Int) : Bytes :=
  text "Sorted list of ints: " ++ (text "  ").intercalate (nums.map formatInt) ++ text "\n"

/-- The line of the median; of the array only the first number is printed. -/
def medianLine (nums : List Int) : Bytes :=
  text "Median: " ++ (nums.take 1).flatMap formatInt ++ text "\n"

/-- What is left of `main` when the sorted numbers are there. -/
def report (nums : List Int) : Proc PipeName Int Bytes :=
  .print (sortedLine nums)
    (.read .p20 1 fun got => .print (medianLine (overwrite nums got)) .exit)

/-- What is left of `main` in the second child. -/
def printer (nums : List Int) : Proc PipeName Int Bytes :=
  .write .p01 nums (.read .p10 5 fun got => report (overwrite nums got))

/-- What the parent closes, in this order, before it calls `sorter`. -/
def sorterCloses : List (End PipeName) :=
  [.writing .p01, .reading .p10, .reading .p12, .reading .p20, .writing .p20]

/-- What the first child closes before it calls `finder`. -/
def finderCloses : List (End PipeName) :=
  [.reading .p01, .writing .p01, .reading .p10, .writing .p10, .writing .p12, .reading .p20]

/-- What the second child closes before it writes. -/
def printerCloses : List (End PipeName) :=
  [.reading .p01, .writing .p10, .reading .p12, .writing .p12, .writing .p20]

/-- `main` after the calls of `pipe`; `fork` gives the parent a number that is not zero. -/
def main (nums : List Int) : Proc PipeName Int Bytes :=
  .fork (closeAll sorterCloses (sorter .exit))
    (.fork (closeAll finderCloses (finder .exit)) (closeAll printerCloses (printer nums)))

/-- Both ends of each pipe. -/
def fds : List (End PipeName) :=
  [.reading .p01, .writing .p01, .reading .p10, .writing .p10, .reading .p12, .writing .p12,
    .reading .p20, .writing .p20]

/-- One process has all ends open, and nothing has been written or printed. -/
def start (nums : List Int) : System PipeName Int Bytes := ⟨[⟨fds, main nums⟩], fun _ => [], []⟩

/-! ## Where the processes are -/

/-- The calls of the parent behind its `fork`: what is still to be done at each of them,
once the numbers have come that it waits for. -/
def sorterScript (nums : List Int) : Script PipeName Int Bytes where
  closes := sorterCloses
  calls := [sorter .exit, .write .p10 (sort 5 nums) (.write .p12 (sort 5 nums) .exit),
    .write .p12 (sort 5 nums) .exit]

/-- `&nums[2]` of what has been sorted. -/
def median (nums : List Int) : List Int := ((sort 5 nums).drop 2).take 1

/-- The calls of the first child behind its `fork`. -/
def finderScript (nums : List Int) : Script PipeName Int Bytes where
  closes := finderCloses
  calls := [finder .exit, .write .p20 (median nums) .exit]

/-- The calls of the second child. -/
def printerScript (nums : List Int) : Script PipeName Int Bytes where
  closes := printerCloses
  calls := [printer nums, .read .p10 5 fun got => report (overwrite nums got),
    report (sort 5 nums),
    .read .p20 1 fun got => .print (medianLine (overwrite (sort 5 nums) got)) .exit,
    .print (medianLine (median nums)) .exit]

/-- What goes through a pipe. -/
def load (nums : List Int) : PipeName → List Int
  | .p01 => nums
  | .p10 | .p12 => sort 5 nums
  | .p20 => median nums

/-- The pipe has been written and not been read, after so many calls of the three. -/
def Loaded (a b c : Nat) : PipeName → Prop
  | .p01 => 6 ≤ c ∧ a ≤ 5
  | .p10 => 7 ≤ a ∧ c ≤ 6
  | .p12 => 8 ≤ a ∧ b ≤ 6
  | .p20 => 8 ≤ b ∧ c ≤ 8

instance (a b c : Nat) : ∀ p, Decidable (Loaded a b c p)
  | .p01 => inferInstanceAs (Decidable (6 ≤ c ∧ a ≤ 5))
  | .p10 => inferInstanceAs (Decidable (7 ≤ a ∧ c ≤ 6))
  | .p12 => inferInstanceAs (Decidable (8 ≤ a ∧ b ≤ 6))
  | .p20 => inferInstanceAs (Decidable (8 ≤ b ∧ c ≤ 8))

/-- What is in a pipe after so many calls of the three. -/
def contents (nums : List Int) (a b c : Nat) (p : PipeName) : List Int :=
  if Loaded a b c p then load nums p else []

/-- What has been printed after `c` calls of the last child. -/
def lines (nums : List Int) (c : Nat) : List Bytes :=
  if c ≤ 7 then []
  else if c ≤ 9 then [sortedLine (sort 5 nums)]
  else [sortedLine (sort 5 nums), medianLine (median nums)]

/-- The system after the first `fork`. -/
def forked (nums : List Int) (a : Nat) : System PipeName Int Bytes where
  processes :=
    [(sorterScript nums).at fds a,
      ⟨fds, .fork (closeAll finderCloses (finder .exit)) (closeAll printerCloses (printer nums))⟩]
  pipes := fun _ => []
  printed := []

/-- The system after both, and so many calls of each process. -/
def running (nums : List Int) (a b c : Nat) : System PipeName Int Bytes where
  processes :=
    [(sorterScript nums).at fds a, (finderScript nums).at fds b, (printerScript nums).at fds c]
  pipes := contents nums a b c
  printed := lines nums c

/-- How far the three can be: what a process reads has been written before. The sorter has
read after 6 calls and written after 7 and 8, the finder has read after 7 and written after 8,
and the last child has written after 6 and read after 7 and 9. -/
def Possible (a b c : Nat) : Prop :=
  (a ≤ 9 ∧ b ≤ 9 ∧ c ≤ 11) ∧ (6 ≤ a → 6 ≤ c) ∧ (7 ≤ c → 7 ≤ a) ∧ (7 ≤ b → 8 ≤ a) ∧
    (9 ≤ c → 8 ≤ b)

variable {nums : List Int} {a b c a' b' c' capacity : Nat} {p : PipeName}
  {s : System PipeName Int Bytes}

/-- The system is where the counters say if its processes, its pipes and its output are. -/
theorem eq_running
    (hprocesses : s.processes =
      [(sorterScript nums).at fds a, (finderScript nums).at fds b, (printerScript nums).at fds c])
    (hpipes : s.pipes = contents nums a b c) (hprinted : s.printed = lines nums c) :
    s = running nums a b c := by
  rw [running, ← hprocesses, ← hpipes, ← hprinted]

/-! ## Pipes -/

/-- Counters that load the same pipes say the same of what is in them. -/
theorem contents_congr (h : ∀ q, Loaded a b c q ↔ Loaded a' b' c' q) :
    contents nums a b c = contents nums a' b' c' :=
  funext fun q => if_congr (h q) rfl rfl

/-- A pipe that has been written and not been read holds what goes through it. -/
theorem pipe_loaded (h : Loaded a b c p) : (running nums a b c).pipes p = load nums p := if_pos h

/-- Before that and afterwards it holds nothing. -/
theorem pipe_empty (h : ¬Loaded a b c p) : (running nums a b c).pipes p = [] := if_neg h

/-- A call changes the pipe that it is about. -/
theorem update_contents (h : ∀ q ≠ p, Loaded a b c q ↔ Loaded a' b' c' q) {xs : List Int}
    (hxs : (running nums a' b' c').pipes p = xs) :
    Function.update (contents nums a b c) p xs = contents nums a' b' c' := by
  funext q
  by_cases hq : q = p
  · rw [hq, Function.update_self, ← hxs, running]
  · rw [Function.update_of_ne hq, contents, contents, if_congr (h q hq) rfl rfl]

/-- The sorter loads or empties a pipe with its sixth, seventh and eighth call only: it
reads from the last child, and writes to it and to the finder. -/
theorem loaded_sorter {q : PipeName} (h5 : a = 5 → q ≠ .p01) (h6 : a = 6 → q ≠ .p10)
    (h7 : a = 7 → q ≠ .p12) : Loaded a b c q ↔ Loaded (a + 1) b c q := by
  cases q with
  | p01 =>
    have ha : a ≠ 5 := fun ha => h5 ha rfl
    exact and_congr_right' (by omega)
  | p10 =>
    have ha : a ≠ 6 := fun ha => h6 ha rfl
    exact and_congr_left' (by omega)
  | p12 =>
    have ha : a ≠ 7 := fun ha => h7 ha rfl
    exact and_congr_left' (by omega)
  | p20 => exact Iff.rfl

/-- The finder does with its seventh and its eighth call. -/
theorem loaded_finder {q : PipeName} (h6 : b = 6 → q ≠ .p12) (h7 : b = 7 → q ≠ .p20) :
    Loaded a b c q ↔ Loaded a (b + 1) c q := by
  cases q with
  | p01 | p10 => exact Iff.rfl
  | p12 =>
    have hb : b ≠ 6 := fun hb => h6 hb rfl
    exact and_congr_right' (by omega)
  | p20 =>
    have hb : b ≠ 7 := fun hb => h7 hb rfl
    exact and_congr_left' (by omega)

/-- The last child writes with its sixth call, and reads with its seventh and its ninth. -/
theorem loaded_printer {q : PipeName} (h5 : c = 5 → q ≠ .p01) (h6 : c = 6 → q ≠ .p10)
    (h8 : c = 8 → q ≠ .p20) : Loaded a b c q ↔ Loaded a b (c + 1) q := by
  cases q with
  | p01 =>
    have hc : c ≠ 5 := fun hc => h5 hc rfl
    exact and_congr_left' (by omega)
  | p10 =>
    have hc : c ≠ 6 := fun hc => h6 hc rfl
    exact and_congr_right' (by omega)
  | p12 => exact Iff.rfl
  | p20 =>
    have hc : c ≠ 8 := fun hc => h8 hc rfl
    exact and_congr_right' (by omega)

/-! ## Ends -/

section

variable {e : End PipeName}

/-- The ends that the sorter does not close are its own until it exits. -/
theorem mem_sorter (ha : a ≤ 8) (he : e ∈ fds) (hes : e ∉ sorterCloses) :
    e ∈ ((sorterScript nums).at fds a).ends :=
  Script.mem_at ha he hes

/-- The ends that the finder does not close are its own until it exits. -/
theorem mem_finder (hb : b ≤ 8) (he : e ∈ fds) (hes : e ∉ finderCloses) :
    e ∈ ((finderScript nums).at fds b).ends :=
  Script.mem_at hb he hes

/-- The ends that the last child does not close are its own until it exits. -/
theorem mem_printer (hc : c ≤ 10) (he : e ∈ fds) (hes : e ∉ printerCloses) :
    e ∈ ((printerScript nums).at fds c).ends :=
  Script.mem_at hc he hes

/-- What the sorter has open is open, which is all that the others can notice of it. -/
theorem held_sorter (h : e ∈ ((sorterScript nums).at fds a).ends) : (running nums a b c).Held e :=
  ⟨_, List.mem_cons_self, h⟩

/-- What the finder has open is open. -/
theorem held_finder (h : e ∈ ((finderScript nums).at fds b).ends) : (running nums a b c).Held e :=
  ⟨_, List.mem_cons_of_mem _ List.mem_cons_self, h⟩

/-- What the last child has open is open. -/
theorem held_printer (h : e ∈ ((printerScript nums).at fds c).ends) :
    (running nums a b c).Held e :=
  ⟨_, List.mem_cons_of_mem _ (List.mem_cons_of_mem _ List.mem_cons_self), h⟩

end

/-! ## Calls -/

/-- Sorting keeps how many numbers there are. -/
theorem length_sort (hlength : nums.length = 5) : (sort 5 nums).length = 5 := by
  have hperm := perm_sort (List.ne_nil_of_length_eq_add_one hlength)
  rw [hlength] at hperm
  exact hperm.length_eq.trans hlength

/-- There is one median of five numbers. -/
theorem length_median (hlength : nums.length = 5) : (median nums).length = 1 := by
  rw [median, List.length_take, List.length_drop, length_sort hlength]
  rfl

/-- Five numbers go through each pipe but the last one, through which the median goes. -/
theorem length_load (hlength : nums.length = 5) :
    ∀ p, (load nums p).length = if p = .p20 then 1 else 5
  | .p01 => hlength
  | .p10 | .p12 => length_sort hlength
  | .p20 => length_median hlength

/-- A pipe that is loaded is not empty, so that a `read` from it does not wait. -/
theorem load_ne_nil (hlength : nums.length = 5) : load nums p ≠ [] := by
  apply List.ne_nil_of_length_pos
  rw [length_load hlength]
  split <;> decide

/-- What goes through a pipe finds room in it if five numbers do. -/
theorem length_load_le (hlength : nums.length = 5) : (load nums p).length ≤ 5 := by
  rw [length_load hlength]
  split <;> decide

section

variable {i : Nat} {ends : List (End PipeName)}

/-- A call of `write` whose process is then where the counters say. -/
theorem running_write {next : Proc PipeName Int Bytes} (hlength : nums.length = 5)
    (hcapacity : 5 ≤ capacity)
    (h : (running nums a b c).processes[i]? = some ⟨ends, .write p (load nums p) next⟩)
    (hend : .writing p ∈ ends) (hheld : (running nums a b c).Held (.reading p))
    (hbefore : ¬Loaded a b c p) (hafter : Loaded a' b' c' p)
    (hothers : ∀ q ≠ p, Loaded a b c q ↔ Loaded a' b' c' q)
    (hprocesses : (running nums a b c).processes.set i ⟨ends, next⟩ =
      (running nums a' b' c').processes)
    (hlines : lines nums c = lines nums c') :
    (running nums a b c).step capacity i = some (running nums a' b' c') := by
  rw [step_write h hend hheld (pipe_empty hbefore) ((length_load_le hlength).trans hcapacity)]
  exact congrArg some (eq_running hprocesses (update_contents hothers (pipe_loaded hafter)) hlines)

/-- A call of `read` that gets what has been written. -/
theorem running_read {next : List Int → Proc PipeName Int Bytes} {room : Nat}
    (hlength : nums.length = 5)
    (h : (running nums a b c).processes[i]? = some ⟨ends, .read p room next⟩)
    (hend : .reading p ∈ ends) (hroom : (load nums p).length = room)
    (hbefore : Loaded a b c p) (hafter : ¬Loaded a' b' c' p)
    (hothers : ∀ q ≠ p, Loaded a b c q ↔ Loaded a' b' c' q)
    (hprocesses : (running nums a b c).processes.set i ⟨ends, next (load nums p)⟩ =
      (running nums a' b' c').processes)
    (hlines : lines nums c = lines nums c') :
    (running nums a b c).step capacity i = some (running nums a' b' c') := by
  rw [step_read h hend (pipe_loaded hbefore) (load_ne_nil hlength) hroom.le]
  exact congrArg some (eq_running hprocesses (update_contents hothers (pipe_empty hafter)) hlines)

/-- A print, which is about no pipe. -/
theorem running_print {line : Bytes} {next : Proc PipeName Int Bytes}
    (h : (running nums a b c).processes[i]? = some ⟨ends, .print line next⟩)
    (hloaded : ∀ q, Loaded a b c q ↔ Loaded a' b' c' q)
    (hprocesses : (running nums a b c).processes.set i ⟨ends, next⟩ =
      (running nums a' b' c').processes)
    (hlines : lines nums c ++ [line] = lines nums c') :
    (running nums a b c).step capacity i = some (running nums a' b' c') := by
  rw [step_print h]
  exact congrArg some (eq_running hprocesses (contents_congr hloaded) hlines)

end

/-! ## The sorter -/

/-- **The sorter goes on** where the counters allow it. -/
theorem sorter_goes (hcapacity : 5 ≤ capacity) (hlength : nums.length = 5)
    (h : Possible a b c) (hnext : Possible (a + 1) b c) :
    (running nums a b c).step capacity 0 = some (running nums (a + 1) b c) := by
  obtain ⟨-, hp01, hp10, hp12, hp20⟩ := h
  obtain ⟨⟨ha, -, -⟩, hwritten, -⟩ := hnext
  -- a `close`, the `read`, one of the two calls of `write`, or the `exit`
  have hcall : a < 5 ∨ a = 5 ∨ a = 6 ∨ a = 7 ∨ a = 8 := by omega
  rcases hcall with ha | rfl | rfl | rfl | rfl
  · rw [step_closing (sorterScript nums) rfl ha]
    refine congrArg some (eq_running rfl (contents_congr fun q => loaded_sorter ?_ ?_ ?_) rfl) <;>
      omega
  · have hend : .reading .p01 ∈ ((sorterScript nums).at fds 5).ends :=
      mem_sorter (by decide) (by decide) (by decide)
    refine running_read hlength rfl hend hlength ⟨hwritten (by decide), le_rfl⟩ ?_ ?_ rfl rfl
    · exact fun h => absurd h.2 (by decide)
    · exact fun q hq => loaded_sorter (fun _ => hq) nofun nofun
  · have hend : .writing .p10 ∈ ((sorterScript nums).at fds 6).ends :=
      mem_sorter (by decide) (by decide) (by decide)
    have hreader : .reading .p10 ∈ ((printerScript nums).at fds c).ends :=
      mem_printer (by omega) (by decide) (by decide)
    refine running_write hlength hcapacity rfl hend (held_printer hreader) ?_ ?_ ?_ rfl rfl
    · exact fun h => absurd h.1 (by decide)
    · exact ⟨le_rfl, by omega⟩
    · exact fun q hq => loaded_sorter nofun (fun _ => hq) nofun
  · have hend : .writing .p12 ∈ ((sorterScript nums).at fds 7).ends :=
      mem_sorter (by decide) (by decide) (by decide)
    have hreader : .reading .p12 ∈ ((finderScript nums).at fds b).ends :=
      mem_finder (by omega) (by decide) (by decide)
    refine running_write hlength hcapacity rfl hend (held_finder hreader) ?_ ?_ ?_ rfl rfl
    · exact fun h => absurd h.1 (by decide)
    · exact ⟨le_rfl, by omega⟩
    · exact fun q hq => loaded_sorter nofun nofun fun _ => hq
  · have hend : .reading .p01 ∈ ((sorterScript nums).at fds 8).ends :=
      mem_sorter (by decide) (by decide) (by decide)
    rw [step_exit rfl (List.ne_nil_of_mem hend)]
    refine congrArg some (eq_running rfl (contents_congr fun q => ?_) rfl)
    exact loaded_sorter nofun nofun nofun

/-- A sorter that waits for the numbers waits for a process that holds the other end. -/
theorem sorter_waits (h : Possible a b c) (hnext : ¬Possible (a + 1) b c) :
    (running nums a b c).step capacity 0 = none := by
  have hcall : a = 9 ∨ a = 5 ∧ c < 6 := by
    rw [Possible] at h hnext
    omega
  rcases hcall with rfl | ⟨rfl, hc⟩
  · exact step_exited rfl
  · have hwriter : .writing .p01 ∈ ((printerScript nums).at fds c).ends :=
      mem_printer (by omega) (by decide) (by decide)
    have hempty : (running nums 5 b c).pipes .p01 = [] :=
      pipe_empty fun h => absurd h.1 (not_le.mpr hc)
    exact step_read_wait rfl hempty (held_printer hwriter)

/-! ## The finder -/

/-- **The finder goes on** where the counters allow it. -/
theorem finder_goes (hcapacity : 5 ≤ capacity) (hlength : nums.length = 5)
    (h : Possible a b c) (hnext : Possible a (b + 1) c) :
    (running nums a b c).step capacity 1 = some (running nums a (b + 1) c) := by
  obtain ⟨-, hp01, hp10, hp12, hp20⟩ := h
  obtain ⟨⟨-, hb, -⟩, -, -, hwritten, -⟩ := hnext
  -- a `close`, the `read`, the `write`, or the `exit`
  have hcall : b < 6 ∨ b = 6 ∨ b = 7 ∨ b = 8 := by omega
  rcases hcall with hb | rfl | rfl | rfl
  · rw [step_closing (finderScript nums) rfl hb]
    refine congrArg some (eq_running rfl (contents_congr fun q => loaded_finder ?_ ?_) rfl) <;>
      omega
  · have hend : .reading .p12 ∈ ((finderScript nums).at fds 6).ends :=
      mem_finder (by decide) (by decide) (by decide)
    refine running_read hlength rfl hend (length_sort hlength) ⟨hwritten (by decide), le_rfl⟩ ?_ ?_
      rfl rfl
    · exact fun h => absurd h.2 (by decide)
    · exact fun q hq => loaded_finder (fun _ => hq) nofun
  · have hend : .writing .p20 ∈ ((finderScript nums).at fds 7).ends :=
      mem_finder (by decide) (by decide) (by decide)
    have hreader : .reading .p20 ∈ ((printerScript nums).at fds c).ends :=
      mem_printer (by omega) (by decide) (by decide)
    refine running_write hlength hcapacity rfl hend (held_printer hreader) ?_ ?_ ?_ rfl rfl
    · exact fun h => absurd h.1 (by decide)
    · exact ⟨le_rfl, by omega⟩
    · exact fun q hq => loaded_finder nofun fun _ => hq
  · have hend : .writing .p20 ∈ ((finderScript nums).at fds 8).ends :=
      mem_finder (by decide) (by decide) (by decide)
    rw [step_exit rfl (List.ne_nil_of_mem hend)]
    refine congrArg some (eq_running rfl (contents_congr fun q => ?_) rfl)
    exact loaded_finder nofun nofun

/-- A finder that waits for the sorted numbers waits for a sorter that will write them. -/
theorem finder_waits (h : Possible a b c) (hnext : ¬Possible a (b + 1) c) :
    (running nums a b c).step capacity 1 = none := by
  have hcall : b = 9 ∨ b = 6 ∧ a < 8 := by
    rw [Possible] at h hnext
    omega
  rcases hcall with rfl | ⟨rfl, ha⟩
  · exact step_exited rfl
  · have hwriter : .writing .p12 ∈ ((sorterScript nums).at fds a).ends :=
      mem_sorter (Nat.le_of_lt ha) (by decide) (by decide)
    have hempty : (running nums a 6 c).pipes .p12 = [] :=
      pipe_empty fun h => absurd h.1 (not_le.mpr ha)
    exact step_read_wait rfl hempty (held_sorter hwriter)

/-! ## The printer -/

/-- A `read` that fills the array leaves nothing of what was there. -/
theorem overwrite_of_length_le {got : List Int} (h : nums.length ≤ got.length) :
    overwrite nums got = got := by
  rw [overwrite, List.drop_eq_nil_of_le h, List.append_nil]

/-- Only the first number of the array is printed. -/
theorem medianLine_overwrite (hlength : nums.length = 5) :
    medianLine (overwrite (sort 5 nums) (median nums)) = medianLine (median nums) := by
  have hone := length_median hlength
  rw [medianLine, medianLine, overwrite, List.take_append_of_le_length hone.ge]

/-- **The last child goes on** where the counters allow it. -/
theorem printer_goes (hcapacity : 5 ≤ capacity) (hlength : nums.length = 5)
    (h : Possible a b c) (hnext : Possible a b (c + 1)) :
    (running nums a b c).step capacity 2 = some (running nums a b (c + 1)) := by
  obtain ⟨-, hp01, hp10, hp12, hp20⟩ := h
  obtain ⟨⟨-, -, hc⟩, -, hsorted, -, hfound⟩ := hnext
  -- a `close`, the `write`, `read` and print for each line, or the `exit`
  have hcall : c < 5 ∨ c = 5 ∨ c = 6 ∨ c = 7 ∨ c = 8 ∨ c = 9 ∨ c = 10 := by omega
  rcases hcall with hc | rfl | rfl | rfl | rfl | rfl | rfl
  · rw [step_closing (printerScript nums) rfl hc]
    refine congrArg some (eq_running rfl (contents_congr fun q => loaded_printer ?_ ?_ ?_) ?_)
    · omega
    · omega
    · omega
    · exact (if_pos (by omega)).trans (if_pos (by omega)).symm
  · have hend : .writing .p01 ∈ ((printerScript nums).at fds 5).ends :=
      mem_printer (by decide) (by decide) (by decide)
    have hreader : .reading .p01 ∈ ((sorterScript nums).at fds a).ends :=
      mem_sorter (by omega) (by decide) (by decide)
    refine running_write hlength hcapacity rfl hend (held_sorter hreader) ?_ ?_ ?_ rfl rfl
    · exact fun h => absurd h.1 (by decide)
    · exact ⟨le_rfl, by omega⟩
    · exact fun q hq => loaded_printer (fun _ => hq) nofun nofun
  · have hend : .reading .p10 ∈ ((printerScript nums).at fds 6).ends :=
      mem_printer (by decide) (by decide) (by decide)
    refine running_read hlength rfl hend (length_sort hlength) ⟨hsorted (by decide), le_rfl⟩ ?_ ?_
      ?_ rfl
    · exact fun h => absurd h.2 (by decide)
    · exact fun q hq => loaded_printer nofun (fun _ => hq) nofun
    · dsimp only [load]
      rw [overwrite_of_length_le (hlength.trans (length_sort hlength).symm).le]
      rfl
  · refine running_print rfl (fun q => ?_) rfl rfl
    exact loaded_printer nofun nofun nofun
  · have hend : .reading .p20 ∈ ((printerScript nums).at fds 8).ends :=
      mem_printer (by decide) (by decide) (by decide)
    refine running_read hlength rfl hend (length_median hlength) ⟨hfound (by decide), le_rfl⟩ ?_ ?_
      ?_ rfl
    · exact fun h => absurd h.2 (by decide)
    · exact fun q hq => loaded_printer nofun nofun fun _ => hq
    · dsimp only [load]
      rw [medianLine_overwrite hlength]
      rfl
  · refine running_print rfl (fun q => ?_) rfl rfl
    exact loaded_printer nofun nofun nofun
  · have hend : .writing .p01 ∈ ((printerScript nums).at fds 10).ends :=
      mem_printer (by decide) (by decide) (by decide)
    rw [step_exit rfl (List.ne_nil_of_mem hend)]
    refine congrArg some (eq_running rfl (contents_congr fun q => ?_) rfl)
    exact loaded_printer nofun nofun nofun

/-- A last child that waits for the sorter or for the finder waits for a process that holds
the other end. -/
theorem printer_waits (h : Possible a b c) (hnext : ¬Possible a b (c + 1)) :
    (running nums a b c).step capacity 2 = none := by
  have hcall : c = 11 ∨ c = 6 ∧ a < 7 ∨ c = 8 ∧ b < 8 := by
    rw [Possible] at h hnext
    omega
  rcases hcall with rfl | ⟨rfl, ha⟩ | ⟨rfl, hb⟩
  · exact step_exited rfl
  · have hwriter : .writing .p10 ∈ ((sorterScript nums).at fds a).ends :=
      mem_sorter (by omega) (by decide) (by decide)
    have hempty : (running nums a b 6).pipes .p10 = [] :=
      pipe_empty fun h => absurd h.1 (not_le.mpr ha)
    exact step_read_wait rfl hempty (held_sorter hwriter)
  · have hwriter : .writing .p20 ∈ ((finderScript nums).at fds b).ends :=
      mem_finder (by omega) (by decide) (by decide)
    have hempty : (running nums a b 8).pipes .p20 = [] :=
      pipe_empty fun h => absurd h.1 (not_le.mpr hb)
    exact step_read_wait rfl hempty (held_finder hwriter)

/-! ## Every run -/

/-- Where the system is after so many steps. -/
inductive Reached (nums : List Int) : Nat → System PipeName Int Bytes → Prop where
  | start : Reached nums 0 (start nums)
  | forked (a : Nat) (ha : a ≤ 5) : Reached nums (a + 1) (forked nums a)
  | running (a b c : Nat) (h : Possible a b c) {n : Nat} (hn : n = 2 + a + b + c) :
    Reached nums n (running nums a b c)

/-- The first `fork`. -/
theorem start_goes : (start nums).step capacity 0 = some (forked nums 0) := step_fork rfl

/-- The sorter need not wait for the second `fork` to close its ends. -/
theorem forked_goes (ha : a < 5) :
    (forked nums a).step capacity 0 = some (forked nums (a + 1)) :=
  step_closing (sorterScript nums) rfl ha

/-- The second `fork`, before which there are no numbers to sort. -/
theorem forked_forks (ha : a ≤ 5) :
    (forked nums a).step capacity 1 = some (running nums a 0 0) := by
  have hnothing : ∀ q, ¬Loaded a 0 0 q := by
    intro q
    cases q <;> intro h <;> rw [Loaded] at h <;> omega
  rw [step_fork rfl]
  refine congrArg some (eq_running rfl (funext fun q => ?_) rfl)
  exact (if_neg (hnothing q)).symm

/-- Before that the sorter cannot read, as the process that is to fork has the other end
open. -/
theorem forked_waits : (forked nums 5).step capacity 0 = none := by
  have hfds : .writing .p01 ∈ fds := by decide
  have hwriter : (forked nums 5).Held (.writing .p01) :=
    ⟨_, List.mem_cons_of_mem _ List.mem_cons_self, hfds⟩
  exact step_read_wait rfl rfl hwriter

variable {n i : Nat} {s' : System PipeName Int Bytes}

/-- **Each step** of each of the three takes its counter further. -/
theorem reached_step (hcapacity : 5 ≤ capacity) (hlength : nums.length = 5)
    (h : Reached nums n s) (hstep : s.step capacity i = some s') : Reached nums (n + 1) s' := by
  cases h with
  | start =>
    match i with
    | 0 =>
      rw [start_goes] at hstep
      exact Option.some.inj hstep ▸ .forked 0 (Nat.zero_le 5)
    | i + 1 =>
      rw [step_nobody rfl] at hstep
      cases hstep
  | forked a ha =>
    match i with
    | 0 =>
      rcases Nat.lt_or_eq_of_le ha with ha | rfl
      · rw [forked_goes ha] at hstep
        exact Option.some.inj hstep ▸ .forked (a + 1) ha
      · rw [forked_waits] at hstep
        cases hstep
    | 1 =>
      rw [forked_forks ha] at hstep
      have hpossible : Possible a 0 0 := by
        rw [Possible]
        omega
      exact Option.some.inj hstep ▸ .running a 0 0 hpossible (by omega)
    | i + 2 =>
      rw [step_nobody rfl] at hstep
      cases hstep
  | running a b c h hn =>
    match i with
    | 0 =>
      by_cases hnext : Possible (a + 1) b c
      · rw [sorter_goes hcapacity hlength h hnext] at hstep
        exact Option.some.inj hstep ▸ .running _ _ _ hnext (by omega)
      · rw [sorter_waits h hnext] at hstep
        cases hstep
    | 1 =>
      by_cases hnext : Possible a (b + 1) c
      · rw [finder_goes hcapacity hlength h hnext] at hstep
        exact Option.some.inj hstep ▸ .running _ _ _ hnext (by omega)
      · rw [finder_waits h hnext] at hstep
        cases hstep
    | 2 =>
      by_cases hnext : Possible a b (c + 1)
      · rw [printer_goes hcapacity hlength h hnext] at hstep
        exact Option.some.inj hstep ▸ .running _ _ _ hnext (by omega)
      · rw [printer_waits h hnext] at hstep
        cases hstep
    | i + 3 =>
      rw [step_nobody rfl] at hstep
      cases hstep

/-- As long as there are steps to go, one of the three can take one. -/
theorem exists_step (hcapacity : 5 ≤ capacity) (hlength : nums.length = 5)
    (h : Reached nums n s) (hn : n < 31) : ∃ i, (s.step capacity i).isSome = true := by
  cases h with
  | start => exact ⟨0, Option.isSome_of_eq_some start_goes⟩
  | forked a ha => exact ⟨1, Option.isSome_of_eq_some (forked_forks ha)⟩
  | running a b c h hn' =>
    by_cases hsorter : Possible (a + 1) b c
    · exact ⟨0, Option.isSome_of_eq_some (sorter_goes hcapacity hlength h hsorter)⟩
    by_cases hfinder : Possible a (b + 1) c
    · exact ⟨1, Option.isSome_of_eq_some (finder_goes hcapacity hlength h hfinder)⟩
    -- the last child waits for the sorter or the finder, and these only for each other
    have hprinter : Possible a b (c + 1) := by
      rw [Possible] at h hsorter hfinder ⊢
      omega
    exact ⟨2, Option.isSome_of_eq_some (printer_goes hcapacity hlength h hprinter)⟩

/-- At every count the output is what a whole run begins to print. -/
theorem lines_prefix :
    lines nums c <+: [sortedLine (sort 5 nums), medianLine (median nums)] := by
  rw [lines]
  split
  · exact List.nil_prefix
  · split
    · exact ⟨[medianLine (median nums)], rfl⟩
    · exact List.prefix_rfl

/-- In whatever order the steps have been taken, the output is that so far. -/
theorem Reached.printed (h : Reached nums n s) :
    s.printed <+: [sortedLine (sort 5 nums), medianLine (median nums)] := by
  cases h with
  | start | forked => exact List.nil_prefix
  | running a b c h hn => exact lines_prefix

/-- No run has more than 31 steps. -/
theorem Reached.le (h : Reached nums n s) : n ≤ 31 := by
  cases h with
  | start => exact Nat.zero_le 31
  | forked a ha => omega
  | running a b c h hn =>
    rw [Possible] at h
    omega

/-- After all steps, the three have exited. -/
theorem Reached.done (h : Reached nums 31 s) :
    s.printed = [sortedLine (sort 5 nums), medianLine (median nums)] ∧
      s.processes = List.replicate 3 ⟨[], .exit⟩ := by
  generalize hn : 31 = n at h
  cases h with
  | start => cases hn
  | forked a ha => omega
  | running a b c h hn' =>
    obtain ⟨rfl, rfl, rfl⟩ : a = 9 ∧ b = 9 ∧ c = 11 := by
      rw [Possible] at h
      omega
    exact ⟨rfl, rfl⟩

end Pipeline

open Pipeline

/-- **The numbers are sorted.** However the three processes take turns, from the first
`fork` on: what has been printed is the beginning of two lines, with the numbers in order and
with the one in the middle. As long as not all calls have been made, one of the three can go
on; after all of them, the three have exited, and both lines have been printed. -/
theorem numbers_are_sorted {capacity : Nat} {nums : List Int} {schedule : List Nat}
    {s : System PipeName Int Bytes} (hcapacity : 5 ≤ capacity) (hlength : nums.length = 5)
    (hrun : run (System.step capacity) (Pipeline.start nums) schedule = some s) :
    schedule.length ≤ 31 ∧
    (schedule.length < 31 → ∃ i, (s.step capacity i).isSome = true) ∧
    ∃ sorted median, sorted.Perm nums ∧ sorted.Pairwise (fun x y => x ≤ y) ∧
      sorted[2]? = some median ∧
      s.printed <+: [sortedLine sorted, medianLine [median]] ∧
      (schedule.length = 31 → s.printed = [sortedLine sorted, medianLine [median]] ∧
        s.processes = List.replicate 3 ⟨[], .exit⟩) := by
  have hreached : Reached nums (0 + schedule.length) s :=
    run_count (fun _ _ _ _ h hstep => reached_step hcapacity hlength h hstep) schedule .start hrun
  rw [Nat.zero_add] at hreached
  have hne : nums ≠ [] := List.ne_nil_of_length_eq_add_one hlength
  have hperm := perm_sort hne
  have hpairwise := pairwise_sort hne
  rw [hlength] at hperm hpairwise
  have hmiddle : 2 < (sort 5 nums).length := (length_sort hlength).symm ▸ by decide
  have hmedian : median nums = [(sort 5 nums)[2]] := by
    rw [median, List.drop_eq_getElem_cons hmiddle]
    rfl
  refine ⟨hreached.le, exists_step hcapacity hlength hreached, sort 5 nums, (sort 5 nums)[2],
    hperm, hpairwise, List.getElem?_eq_getElem hmiddle, ?_, fun hdone => ?_⟩
  · rw [← hmedian]
    exact hreached.printed
  · rw [hdone] at hreached
    rw [← hmedian]
    exact hreached.done

/-- The last child makes its calls up to the first `read`, then the parent all of its own,
and so on. -/
theorem numbers_are_sorted_sample :
    ∃ s, run (System.step 5) (Pipeline.start [5, 3, 9, 1, 4])
        ([0, 1] ++ List.replicate 6 2 ++ List.replicate 9 0 ++ List.replicate 9 1 ++
          List.replicate 5 2) = some s ∧
      s.printed = [sortedLine [1, 3, 4, 5, 9], medianLine [4]] := by
  have hsome : (run (System.step 5) (Pipeline.start [5, 3, 9, 1, 4])
      ([0, 1] ++ List.replicate 6 2 ++ List.replicate 9 0 ++ List.replicate 9 1 ++
        List.replicate 5 2)).isSome = true := by
    decide +kernel
  obtain ⟨s, hrun⟩ := Option.isSome_iff_exists.mp hsome
  obtain ⟨-, -, sorted, median, hperm, hpairwise, hmedian, -, hdone⟩ :=
    numbers_are_sorted (by decide) (by decide) hrun
  have hordered : [1, 3, 4, 5, 9].Perm [(5 : Int), 3, 9, 1, 4] := by decide
  obtain rfl : sorted = [1, 3, 4, 5, 9] :=
    (hperm.trans hordered.symm).eq_of_pairwise
      (fun x y _ _ hxy hyx => Int.le_antisymm hxy hyx) hpairwise (by decide)
  obtain rfl : 4 = median := Option.some.inj hmedian
  exact ⟨s, hrun, (hdone rfl).1⟩

end Cop4600
