import Cop4600.PartialRuns
import Cop4600.Printing
import Mathlib.Data.List.Nodup
import Mathlib.Data.List.Range

/-!
# Threads that search

The program of exercise 5. `main` creates ten threads, joins them one after the other, and
prints a last line. Each thread draws random numbers until it finds the target, and then
writes its line with one call.

In every order of the steps, and whatever is drawn, no line is written twice, and the last
one comes after all others. A thread that has not found the target yet can still find it,
since the target is made small enough before, so the program can always come to its end
(`threads_complete`).
-/

namespace Cop4600

open PartialRuns

/-! ## The program -/

/-- Where a thread is in `thread_function`: in its loop, behind it, or at its end. -/
inductive ThreadLabel : Type where
  | search
  | write
  | exited
  deriving DecidableEq, Repr

/-- Where `main` is: at index `i` of one of its two loops, or behind them. -/
inductive MainLabel : Type where
  | create (i : Nat)
  | join (i : Nat)
  | print
  | exited
  deriving DecidableEq, Repr

/-- The threads that there are, by their `id`, and the calls of `write`. -/
structure Threads : Type where
  /-- where `main` is -/
  main : MainLabel
  /-- where each thread is -/
  threads : List ThreadLabel
  /-- the lines that have been written -/
  output : List Bytes

/-- A step of `main`, or of a thread, which draws this value if it has to. -/
inductive ThreadEvent : Type where
  | main
  | thread (id : Nat) (value : UInt32)

/-- The target, from what `strtoul` makes of the argument. -/
def searchTarget (arg : UInt64) : UInt32 :=
  let target := arg.toUInt32
  if target > 9999 then 9999 else target

/-- What a thread puts into `char buf[64]` when it is done, and writes from there. -/
def threadLine (id : Nat) : Bytes := text "Thread " ++ formatInt id ++ text " completed.\n"

example : ∀ id < 10, (threadLine id).length < 64 := by decide

/-- What `main` prints when all threads have been joined. -/
def lastLine : Bytes := text "All threads have finished finding numbers.\n"

namespace Threads

/-- The state before the first loop. -/
def start : Threads := ⟨.create 0, [], []⟩

/-- A step of `main`: a thread is created or joined, or the last line is printed. -/
def mainStep (s : Threads) : Option Threads :=
  match s.main with
  | .create i =>
    if i < 10 then some { s with main := .create (i + 1), threads := s.threads ++ [.search] }
    else some { s with main := .join 0 }
  | .join i =>
    if i < 10 then
      if s.threads[i]? = some .exited then some { s with main := .join (i + 1) } else none
    else some { s with main := .print }
  | .print => some { s with main := .exited, output := s.output ++ [lastLine] }
  | .exited => none

/-- `thread_function`. -/
def threadStep (target : UInt32) (s : Threads) (id : Nat) (value : UInt32) : Option Threads :=
  match s.threads[id]? with
  | some .search =>
    if value % 10000 ≠ target then some s else some { s with threads := s.threads.set id .write }
  | some .write =>
    some { s with threads := s.threads.set id .exited, output := s.output ++ [threadLine id] }
  | _ => none

/-- A step of any of them; a thread that has not been created takes none. -/
def step (target : UInt32) (s : Threads) : ThreadEvent → Option Threads
  | .main => s.mainStep
  | .thread id value => s.threadStep target id value

end Threads

/-! ## What holds on the way -/

/-- How many threads have been created. -/
def MainLabel.created : MainLabel → Nat
  | .create i => i
  | .join _ | .print | .exited => 10

/-- How many threads have been joined. -/
def MainLabel.joined : MainLabel → Nat
  | .create _ => 0
  | .join i => i
  | .print | .exited => 10

/-- The threads that have written their lines, in this order. -/
structure Threads.Sound (s : Threads) (ids : List Nat) : Prop where
  /-- there are as many threads as `main` has created -/
  created : s.threads.length = s.main.created
  /-- ten at most -/
  created_le : s.main.created ≤ 10
  /-- and no more are joined -/
  joined_le : s.main.joined ≤ 10
  /-- those that are have exited -/
  joined : ∀ i < s.main.joined, s.threads[i]? = some .exited
  /-- no thread writes twice -/
  nodup : ids.Nodup
  /-- those that have written have exited -/
  mem_iff : ∀ id, id ∈ ids ↔ s.threads[id]? = some .exited
  /-- their lines are the output, and the last line if `main` has ended -/
  output : s.output = ids.map threadLine ++ if s.main = .exited then [lastLine] else []

namespace Threads.Sound

variable {s s' : Threads} {ids : List Nat} {target : UInt32}

/-- No thread has written anything at the start. -/
theorem start : Threads.start.Sound [] := by
  refine ⟨rfl, Nat.zero_le 10, Nat.zero_le 10, nofun, List.nodup_nil, fun id => ?_, rfl⟩
  exact iff_of_false List.not_mem_nil nofun

/-- **Each step of `main`** keeps this. -/
theorem mainStep (h : s.Sound ids) (hstep : s.mainStep = some s') : s'.Sound ids := by
  obtain ⟨hcreated, hcreatedLe, hjoinedLe, hjoined, hnodup, hmem, houtput⟩ := id h
  rw [Threads.mainStep] at hstep
  cases hlabel : s.main with
  | create i =>
    rw [hlabel] at hstep hcreated houtput
    dsimp only at hstep
    split at hstep
    · next hi =>
      obtain rfl := Option.some.inj hstep
      refine ⟨?_, hi, Nat.zero_le 10, nofun, hnodup, fun id => ?_, houtput⟩
      · rw [List.length_append, hcreated]
        rfl
      · -- a new thread has not exited
        rw [hmem, List.getElem?_append]
        split
        · rfl
        · next hid =>
          rw [List.getElem?_eq_none (Nat.le_of_not_lt hid)]
          refine iff_of_false nofun fun hnew => ?_
          rw [List.getElem?_singleton] at hnew
          split at hnew <;> cases hnew
    · next hi =>
      obtain rfl := Option.some.inj hstep
      rw [hlabel] at hcreatedLe
      have hten : i = 10 := Nat.le_antisymm hcreatedLe (Nat.le_of_not_lt hi)
      exact ⟨hcreated.trans hten, le_rfl, Nat.zero_le 10, nofun, hnodup, hmem, houtput⟩
  | join i =>
    rw [hlabel] at hstep hcreated houtput hjoined hjoinedLe
    dsimp only at hstep
    split at hstep
    · next hi =>
      split at hstep
      · next hexited =>
        obtain rfl := Option.some.inj hstep
        refine ⟨hcreated, le_rfl, hi, fun j hj => ?_, hnodup, hmem, houtput⟩
        rcases Nat.lt_or_eq_of_le (Nat.le_of_lt_succ hj) with hj | rfl
        · exact hjoined j hj
        · exact hexited
      · cases hstep
    · next hi =>
      obtain rfl := Option.some.inj hstep
      have hten : i = 10 := Nat.le_antisymm hjoinedLe (Nat.le_of_not_lt hi)
      rw [hten] at hjoined
      exact ⟨hcreated, le_rfl, le_rfl, hjoined, hnodup, hmem, houtput⟩
  | print =>
    rw [hlabel] at hstep hcreated houtput hjoined
    obtain rfl := Option.some.inj hstep
    refine ⟨hcreated, le_rfl, le_rfl, hjoined, hnodup, hmem, ?_⟩
    rw [houtput, if_neg nofun, List.append_nil, if_pos rfl]
  | exited =>
    rw [hlabel] at hstep
    cases hstep

/-- **Each step of a thread** keeps it, with one more line if that is the step. -/
theorem threadStep (h : s.Sound ids) {id : Nat} {value : UInt32}
    (hstep : s.threadStep target id value = some s') : ∃ ids', s'.Sound ids' := by
  have hsound := h
  obtain ⟨hcreated, hcreatedLe, hjoinedLe, hjoined, hnodup, hmem, houtput⟩ := h
  rw [Threads.threadStep] at hstep
  rcases hthread : s.threads[id]? with _ | label
  · rw [hthread] at hstep
    cases hstep
  have hid : id < s.threads.length := (List.getElem?_eq_some_iff.mp hthread).1
  -- a thread that has not exited has not been joined
  have hrunning : label ≠ .exited → ∀ new i, i < s.main.joined →
      (s.threads.set id new)[i]? = some .exited := by
    intro hlabel new i hi
    have hne : id ≠ i := by
      rintro rfl
      exact hlabel (Option.some.inj (hthread.symm.trans (hjoined id hi)))
    rw [List.getElem?_set_ne hne]
    exact hjoined i hi
  rw [hthread] at hstep
  cases label with
  | search =>
    dsimp only at hstep
    split at hstep
    · exact Option.some.inj hstep ▸ ⟨ids, hsound⟩
    obtain rfl := Option.some.inj hstep
    refine ⟨ids, ?_, hcreatedLe, hjoinedLe, hrunning nofun _, hnodup, fun i => ?_, houtput⟩
    · rw [List.length_set, hcreated]
    · rw [hmem]
      by_cases hi : id = i
      · rw [← hi, hthread, List.getElem?_set_self hid]
        exact iff_of_false nofun nofun
      · rw [List.getElem?_set_ne hi]
  | write =>
    obtain rfl := Option.some.inj hstep
    have hnew : id ∉ ids := by
      rw [hmem, hthread]
      nofun
    -- `main` has not exited before all threads have
    have hgoing : s.main ≠ .exited := by
      intro hexited
      rw [hexited] at hjoined hcreated
      have hall := hjoined id (hid.trans_eq hcreated)
      rw [hthread] at hall
      cases hall
    refine ⟨ids ++ [id], ?_, hcreatedLe, hjoinedLe, hrunning nofun _, ?_, fun i => ?_, ?_⟩
    · rw [List.length_set, hcreated]
    · rw [← List.concat_eq_append]
      exact hnodup.concat hnew
    · rw [List.mem_append, List.mem_singleton, hmem]
      by_cases hi : id = i
      · rw [← hi, List.getElem?_set_self hid]
        exact iff_of_true (Or.inr rfl) rfl
      · rw [List.getElem?_set_ne hi]
        exact or_iff_left (Ne.symm hi)
    · rw [houtput, if_neg hgoing, List.append_nil, List.append_nil, List.map_append]
      rfl
  | exited => cases hstep

/-- **Every step** keeps the state sound, for the threads that have written then. -/
theorem step (h : s.Sound ids) {e : ThreadEvent} (hstep : s.step target e = some s') :
    ∃ ids', s'.Sound ids' := by
  cases e with
  | main => exact ⟨ids, h.mainStep hstep⟩
  | thread id value => exact h.threadStep hstep

/-- The lines of a program that has come to its end. -/
theorem perm_of_exited (h : s.Sound ids) (hexited : s.main = .exited) :
    ids.Perm (List.range 10) := by
  have hcreated := h.created
  have hjoined := h.joined
  rw [hexited] at hcreated hjoined
  rw [List.perm_ext_iff_of_nodup h.nodup List.nodup_range]
  intro id
  rw [h.mem_iff, List.mem_range]
  refine ⟨fun hid => ?_, hjoined id⟩
  exact (List.getElem?_eq_some_iff.mp hid).1.trans_eq hcreated

end Threads.Sound

/-! ## Going on -/

/-- The steps that a thread has to make, if it is lucky. -/
def ThreadLabel.toGo : ThreadLabel → Nat
  | .search => 2
  | .write => 1
  | .exited => 0

/-- Those of all threads. -/
def threadsToGo : List ThreadLabel → Nat
  | [] => 0
  | label :: labels => label.toGo + threadsToGo labels

/-- Those of `main`, and of the threads that it has still to create. -/
def MainLabel.toGo : MainLabel → Nat
  | .create i => 3 * (10 - i) + 13
  | .join i => 12 - i
  | .print => 1
  | .exited => 0

/-- How many steps there are to the end, if every thread draws its number at once. -/
def Threads.toGo (s : Threads) : Nat := s.main.toGo + threadsToGo s.threads

/-- A new thread has its own steps to go. -/
theorem threadsToGo_concat (labels : List ThreadLabel) (label : ThreadLabel) :
    threadsToGo (labels ++ [label]) = threadsToGo labels + label.toGo := by
  induction labels with
  | nil => exact Nat.add_comm _ _
  | cons l labels ih => rw [List.cons_append, threadsToGo, threadsToGo, ih, Nat.add_assoc]

/-- A thread that goes on has fewer. -/
theorem threadsToGo_set {labels : List ThreadLabel} {id : Nat} {old new : ThreadLabel}
    (hold : labels[id]? = some old) (hlt : new.toGo < old.toGo) :
    threadsToGo (labels.set id new) < threadsToGo labels := by
  induction labels generalizing id with
  | nil => cases hold
  | cons l labels ih =>
    cases id with
    | zero =>
      obtain rfl := Option.some.inj hold
      exact Nat.add_lt_add_right hlt _
    | succ id => exact Nat.add_lt_add_left (ih hold) _

/-- No thread has more than two steps to go. -/
theorem threadsToGo_le (labels : List ThreadLabel) : threadsToGo labels ≤ 2 * labels.length := by
  induction labels with
  | nil => exact le_rfl
  | cons l labels ih =>
    have hl : l.toGo ≤ 2 := by
      cases l <;> decide
    rw [threadsToGo, List.length_cons]
    omega

/-- No state is further than 43 steps from the end, and the first one is so far. -/
theorem Threads.Sound.toGo_le {s : Threads} {ids : List Nat} (h : s.Sound ids) : s.toGo ≤ 43 := by
  have hthreads := threadsToGo_le s.threads
  have hcreated := h.created
  have hle := h.created_le
  rw [Threads.toGo]
  cases hlabel : s.main <;>
    simp only [hlabel, MainLabel.toGo, MainLabel.created] at hcreated hle ⊢ <;> omega

/-- The target is a number that can be drawn. -/
theorem searchTarget_mod (arg : UInt64) : searchTarget arg % 10000 = searchTarget arg := by
  rw [searchTarget]
  split
  · rfl
  · next hle =>
    have hlt : arg.toUInt32.toNat ≤ 9999 := UInt32.not_lt.mp hle
    apply UInt32.toNat_inj.mp
    rw [UInt32.toNat_mod]
    exact Nat.mod_eq_of_lt (Nat.lt_succ_of_le hlt)

/-- A thread that `main` waits for can go on. -/
theorem Threads.exists_threadStep {s : Threads} {id : Nat} {label : ThreadLabel} (arg : UInt64)
    (h : s.threads[id]? = some label) (hlabel : label ≠ .exited) :
    ∃ s', s.threadStep (searchTarget arg) id (searchTarget arg) = some s' ∧ s'.toGo < s.toGo := by
  cases label with
  | search =>
    refine ⟨{ s with threads := s.threads.set id .write }, ?_, ?_⟩
    · rw [Threads.threadStep, h]
      exact if_neg (not_not.mpr (searchTarget_mod arg))
    · exact Nat.add_lt_add_left (threadsToGo_set h (by decide)) _
  | write =>
    refine ⟨{ s with
      threads := s.threads.set id .exited, output := s.output ++ [threadLine id] }, ?_, ?_⟩
    · rw [Threads.threadStep, h]
    · exact Nat.add_lt_add_left (threadsToGo_set h (by decide)) _
  | exited => exact absurd rfl hlabel

/-- **Nobody has to wait for ever**: some step brings the end nearer, and what `main` waits
for is a thread that can go on. -/
theorem Threads.exists_step {s : Threads} {ids : List Nat} (arg : UInt64) (h : s.Sound ids)
    (hgoing : s.main ≠ .exited) :
    ∃ e s', s.step (searchTarget arg) e = some s' ∧ s'.toGo < s.toGo := by
  cases hlabel : s.main with
  | create i =>
    by_cases hi : i < 10
    · refine ⟨.main, { s with main := .create (i + 1), threads := s.threads ++ [.search] }, ?_, ?_⟩
      · rw [Threads.step, Threads.mainStep, hlabel]
        exact if_pos hi
      · have hone := threadsToGo_concat s.threads .search
        simp only [Threads.toGo, hlabel, MainLabel.toGo, ThreadLabel.toGo] at hone ⊢
        omega
    · refine ⟨.main, { s with main := .join 0 }, ?_, ?_⟩
      · rw [Threads.step, Threads.mainStep, hlabel]
        exact if_neg hi
      · simp only [Threads.toGo, hlabel, MainLabel.toGo]
        omega
  | join i =>
    by_cases hi : i < 10
    · have hcreated := h.created
      rw [hlabel] at hcreated
      have hlt : i < s.threads.length := hi.trans_eq hcreated.symm
      have hthread := List.getElem?_eq_getElem hlt
      by_cases hexited : s.threads[i]? = some .exited
      · refine ⟨.main, { s with main := .join (i + 1) }, ?_, ?_⟩
        · rw [Threads.step, Threads.mainStep, hlabel]
          dsimp only
          rw [if_pos hi, if_pos hexited]
        · simp only [Threads.toGo, hlabel, MainLabel.toGo]
          omega
      · have hlabel : s.threads[i] ≠ .exited := fun heq => hexited (hthread.trans (congrArg _ heq))
        obtain ⟨s', hstep, hlt⟩ := s.exists_threadStep arg hthread hlabel
        exact ⟨.thread i (searchTarget arg), s', hstep, hlt⟩
    · refine ⟨.main, { s with main := .print }, ?_, ?_⟩
      · rw [Threads.step, Threads.mainStep, hlabel]
        exact if_neg hi
      · have hle := h.joined_le
        rw [hlabel] at hle
        change i ≤ 10 at hle
        simp only [Threads.toGo, hlabel, MainLabel.toGo]
        omega
  | print =>
    refine ⟨.main, { s with main := .exited, output := s.output ++ [lastLine] }, ?_, ?_⟩
    · rw [Threads.step, Threads.mainStep, hlabel]
    · simp only [Threads.toGo, hlabel, MainLabel.toGo]
      omega
  | exited => exact absurd hlabel hgoing

/-! ## Every run -/

/-- **The threads complete.** Whatever the argument, in every order of the steps and whatever
is drawn: the output is one line each of some of the threads, and at the end of `main` of all
of them, with the last line behind. And from every state that is reached, so also while
`main` waits or a thread searches, the program can come to its end. -/
theorem threads_complete {arg : UInt64} {events : List ThreadEvent} {s : Threads}
    (hrun : run (Threads.step (searchTarget arg)) Threads.start events = some s) :
    (∃ ids : List Nat, ids.Nodup ∧ (∀ id ∈ ids, id < 10) ∧
      s.output = ids.map threadLine ++ (if s.main = .exited then [lastLine] else []) ∧
      (s.main = .exited → ids.Perm (List.range 10))) ∧
    ∃ rest s', run (Threads.step (searchTarget arg)) s rest = some s' ∧ s'.main = .exited ∧
      rest.length ≤ 43 := by
  have hsound : ∀ (s : Threads) (e : ThreadEvent) (s' : Threads), (∃ ids, s.Sound ids) →
      s.step (searchTarget arg) e = some s' → ∃ ids, s'.Sound ids :=
    fun _ _ _ ⟨_, h⟩ hstep => h.step hstep
  have hprogress : ∀ s : Threads, (∃ ids, s.Sound ids) → ¬s.main = .exited →
      ∃ e s', s.step (searchTarget arg) e = some s' ∧ (∃ ids, s'.Sound ids) ∧
        s'.toGo < s.toGo := by
    intro s ⟨ids, h⟩ hgoing
    obtain ⟨e, s', hstep, hlt⟩ := s.exists_step arg h hgoing
    exact ⟨e, s', hstep, h.step hstep, hlt⟩
  obtain ⟨ids, h⟩ := invariant_of_run hsound events ⟨[], Threads.Sound.start⟩ hrun
  refine ⟨⟨ids, h.nodup, fun id hid => ?_, h.output, h.perm_of_exited⟩, ?_⟩
  · have hlt := (List.getElem?_eq_some_iff.mp ((h.mem_iff id).mp hid)).1
    exact (hlt.trans_eq h.created).trans_le h.created_le
  · obtain ⟨rest, s', hrest, -, hexited, hlength⟩ :=
      exists_run_of_progress hprogress 43 ⟨ids, h⟩ h.toGo_le
    exact ⟨rest, s', hrest, hexited, hlength⟩

/-- A target that is too great, and a thread that draws a wrong number before. -/
theorem threads_complete_sample :
    ∃ s, run (Threads.step (searchTarget 123456)) Threads.start
        [.main, .main, .thread 1 7, .thread 1 9999, .thread 1 0] = some s ∧
      s.output = [threadLine 1] ∧
      ∃ rest s', run (Threads.step (searchTarget 123456)) s rest = some s' ∧
        s'.main = .exited := by
  obtain ⟨s, hrun, houtput⟩ : ∃ s, run (Threads.step (searchTarget 123456)) Threads.start
      [.main, .main, .thread 1 7, .thread 1 9999, .thread 1 0] = some s ∧
      s.output = [threadLine 1] := ⟨_, rfl, rfl⟩
  obtain ⟨-, rest, s', hrest, hexited, -⟩ := threads_complete hrun
  exact ⟨s, hrun, houtput, rest, s', hrest, hexited⟩

end Cop4600
