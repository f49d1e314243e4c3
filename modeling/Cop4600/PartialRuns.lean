/-!
# Runs of a partial step

A component whose operations either give the next state or, where they would do
something undefined, no state at all. `run` performs a list of calls;
`Throughout` says that every call is made in a state that allows it. An invariant
that every allowed call keeps holds at the end of every run, which then has an end
(`run_of_invariant`, `run_of_simulation`); `run_isSome_iff` is the converse. How long a run
is, is the matter of `length_run_le`, `run_count` and `exists_run_of_progress`.
-/

namespace PartialRuns

variable {σ α : Type}

/-- The state after a list of calls. -/
def run (step : σ → α → Option σ) : σ → List α → Option σ
  | s, [] => some s
  | s, a :: as => (step s a).bind fun s' => run step s' as

/-- Every call of the run is made in a state that satisfies `P`. -/
def Throughout (step : σ → α → Option σ) (P : σ → α → Prop) : σ → List α → Prop
  | _, [] => True
  | s, a :: as => P s a ∧ ∀ s' ∈ step s a, Throughout step P s' as

instance decidableThroughout (step : σ → α → Option σ) (P : σ → α → Prop)
    [∀ s a, Decidable (P s a)] : ∀ (as : List α) (s : σ), Decidable (Throughout step P s as)
  | [], _ => inferInstanceAs (Decidable True)
  | a :: as, s =>
    have : ∀ s' : σ, Decidable (Throughout step P s' as) := decidableThroughout step P as
    inferInstanceAs (Decidable (P s a ∧ ∀ s' ∈ step s a, Throughout step P s' as))

variable {step : σ → α → Option σ} {P : σ → α → Prop} {Inv : σ → Prop}

theorem Throughout.left {before after : List α} : ∀ {s : σ},
    Throughout step P s (before ++ after) → Throughout step P s before := by
  induction before with
  | nil => exact fun _ => trivial
  | cons a before ih =>
    intro s h
    exact ⟨h.1, fun s' hs' => ih (h.2 s' hs')⟩

theorem Throughout.right {before after : List α} : ∀ {s s' : σ},
    Throughout step P s (before ++ after) → run step s before = some s' →
      Throughout step P s' after := by
  induction before with
  | nil =>
    intro s s' h hrun
    obtain rfl := Option.some.inj hrun
    exact h
  | cons a before ih =>
    intro s s' h hrun
    rw [run] at hrun
    obtain ⟨s₁, hs₁, hrun⟩ := Option.bind_eq_some_iff.mp hrun
    exact ih (h.2 s₁ hs₁) hrun

theorem Throughout.append {before after : List α} : ∀ {s : σ},
    Throughout step P s before → (∀ s' ∈ run step s before, Throughout step P s' after) →
      Throughout step P s (before ++ after) := by
  induction before with
  | nil => exact fun _ h => h _ rfl
  | cons a before ih =>
    intro s h hafter
    refine ⟨h.1, fun s₁ hs₁ => ih (h.2 s₁ hs₁) fun s' hs' => hafter s' ?_⟩
    rw [Option.mem_def] at hs₁ hs' ⊢
    rw [run, hs₁, Option.bind_some, hs']

theorem run_append {before after : List α} : ∀ {s : σ},
    run step s (before ++ after) = (run step s before).bind fun s' => run step s' after := by
  induction before with
  | nil => exact fun {_} => rfl
  | cons a before ih =>
    intro s
    rw [List.cons_append, run, run, Option.bind_assoc]
    exact Option.bind_congr fun s' _ => ih

/-- **The invariant rule.** -/
theorem run_of_invariant
    (hstep : ∀ s a, Inv s → P s a → ∃ s', step s a = some s' ∧ Inv s') (as : List α) :
    ∀ {s : σ}, Inv s → Throughout step P s as → ∃ s', run step s as = some s' ∧ Inv s' := by
  induction as with
  | nil =>
    intro s hs _
    exact ⟨s, rfl, hs⟩
  | cons a as ih =>
    intro s hs ⟨ha, has⟩
    obtain ⟨s₁, hs₁, hinv⟩ := hstep s a hs ha
    obtain ⟨s', hrun, hend⟩ := ih hinv (has s₁ hs₁)
    exact ⟨s', by rw [run, hs₁, Option.bind_some, hrun], hend⟩

/-- What every step keeps, a run that has an end keeps. -/
theorem invariant_of_run (hstep : ∀ s a s', Inv s → step s a = some s' → Inv s') (as : List α) :
    ∀ {s s' : σ}, Inv s → run step s as = some s' → Inv s' := by
  induction as with
  | nil =>
    intro s s' hs hrun
    exact Option.some.inj hrun ▸ hs
  | cons a as ih =>
    intro s s' hs hrun
    rw [run] at hrun
    obtain ⟨s₁, hs₁, hrun⟩ := Option.bind_eq_some_iff.mp hrun
    exact ih (hstep s a s₁ hs hs₁) hrun

/-- **The definedness rule**: where an invariant tells which calls have a next state, a run
has an end exactly if every call of it is one of these. -/
theorem run_isSome_iff (hstep : ∀ s a, Inv s → ((step s a).isSome ↔ P s a))
    (hinv : ∀ s a s', Inv s → step s a = some s' → Inv s') (as : List α) :
    ∀ {s : σ}, Inv s → ((run step s as).isSome ↔ Throughout step P s as) := by
  induction as with
  | nil => exact fun _ => iff_of_true rfl trivial
  | cons a as ih =>
    intro s hs
    rw [run, Throughout, ← hstep s a hs]
    rcases hnext : step s a with _ | s'
    · exact iff_of_false (by simp) fun h => by cases h.1
    · rw [Option.bind_some, ih (hinv s a s' hs hnext)]
      simp

/-- **The simulation rule**: where every allowed call does what `g` does to a total
abstract state, so does every run. -/
theorem run_of_simulation {γ : Type} {R : σ → γ → Prop} {g : γ → α → γ}
    (hstep : ∀ s c a, R s c → P s a → ∃ s', step s a = some s' ∧ R s' (g c a)) (as : List α) :
    ∀ {s : σ} {c : γ}, R s c → Throughout step P s as →
      ∃ s', run step s as = some s' ∧ R s' (as.foldl g c) := by
  induction as with
  | nil =>
    intro s c hs _
    exact ⟨s, rfl, hs⟩
  | cons a as ih =>
    intro s c hs ⟨ha, has⟩
    obtain ⟨s₁, hs₁, hR⟩ := hstep s c a hs ha
    obtain ⟨s', hrun, hend⟩ := ih hR (has s₁ hs₁)
    exact ⟨s', by rw [run, hs₁, Option.bind_some, hrun], hend⟩

/-- **The measure rule**: where every step makes some number smaller, no run is longer
than the number it starts with. -/
theorem length_run_le {f : σ → Nat}
    (hstep : ∀ s a s', Inv s → step s a = some s' → Inv s' ∧ f s' < f s) (as : List α) :
    ∀ {s s' : σ}, Inv s → run step s as = some s' → as.length + f s' ≤ f s := by
  induction as with
  | nil =>
    intro s s' _ hrun
    rw [Option.some.inj hrun]
    exact Nat.le_of_eq (Nat.zero_add _)
  | cons a as ih =>
    intro s s' hs hrun
    obtain ⟨s₁, hs₁, hrest⟩ := Option.bind_eq_some_iff.mp hrun
    obtain ⟨hinv, hlt⟩ := hstep s a s₁ hs hs₁
    have hle := ih hinv hrest
    rw [List.length_cons]
    omega

/-- **The counting rule**: what every step takes from one number to the next holds, after a
run, of the number of its steps. -/
theorem run_count {R : Nat → σ → Prop}
    (hstep : ∀ n s a s', R n s → step s a = some s' → R (n + 1) s') (as : List α) :
    ∀ {n : Nat} {s s' : σ}, R n s → run step s as = some s' → R (n + as.length) s' := by
  induction as with
  | nil =>
    intro n s s' hs hrun
    rwa [← Option.some.inj hrun]
  | cons a as ih =>
    intro n s s' hs hrun
    obtain ⟨s₁, hs₁, hrest⟩ := Option.bind_eq_some_iff.mp hrun
    have hR := ih (hstep n s a s₁ hs hs₁) hrest
    rwa [List.length_cons, Nat.add_comm as.length 1, ← Nat.add_assoc]

/-- **The progress rule**: where some step makes a number smaller as long as a state is not
`Done`, there is a run to one that is, not longer than the number. -/
theorem exists_run_of_progress {Done : σ → Prop} {f : σ → Nat}
    (hstep : ∀ s, Inv s → ¬Done s → ∃ a s', step s a = some s' ∧ Inv s' ∧ f s' < f s) (n : Nat) :
    ∀ {s : σ}, Inv s → f s ≤ n →
      ∃ as s', run step s as = some s' ∧ Inv s' ∧ Done s' ∧ as.length ≤ n := by
  induction n with
  | zero =>
    intro s hs hn
    by_cases hdone : Done s
    · exact ⟨[], s, rfl, hs, hdone, Nat.le_refl 0⟩
    · obtain ⟨_, _, _, _, hlt⟩ := hstep s hs hdone
      exact absurd (Nat.lt_of_lt_of_le hlt hn) (Nat.not_lt_zero _)
  | succ n ih =>
    intro s hs hn
    by_cases hdone : Done s
    · exact ⟨[], s, rfl, hs, hdone, Nat.zero_le _⟩
    · obtain ⟨a, s₁, hs₁, hinv, hlt⟩ := hstep s hs hdone
      obtain ⟨as, s', hrun, hend, hdone, hlength⟩ :=
        ih hinv (Nat.le_of_lt_succ (Nat.lt_of_lt_of_le hlt hn))
      refine ⟨a :: as, s', ?_, hend, hdone, Nat.succ_le_succ hlength⟩
      rw [run, hs₁, Option.bind_some, hrun]

theorem throughout_of_forall {Q : α → Prop} (as : List α) :
    ∀ {s : σ}, (∀ a ∈ as, Q a) → Throughout step (fun _ a => Q a) s as := by
  induction as with
  | nil => exact fun _ => trivial
  | cons a as ih =>
    intro s hQ
    exact ⟨hQ a List.mem_cons_self, fun s' _ => ih fun b hb => hQ b (List.mem_cons_of_mem _ hb)⟩

end PartialRuns
