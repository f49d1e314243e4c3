/-!
# Machines that answer

A machine takes an input in a state, and answers and goes on in another state, or is
stuck. Its run over a list of inputs has a last state and a list of answers. A
machine refines another one that is never stuck if each of its steps gives the same
answer and keeps a relation between the two states; then every run gives the same
answers (`run_of_refinement`). The relation may speak of the inputs still to come,
such as how much room they need together, or the abstract machine may permit some inputs
only (`run_of_refinement_within`).

A machine without inputs goes on by itself and says something at each step; `Leads` is
a run of it, with all that is said on the way.
-/

namespace Reactions

variable {σ γ α β : Type}

/-- The state after a list of inputs, and the answers to them. -/
def run (step : σ → α → Option (σ × β)) : σ → List α → Option (σ × List β)
  | s, [] => some (s, [])
  | s, a :: as =>
    (step s a).bind fun (s', b) => (run step s' as).map fun (s'', bs) => (s'', b :: bs)

/-- The same for a machine that is never stuck. -/
def answers (g : γ → α → γ × β) : γ → List α → γ × List β
  | c, [] => (c, [])
  | c, a :: as => ((answers g (g c a).1 as).1, (g c a).2 :: (answers g (g c a).1 as).2)

variable {step : σ → α → Option (σ × β)} {g : γ → α → γ × β}

theorem run_cons {s s' : σ} {a : α} {b : β} (h : step s a = some (s', b)) (as : List α) :
    run step s (a :: as) = (run step s' as).map fun (s'', bs) => (s'', b :: bs) := by
  rw [run, h, Option.bind_some]

/-- **The refinement rule.** -/
theorem run_of_refinement {R : List α → σ → γ → Prop}
    (hstep : ∀ a as s c, R (a :: as) s c →
      ∃ s', step s a = some (s', (g c a).2) ∧ R as s' (g c a).1) (as : List α) :
    ∀ {s : σ} {c : γ}, R as s c →
      ∃ s', run step s as = some (s', (answers g c as).2) ∧ R [] s' (answers g c as).1 := by
  induction as with
  | nil => exact fun h => ⟨_, rfl, h⟩
  | cons a as ih =>
    intro s c h
    obtain ⟨s₁, hs₁, hR₁⟩ := hstep a as s c h
    obtain ⟨s', hs', hR'⟩ := ih hR₁
    refine ⟨s', ?_, hR'⟩
    rw [run_cons hs₁, hs', Option.map_some, answers]

/-- **The history rule**: what every step keeps of the state and of all that has been
answered, every run keeps. -/
theorem run_of_history {R : σ → List β → Prop}
    (hstep : ∀ s bs a s' b, R s bs → step s a = some (s', b) → R s' (bs ++ [b]))
    (as : List α) : ∀ {s s' : σ} {bs bs' : List β},
      R s bs → run step s as = some (s', bs') → R s' (bs ++ bs') := by
  induction as with
  | nil =>
    intro s s' bs bs' h hrun
    cases hrun
    rwa [List.append_nil]
  | cons a as ih =>
    intro s s' bs bs' h hrun
    rw [run] at hrun
    obtain ⟨⟨s₁, b⟩, hs₁, hrest⟩ := Option.bind_eq_some_iff.mp hrun
    obtain ⟨⟨s₂, bs₂⟩, hs₂, heq⟩ := Option.map_eq_some_iff.mp hrest
    obtain ⟨rfl, rfl⟩ := Prod.mk.inj heq
    have hinv := ih (hstep s bs a s₁ b h hs₁) hs₂
    rwa [List.append_assoc] at hinv

/-! ## Inputs that are permitted, answers that are encoded -/

/-- Every input is given to the machine in a state that permits it. -/
def Within (g : γ → α → γ × β) (P : γ → α → Prop) : γ → List α → Prop
  | _, [] => True
  | c, a :: as => P c a ∧ Within g P (g c a).1 as

instance decidableWithin (g : γ → α → γ × β) (P : γ → α → Prop) [∀ c a, Decidable (P c a)] :
    ∀ (as : List α) (c : γ), Decidable (Within g P c as)
  | [], _ => inferInstanceAs (Decidable True)
  | a :: as, c =>
    have := decidableWithin g P as (g c a).1
    inferInstanceAs (Decidable (_ ∧ _))

theorem answers_encoded {β' : Type} (encode : β → β') (as : List α) : ∀ c : γ,
    answers (fun c a => ((g c a).1, encode (g c a).2)) c as =
      ((answers g c as).1, (answers g c as).2.map encode) := by
  induction as with
  | nil => exact fun _ => rfl
  | cons a as ih => intro c; rw [answers, ih]; rfl

theorem run_map {α' : Type} (f : α' → α) (as : List α') : ∀ s : σ,
    run step s (as.map f) = run (fun s a => step s (f a)) s as := by
  induction as with
  | nil => exact fun _ => rfl
  | cons a as ih => intro s; rw [List.map_cons, run, run]; simp only [ih]

/-- **The refinement rule** for such inputs and answers. -/
theorem run_of_refinement_within {β' : Type} {step : σ → α → Option (σ × β')} {R : σ → γ → Prop}
    {P : γ → α → Prop} {encode : β → β'}
    (hstep : ∀ a s c, R s c → P c a →
      ∃ s', step s a = some (s', encode (g c a).2) ∧ R s' (g c a).1)
    {as : List α} {s : σ} {c : γ} (h : R s c) (has : Within g P c as) :
    ∃ s', run step s as = some (s', (answers g c as).2.map encode) ∧ R s' (answers g c as).1 := by
  have hwithin : ∀ a as s c, R s c ∧ Within g P c (a :: as) →
      ∃ s', step s a = some (s', encode (g c a).2) ∧ R s' (g c a).1 ∧
        Within g P (g c a).1 as := by
    intro a as s c ⟨hR, hP, hrest⟩
    obtain ⟨s', hs', hR'⟩ := hstep a s c hR hP
    exact ⟨s', hs', hR', hrest⟩
  obtain ⟨s', hrun, hR, -⟩ := run_of_refinement (R := fun as s c => R s c ∧ Within g P c as)
    (g := fun c a => ((g c a).1, encode (g c a).2)) hwithin as ⟨h, has⟩
  rw [answers_encoded] at hrun hR
  exact ⟨s', hrun, hR⟩

/-! ## Without inputs -/

/-- From one state to another, saying these things in order. -/
inductive Leads (next : σ → Option (σ × List β)) : σ → List β → σ → Prop where
  | refl (s : σ) : Leads next s [] s
  | step {s s' t : σ} {out outs : List β} (h : next s = some (s', out))
      (hrest : Leads next s' outs t) : Leads next s (out ++ outs) t

variable {next : σ → Option (σ × List β)}

theorem Leads.trans {s t u : σ} {out outs : List β} (h : Leads next s out t)
    (h' : Leads next t outs u) : Leads next s (out ++ outs) u := by
  induction h with
  | refl s => exact h'
  | step hnext _ ih =>
    rw [List.append_assoc]
    exact .step hnext (ih h')

end Reactions
