import Mathlib.Data.List.Basic

/-!
# Maximal runs

The maximal runs of positions below `n` at which a predicate is `false`, found in
one pass over the positions: `runs used n` lists them as pairs of a start and a
length, in order.

* `mem_runsFrom` — what one pass finds, from any position on;
* `mem_runs` — the runs are exactly the maximal ones;
* `pairwise_runs` — they are listed in order, with something used between any two.
-/

namespace MaximalRuns

/-- The runs found from position `k` on, with `r` positions to go; the start of a
run that is still open is carried along. -/
def runsFrom (used : Nat → Bool) : Nat → Nat → Option Nat → List (Nat × Nat)
  | _, 0, none => []
  | k, 0, some b => [(b, k - b)]
  | k, r + 1, none =>
    if used k then runsFrom used (k + 1) r none else runsFrom used (k + 1) r (some k)
  | k, r + 1, some b =>
    if used k then (b, k - b) :: runsFrom used (k + 1) r none
    else runsFrom used (k + 1) r (some b)

/-- The maximal runs below `n`. -/
def runs (used : Nat → Bool) (n : Nat) : List (Nat × Nat) := runsFrom used 0 n none

/-- The positions `[b, b + l)` are a maximal run below `n`. -/
structure IsRun (used : Nat → Bool) (n b l : Nat) : Prop where
  /-- the run is not empty -/
  pos : 0 < l
  /-- it ends inside -/
  le : b + l ≤ n
  /-- nothing in it is used -/
  unused : ∀ w, b ≤ w → w < b + l → used w = false
  /-- something in front of it is, if there is anything -/
  left : b = 0 ∨ used (b - 1) = true
  /-- and something behind it -/
  right : b + l = n ∨ used (b + l) = true

/-- Before position `k`, everything from `b` on is unused, and the position before
`b` is not. -/
structure OpenRun (used : Nat → Bool) (k b : Nat) : Prop where
  /-- the run has begun -/
  lt : b < k
  /-- nothing since then is used -/
  unused : ∀ w, b ≤ w → w < k → used w = false
  /-- something in front of it is, if there is anything -/
  left : b = 0 ∨ used (b - 1) = true

/-- Where no run is open, the position before `k` is used. -/
def Closed (used : Nat → Bool) (k : Nat) : Prop := k = 0 ∨ used (k - 1) = true

variable {used : Nat → Bool}

theorem OpenRun.extend {k b : Nat} (h : OpenRun used k b) (hk : used k = false) :
    OpenRun used (k + 1) b where
  lt := Nat.lt_succ_of_lt h.lt
  unused := fun w hb hw => by
    rcases Nat.lt_succ_iff_lt_or_eq.mp hw with hlt | rfl
    · exact h.unused w hb hlt
    · exact hk
  left := h.left

theorem Closed.open {k : Nat} (h : Closed used k) (hk : used k = false) :
    OpenRun used (k + 1) k where
  lt := Nat.lt_succ_self k
  unused := fun w hb hw => by
    obtain rfl : w = k := by omega
    exact hk
  left := h

theorem closed_succ {k : Nat} (hk : used k = true) : Closed used (k + 1) := Or.inr hk

/-- The run that is open at `k` ends there, if something used stands at `k`. -/
theorem OpenRun.length_eq {k n b l : Nat} (h : OpenRun used k b) (hrun : IsRun used n b l)
    (hkn : k ≤ n) (hk : used k = true ∨ n = k) : l = k - b := by
  have hlt := h.lt
  have hle := hrun.le
  rcases Nat.lt_trichotomy (b + l) k with hshort | heq | hlong
  · rcases hrun.right with hend | hend
    · omega
    · rw [h.unused (b + l) (by omega) hshort] at hend
      cases hend
  · omega
  · rcases hk with hk | rfl
    · rw [hrun.unused k (by omega) hlong] at hk
      cases hk
    · omega

theorem OpenRun.isRun {k n b : Nat} (h : OpenRun used k b) (hle : k ≤ n)
    (hk : used k = true ∨ n = k) : IsRun used n b (k - b) := by
  have hlt := h.lt
  have hadd : b + (k - b) = k := by omega
  refine ⟨by omega, by omega, fun w hb hw => h.unused w hb (by omega), h.left, ?_⟩
  rw [hadd]
  exact hk.symm.imp_left Eq.symm

/-- A run does not begin at a used position. -/
theorem IsRun.start_unused {n b l : Nat} (h : IsRun used n b l) : used b = false :=
  h.unused b (Nat.le_refl b) (Nat.lt_add_of_pos_right h.pos)

/-- A maximal run does not begin where one is open. -/
theorem OpenRun.ne_start {k n b₀ b l : Nat} (h : OpenRun used k b₀) (hrun : IsRun used n b l) :
    b ≠ k := by
  rintro rfl
  have hlt := h.lt
  rcases hrun.left with rfl | hused
  · omega
  · rw [h.unused (b - 1) (by omega) (by omega)] at hused
    cases hused

/-- **What one pass finds**: the runs that begin from `k` on, and the open one. -/
theorem mem_runsFrom {b l : Nat} (r : Nat) : ∀ k : Nat,
    (Closed used k → ((b, l) ∈ runsFrom used k r none ↔ IsRun used (k + r) b l ∧ k ≤ b)) ∧
    ∀ b₀, OpenRun used k b₀ →
      ((b, l) ∈ runsFrom used k r (some b₀) ↔ IsRun used (k + r) b l ∧ (b = b₀ ∨ k ≤ b)) := by
  induction r with
  | zero =>
    intro k
    refine ⟨fun _ => ?_, fun b₀ hopen => ?_⟩
    · rw [runsFrom]
      refine iff_of_false (by simp) fun ⟨hrun, hkb⟩ => ?_
      have := hrun.pos
      have := hrun.le
      omega
    · rw [runsFrom, List.mem_singleton, Prod.mk.injEq]
      refine ⟨?_, ?_⟩
      · rintro ⟨rfl, rfl⟩
        exact ⟨hopen.isRun (Nat.le_refl k) (Or.inr rfl), Or.inl rfl⟩
      · rintro ⟨hrun, rfl | hkb⟩
        · exact ⟨rfl, hopen.length_eq hrun (Nat.le_refl k) (Or.inr rfl)⟩
        · have := hrun.pos
          have := hrun.le
          omega
  | succ r ih =>
    intro k
    have hn : k + 1 + r = k + (r + 1) := by omega
    obtain ⟨ihClosed, ihOpen⟩ := ih (k + 1)
    rw [hn] at ihClosed ihOpen
    have hbegin : used k = true → IsRun used (k + (r + 1)) b l → b ≠ k := by
      rintro hk hrun rfl
      rw [hrun.start_unused] at hk
      cases hk
    refine ⟨fun hclosed => ?_, fun b₀ hopen => ?_⟩
    · rcases hk : used k with _ | _
      · rw [runsFrom, if_neg (by simp [hk]), ihOpen k (hclosed.open hk)]
        refine and_congr_right fun _ => ?_
        omega
      · rw [runsFrom, if_pos hk, ihClosed (closed_succ hk)]
        refine and_congr_right fun hrun => ?_
        have := hbegin hk hrun
        omega
    · rcases hk : used k with _ | _
      · rw [runsFrom, if_neg (by simp [hk]), ihOpen b₀ (hopen.extend hk)]
        refine and_congr_right fun hrun => ?_
        have hne := hopen.ne_start hrun
        omega
      · -- the open run ends here: it is the first one listed
        rw [runsFrom, if_pos hk, List.mem_cons, Prod.mk.injEq, ihClosed (closed_succ hk)]
        refine ⟨?_, ?_⟩
        · rintro (⟨rfl, rfl⟩ | ⟨hrun, hkb⟩)
          · exact ⟨hopen.isRun (by omega) (Or.inl hk), Or.inl rfl⟩
          · exact ⟨hrun, Or.inr (by omega)⟩
        · rintro ⟨hrun, rfl | hkb⟩
          · exact Or.inl ⟨rfl, hopen.length_eq hrun (by omega) (Or.inl hk)⟩
          · have := hbegin hk hrun
            exact Or.inr ⟨hrun, by omega⟩

/-- **The runs are the maximal ones.** -/
theorem mem_runs {n b l : Nat} : (b, l) ∈ runs used n ↔ IsRun used n b l := by
  have h : (b, l) ∈ runsFrom used 0 n none ↔ IsRun used (0 + n) b l ∧ 0 ≤ b :=
    (mem_runsFrom n 0).1 (Or.inl rfl)
  rw [Nat.zero_add] at h
  rw [runs, h]
  exact and_iff_left (Nat.zero_le b)

/-- The run that goes on over position `i`. -/
theorem exists_openRun {i : Nat} (hi : used i = false) : ∃ b, OpenRun used (i + 1) b := by
  induction i with
  | zero => exact ⟨0, Closed.open (Or.inl rfl) hi⟩
  | succ i ih =>
    rcases hfront : used i with _ | _
    · obtain ⟨b, hopen⟩ := ih hfront
      exact ⟨b, hopen.extend hi⟩
    · exact ⟨i + 1, Closed.open (closed_succ hfront) hi⟩

/-- It ends before `n` or there. -/
theorem OpenRun.exists_isRun {n b : Nat} (r : Nat) : ∀ {k : Nat}, k + r = n → OpenRun used k b →
    ∃ l, IsRun used n b l ∧ k ≤ b + l := by
  induction r with
  | zero =>
    intro k hk hopen
    have hlt := hopen.lt
    exact ⟨k - b, hopen.isRun (by omega) (Or.inr (by omega)), by omega⟩
  | succ r ih =>
    intro k hk hopen
    rcases hused : used k with _ | _
    · obtain ⟨l, hrun, hle⟩ := ih (by omega) (hopen.extend hused)
      exact ⟨l, hrun, by omega⟩
    · have hlt := hopen.lt
      exact ⟨k - b, hopen.isRun (by omega) (Or.inl hused), by omega⟩

/-- **Every unused position is in a run.** -/
theorem exists_isRun {n i : Nat} (hi : i < n) (hunused : used i = false) :
    ∃ b l, IsRun used n b l ∧ b ≤ i ∧ i < b + l := by
  obtain ⟨b, hopen⟩ := exists_openRun hunused
  have hlt := hopen.lt
  obtain ⟨l, hrun, hle⟩ := hopen.exists_isRun (n := n) (n - (i + 1)) (by omega)
  exact ⟨b, l, hrun, by omega, by omega⟩

/-- A run takes in whatever unused range it meets. -/
theorem IsRun.absorbs {n b l x y : Nat} (h : IsRun used n b l)
    (hunused : ∀ w, x ≤ w → w < y → used w = false) (hy : y ≤ n) (hlow : x ≤ b + l)
    (hhigh : b ≤ y) : b ≤ x ∧ y ≤ b + l := by
  refine ⟨?_, ?_⟩
  · by_contra hx
    rcases h.left with hzero | hused
    · omega
    · rw [hunused (b - 1) (by omega) (by omega)] at hused
      cases hused
  · by_contra hy'
    rcases h.right with hend | hused
    · omega
    · rw [hunused (b + l) hlow (by omega)] at hused
      cases hused

/-- **The runs stand in order**, and no two of them touch. -/
theorem pairwise_runsFrom (r : Nat) : ∀ k : Nat,
    (Closed used k → (runsFrom used k r none).Pairwise fun g h => g.1 + g.2 < h.1) ∧
    ∀ b, OpenRun used k b →
      (runsFrom used k r (some b)).Pairwise fun g h => g.1 + g.2 < h.1 := by
  induction r with
  | zero =>
    intro k
    exact ⟨fun _ => .nil, fun b _ => List.pairwise_singleton _ _⟩
  | succ r ih =>
    intro k
    obtain ⟨ihClosed, ihOpen⟩ := ih (k + 1)
    refine ⟨fun hclosed => ?_, fun b hopen => ?_⟩
    · rcases hk : used k with _ | _
      · rw [runsFrom, if_neg (by simp [hk])]
        exact ihOpen k (hclosed.open hk)
      · rw [runsFrom, if_pos hk]
        exact ihClosed (closed_succ hk)
    · rcases hk : used k with _ | _
      · rw [runsFrom, if_neg (by simp [hk])]
        exact ihOpen b (hopen.extend hk)
      · rw [runsFrom, if_pos hk]
        refine List.pairwise_cons.mpr ⟨fun ⟨b', l'⟩ hmem => ?_, ihClosed (closed_succ hk)⟩
        have hstart := (((mem_runsFrom r (k + 1)).1 (closed_succ hk)).mp hmem).2
        have hlt := hopen.lt
        simp only
        omega

theorem pairwise_runs (n : Nat) : (runs used n).Pairwise fun g h => g.1 + g.2 < h.1 :=
  (pairwise_runsFrom n 0).1 (Or.inl rfl)

/-! ## How many there are -/

/-- An open run is listed, whatever follows. -/
theorem length_runsFrom_pos (b r : Nat) : ∀ k, 0 < (runsFrom used k r (some b)).length := by
  induction r with
  | zero =>
    intro k
    rw [runsFrom, List.length_singleton]
    exact Nat.one_pos
  | succ r ih =>
    intro k
    rw [runsFrom]
    split
    · exact Nat.succ_pos _
    · exact ih (k + 1)

theorem length_runsFrom_le (r : Nat) : ∀ k,
    (runsFrom used k r none).length ≤ r ∧ ∀ b, (runsFrom used k r (some b)).length ≤ r + 1 := by
  induction r with
  | zero =>
    intro k
    exact ⟨Nat.le_refl 0, fun b => Nat.le_refl 1⟩
  | succ r ih =>
    intro k
    obtain ⟨hclosed, hopen⟩ := ih (k + 1)
    refine ⟨?_, fun b => ?_⟩
    · rw [runsFrom]
      split
      · exact Nat.le_succ_of_le hclosed
      · exact hopen k
    · rw [runsFrom]
      split
      · exact Nat.succ_le_succ (Nat.le_succ_of_le hclosed)
      · exact Nat.le_succ_of_le (hopen b)

theorem length_runs_le (n : Nat) : (runs used n).length ≤ n := (length_runsFrom_le n 0).1

end MaximalRuns
