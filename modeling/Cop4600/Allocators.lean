import Cop4600.Ledger

/-!
# The allocators, and sizes that do not fit an `int`

`bestFit` and `worstFit` run one loop with two notions of a better hole
(`fitLoop_cases`). Both answer with the start of a hole that is long enough, or
with `-1` where there is none (`bestFit_fits`, `worstFit_fits`).

`allocate` counts the words as a `size_t` and hands the allocator an `int`. As long
as the two agree, or the `int` is more than any hole holds, `allocate` is sound;
for every other size it is not (`allocates_iff`).
-/

namespace Cop4600

open PackedBits MemoryManager MaximalRuns PartialRuns

/-! ## The loop -/

/-- What the loop needs of its order of lengths. -/
structure IsBetter (better : Int → Int → Bool) : Prop where
  trans : ∀ {a b c}, better a b = true → better b c = true → better a c = true
  beats : ∀ {a b c d}, better a b = true → better c d = true → better c b = false →
    better a c = true

/-- The hole at `b` is the first of the best ones among those better than `best`. -/
def Chosen (better : Int → Int → Bool) (best : Int) (holes : List (Nat × Nat)) (b l : Nat) : Prop :=
  ∃ pre post, holes = pre ++ (b, l) :: post ∧ better l best = true ∧
    (∀ hole ∈ pre, better hole.2 best = true → better l hole.2 = true) ∧
    ∀ hole ∈ post, better hole.2 l = false

/-- What is chosen is one of the holes. -/
theorem Chosen.mem {better : Int → Int → Bool} {best : Int} {holes : List (Nat × Nat)} {b l : Nat}
    (h : Chosen better best holes b l) : (b, l) ∈ holes := by
  obtain ⟨pre, post, rfl, -⟩ := h
  exact List.mem_append_right _ List.mem_cons_self

/-- **The loop picks the first best hole**, if one is better than what it starts with. -/
theorem fitLoop_cases {better : Int → Int → Bool} (hbetter : IsBetter better)
    {holes : List (Nat × Nat)} (hfit : Narrow holes) : ∀ best offset : Int,
    (fitLoop better holes.length (writeHoles holes) best offset = some offset ∧
      ∀ hole ∈ holes, better hole.2 best = false) ∨
    ∃ b l, Chosen better best holes b l ∧
      fitLoop better holes.length (writeHoles holes) best offset = some (b : Int) := by
  induction holes with
  | nil =>
    intro best offset
    exact Or.inl ⟨rfl, fun hole hmem => by cases hmem⟩
  | cons hole holes ih =>
    obtain ⟨b₀, l₀⟩ := hole
    obtain ⟨hb₀, hl₀⟩ := hfit b₀ l₀ List.mem_cons_self
    intro best offset
    have hstep : fitLoop better (holes.length + 1) (writeHoles ((b₀, l₀) :: holes)) best offset =
        if better l₀ best then fitLoop better holes.length (writeHoles holes) l₀ b₀
        else fitLoop better holes.length (writeHoles holes) best offset := by
      rw [writeHoles, List.flatMap_cons, ← writeHoles]
      change fitLoop better (holes.length + 1)
        (UInt16.ofNat b₀ :: UInt16.ofNat l₀ :: writeHoles holes) best offset = _
      rw [fitLoop, UInt16.toNat_ofNat', UInt16.toNat_ofNat', Nat.mod_eq_of_lt hb₀,
        Nat.mod_eq_of_lt hl₀]
    rw [List.length_cons, hstep]
    rcases hfirst : better l₀ best with _ | _
    · -- the first hole is passed over
      rw [if_neg Bool.false_ne_true]
      rcases ih hfit.tail best offset with ⟨hloop, hnone⟩ | ⟨b, l, hchosen, hloop⟩
      · refine Or.inl ⟨hloop, fun hole hmem => ?_⟩
        rcases List.mem_cons.mp hmem with rfl | hmem
        · exact hfirst
        · exact hnone hole hmem
      · obtain ⟨pre, post, rfl, hbest, hpre, hpost⟩ := hchosen
        refine Or.inr ⟨b, l, ⟨(b₀, l₀) :: pre, post, rfl, hbest, fun hole hmem hhole => ?_, hpost⟩,
          hloop⟩
        rcases List.mem_cons.mp hmem with rfl | hmem
        · rw [hfirst] at hhole
          cases hhole
        · exact hpre hole hmem hhole
    · rw [if_pos rfl]
      rcases ih hfit.tail l₀ b₀ with ⟨hloop, hnone⟩ | ⟨b, l, hchosen, hloop⟩
      · exact Or.inr
          ⟨b₀, l₀, ⟨[], holes, rfl, hfirst, fun hole hmem => (by cases hmem), hnone⟩, hloop⟩
      · -- a later hole is better than the first one
        obtain ⟨pre, post, rfl, hbest, hpre, hpost⟩ := hchosen
        refine Or.inr ⟨b, l, ⟨(b₀, l₀) :: pre, post, rfl, hbetter.trans hbest hfirst,
          fun hole hmem hhole => ?_, hpost⟩, hloop⟩
        rcases List.mem_cons.mp hmem with rfl | hmem
        · exact hbest
        · rcases hrank : better hole.2 l₀ with _ | _
          · exact hbetter.beats hbest hhole hrank
          · exact hpre hole hmem hrank

/-- The test of `bestFit` prefers in a consistent way. -/
theorem betterFit_isBetter (sizeInWords : Int) : IsBetter (betterFit sizeInWords) where
  trans := fun h₁ h₂ => by
    simp only [betterFit, Bool.and_eq_true, decide_eq_true_eq] at *
    omega
  beats := fun h₁ h₂ h₃ => by
    simp only [betterFit, Bool.and_eq_true, Bool.and_eq_false_iff, decide_eq_true_eq,
      decide_eq_false_iff_not] at *
    omega

/-- The test of `worstFit` prefers in a consistent way. -/
theorem worseFit_isBetter : IsBetter worseFit where
  trans := fun h₁ h₂ => by
    simp only [worseFit, decide_eq_true_eq] at *
    omega
  beats := fun h₁ h₂ h₃ => by
    simp only [worseFit, decide_eq_true_eq, decide_eq_false_iff_not] at *
    omega

/-! ## The answers -/

/-- The answer to a request for `sizeInWords` words: the start of a long enough hole,
or `-1` where there is none. -/
inductive Fits (sizeInWords : Int) (holes : List (Nat × Nat)) : Option Int32 → Prop where
  | none (hshort : ∀ b l, (b, l) ∈ holes → (l : Int) < sizeInWords) :
    Fits sizeInWords holes (some (-1))
  | hole {b l : Nat} (hmem : (b, l) ∈ holes) (hlong : sizeInWords ≤ l) :
    Fits sizeInWords holes (some (Int32.ofNat b))

/-- **What `bestFit` answers.** -/
theorem bestFit_cases {holes : List (Nat × Nat)} (hfit : Narrow holes)
    (hlen : holes.length < 2 ^ 16) (sizeInWords : Int32) :
    (bestFit sizeInWords (holesList holes) = some (-1) ∧
      ∀ b l, (b, l) ∈ holes → (l : Int) < sizeInWords.toInt) ∨
    ∃ b l, Chosen (betterFit sizeInWords.toInt) (2 ^ 31 - 1) holes b l ∧
      bestFit sizeInWords (holesList holes) = some (Int32.ofNat b) := by
  simp only [bestFit, holesList, UInt16.toNat_ofNat', Nat.mod_eq_of_lt hlen]
  rcases fitLoop_cases (betterFit_isBetter sizeInWords.toInt) hfit (2 ^ 31 - 1) (-1) with
    ⟨hloop, hnone⟩ | ⟨b, l, hchosen, hloop⟩
  · rw [hloop]
    refine Or.inl ⟨rfl, fun b l hmem => ?_⟩
    have hno := hnone _ hmem
    have hl := (hfit b l hmem).2
    simp only [betterFit, Bool.and_eq_false_iff, decide_eq_false_iff_not] at hno
    omega
  · rw [hloop, Option.map_some, Int32.ofInt_eq_ofNat]
    exact Or.inr ⟨b, l, hchosen, rfl⟩

/-- **What `worstFit` answers.** -/
theorem worstFit_cases {holes : List (Nat × Nat)} (hfit : Narrow holes)
    (hlen : holes.length < 2 ^ 16) {sizeInWords : Int32} (hsize : sizeInWords.toInt ≠ -2 ^ 31) :
    (worstFit sizeInWords (holesList holes) = some (-1) ∧
      ∀ b l, (b, l) ∈ holes → (l : Int) < sizeInWords.toInt) ∨
    ∃ b l, Chosen worseFit (sizeInWords.toInt - 1) holes b l ∧
      worstFit sizeInWords (holesList holes) = some (Int32.ofNat b) := by
  simp only [worstFit, holesList, UInt16.toNat_ofNat', Nat.mod_eq_of_lt hlen, if_neg hsize]
  rcases fitLoop_cases worseFit_isBetter hfit (sizeInWords.toInt - 1) (-1) with
    ⟨hloop, hnone⟩ | ⟨b, l, hchosen, hloop⟩
  · rw [hloop]
    refine Or.inl ⟨rfl, fun b l hmem => ?_⟩
    have hno := hnone _ hmem
    simp only [worseFit, decide_eq_false_iff_not] at hno
    omega
  · rw [hloop, Option.map_some, Int32.ofInt_eq_ofNat]
    exact Or.inr ⟨b, l, hchosen, rfl⟩

/-- `bestFit` answers with a long enough hole if there is one. -/
theorem bestFit_fits {holes : List (Nat × Nat)} (hfit : Narrow holes)
    (hlen : holes.length < 2 ^ 16) (sizeInWords : Int32) :
    Fits sizeInWords.toInt holes (bestFit sizeInWords (holesList holes)) := by
  rcases bestFit_cases hfit hlen sizeInWords with ⟨hanswer, hshort⟩ | ⟨b, l, hchosen, hanswer⟩
  · rw [hanswer]
    exact .none hshort
  · rw [hanswer]
    refine .hole hchosen.mem ?_
    obtain ⟨-, -, -, hbest, -⟩ := hchosen
    simp only [betterFit, Bool.and_eq_true, decide_eq_true_eq] at hbest
    exact hbest.1

/-- `worstFit` answers so, too, for all but the least `int`. -/
theorem worstFit_fits {holes : List (Nat × Nat)} (hfit : Narrow holes)
    (hlen : holes.length < 2 ^ 16) {sizeInWords : Int32} (hsize : sizeInWords.toInt ≠ -2 ^ 31) :
    Fits sizeInWords.toInt holes (worstFit sizeInWords (holesList holes)) := by
  rcases worstFit_cases hfit hlen hsize with ⟨hanswer, hshort⟩ | ⟨b, l, hchosen, hanswer⟩
  · rw [hanswer]
    exact .none hshort
  · rw [hanswer]
    refine .hole hchosen.mem ?_
    obtain ⟨-, -, -, hbest, -⟩ := hchosen
    simp only [worseFit, decide_eq_true_eq] at hbest
    omega

/-- Where all holes are too short the answer is `-1`. -/
theorem Fits.eq_of_short {sizeInWords : Int} {holes : List (Nat × Nat)} {answer : Option Int32}
    (h : Fits sizeInWords holes answer) (hshort : ∀ hole ∈ holes, (hole.2 : Int) < sizeInWords) :
    answer = some (-1) := by
  cases h with
  | none _ => rfl
  | @hole b l hmem hlong =>
    have hlt := hshort (b, l) hmem
    exact absurd hlong (Int.not_le.mpr hlt)

/-- A hole that is long enough makes for an offset. -/
theorem Fits.exists_of_long {sizeInWords : Int} {holes : List (Nat × Nat)} {answer : Option Int32}
    (h : Fits sizeInWords holes answer) (hfit : Narrow holes) {hole : Nat × Nat}
    (hmem : hole ∈ holes) (hlong : sizeInWords ≤ hole.2) :
    ∃ i, answer = some i ∧ ¬ i < 0 := by
  cases h with
  | none hshort =>
    have := hshort _ _ hmem
    omega
  | @hole b l hmem' hlong' =>
    have hb := (hfit b l hmem').1
    refine ⟨_, rfl, ?_⟩
    exact not_ofNat_neg (by omega)

/-! ## Every size -/

/-- The words as `allocate` hands them to the allocator. -/
def intWords (words : Nat) : Int := (Int32.ofNat words).toInt

/-- A number of words that fits an `int` is not narrowed. -/
theorem intWords_of_lt {words : Nat} (h : words < 2 ^ 31) : intWords words = words :=
  Int32.toInt_ofNat_of_lt h

/-- `allocate(size)` either returns `nullptr` and leaves the map alone, or returns the
address of as many free words of the pool as `size` takes, and marks them as a block. -/
def Ledger.AllocatesSoundly (l : Ledger) (size : UInt64) : Prop :=
  ∃ address m', l.manager.allocate size = some (address, m') ∧
    (address = none ∧ m'.map = l.manager.map ∨
      ∃ pool i, l.manager.pool = some pool ∧
        address = some (pool + i * l.manager.wordSize.toNat) ∧
        i + wordsFor l.manager.wordSize size ≤ l.manager.numWords.toNat ∧
        (∀ w, i ≤ w → w < i + wordsFor l.manager.wordSize size → used l.live w = false) ∧
        ∀ k, k < 4 * m'.map.length → typeAt m'.map k =
          some (entry l.manager.numWords.toNat (⟨i, wordsFor l.manager.wordSize size⟩ :: l.live) k))

/-- The manager allocates with `bestFit` or with `worstFit`. -/
def MemoryManager.UsesFit (m : MemoryManager) : Prop :=
  m.allocator = bestFit ∨ m.allocator = worstFit

/-- The words fit an `int`, or the `int` they are narrowed to is more than any hole
holds (and `worstFit` can subtract one from it). -/
def Ledger.NarrowsSafely (l : Ledger) (size : UInt64) : Prop :=
  size = 0 ∨ wordsFor l.manager.wordSize size < 2 ^ 31 ∨
    (∀ hole ∈ runs (used l.live) l.manager.numWords.toNat,
      (hole.2 : Int) < intWords (wordsFor l.manager.wordSize size)) ∧
    ¬ (l.manager.allocator = worstFit ∧
      intWords (wordsFor l.manager.wordSize size) = -2 ^ 31)

/-- Allocations of such sizes, frees of what is held, and the two allocators. -/
def Ledger.Narrows (l : Ledger) : MemoryCall → Prop
  | .allocate size => l.NarrowsSafely size
  | .free address => ∃ h ∈ l.held, some h.address = address
  | .setAllocator allocator => allocator = bestFit ∨ allocator = worstFit

section

variable {n p : Nat} {wordSize : UInt32} {l : Ledger}

/-- What the two allocators answer about the holes of a pool. -/
theorem MemoryManager.Manages.fits_holes {live : List Block} {m : MemoryManager}
    (h : m.Manages n wordSize p live) (hpolicy : m.UsesFit) (words : Nat)
    (hmin : ¬ (m.allocator = worstFit ∧ intWords words = -2 ^ 31)) :
    Fits (intWords words) (runs (used live) n)
      (m.allocator (Int32.ofNat words) (holesList (runs (used live) n))) := by
  have hn : n < 2 ^ 16 := Nat.lt_of_le_of_lt h.words (by decide)
  rcases hpolicy with hbest | hworst
  · rw [hbest]
    exact bestFit_fits (narrow_runs hn) (length_runs_lt hn) _
  · rw [hworst]
    exact worstFit_fits (narrow_runs hn) (length_runs_lt hn) fun hint => hmin ⟨hworst, hint⟩

/-- For a number of words that fits an `int` they answer inside a hole. -/
theorem MemoryManager.Manages.answersInHole {live : List Block} {m : MemoryManager}
    (h : m.Manages n wordSize p live) (hpolicy : m.UsesFit) (words : Nat)
    (hwords : words < 2 ^ 31) : m.AnswersInHole words := by
  have hn := h.words
  have hint := intWords_of_lt hwords
  have hfits := h.fits_holes hpolicy words (by rw [hint]; omega)
  rw [hint] at hfits
  intro list hlist
  obtain rfl := Option.some.inj (h.holeList.symm.trans hlist)
  rw [listedHoles_holesList (by omega)]
  generalize m.allocator (Int32.ofNat words) (holesList (runs (used live) n)) = answer at hfits ⊢
  cases hfits with
  | none _ => exact ⟨_, rfl, Or.inl (by decide)⟩
  | @hole b l hmem hlong =>
    have hle := (mem_runs.mp hmem).le
    refine ⟨_, rfl, Or.inr ⟨(b, l), hmem, ?_⟩⟩
    rw [Int32.toNatClampNeg_ofNat_of_lt (by omega)]
    constructor <;> simp only <;> omega

/-- Words that are narrowed to more than any hole holds get `-1`. -/
theorem MemoryManager.Manages.answersInHole_of_short {live : List Block} {m : MemoryManager}
    (h : m.Manages n wordSize p live) (hpolicy : m.UsesFit) {words : Nat}
    (hshort : ∀ hole ∈ runs (used live) n, (hole.2 : Int) < intWords words)
    (hmin : ¬ (m.allocator = worstFit ∧ intWords words = -2 ^ 31)) : m.AnswersInHole words := by
  have hanswer := (h.fits_holes hpolicy words hmin).eq_of_short hshort
  intro list hlist
  obtain rfl := Option.some.inj (h.holeList.symm.trans hlist)
  exact ⟨-1, hanswer, Or.inl (by decide)⟩

/-- **A narrowing that does no harm** leaves a request that the allocator may answer. -/
theorem Ledger.Sound.allowed_of_narrows (hl : l.Sound n wordSize p)
    (hpolicy : l.manager.UsesFit) {c : MemoryCall} (hc : l.Narrows c) : l.Allowed c := by
  have hm := hl.manages
  cases c with
  | allocate size =>
    intro hsize
    rcases (show l.NarrowsSafely size from hc).resolve_left hsize with hwords | ⟨hshort, hmin⟩
    · exact hm.answersInHole hpolicy _ hwords
    · rw [hm.numWords_eq] at hshort
      exact hm.answersInHole_of_short hpolicy hshort hmin
  | free address => exact hc
  | setAllocator allocator => trivial

/-- Such calls keep the ledger sound and under one of the two allocators. -/
theorem Ledger.Sound.call_narrows (hl : l.Sound n wordSize p) (hpolicy : l.manager.UsesFit)
    {c : MemoryCall} (hc : l.Narrows c) :
    ∃ l', l.call c = some l' ∧ l'.Sound n wordSize p ∧ l'.manager.UsesFit ∧
      l'.manager.poolSize = l.manager.poolSize := by
  obtain ⟨l', hcall, hsound⟩ := hl.call (hl.allowed_of_narrows hpolicy hc)
  obtain ⟨allocator, map, hframe, hsame⟩ := Ledger.call_frame hcall
  refine ⟨l', hcall, hsound, ?_, by rw [hframe]⟩
  rw [hframe]
  rcases hsame with rfl | rfl
  · exact hpolicy
  · exact hc

/-- A refusal is sound, and so is a block that was placed. -/
theorem Ledger.Sound.allocatesSoundly (hl : l.Sound n wordSize p) (hpolicy : l.manager.UsesFit)
    {size : UInt64} (hsafe : l.NarrowsSafely size) : l.AllocatesSoundly size := by
  have hm := hl.manages
  have hanswer := hl.allowed_of_narrows hpolicy (c := .allocate size) hsafe
  rw [Ledger.Allowed, hm.wordSize_eq] at hanswer
  rcases hl.allocate_cases hanswer with hrefused | ⟨h, map, hresult, -, rfl, hsound⟩
  · exact ⟨_, _, hrefused, Or.inl ⟨rfl, rfl⟩⟩
  · -- the block is laid next to those that were there
    have hm' := hsound.manages
    have hn := hm'.words
    have hwords : h.block.words = wordsFor wordSize h.size :=
      hsound.words_eq h List.mem_cons_self
    have hlaid : Laid n (⟨h.block.start, wordsFor wordSize h.size⟩ :: l.live) := by
      rw [← hwords]
      exact hm'.laid
    have hmarked : Marked n (⟨h.block.start, wordsFor wordSize h.size⟩ :: l.live) map := by
      rw [← hwords]
      exact hm'.marked
    have hlen := hmarked.length
    refine ⟨_, _, hresult, Or.inr ⟨p, h.block.start, hm.pool_eq, ?_, ?_, fun w hi hw => ?_,
      fun k hk => ?_⟩⟩
    · rw [hsound.address_eq h List.mem_cons_self, hm.wordSize_eq]
    · rw [hm.wordSize_eq, hm.numWords_eq]
      exact hlaid.inside _ List.mem_cons_self
    · rw [hm.wordSize_eq] at hw
      exact hlaid.unused_of_covers ⟨hi, hw⟩
    · rw [hlen] at hk
      rw [hm.wordSize_eq, hm.numWords_eq]
      exact hmarked.typeAt hlaid (by omega) (by omega)

/-- Where a hole is long enough for the `int`, the call does not refuse. -/
theorem Ledger.Sound.not_refused_of_long (hl : l.Sound n wordSize p) (hpolicy : l.manager.UsesFit)
    {size : UInt64} (hsize : size ≠ 0)
    (hmin : ¬ (l.manager.allocator = worstFit ∧ intWords (wordsFor wordSize size) = -2 ^ 31))
    {hole : Nat × Nat} (hmem : hole ∈ runs (used l.live) n)
    (hlong : intWords (wordsFor wordSize size) ≤ (hole.2 : Int)) (m' : MemoryManager) :
    l.manager.allocate size ≠ some (none, m') := by
  intro hresult
  have hm := hl.manages
  have hn := hm.words
  obtain ⟨i, hanswer, hi⟩ := (hm.fits_holes hpolicy _ hmin).exists_of_long
    (narrow_runs (by omega)) hmem hlong
  rw [hm.allocate_eq hl.fits.1 hsize, hanswer, Option.bind_some, if_neg hi] at hresult
  dsimp only at hresult
  split at hresult
  · cases hresult
  · obtain ⟨map, -, hpair⟩ := Option.map_eq_some_iff.mp hresult
    cases hpair

/-- **Soundness, exactly**: `allocate` is sound for the sizes whose narrowing does no
harm, and for no others. -/
theorem Ledger.Sound.allocatesSoundly_iff (hl : l.Sound n wordSize p)
    (hpolicy : l.manager.UsesFit) (size : UInt64) :
    l.AllocatesSoundly size ↔ l.NarrowsSafely size := by
  have hm := hl.manages
  have hn := hm.words
  refine ⟨?_, hl.allocatesSoundly hpolicy⟩
  rintro ⟨address, m', hresult, hcases⟩
  rw [NarrowsSafely, hm.wordSize_eq, hm.numWords_eq]
  by_contra hunsafe
  rw [not_or, not_or] at hunsafe
  obtain ⟨hsize, hwords, hharm⟩ := hunsafe
  -- so many words are in no pool: only a refusal could be sound
  rw [hm.wordSize_eq, hm.numWords_eq] at hcases
  have hnone : address = none := by
    rcases hcases with ⟨hnone, -⟩ | ⟨_, i, -, -, hle, -⟩
    · exact hnone
    · omega
  by_cases hmin : l.manager.allocator = worstFit ∧ intWords (wordsFor wordSize size) = -2 ^ 31
  · -- `worstFit` itself overflows
    have hanswer : l.manager.allocator (Int32.ofNat (wordsFor wordSize size))
        (holesList (runs (used l.live) n)) = none := by
      simp only [hmin.1, worstFit, holesList]
      exact if_pos hmin.2
    rw [hm.allocate_eq hl.fits.1 hsize, hanswer] at hresult
    cases hresult
  · have hlong : ∃ hole ∈ runs (used l.live) n,
        intWords (wordsFor wordSize size) ≤ (hole.2 : Int) := by
      by_contra hno
      refine hharm ⟨fun hole hmem => ?_, hmin⟩
      exact Int.not_le.mp fun hle => hno ⟨hole, hmem, hle⟩
    obtain ⟨hole, hmem, hlong⟩ := hlong
    rw [hnone] at hresult
    exact hl.not_refused_of_long hpolicy hsize hmin hmem hlong m' hresult

end

/-- **Where allocation is sound.** In every state that is reached under `bestFit` or
`worstFit` by allocations whose narrowing does no harm and by frees of live blocks,
`allocate(size)` is sound exactly for the sizes whose narrowing does no harm. -/
theorem allocates_iff {m : MemoryManager} {mmap : UInt32 → Option Nat} {sizeInWords : UInt64}
    {p : Nat} (hpolicy : m.UsesFit)
    (hfits : PoolFits sizeInWords.toNat m.wordSize)
    (hmmap : mmap (UInt32.ofNat
      (sizeInWords.toNat * m.wordSize.toNat + sizeInWords.toNat / 4 + 1)) = some p)
    {calls : List MemoryCall}
    (hcalls : ∀ l ∈ Ledger.begin m mmap sizeInWords,
      Throughout Ledger.call Ledger.Narrows l calls) :
    ∃ l, ((Ledger.begin m mmap sizeInWords).bind fun l => run Ledger.call l calls) = some l ∧
      ∀ size, l.AllocatesSoundly size ↔ l.NarrowsSafely size := by
  obtain ⟨l, hl, hsound, hsame⟩ := Ledger.begin_of_poolFits hfits hmmap
  rw [MemoryManager.UsesFit, ← hsame] at hpolicy
  have hstep : ∀ (l : Ledger) (c : MemoryCall),
      l.Sound sizeInWords.toNat m.wordSize p ∧ l.manager.UsesFit → l.Narrows c →
      ∃ l', l.call c = some l' ∧ l'.Sound sizeInWords.toNat m.wordSize p ∧ l'.manager.UsesFit := by
    rintro l c ⟨hl, hpolicy⟩ hc
    obtain ⟨l', hcall, hl', hpolicy', -⟩ := hl.call_narrows hpolicy hc
    exact ⟨l', hcall, hl', hpolicy'⟩
  obtain ⟨l', hrun, hsound', hpolicy'⟩ :=
    run_of_invariant hstep calls ⟨hsound, hpolicy⟩ (hcalls l hl)
  exact ⟨l', by rw [hl, Option.bind_some, hrun], hsound'.allocatesSoundly_iff hpolicy'⟩

/-- Requests of at most `INT_MAX` words do no harm. -/
theorem Ledger.narrowsSafely_of_lt {l : Ledger} {size : UInt64}
    (hwords : wordsFor l.manager.wordSize size < 2 ^ 31) : l.NarrowsSafely size :=
  Or.inr (Or.inl hwords)

/-- The ledger that `initialize(4)` begins, with words of one byte. -/
def fourWords : Option Ledger := Ledger.begin (new 1 bestFit) (fun _ => some 4096) 4

/-- A request for `2 ^ 32 + 1` words of a pool of four: the allocator is asked for one
word, and the client is told that it has them all. -/
theorem oversized_request_succeeds :
    ∃ l ∈ fourWords, l.manager.numWords.toNat < wordsFor l.manager.wordSize 4294967297 ∧
      (∃ m', l.manager.allocate 4294967297 = some (some 4096, m')) ∧
      ¬ l.AllocatesSoundly 4294967297 := by
  let l : Ledger := ⟨{
    wordSize := 1, allocator := bestFit, numWords := 4, poolSize := 4, totalSize := 6
    pool := some 4096, map := [1, 2] }, []⟩
  have hresult : ∃ m', l.manager.allocate 4294967297 = some (some 4096, m') := by
    have haddress : (l.manager.allocate 4294967297).map Prod.fst = some (some 4096) := by
      decide +kernel
    obtain ⟨⟨address, m'⟩, hallocate, rfl⟩ := Option.map_eq_some_iff.mp haddress
    exact ⟨m', hallocate⟩
  refine ⟨l, ?_, by decide, hresult, ?_⟩
  · rfl
  rintro ⟨address, m', hallocate, ⟨rfl, -⟩ | ⟨pool, i, -, -, hle, -⟩⟩
  · obtain ⟨m₁, hresult⟩ := hresult
    rw [hallocate] at hresult
    cases hresult
  · have hwords : ¬ i + wordsFor 1 4294967297 ≤ 4 := by
      rw [show wordsFor 1 4294967297 = 4294967297 by decide]
      omega
    exact hwords hle

/-- Four words of one byte under `worstFit`: two blocks, the first given back. A request for
five words is answered soundly, and one for `2 ^ 32 + 1` words is not. -/
theorem allocates_iff_sample :
    ∃ l, ((Ledger.begin (new 1 worstFit) (fun _ => some 4096) 4).bind fun l =>
        run Ledger.call l [.allocate 2, .allocate 1, .free (some 4096)]) = some l ∧
      l.live = [⟨2, 1⟩] ∧ l.AllocatesSoundly 5 ∧ ¬ l.AllocatesSoundly 4294967297 := by
  obtain ⟨l, hl, hiff⟩ :=
    @allocates_iff (new 1 worstFit) (fun _ => some 4096) 4 4096 (Or.inr rfl)
      ⟨by decide, by decide, by decide⟩ rfl [.allocate 2, .allocate 1, .free (some 4096)]
      (fun l hl => by
        obtain rfl := Option.some.inj (hl.symm.trans rfl)
        refine ⟨Ledger.narrowsSafely_of_lt (by decide), fun l₁ hl₁ => ?_⟩
        obtain rfl := Option.some.inj (hl₁.symm.trans rfl)
        refine ⟨Ledger.narrowsSafely_of_lt (by decide), fun l₂ hl₂ => ?_⟩
        refine ⟨show l₂.Allowed (.free (some 4096)) from ?_, fun _ _ => trivial⟩
        revert l₂
        decide +kernel)
  have hstate : ((Ledger.begin (new 1 worstFit) (fun _ => some 4096) 4).bind fun l =>
      run Ledger.call l [.allocate 2, .allocate 1, .free (some 4096)]).map
        (fun l => (l.live, l.manager.numWords, l.manager.wordSize)) =
      some ([⟨2, 1⟩], 4, 1) := by
    decide +kernel
  rw [hl] at hstate
  obtain ⟨hlive, hrest⟩ := Prod.mk.inj (Option.some.inj hstate)
  obtain ⟨hnum, hsize⟩ := Prod.mk.inj hrest
  refine ⟨l, hl, hlive, (hiff 5).mpr (Ledger.narrowsSafely_of_lt ?_), fun hsound => ?_⟩
  · rw [hsize]
    decide
  · -- narrowed to one word, the request gets the hole at word 0
    have hsafe := (hiff 4294967297).mp hsound
    rw [Ledger.NarrowsSafely, hsize, hnum, hlive] at hsafe
    rcases hsafe with hzero | hwords | ⟨hshort, -⟩
    · exact absurd hzero (by decide)
    · exact absurd hwords (by decide)
    · exact absurd (hshort (0, 2) (by decide)) (by decide)

end Cop4600
