import Cop4600.Allocators
import Cop4600.Wrapping

/-!
# The policies of the two allocators

`bestFit` is to take the shortest run of free words that is long enough, `worstFit`
the longest run of all, and both the first of these (`Shortest`, `Longest`). What their
loop chooses among the holes in the list is that run (`Chosen.shortest`,
`Chosen.longest`), and `allocate` places the block at its start and refuses only where
no run is long enough (`Ledger.Sound.followsPolicies`). The address it returns is that
of the block exactly if the offset of the pool's last word fits 32 bits
(`follows_policies_iff`).
-/

namespace Cop4600

open PackedBits MemoryManager MaximalRuns PartialRuns

/-- The first of the shortest runs below `n` of at least `words` free words. -/
structure Shortest (used : Nat → Bool) (n words b l : Nat) : Prop where
  /-- one of the holes -/
  isRun : IsRun used n b l
  /-- long enough -/
  fits : words ≤ l
  /-- no other that is long enough is shorter, or as short and further in front -/
  first : ∀ b' l', IsRun used n b' l' → words ≤ l' → l < l' ∨ l = l' ∧ b ≤ b'

/-- The first of the longest runs below `n`, if it has at least `words` free words. -/
structure Longest (used : Nat → Bool) (n words b l : Nat) : Prop where
  /-- one of the holes -/
  isRun : IsRun used n b l
  /-- long enough -/
  fits : words ≤ l
  /-- no other is longer, or as long and further in front -/
  first : ∀ b' l', IsRun used n b' l' → l' < l ∨ l' = l ∧ b ≤ b'

/-- `allocate(size)` returns the address of word `b` and marks a block there. -/
def Ledger.PlacesAt (l : Ledger) (allocator : MemoryAllocator) (size : UInt64) (b : Nat) : Prop :=
  ∃ pool m', l.manager.pool = some pool ∧
    (l.manager.setAllocator allocator).allocate size =
      some (some (pool + b * l.manager.wordSize.toNat), m') ∧
    ∀ k, k < 4 * m'.map.length → typeAt m'.map k =
      some (entry l.manager.numWords.toNat (⟨b, wordsFor l.manager.wordSize size⟩ :: l.live) k)

/-- Under this allocator `allocate(size)` refuses exactly if no run is long enough, and
otherwise chooses among the runs. -/
structure Ledger.Places (l : Ledger) (allocator : MemoryAllocator) (size : UInt64)
    (Choice : (b r : Nat) → Prop) : Prop where
  refuses : (∃ m', (l.manager.setAllocator allocator).allocate size = some (none, m')) ↔
    ∀ b r, IsRun (used l.live) l.manager.numWords.toNat b r →
      r < wordsFor l.manager.wordSize size
  places : (∃ b r, IsRun (used l.live) l.manager.numWords.toNat b r ∧
      wordsFor l.manager.wordSize size ≤ r) →
    ∃ b r, Choice b r ∧ l.PlacesAt allocator size b

/-- Both allocators follow their policies, for every size of one to `INT_MAX` words. -/
def Ledger.FollowsPolicies (l : Ledger) : Prop :=
  ∀ size, 1 ≤ wordsFor l.manager.wordSize size →
    wordsFor l.manager.wordSize size ≤ 2 ^ 31 - 1 →
    l.Places bestFit size (Shortest (used l.live) l.manager.numWords.toNat
      (wordsFor l.manager.wordSize size)) ∧
    l.Places worstFit size (Longest (used l.live) l.manager.numWords.toNat
      (wordsFor l.manager.wordSize size))

/-! ## What the loop chooses -/

section

variable {used : Nat → Bool} {n words b l : Nat}

/-- The holes behind one of them begin behind it. -/
theorem le_of_mem_behind {pre post : List (Nat × Nat)}
    (heq : runs used n = pre ++ (b, l) :: post) {hole : Nat × Nat} (hmem : hole ∈ post) :
    b ≤ hole.1 := by
  have hsorted : (runs used n).Pairwise fun g h => g.1 + g.2 < h.1 := pairwise_runs n
  rw [heq] at hsorted
  have hbehind := List.rel_of_pairwise_cons (List.pairwise_append.mp hsorted).2.1 hmem
  omega

theorem Chosen.shortest (hn : n < 2 ^ 16)
    (h : Chosen (betterFit words) (2 ^ 31 - 1) (runs used n) b l) : Shortest used n words b l := by
  obtain ⟨pre, post, heq, hbest, hpre, hpost⟩ := id h
  simp only [betterFit, Bool.and_eq_true, decide_eq_true_eq] at hbest
  refine ⟨mem_runs.mp h.mem, by omega, fun b' l' hrun hlong => ?_⟩
  have hle := hrun.le
  have hmem : (b', l') ∈ pre ++ (b, l) :: post := heq ▸ mem_runs.mpr hrun
  -- those in front are longer, those behind are not shorter
  rcases List.mem_append.mp hmem with hmem | hmem
  · have hbetter := hpre _ hmem (by
      simp only [betterFit, Bool.and_eq_true, decide_eq_true_eq]
      omega)
    simp only [betterFit, Bool.and_eq_true, decide_eq_true_eq] at hbetter
    omega
  · rcases List.mem_cons.mp hmem with hsame | hmem
    · cases hsame
      exact Or.inr ⟨rfl, Nat.le_refl b⟩
    · have hworse := hpost _ hmem
      have hbehind := le_of_mem_behind heq hmem
      simp only [betterFit, Bool.and_eq_false_iff, decide_eq_false_iff_not] at hworse
      simp only at hbehind
      omega

theorem Chosen.longest (h : Chosen worseFit ((words : Int) - 1) (runs used n) b l) :
    Longest used n words b l := by
  obtain ⟨pre, post, heq, hbest, hpre, hpost⟩ := id h
  simp only [worseFit, decide_eq_true_eq] at hbest
  refine ⟨mem_runs.mp h.mem, by omega, fun b' l' hrun => ?_⟩
  have hmem : (b', l') ∈ pre ++ (b, l) :: post := heq ▸ mem_runs.mpr hrun
  -- those in front are shorter, those behind are not longer
  rcases List.mem_append.mp hmem with hmem | hmem
  · have hshorter := hpre _ hmem
    simp only [worseFit, decide_eq_true_eq] at hshorter
    omega
  · rcases List.mem_cons.mp hmem with hsame | hmem
    · cases hsame
      exact Or.inr ⟨rfl, Nat.le_refl b⟩
    · have hnotLonger := hpost _ hmem
      have hbehind := le_of_mem_behind heq hmem
      simp only [worseFit, decide_eq_false_iff_not] at hnotLonger
      simp only at hbehind
      omega

end

/-! ## What `allocate` does with it -/

section

variable {n p : Nat} {wordSize : UInt32} {l : Ledger}

/-- An allocator that answers with the start of its choice, or refuses where no run is
long enough. -/
theorem Ledger.Sound.places (hl : l.Sound n wordSize p) {allocator : MemoryAllocator}
    {size : UInt64} (hpos : 1 ≤ wordsFor wordSize size) {Choice : Nat → Nat → Prop}
    (hcases : (allocator (Int32.ofNat (wordsFor wordSize size))
          (holesList (runs (used l.live) n)) = some (-1) ∧
        ∀ b r, (b, r) ∈ runs (used l.live) n → r < wordsFor wordSize size) ∨
      ∃ b r, Choice b r ∧ IsRun (used l.live) n b r ∧ wordsFor wordSize size ≤ r ∧
        allocator (Int32.ofNat (wordsFor wordSize size))
          (holesList (runs (used l.live) n)) = some (Int32.ofNat b)) :
    l.Places allocator size Choice := by
  have hm := hl.manages
  have hm' := hm.setAllocator allocator
  have hn := hm.words
  obtain rfl := hm.numWords_eq
  obtain rfl := hm.wordSize_eq
  have hsize : size ≠ 0 := by
    rintro rfl
    have hws := hl.fits.1
    rw [wordsFor, UInt64.toNat_zero, Nat.zero_add, Nat.div_eq_of_lt (by omega)] at hpos
    omega
  rcases hcases with ⟨hanswer, hshort⟩ | ⟨b, r, hchoice, hrun, hlong, hanswer⟩
  · have hrefused : (l.manager.setAllocator allocator).allocate size =
        some (none, l.manager.setAllocator allocator) := by
      rw [hm'.allocate_eq hl.fits.1 hsize,
        show (l.manager.setAllocator allocator).allocator = allocator from rfl, hanswer]
      rfl
    have hnone : ∀ b r, IsRun (used l.live) l.manager.numWords.toNat b r →
        r < wordsFor l.manager.wordSize size := fun b r hrun => hshort b r (mem_runs.mpr hrun)
    refine ⟨iff_of_true ⟨_, hrefused⟩ hnone, ?_⟩
    rintro ⟨b, r, hrun, hlong⟩
    exact absurd (hnone b r hrun) (Nat.not_lt.mpr hlong)
  · have hle := hrun.le
    have hpos' := hrun.pos
    have hclamp : (Int32.ofNat b).toNatClampNeg = b := Int32.toNatClampNeg_ofNat_of_lt (by omega)
    have hneg := @not_ofNat_neg b (by omega)
    have hin : InHole (runs (used l.live) l.manager.numWords.toNat) (Int32.ofNat b).toNatClampNeg
        (wordsFor l.manager.wordSize size) := by
      rw [hclamp]
      exact ⟨(b, r), mem_runs.mpr hrun, Nat.le_refl b, Nat.add_le_add_left hlong b⟩
    obtain ⟨hlaid, map, hmarked, hresult⟩ := hm'.place hl.fits.1 hsize hanswer hneg hin
    rw [hclamp] at hlaid hmarked hresult
    rw [hl.fits.offset (by omega)] at hresult
    refine ⟨iff_of_false ?_ fun hshort => ?_, fun _ => ⟨b, r, hchoice, p, _, hm.pool_eq, hresult,
      fun k hk => ?_⟩⟩
    · rintro ⟨m', hrefused⟩
      rw [hresult] at hrefused
      cases hrefused
    · exact absurd (hshort b r hrun) (Nat.not_lt.mpr hlong)
    · have hlen := hmarked.length
      refine hmarked.typeAt hlaid ?_ ?_ <;> simp only [hlen] at hk <;> omega

/-- **The policies**: every sound ledger is in a state in which both allocators follow
theirs. -/
theorem Ledger.Sound.followsPolicies (hl : l.Sound n wordSize p) : l.FollowsPolicies := by
  have hm := hl.manages
  have hn := hm.words
  obtain rfl := hm.numWords_eq
  obtain rfl := hm.wordSize_eq
  intro size hpos hint
  have hwords : (Int32.ofNat (wordsFor l.manager.wordSize size)).toInt =
      wordsFor l.manager.wordSize size := Int32.toInt_ofNat_of_lt (by omega)
  have hnarrow : Narrow (runs (Cop4600.used l.live) l.manager.numWords.toNat) :=
    narrow_runs (by omega)
  have hlen : (runs (Cop4600.used l.live) l.manager.numWords.toNat).length < 2 ^ 16 :=
    length_runs_lt (by omega)
  refine ⟨hl.places hpos ?_, hl.places hpos ?_⟩
  · rcases bestFit_cases hnarrow hlen (Int32.ofNat (wordsFor l.manager.wordSize size)) with
      ⟨hanswer, hshort⟩ | ⟨b, r, hchosen, hanswer⟩
    · rw [hwords] at hshort
      exact Or.inl ⟨hanswer, fun b r hmem => Int.ofNat_lt.mp (hshort b r hmem)⟩
    · rw [hwords] at hchosen
      have hchoice := hchosen.shortest (by omega)
      exact Or.inr ⟨b, r, hchoice, hchoice.isRun, hchoice.fits, hanswer⟩
  · have hmin : (Int32.ofNat (wordsFor l.manager.wordSize size)).toInt ≠ -2 ^ 31 := by
      rw [hwords]
      omega
    rcases worstFit_cases hnarrow hlen hmin with
      ⟨hanswer, hshort⟩ | ⟨b, r, hchosen, hanswer⟩
    · rw [hwords] at hshort
      exact Or.inl ⟨hanswer, fun b r hmem => Int.ofNat_lt.mp (hshort b r hmem)⟩
    · rw [hwords] at hchosen
      have hchoice := hchosen.longest
      exact Or.inr ⟨b, r, hchoice, hchoice.isRun, hchoice.fits, hanswer⟩

/-! ## Where the last offset wraps -/

/-- All words but the last one are taken. -/
theorem isRun_last (hn : 0 < n) : IsRun (used [⟨0, n - 1⟩]) n (n - 1) 1 where
  pos := Nat.one_pos
  le := by omega
  unused := fun w hw _ => by
    rw [used_eq_false_iff]
    rintro b hb ⟨-, hstop⟩
    obtain rfl := List.mem_singleton.mp hb
    simp only [Block.stop] at hstop
    omega
  left := by
    by_cases hone : n - 1 = 0
    · exact Or.inl hone
    · refine Or.inr (used_iff.mpr ⟨_, List.mem_singleton_self _, Nat.zero_le _, ?_⟩)
      simp only [Block.stop]
      omega
  right := Or.inl (by omega)

/-- With a block on all words but the last one, a word that is handed out has an address
that does not lead to the last one. -/
theorem Ledger.not_followsPolicies (h : l.manager.Manages n wordSize p l.live)
    (hlive : l.live = [⟨0, n - 1⟩]) (hpos : 0 < wordSize.toNat)
    (hlast : 2 ^ 32 ≤ (n - 1) * wordSize.toNat) : ¬ l.FollowsPolicies := by
  intro hfollows
  obtain rfl := h.numWords_eq
  obtain rfl := h.wordSize_eq
  have hone := wordsFor_one hpos
  obtain ⟨hplaces, -⟩ := hfollows 1 (by omega) (by omega)
  obtain ⟨b, r, hchoice, pool, m', hpool, hresult, -⟩ := hplaces.places ⟨_, 1, by
    rw [hlive]
    refine ⟨isRun_last ?_, by omega⟩
    by_contra hzero
    rw [show l.manager.numWords.toNat - 1 = 0 by omega, Nat.zero_mul] at hlast
    omega⟩
  -- the run begins at the last word, whose offset is no 32-bit number
  have hstart : l.manager.numWords.toNat - 1 ≤ b := by
    by_contra hlt
    have hunused := hchoice.isRun.start_unused
    rw [hlive, used_eq_false_iff] at hunused
    refine hunused _ (List.mem_singleton_self _) ⟨Nat.zero_le b, ?_⟩
    simp only [Block.stop]
    omega
  obtain ⟨i, hi⟩ := allocate_address hpool hresult
  have hlt := (UInt32.ofNat i * l.manager.wordSize).toNat_lt
  have hle := Nat.mul_le_mul_right l.manager.wordSize.toNat hstart
  omega

/-- A run that takes all words but the last one. -/
theorem Ledger.exists_all_but_last (h : l.manager.Manages n wordSize p l.live)
    (hlive : l.live = []) (hpos : 0 < wordSize.toNat)
    (hlast : 2 ^ 32 ≤ (n - 1) * wordSize.toNat) :
    ∃ calls l', Throughout Ledger.call Ledger.Allowed l calls ∧
      run Ledger.call l calls = some l' ∧ l'.manager.Manages n wordSize p l'.live ∧
      l'.live = [⟨0, n - 1⟩] := by
  have hn := h.words
  have hsmall : (n - 1) * wordSize.toNat < 2 ^ 64 := by
    have hws := wordSize.toNat_lt
    have := Nat.mul_lt_mul_of_le_of_lt (show n - 1 ≤ 65535 by omega) hws (by omega)
    omega
  have hwords : wordsFor wordSize (UInt64.ofNat ((n - 1) * wordSize.toNat)) = n - 1 :=
    wordsFor_mul hpos hsmall
  have hsize : UInt64.ofNat ((n - 1) * wordSize.toNat) ≠ 0 := by
    intro hzero
    have hnat := congrArg UInt64.toNat hzero
    rw [UInt64.toNat_ofNat', Nat.mod_eq_of_lt hsmall, UInt64.toNat_zero] at hnat
    omega
  have hin : InHole (runs (used l.live) n) 0 (wordsFor wordSize
      (UInt64.ofNat ((n - 1) * wordSize.toNat))) := by
    rw [hwords, hlive]
    refine ⟨(0, n), mem_runs.mpr (isRun_all ?_), Nat.le_refl 0, by simp only; omega⟩
    by_contra hzero
    rw [show n - 1 = 0 by omega, Nat.zero_mul] at hlast
    omega
  obtain ⟨hallowed, l', hrun, hheld, hmanages⟩ := Ledger.run_atWord h hpos _ hsize hin
  refine ⟨_, l', hallowed, hrun, hmanages, ?_⟩
  rw [Ledger.live, hheld, List.map_cons, hwords]
  exact congrArg _ hlive

end

/-- **Where allocation follows the policies.** In a pool of at most 65535 words, both
allocators follow theirs in every state that allowed calls reach, and none of these
fails, exactly if words have bytes and the offset of the last word fits 32 bits. -/
theorem follows_policies_iff {m : MemoryManager} {mmap : UInt32 → Option Nat}
    {sizeInWords : UInt64} {l₀ : Ledger} (hn : sizeInWords.toNat ≤ 65535)
    (hbegin : Ledger.begin m mmap sizeInWords = some l₀) :
    (∀ calls, Throughout Ledger.call Ledger.Allowed l₀ calls →
      ∃ l, run Ledger.call l₀ calls = some l ∧ l.FollowsPolicies) ↔
    OffsetsFit sizeInWords.toNat m.wordSize := by
  refine Ledger.reached_iff hn hbegin (fun _ hsound => hsound.followsPolicies) ?_
  intro p hmanages hheld hpos hlast
  obtain ⟨calls, l, hcalls, hl, hmanages', hlive'⟩ :=
    Ledger.exists_all_but_last hmanages (Ledger.live_of_held hheld) hpos hlast
  exact ⟨calls, l, hcalls, hl, Ledger.not_followsPolicies hmanages' hlive' hpos hlast⟩

/-- Six words of two bytes. -/
theorem follows_policies_iff_sixWords :
    ∃ l₀ ∈ Ledger.begin (new 2 bestFit) (fun _ => some 4096) 6,
      ∀ calls, Throughout Ledger.call Ledger.Allowed l₀ calls →
        ∃ l, run Ledger.call l₀ calls = some l ∧ l.FollowsPolicies := by
  refine ⟨_, rfl, ?_⟩
  exact (@follows_policies_iff (new 2 bestFit) (fun _ => some 4096) 6 _ (by decide) rfl).mpr
    (by decide)

/-- Three words of two gigabytes, two of them taken: the third one, which `bestFit`
chooses, is handed out under the address of the first. -/
theorem last_word_misplaced :
    ∃ l₀ ∈ Ledger.begin (new 2147483648 bestFit) (fun _ => some 4096) 3,
      ∃ l, run Ledger.call l₀ [.allocate 4294967296] = some l ∧
        Throughout Ledger.call Ledger.Allowed l₀ [.allocate 4294967296] ∧
        Shortest (used l.live) 3 1 2 1 ∧ ¬ l.PlacesAt bestFit 1 2 := by
  let l : Ledger := ⟨wideWords bestFit [147], [⟨4096, 4294967296, ⟨0, 2⟩⟩]⟩
  have hallocate : (wideWords bestFit [129]).allocate 4294967296 =
      some (some 4096, wideWords bestFit [147]) := allocate_of_map (by decide +kernel)
  have hholding : (wideWords bestFit [129]).holding 4096 4294967296 =
      ⟨4096, 4294967296, ⟨0, 2⟩⟩ := by decide +kernel
  refine ⟨⟨wideWords bestFit [129], []⟩, rfl, l, ?_, by decide +kernel,
    ⟨isRun_last (n := 3) (by decide), Nat.le_refl 1, ?_⟩, ?_⟩
  · simp only [run, Ledger.call, hallocate, Option.map_some, Option.bind_some, hholding]
    rfl
  · intro b' r' hrun hfits
    have hunused := used_eq_false_iff.mp hrun.start_unused _ (List.mem_singleton_self _)
    simp only [Block.Covers, Block.stop, Nat.zero_le, true_and, Nat.zero_add] at hunused
    omega
  · rintro ⟨pool, m₁, hpool, hresult, -⟩
    obtain rfl : 4096 = pool := Option.some.inj hpool
    have haddress : ((l.manager.setAllocator bestFit).allocate 1).map Prod.fst =
        some (some 4096) := by
      decide +kernel
    rw [hresult] at haddress
    have hwrong : 4096 + 2 * (2147483648 : UInt32).toNat ≠ 4096 := by decide
    exact hwrong (Option.some.inj (Option.some.inj haddress))

end Cop4600
