import Cop4600.Policy
import Mathlib.Data.Nat.Count
import Mathlib.Order.Interval.Finset.Nat

/-!
# Every word is in a hole or in a block

The holes of a pool and the blocks in it share out its words between them
(`total_holes_add`), and `k` blocks leave at most `k + 1` holes (`length_holes_le`).
So there is a limit to what fragmentation can do: a request is not refused if the
average hole is long enough for it (`words_are_shared`). That is a fact about lists of
lengths (`exists_long`), and the two allocators find what there is.
-/

/-! ## Words in runs -/

namespace MaximalRuns

/-- The words in a list of holes. -/
def total : List (Nat × Nat) → Nat
  | [] => 0
  | hole :: holes => hole.2 + total holes

/-- Short holes do not hold many words. -/
theorem total_le {w : Nat} : ∀ {holes : List (Nat × Nat)}, (∀ hole ∈ holes, hole.2 ≤ w) →
    total holes ≤ holes.length * w := by
  intro holes
  induction holes with
  | nil => exact fun _ => Nat.zero_le _
  | cons hole holes ih =>
    intro h
    obtain ⟨hhole, hrest⟩ := List.forall_mem_cons.mp h
    rw [total, List.length_cons, Nat.succ_mul, Nat.add_comm]
    exact Nat.add_le_add (ih hrest) hhole

/-- **The longest hole is not shorter than the average one.** With more than
`words - 1` words for each hole, one of them has `words`. -/
theorem exists_long {holes : List (Nat × Nat)} {words : Nat}
    (hmuch : holes.length * (words - 1) < total holes) : ∃ hole ∈ holes, words ≤ hole.2 := by
  by_contra hnone
  have hshort : ∀ hole ∈ holes, hole.2 ≤ words - 1 := fun hole hmem => by
    have hlt : ¬ words ≤ hole.2 := fun hle => hnone ⟨hole, hmem, hle⟩
    omega
  exact Nat.lt_irrefl _ (hmuch.trans_le (total_le hshort))

variable {used : Nat → Bool}

/-- **What one pass collects**: the unused positions from `k` on, and those of the run
that is open. -/
theorem total_runsFrom (r : Nat) : ∀ k : Nat,
    total (runsFrom used k r none) + Nat.count (fun w => used w = false) k =
      Nat.count (fun w => used w = false) (k + r) ∧
    ∀ b, b ≤ k → total (runsFrom used k r (some b)) + Nat.count (fun w => used w = false) k =
      Nat.count (fun w => used w = false) (k + r) + (k - b) := by
  induction r with
  | zero =>
    intro k
    refine ⟨Nat.zero_add _, fun b _ => ?_⟩
    rw [runsFrom, total, total, Nat.add_zero, Nat.add_zero, Nat.add_comm]
  | succ r ih =>
    intro k
    obtain ⟨hclosed, hopen⟩ := ih (k + 1)
    rw [← Nat.add_assoc, Nat.add_right_comm k r 1]
    rw [Nat.count_succ] at hclosed hopen
    refine ⟨?_, fun b hb => ?_⟩
    · rw [runsFrom]
      rcases hk : used k with _ | _
      · have hrest := hopen k (Nat.le_succ k)
        rw [hk, if_pos rfl] at hrest
        rw [if_neg Bool.false_ne_true]
        omega
      · rw [hk, if_neg Bool.false_ne_true.symm] at hclosed
        rw [if_pos rfl]
        exact hclosed
    · rw [runsFrom]
      rcases hk : used k with _ | _
      · have hrest := hopen b (Nat.le_succ_of_le hb)
        rw [hk, if_pos rfl] at hrest
        rw [if_neg Bool.false_ne_true]
        omega
      · rw [hk, if_neg Bool.false_ne_true.symm] at hclosed
        rw [if_pos rfl, total]
        omega

/-- The runs hold what is not in use. -/
theorem total_runs (n : Nat) : total (runs used n) = Nat.count (fun w => used w = false) n := by
  have h : total (runs used n) + Nat.count (fun w => used w = false) 0 =
      Nat.count (fun w => used w = false) (0 + n) := (total_runsFrom n 0).1
  rwa [Nat.count_zero, Nat.add_zero, Nat.zero_add] at h

end MaximalRuns

namespace Cop4600

open MaximalRuns MemoryManager PartialRuns

/-! ## Words in blocks -/

/-- The words of some blocks. -/
def wordsIn : List Block → Nat
  | [] => 0
  | b :: live => b.words + wordsIn live

section

variable {n : Nat} {live : List Block}

/-- A block has the words it covers. -/
theorem count_covers {b : Block} (h : b.stop ≤ n) : Nat.count b.Covers n = b.words := by
  have hfilter : (Finset.range n).filter b.Covers = Finset.Ico b.start b.stop := by
    ext w
    rw [Finset.mem_filter, Finset.mem_range, Finset.mem_Ico, Block.Covers]
    exact ⟨And.right, fun hw => ⟨Nat.lt_of_lt_of_le hw.2 h, hw⟩⟩
  rw [Nat.count_eq_card_filter_range, hfilter, Nat.card_Ico, Block.stop, Nat.add_sub_cancel_left]

/-- **Blocks that are apart** have as many words as are in use. -/
theorem count_used : ∀ {live : List Block}, Laid n live →
    Nat.count (fun w => used live w = true) n = wordsIn live := by
  intro live
  induction live with
  | nil => exact fun _ => Nat.count_false n
  | cons b live ih =>
    intro h
    have hrest := h.sublist (List.sublist_cons_self b live)
    have hdisjoint : Disjoint ((Finset.range n).filter b.Covers)
        ((Finset.range n).filter fun w => used live w = true) := by
      rw [Finset.disjoint_filter]
      intro w _ hcovers hused
      rw [h.unused_of_covers hcovers] at hused
      cases hused
    have hor : ∀ w, used (b :: live) w = true ↔ b.Covers w ∨ used live w = true := by
      intro w
      rw [used_iff, used_iff, List.exists_mem_cons_iff]
    simp only [Nat.count_eq_card_filter_range, hor] at ih ⊢
    rw [Finset.filter_or, Finset.card_union_of_disjoint hdisjoint, ih hrest,
      ← Nat.count_eq_card_filter_range, count_covers (h.inside b List.mem_cons_self), wordsIn]

/-- **Every word is in a hole or in a block.** -/
theorem total_holes_add (h : Laid n live) : total (runs (used live) n) + wordsIn live = n := by
  have hsplit := Finset.card_filter_add_card_filter_not (s := Finset.range n)
    (fun w => used live w = true)
  simp only [Bool.not_eq_true, Finset.card_range, ← Nat.count_eq_card_filter_range] at hsplit
  rw [total_runs, ← count_used h, Nat.add_comm]
  exact hsplit

/-- Behind a hole a block starts, or the pool ends. -/
theorem stop_of_hole {b l : Nat} (hrun : IsRun (used live) n b l) :
    b + l ∈ n :: live.map Block.start := by
  rcases hrun.right with hend | hused
  · exact hend ▸ List.mem_cons_self
  obtain ⟨c, hc, hstart, hstop⟩ := used_iff.mp hused
  have hfront : ¬ c.start ≤ b + l - 1 := fun hle => by
    have hpos := hrun.pos
    have hunused := hrun.unused (b + l - 1) (by omega) (by omega)
    exact used_eq_false_iff.mp hunused c hc ⟨hle, by omega⟩
  have heq : c.start = b + l := by omega
  exact List.mem_cons_of_mem n (List.mem_map.mpr ⟨c, hc, heq⟩)

/-- **There is at most one hole more than there are blocks.** -/
theorem length_holes_le (n : Nat) (live : List Block) :
    (runs (used live) n).length ≤ live.length + 1 := by
  have hsorted : (runs (used live) n).Pairwise fun g h => g.1 + g.2 < h.1 := pairwise_runs n
  have hnodup : ((runs (used live) n).map fun hole => hole.1 + hole.2).Nodup := by
    refine List.pairwise_map.mpr (hsorted.imp fun {g h} hlt heq => ?_)
    exact Nat.lt_irrefl _ (Nat.lt_of_lt_of_le hlt (heq ▸ Nat.le_add_right h.1 h.2))
  have hsubset : ((runs (used live) n).map fun hole => hole.1 + hole.2) ⊆
      n :: live.map Block.start := by
    intro stop hstop
    obtain ⟨⟨b, l⟩, hmem, rfl⟩ := List.mem_map.mp hstop
    exact stop_of_hole (mem_runs.mp hmem)
  have hle := (hnodup.subperm hsubset).length_le
  rwa [List.length_map, List.length_cons, List.length_map] at hle

end

/-! ## In every run -/

/-- What the words of the pool are used for, next to what `getList` returns. -/
structure Ledger.Accounts (l : Ledger) (list : List UInt16) : Prop where
  listed : l.manager.getList = some (some list)
  /-- as many words are held or listed as there are -/
  shared : total (listedHoles list) + wordsIn l.live = l.manager.numWords.toNat
  /-- each block divides at most one hole -/
  few : (listedHoles list).length ≤ l.held.length + 1
  /-- the two allocators find a place for whatever the average hole is long enough for -/
  served : ∀ allocator, allocator = bestFit ∨ allocator = worstFit → ∀ size : UInt64, size ≠ 0 →
    (listedHoles list).length * (wordsFor l.manager.wordSize size - 1) <
      total (listedHoles list) →
    ∃ a m', (l.manager.setAllocator allocator).allocate size = some (some a, m')

/-- The list that `getList` returns is the account of a sound ledger. -/
theorem Ledger.Sound.accounts {n p : Nat} {wordSize : UInt32} {l : Ledger}
    (hl : l.Sound n wordSize p) : l.Accounts (holesList (runs (used l.live) n)) where
  listed := hl.manages.getList
  shared := by
    have hm := hl.manages
    rw [listedHoles_holesList (Nat.lt_succ_of_le hm.words), hm.numWords_eq]
    exact total_holes_add hm.laid
  few := by
    have hheld : l.live.length = l.held.length := List.length_map _
    rw [listedHoles_holesList (Nat.lt_succ_of_le hl.manages.words), ← hheld]
    exact length_holes_le n l.live
  served := by
    intro allocator hallocator size hsize hmuch
    have hm := hl.manages
    rw [listedHoles_holesList (Nat.lt_succ_of_le hm.words)] at hmuch
    obtain ⟨⟨b, r⟩, hmem, hlong⟩ := exists_long hmuch
    have hrun : IsRun (used l.live) n b r := mem_runs.mp hmem
    have hle := hrun.le
    have hn := hm.words
    have hpos : 0 < wordsFor l.manager.wordSize size :=
      wordsFor_pos (hm.wordSize_eq ▸ hl.fits.1) hsize
    obtain ⟨hbest, hworst⟩ := hl.followsPolicies size hpos (by omega)
    rw [← hm.numWords_eq] at hrun
    rcases hallocator with rfl | rfl
    · obtain ⟨_, _, -, _, m', -, hallocate, -⟩ := hbest.places ⟨b, r, hrun, hlong⟩
      exact ⟨_, m', hallocate⟩
    · obtain ⟨_, _, -, _, m', -, hallocate, -⟩ := hworst.places ⟨b, r, hrun, hlong⟩
      exact ⟨_, m', hallocate⟩

/-- **No word is lost, and fragmentation has a limit.** Over any run of allowed calls from a
new pool, the words that `getList` shows and those that are held are all the words there
are, in at most one hole more than there are blocks. And `bestFit` and `worstFit` find a
place for every request that the average hole is long enough for. -/
theorem words_are_shared {m : MemoryManager} {mmap : UInt32 → Option Nat} {sizeInWords : UInt64}
    {l₀ : Ledger} (hn : sizeInWords.toNat ≤ 65535)
    (hfits : OffsetsFit sizeInWords.toNat m.wordSize)
    (hbegin : Ledger.begin m mmap sizeInWords = some l₀) {calls : List MemoryCall}
    (hcalls : Throughout Ledger.call Ledger.Allowed l₀ calls) :
    ∃ l list, run Ledger.call l₀ calls = some l ∧ l.Accounts list := by
  obtain ⟨p, hsound⟩ := Ledger.begin_sound hn hfits hbegin
  obtain ⟨l, hrun, hl⟩ := hsound.run_sound hcalls
  exact ⟨l, _, hrun, hl.accounts⟩

/-- Three blocks of one word on six words of two bytes: the other three are one hole,
and a request for four bytes gets two of them. -/
theorem words_are_shared_sixWords :
    ∃ l₀ ∈ Ledger.begin (new 2 bestFit) (fun _ => some 4096) 6,
      ∃ l, run Ledger.call l₀ [.allocate 2, .setAllocator worstFit, .allocate 1, .allocate 2] =
          some l ∧
        l.manager.getList = some (some [1, 3, 3]) ∧ wordsIn l.live = 3 ∧
        ∃ a m', (l.manager.setAllocator worstFit).allocate 4 = some (some a, m') := by
  have hbegin : (Ledger.begin (new 2 bestFit) (fun _ => some 4096) 6).isSome = true := by decide
  obtain ⟨l₀, hl₀⟩ := Option.isSome_iff_exists.mp hbegin
  have hcalls : Throughout Ledger.call Ledger.Allowed l₀
      [.allocate 2, .setAllocator worstFit, .allocate 1, .allocate 2] := by
    obtain rfl := Option.some.inj (hl₀.symm.trans rfl)
    decide
  obtain ⟨l, list, hrun, haccounts⟩ := words_are_shared (by decide) (by decide) hl₀ hcalls
  obtain rfl := Option.some.inj (hl₀.symm.trans rfl)
  obtain rfl := Option.some.inj (hrun.symm.trans rfl)
  have hlist : list = [1, 3, 3] :=
    Option.some.inj (Option.some.inj (haccounts.listed.symm.trans rfl))
  rw [hlist] at haccounts
  exact ⟨_, hl₀, _, rfl, haccounts.listed, by decide,
    haccounts.served worstFit (Or.inr rfl) 4 (by decide) (by decide)⟩

end Cop4600
