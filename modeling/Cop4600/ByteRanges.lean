import Cop4600.Allocators
import Cop4600.Wrapping

/-!
# The bytes of the live blocks

A block of words is a range of bytes, from the address that `allocate` returned and as
long as the request was. Where the bytes of the pool can be counted in 32 bits, the
ranges of blocks that share no word share no byte, and lie in front of the map
(`Ledger.Sound.bytesApart`). Where they cannot, the whole pool is handed out as more
bytes than `getMemoryLimit` says there are (`bytes_apart_iff`).
-/

namespace Cop4600

open PackedBits MemoryManager MaximalRuns PartialRuns

/-- The byte behind what is held. -/
def Holding.stop (h : Holding) : Nat := h.address + h.size.toNat

/-- The bytes of the holdings. -/
structure Ledger.BytesApart (l : Ledger) : Prop where
  disjoint : l.held.Pairwise fun g h => g.stop ≤ h.address ∨ h.stop ≤ g.address
  inside : ∃ start, l.manager.getMemoryStart = some start ∧
    ∀ h ∈ l.held, start ≤ h.address ∧ h.stop ≤ start + l.manager.getMemoryLimit.toNat
  /-- the map lies from `pool_size` to `total_size` -/
  offMap : ∀ pool, l.manager.pool = some pool → ∀ h ∈ l.held,
    h.stop ≤ pool + l.manager.poolSize.toNat ∨ pool + l.manager.totalSize.toNat ≤ h.address

/-- Allocations of at most as many words as the pool has, frees of what is held, and
the two allocators. -/
def Ledger.FitCall (l : Ledger) : MemoryCall → Prop
  | .allocate size => wordsFor l.manager.wordSize size ≤ l.manager.numWords.toNat
  | .free address => ∃ h ∈ l.held, some h.address = address
  | .setAllocator allocator => allocator = bestFit ∨ allocator = worstFit

instance (l : Ledger) (size : UInt64) : Decidable (l.FitCall (.allocate size)) :=
  inferInstanceAs (Decidable (_ ≤ _))

/-- The words of a request have room for its bytes. -/
theorem size_le_words {wordSize : UInt32} (hpos : 0 < wordSize.toNat) (size : UInt64) :
    size.toNat ≤ wordsFor wordSize size * wordSize.toNat := by
  have hdiv := Nat.div_add_mod (size.toNat + (wordSize.toNat - 1)) wordSize.toNat
  have hmod := Nat.mod_lt (size.toNat + (wordSize.toNat - 1)) hpos
  rw [wordsFor, Nat.mul_comm]
  omega

section

variable {n p : Nat} {wordSize : UInt32} {l : Ledger}

/-! ## Words and bytes -/

theorem Ledger.Sound.stop_le (hl : l.Sound n wordSize p) {h : Holding} (hh : h ∈ l.held) :
    h.stop ≤ p + h.block.stop * wordSize.toNat := by
  have hbytes := size_le_words hl.fits.1 h.size
  rw [Holding.stop, hl.address_eq h hh, Block.stop, hl.words_eq h hh, Nat.add_mul]
  omega

theorem Ledger.Sound.stop_le_address (hl : l.Sound n wordSize p) {g h : Holding}
    (hg : g ∈ l.held) (hh : h ∈ l.held) (hle : g.block.stop ≤ h.block.start) :
    g.stop ≤ h.address := by
  have hstop := hl.stop_le hg
  have hmul := Nat.mul_le_mul_right wordSize.toNat hle
  rw [hl.address_eq h hh]
  omega

/-- **Blocks that share no word share no byte**, where the pool's bytes are counted
without wrapping. -/
theorem Ledger.Sound.bytesApart (hl : l.Sound n wordSize p)
    (hpool : l.manager.poolSize.toNat = n * wordSize.toNat) : l.BytesApart := by
  have hm := hl.manages
  have hinside : ∀ h ∈ l.held, p ≤ h.address ∧ h.stop ≤ p + l.manager.poolSize.toNat := by
    intro h hh
    have hstop := hl.stop_le hh
    have hle := Nat.mul_le_mul_right wordSize.toNat (hm.laid.inside _ (Sound.mem_live hh))
    have haddress := hl.address_eq h hh
    rw [hpool]
    omega
  refine ⟨?_, ⟨p, hm.pool_eq, ?_⟩, fun pool hpool h hh => Or.inl ?_⟩
  · have hapart := List.pairwise_map.mp hm.laid.apart
    refine hapart.imp_of_mem fun hg hh hgh => ?_
    exact hgh.imp (hl.stop_le_address hg hh) (hl.stop_le_address hh hg)
  · rw [getMemoryLimit, hm.pool_eq]
    exact hinside
  · rw [hm.pool_eq] at hpool
    obtain rfl := Option.some.inj hpool
    exact (hinside h hh).2

/-! ## Calls -/

/-- As many words as a pool has fit an `int`. -/
theorem Ledger.Sound.narrows_of_fitCall (hl : l.Sound n wordSize p) {c : MemoryCall}
    (hc : l.FitCall c) : l.Narrows c := by
  have hn := hl.manages.words
  cases c with
  | allocate size =>
    rw [Ledger.FitCall, hl.manages.numWords_eq] at hc
    exact Ledger.narrowsSafely_of_lt (by omega)
  | free address => exact hc
  | setAllocator allocator => exact hc

/-! ## A pool with more bytes than can be counted -/

/-- The whole pool is handed out in one piece. -/
theorem Ledger.not_bytesApart (h : l.manager.Manages n wordSize p [])
    (hpolicy : l.manager.UsesFit) (hpos : 0 < wordSize.toNat)
    (hbytes : 2 ^ 32 ≤ n * wordSize.toNat) :
    ∃ c, l.FitCall c ∧ ∀ l', l.call c = some l' → ¬ l'.BytesApart := by
  have hn := h.words
  have hn0 : 0 < n := by
    by_contra hzero
    rw [show n = 0 by omega, Nat.zero_mul] at hbytes
    omega
  have hsmall : n * wordSize.toNat < 2 ^ 64 := by
    have := Nat.mul_lt_mul_of_le_of_lt hn wordSize.toNat_lt (by omega)
    omega
  have hnat : (UInt64.ofNat (n * wordSize.toNat)).toNat = n * wordSize.toNat := by
    rw [UInt64.toNat_ofNat', Nat.mod_eq_of_lt hsmall]
  have hwords : wordsFor wordSize (UInt64.ofNat (n * wordSize.toNat)) = n :=
    wordsFor_mul hpos hsmall
  have hsize : UInt64.ofNat (n * wordSize.toNat) ≠ 0 := by
    intro hzero
    rw [hzero, UInt64.toNat_zero] at hnat
    omega
  -- the allocator does not refuse: the one hole is long enough
  have hint : intWords n = n := intWords_of_lt (by omega)
  have hfits := h.fits_holes hpolicy n (by rw [hint]; omega)
  rw [hint] at hfits
  obtain ⟨i, hi, hneg⟩ := hfits.exists_of_long (narrow_runs (by omega))
    (mem_runs.mpr (isRun_all hn0)) (Int.le_refl _)
  obtain ⟨j, hj, hin⟩ := h.answersInHole hpolicy n (by omega) _ h.holeList
  rw [listedHoles_holesList (by omega)] at hin
  obtain rfl : i = j := Option.some.inj (hi.symm.trans hj)
  obtain ⟨-, map, -, hresult⟩ := h.place hpos hsize (by rwa [hwords]) hneg
    (by rw [hwords]; exact hin.resolve_left hneg)
  refine ⟨.allocate (UInt64.ofNat (n * wordSize.toNat)), ?_, fun l' hl' happart => ?_⟩
  · rw [Ledger.FitCall, h.wordSize_eq, h.numWords_eq, hwords]
  · simp only [Ledger.call, hresult, Option.map_some, Option.some.injEq] at hl'
    subst hl'
    obtain ⟨start, hstart, hinside⟩ := happart.inside
    obtain ⟨hlow, hhigh⟩ := hinside _ List.mem_cons_self
    have hlimit := (getMemoryLimit { l.manager with map }).toNat_lt
    simp only [Holding.stop, holding, hnat] at hlow hhigh hlimit
    omega

end

/-- **Where live blocks share no bytes.** In a pool of at most 65535 words of at least one
byte, under `bestFit` and `worstFit` and for requests of at most as many words as there
are, the bytes of live blocks are disjoint and inside the pool in every state reached,
exactly if 32 bits can count the bytes of the pool. -/
theorem bytes_apart_iff {m : MemoryManager} {mmap : UInt32 → Option Nat} {sizeInWords : UInt64}
    {l₀ : Ledger} (hn : sizeInWords.toNat ≤ 65535) (hpos : 0 < m.wordSize.toNat)
    (hpolicy : m.UsesFit) (hbegin : Ledger.begin m mmap sizeInWords = some l₀) :
    (∀ calls, Throughout Ledger.call Ledger.FitCall l₀ calls →
      ∃ l, run Ledger.call l₀ calls = some l ∧ l.BytesApart) ↔
    sizeInWords.toNat * m.wordSize.toNat < 2 ^ 32 := by
  obtain ⟨p, hmanages, hallocator, hpool, hheld⟩ := Ledger.begin_manages hn hbegin
  have hlive : l₀.live = [] := by rw [Ledger.live, hheld, List.map_nil]
  rw [MemoryManager.UsesFit, ← hallocator] at hpolicy
  refine ⟨fun hall => ?_, fun hbytes calls hcalls => ?_⟩
  · by_contra hwraps
    rw [hlive] at hmanages
    obtain ⟨c, hc, hnot⟩ :=
      Ledger.not_bytesApart hmanages hpolicy hpos (Nat.not_lt.mp hwraps)
    obtain ⟨l, hl, hapart⟩ := hall [c] ⟨hc, fun _ _ => trivial⟩
    rw [run] at hl
    obtain ⟨l', hl', hend⟩ := Option.bind_eq_some_iff.mp hl
    obtain rfl := Option.some.inj hend
    exact hnot l' hl' hapart
  · rw [Nat.mod_eq_of_lt hbytes] at hpool
    have hfits : OffsetsFit sizeInWords.toNat m.wordSize :=
      ⟨hpos, Nat.lt_of_le_of_lt (Nat.mul_le_mul_right _ (Nat.sub_le _ 1)) hbytes⟩
    obtain ⟨p, hsound⟩ := Ledger.begin_sound hn hfits hbegin
    have hstep : ∀ (l : Ledger) (c : MemoryCall),
        l.Sound sizeInWords.toNat m.wordSize p ∧ l.manager.UsesFit ∧
          l.manager.poolSize = l₀.manager.poolSize →
        l.FitCall c → ∃ l', l.call c = some l' ∧
          l'.Sound sizeInWords.toNat m.wordSize p ∧ l'.manager.UsesFit ∧
          l'.manager.poolSize = l₀.manager.poolSize := by
      rintro l c ⟨hl, hpolicy, hsame⟩ hc
      obtain ⟨l', hcall, hl', hpolicy', hsame'⟩ :=
        hl.call_narrows hpolicy (hl.narrows_of_fitCall hc)
      exact ⟨l', hcall, hl', hpolicy', hsame'.trans hsame⟩
    obtain ⟨l, hl, hsound', -, hsame⟩ :=
      run_of_invariant hstep calls ⟨hsound, hpolicy, rfl⟩ hcalls
    exact ⟨l, hl, hsound'.bytesApart (by rw [hsame, hpool])⟩

/-- Six words of two bytes. -/
theorem bytes_apart_iff_sixWords :
    ∃ l₀ ∈ Ledger.begin (new 2 worstFit) (fun _ => some 4096) 6,
      ∀ calls, Throughout Ledger.call Ledger.FitCall l₀ calls →
        ∃ l, run Ledger.call l₀ calls = some l ∧ l.BytesApart := by
  refine ⟨_, rfl, ?_⟩
  exact (@bytes_apart_iff (new 2 worstFit) (fun _ => some 4096) 6 _ (by decide) (by decide)
    (Or.inr rfl) rfl).mpr (by decide)

/-- Three words of two gigabytes, all of them asked for: `getMemoryLimit` says two
gigabytes, and behind these lies the map. -/
theorem whole_pool_over_map :
    ∃ l₀ ∈ Ledger.begin (new 2147483648 bestFit) (fun _ => some 4096) 3,
      l₀.FitCall (.allocate 6442450944) ∧
      ∃ l, l₀.call (.allocate 6442450944) = some l ∧
        l.held = [⟨4096, 6442450944, ⟨0, 3⟩⟩] ∧
        l.manager.getMemoryLimit = 2147483648 ∧ ¬ l.BytesApart := by
  have hallocate : (wideWords bestFit [129]).allocate 6442450944 =
      some (some 4096, wideWords bestFit [195]) := allocate_of_map (by decide +kernel)
  have hholding : (wideWords bestFit [129]).holding 4096 6442450944 =
      ⟨4096, 6442450944, ⟨0, 3⟩⟩ := by decide +kernel
  refine ⟨⟨wideWords bestFit [129], []⟩, rfl, by decide +kernel, ⟨wideWords bestFit [195], _⟩,
    ?_, rfl, rfl, ?_⟩
  · simp only [Ledger.call, hallocate, Option.map_some, hholding]
  · intro happart
    obtain ⟨start, hstart, hinside⟩ := happart.inside
    obtain rfl := Option.some.inj hstart
    have hhigh := (hinside _ List.mem_cons_self).2
    revert hhigh
    decide

end Cop4600
