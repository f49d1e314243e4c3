import Cop4600.PartialRuns
import Cop4600.Pools

/-!
# Ledgers

A `Ledger` is a memory manager together with everything its client holds, noted down
as it was handed out: the address, the size that was asked for, and the block that
the allocator's answer stands for. Nothing is read off an address, so the ledger says
what a call did also where an address has wrapped.

`Ledger.Sound` ties the two together. It is kept by every allowed call as long as the
offset of the pool's last word fits 32 bits (`Ledger.Sound.call`), so after every run the
map is the encoding of the live blocks (`map_encodes_live`). If the offset does not fit, a
block at the last word is handed out under the address of another word, and giving it
back clears marks that are not its own (`Marked.clearBlock_stray`).
-/

namespace Cop4600

open PackedBits MemoryManager MaximalRuns PartialRuns

/-- The calls by which a client takes words and gives them back. -/
inductive MemoryCall : Type where
  | allocate (size : UInt64)
  | free (address : Option Nat)
  | setAllocator (allocator : MemoryAllocator)

/-- Something that was handed out: its address, how much was asked for, and which words
the manager took for it. -/
structure Holding : Type where
  /-- what `allocate` returned -/
  address : Nat
  /-- the bytes that were asked for -/
  size : UInt64
  /-- the words that were taken -/
  block : Block
  deriving DecidableEq, Repr

/-- A memory manager and what its client holds. -/
structure Ledger : Type where
  manager : MemoryManager
  /-- handed out by `allocate` and not given back by `free`, the last one first -/
  held : List Holding

/-- The blocks of what is held. -/
def Ledger.live (l : Ledger) : List Block := l.held.map Holding.block

/-- What the allocator answers to a request for `size` bytes. -/
def MemoryManager.answer (m : MemoryManager) (size : UInt64) : Option Int32 :=
  m.holeList.bind fun list => m.allocator (Int32.ofNat (wordsFor m.wordSize size)) list

/-- What the client holds once it is handed `a` for its request. -/
def MemoryManager.holding (m : MemoryManager) (a : Nat) (size : UInt64) : Holding where
  address := a
  size := size
  block := ⟨((m.answer size).getD 0).toNatClampNeg, wordsFor m.wordSize size⟩

/-- One call, as it is written down. -/
def Ledger.call (l : Ledger) : MemoryCall → Option Ledger
  | .allocate size =>
    (l.manager.allocate size).map fun (address, manager) =>
      match address with
      | none => { l with manager }
      | some a => { manager, held := l.manager.holding a size :: l.held }
  | .free address =>
    (l.manager.free address).map fun manager =>
      { manager, held := l.held.filter fun h => some h.address != address }
  | .setAllocator allocator => some { l with manager := l.manager.setAllocator allocator }

/-- A ledger begins with `initialize` and nothing held. -/
def Ledger.begin (m : MemoryManager) (mmap : UInt32 → Option Nat) (sizeInWords : UInt64) :
    Option Ledger :=
  (m.initializePool mmap sizeInWords).map fun manager => { manager, held := [] }

/-- Allocations under an allocator that answers with a negative number or inside a
hole, frees of what is held, and changes of the allocator. -/
def Ledger.Allowed (l : Ledger) : MemoryCall → Prop
  | .allocate size => size ≠ 0 → l.manager.AnswersInHole (wordsFor l.manager.wordSize size)
  | .free address => ∃ h ∈ l.held, some h.address = address
  | .setAllocator _ => True

instance (l : Ledger) : ∀ c : MemoryCall, Decidable (l.Allowed c)
  | .allocate size =>
    inferInstanceAs (Decidable (size ≠ 0 →
      l.manager.AnswersInHole (wordsFor l.manager.wordSize size)))
  | .free address => inferInstanceAs (Decidable (∃ h ∈ l.held, some h.address = address))
  | .setAllocator _ => inferInstanceAs (Decidable True)

/-- Words have bytes, and the offset of the last word fits 32 bits. -/
def OffsetsFit (n : Nat) (wordSize : UInt32) : Prop :=
  0 < wordSize.toNat ∧ (n - 1) * wordSize.toNat < 2 ^ 32

instance (n : Nat) (wordSize : UInt32) : Decidable (OffsetsFit n wordSize) :=
  inferInstanceAs (Decidable (_ ∧ _))

/-- A pool of `n` words of `wordSize` bytes whose map `initialize` can put behind it. -/
structure PoolFits (n : Nat) (wordSize : UInt32) : Prop where
  /-- no more words than a pool may have -/
  words : n ≤ 65535
  /-- they have bytes -/
  wordSize_pos : 0 < wordSize.toNat
  /-- pool and map together can be counted in 32 bits -/
  total : n * wordSize.toNat + n / 4 + 1 < 2 ^ 32

/-- In such a pool no offset wraps. -/
theorem PoolFits.offset {n : Nat} {wordSize : UInt32} (h : PoolFits n wordSize) {i : Nat}
    (hi : i ≤ n) : i * wordSize.toNat < 2 ^ 32 := by
  have htotal := h.total
  have := Nat.mul_le_mul_right wordSize.toNat hi
  omega

/-- In such a pool the offset of the last word fits. -/
theorem PoolFits.offsetsFit {n : Nat} {wordSize : UInt32} (h : PoolFits n wordSize) :
    OffsetsFit n wordSize :=
  ⟨h.wordSize_pos, h.offset (Nat.sub_le n 1)⟩

/-- The offset of a word is computed as it is. -/
theorem OffsetsFit.offset {n : Nat} {wordSize : UInt32} (h : OffsetsFit n wordSize) {i : Nat}
    (hi : i < n) : (UInt32.ofNat i * wordSize).toNat = i * wordSize.toNat := by
  obtain ⟨hpos, hlast⟩ := h
  have hle : i * wordSize.toNat ≤ (n - 1) * wordSize.toNat := Nat.mul_le_mul_right _ (by omega)
  have hi' : i ≤ i * wordSize.toNat := Nat.le_mul_of_pos_right i hpos
  rw [toNat_offset wordSize (by omega)]
  exact Nat.mod_eq_of_lt (by omega)

/-! ## What stays the same -/

/-- `allocate` changes nothing but the map. -/
theorem MemoryManager.allocate_frame {m m' : MemoryManager} {size : UInt64} {a : Option Nat}
    (h : m.allocate size = some (a, m')) : m' = { m with map := m'.map } := by
  rw [allocate] at h
  split at h
  · cases h
    rfl
  · split at h
    · cases h
      rfl
    · split at h
      · cases h
      · simp only [Option.bind_eq_some_iff] at h
        obtain ⟨list, -, i, -, h⟩ := h
        split at h
        · cases h
          rfl
        · split at h
          · cases h
          · obtain ⟨map, -, hm⟩ := Option.map_eq_some_iff.mp h
            cases hm
            rfl

/-- The offset in an address that `allocate` returns is a 32-bit number. -/
theorem MemoryManager.allocate_address {m m' : MemoryManager} {allocator : MemoryAllocator}
    {size : UInt64} {pool a : Nat} (hpool : m.pool = some pool)
    (h : (m.setAllocator allocator).allocate size = some (some a, m')) :
    ∃ i, a = pool + (UInt32.ofNat i * m.wordSize).toNat := by
  rw [allocate, show (m.setAllocator allocator).pool = some pool from hpool] at h
  simp only at h
  split at h
  · cases h
  · split at h
    · cases h
    · simp only [Option.bind_eq_some_iff] at h
      obtain ⟨list, -, i, -, h⟩ := h
      split at h
      · cases h
      · split at h
        · cases h
        · obtain ⟨map, -, hm⟩ := Option.map_eq_some_iff.mp h
          cases hm
          exact ⟨_, rfl⟩

/-- `free` changes nothing but the map. -/
theorem MemoryManager.free_frame {m m' : MemoryManager} {address : Option Nat}
    (h : m.free address = some m') : m' = { m with map := m'.map } := by
  unfold free at h
  split at h
  · split at h
    · cases h
    · dsimp only at h
      split at h
      · cases h
      · obtain ⟨map, -, rfl⟩ := Option.map_eq_some_iff.mp h
        rfl
  · cases h
    rfl

/-- The address and the map tell everything about a call. -/
theorem MemoryManager.allocate_of_map {m : MemoryManager} {size : UInt64} {a : Option Nat}
    {map : List UInt8} (h : (m.allocate size).map (fun r => (r.1, r.2.map)) = some (a, map)) :
    m.allocate size = some (a, { m with map }) := by
  obtain ⟨⟨a', m'⟩, hallocate, hr⟩ := Option.map_eq_some_iff.mp h
  obtain ⟨rfl, rfl⟩ := Prod.mk.inj hr
  rw [hallocate, ← allocate_frame hallocate]

/-- The map tells everything about a `free`. -/
theorem MemoryManager.free_of_map {m : MemoryManager} {address : Option Nat} {map : List UInt8}
    (h : (m.free address).map MemoryManager.map = some map) :
    m.free address = some { m with map } := by
  obtain ⟨m', hfree, rfl⟩ := Option.map_eq_some_iff.mp h
  rw [hfree, ← free_frame hfree]

/-- No call changes more than the map and the allocator, and this only if it says so. -/
theorem Ledger.call_frame {l l' : Ledger} {c : MemoryCall} (h : l.call c = some l') :
    ∃ allocator map, l'.manager = { l.manager with allocator, map } ∧
      (allocator = l.manager.allocator ∨ c = .setAllocator allocator) := by
  cases c with
  | allocate size =>
    obtain ⟨⟨a, m'⟩, hallocate, rfl⟩ := Option.map_eq_some_iff.mp h
    refine ⟨l.manager.allocator, m'.map, ?_, Or.inl rfl⟩
    cases a with
    | none => exact allocate_frame hallocate
    | some a => exact allocate_frame hallocate
  | free address =>
    obtain ⟨m', hfree, rfl⟩ := Option.map_eq_some_iff.mp h
    exact ⟨l.manager.allocator, m'.map, free_frame hfree, Or.inl rfl⟩
  | setAllocator allocator =>
    obtain rfl := Option.some.inj h
    exact ⟨allocator, l.manager.map, rfl, Or.inr rfl⟩

/-! ## The invariant -/

/-- The map encodes the blocks of what is held, and every holding's address and size
are those of its block. -/
structure Ledger.Sound (n : Nat) (wordSize : UInt32) (p : Nat) (l : Ledger) : Prop where
  /-- no offset wraps -/
  fits : OffsetsFit n wordSize
  /-- the map encodes the live blocks -/
  manages : l.manager.Manages n wordSize p l.live
  /-- what is held is held under the address of its block -/
  address_eq : ∀ h ∈ l.held, h.address = p + h.block.start * wordSize.toNat
  /-- and has as many words as its size takes -/
  words_eq : ∀ h ∈ l.held, h.block.words = wordsFor wordSize h.size

namespace Ledger.Sound

variable {n p : Nat} {wordSize : UInt32} {l : Ledger}

/-- The block of what is held is live. -/
theorem mem_live {h : Holding} (hh : h ∈ l.held) : h.block ∈ l.live :=
  List.mem_map_of_mem hh

/-- What is held is known by its address. -/
theorem address_eq_iff (hl : l.Sound n wordSize p) {g h : Holding} (hg : g ∈ l.held)
    (hh : h ∈ l.held) : g.address = h.address ↔ g.block.start = h.block.start := by
  have hpos := hl.fits.1
  rw [hl.address_eq g hg, hl.address_eq h hh]
  refine ⟨fun heq => ?_, fun heq => by rw [heq]⟩
  exact Nat.eq_of_mul_eq_mul_right hpos (Nat.add_left_cancel heq)

/-- What is given back takes its block along, and no other. -/
theorem live_filter (hl : l.Sound n wordSize p) {h : Holding} (hh : h ∈ l.held) :
    (l.held.filter fun g => some g.address != some h.address).map Holding.block =
      without l.live h.block.start := by
  rw [without, Ledger.live, List.filter_map]
  congr 1
  apply List.filter_congr
  intro g hg
  rw [Bool.eq_iff_iff, bne_iff_ne, Function.comp, bne_iff_ne, Ne, Option.some.injEq,
    hl.address_eq_iff hg hh]

/-- **What `allocate` does** under such an allocator: it refuses, or it hands out some
free words under their address. -/
theorem allocate_cases (hl : l.Sound n wordSize p) {size : UInt64}
    (hanswer : size ≠ 0 → l.manager.AnswersInHole (wordsFor wordSize size)) :
    l.manager.allocate size = some (none, l.manager) ∨
    ∃ h map, l.manager.allocate size = some (some h.address, { l.manager with map }) ∧
      l.manager.holding h.address size = h ∧ h.size = size ∧
      Ledger.Sound n wordSize p ⟨{ l.manager with map }, h :: l.held⟩ := by
  have hm := hl.manages
  have hpos := hl.fits.1
  have hn := hm.words
  by_cases hsize : size = 0
  · rw [hsize]
    exact Or.inl hm.allocate_zero
  obtain ⟨i, hi, hin⟩ := hanswer hsize _ hm.holeList
  rw [listedHoles_holesList (by omega)] at hin
  by_cases hneg : i < 0
  · refine Or.inl ?_
    rw [hm.allocate_eq hpos hsize, hi, Option.bind_some, if_pos hneg]
  · obtain ⟨hlaid, map, hmarked, hresult⟩ := hm.place hpos hsize hi hneg (hin.resolve_left hneg)
    have hlt : i.toNatClampNeg < n := hlaid.start_lt List.mem_cons_self
    rw [hl.fits.offset hlt] at hresult
    have hanswer' : l.manager.answer size = some i := by
      rw [answer, hm.holeList, Option.bind_some, hm.wordSize_eq]
      exact hi
    refine Or.inr ⟨⟨p + i.toNatClampNeg * wordSize.toNat, size,
      ⟨i.toNatClampNeg, wordsFor wordSize size⟩⟩, map, hresult, ?_, rfl, hl.fits, ?_, ?_, ?_⟩
    · rw [holding, hanswer', hm.wordSize_eq]
      rfl
    · exact hm.withMap hlaid hmarked
    · exact List.forall_mem_cons.mpr ⟨rfl, hl.address_eq⟩
    · exact List.forall_mem_cons.mpr ⟨rfl, hl.words_eq⟩

/-- **What `free` does** with something that is held. -/
theorem free_held (hl : l.Sound n wordSize p) {h : Holding} (hh : h ∈ l.held) :
    ∃ map, l.manager.free (some h.address) = some { l.manager with map } ∧
      Marked n (without l.live h.block.start) map ∧
      Ledger.Sound n wordSize p
        ⟨{ l.manager with map }, l.held.filter fun g => some g.address != some h.address⟩ := by
  have hm := hl.manages
  obtain ⟨map, hfree, hmarked⟩ := hm.free_block hl.fits.1 (mem_live hh)
  rw [← hl.address_eq h hh] at hfree
  refine ⟨map, hfree, hmarked, hl.fits, ?_, fun g hg => ?_, fun g hg => ?_⟩
  · rw [Ledger.live, hl.live_filter hh]
    exact hm.withMap (hm.laid.without _) hmarked
  · exact hl.address_eq g (List.mem_filter.mp hg).1
  · exact hl.words_eq g (List.mem_filter.mp hg).1

/-- **Every allowed call keeps the ledger sound.** -/
theorem call (hl : l.Sound n wordSize p) {c : MemoryCall} (hc : l.Allowed c) :
    ∃ l', l.call c = some l' ∧ l'.Sound n wordSize p := by
  cases c with
  | allocate size =>
    rw [Ledger.Allowed, hl.manages.wordSize_eq] at hc
    rcases hl.allocate_cases hc with hrefused | ⟨h, map, hresult, hholding, -, hsound⟩
    · exact ⟨l, by rw [Ledger.call, hrefused]; rfl, hl⟩
    · refine ⟨_, ?_, hsound⟩
      simp only [Ledger.call, hresult, Option.map_some, hholding]
  | free address =>
    obtain ⟨h, hh, rfl⟩ := hc
    obtain ⟨map, hfree, -, hsound⟩ := hl.free_held hh
    exact ⟨_, by rw [Ledger.call, hfree, Option.map_some], hsound⟩
  | setAllocator allocator =>
    exact ⟨_, rfl, hl.fits, hl.manages.setAllocator allocator, hl.address_eq, hl.words_eq⟩

/-- **Every run** of allowed calls goes through and keeps the ledger sound. -/
theorem run_sound (hl : l.Sound n wordSize p) {calls : List MemoryCall}
    (hcalls : Throughout Ledger.call Ledger.Allowed l calls) :
    ∃ l', run Ledger.call l calls = some l' ∧ l'.Sound n wordSize p :=
  run_of_invariant (fun _ _ h hc => h.call hc) calls hl hcalls

end Ledger.Sound

/-! ## The first ledger -/

/-- Behind `initialize` the manager has a pool without blocks. -/
theorem Ledger.begin_manages {m : MemoryManager} {mmap : UInt32 → Option Nat}
    {sizeInWords : UInt64} {l : Ledger} (hn : sizeInWords.toNat ≤ 65535)
    (hbegin : Ledger.begin m mmap sizeInWords = some l) :
    ∃ p, l.manager.Manages sizeInWords.toNat m.wordSize p l.live ∧
      l.manager.allocator = m.allocator ∧
      l.manager.poolSize.toNat = sizeInWords.toNat * m.wordSize.toNat % 2 ^ 32 ∧ l.held = [] := by
  obtain ⟨m₀, hinit, rfl⟩ := Option.map_eq_some_iff.mp hbegin
  obtain ⟨p, hmanages, hallocator, hpool⟩ := initializePool_manages hn hinit
  exact ⟨p, hmanages, hallocator, hpool, rfl⟩

/-- The first ledger is sound. -/
theorem Ledger.begin_sound {m : MemoryManager} {mmap : UInt32 → Option Nat}
    {sizeInWords : UInt64} {l : Ledger} (hn : sizeInWords.toNat ≤ 65535)
    (hfits : OffsetsFit sizeInWords.toNat m.wordSize)
    (hbegin : Ledger.begin m mmap sizeInWords = some l) :
    ∃ p, l.Sound sizeInWords.toNat m.wordSize p := by
  obtain ⟨p, hmanages, -, -, hheld⟩ := Ledger.begin_manages hn hbegin
  refine ⟨p, hfits, hmanages, fun h hh => ?_, fun h hh => ?_⟩
  · rw [hheld] at hh
    cases hh
  · rw [hheld] at hh
    cases hh

/-- Where pool and map fit, `initialize` succeeds with whatever address it is given. -/
theorem Ledger.begin_of_poolFits {m : MemoryManager} {mmap : UInt32 → Option Nat}
    {sizeInWords : UInt64} {p : Nat} (hfits : PoolFits sizeInWords.toNat m.wordSize)
    (hmmap : mmap (UInt32.ofNat
      (sizeInWords.toNat * m.wordSize.toNat + sizeInWords.toNat / 4 + 1)) = some p) :
    ∃ l, Ledger.begin m mmap sizeInWords = some l ∧ l.Sound sizeInWords.toNat m.wordSize p ∧
      l.manager.allocator = m.allocator := by
  have htotal := hfits.total
  have hpool : sizeInWords.toNat * m.wordSize.toNat % 2 ^ 32 =
      sizeInWords.toNat * m.wordSize.toNat := Nat.mod_eq_of_lt (by omega)
  obtain ⟨map, -, hinit⟩ := initializePool_eq m mmap hfits.words
  rw [hpool, ← Nat.add_assoc, hmmap, Option.bind_some, if_pos htotal] at hinit
  have hbegin : ∃ l, Ledger.begin m mmap sizeInWords = some l ∧ l.manager.pool = some p := by
    rw [Ledger.begin, hinit]
    exact ⟨_, rfl, rfl⟩
  obtain ⟨l, hl, hpool⟩ := hbegin
  obtain ⟨p', hsound⟩ := Ledger.begin_sound hfits.words hfits.offsetsFit hl
  obtain ⟨-, -, hallocator, -⟩ := Ledger.begin_manages hfits.words hl
  obtain rfl := Option.some.inj (hpool.symm.trans hsound.manages.pool_eq)
  exact ⟨l, hl, hsound, hallocator⟩

/-! ## Whole runs -/

/-- **The map encodes the live blocks.** After every run of allowed calls, every entry of
the map is the code of its word in the blocks that are held, and these do not overlap and
lie inside the pool. Each is at its address, and as long as its request. -/
theorem map_encodes_live {m : MemoryManager} {mmap : UInt32 → Option Nat} {sizeInWords : UInt64}
    {p : Nat} (hfits : PoolFits sizeInWords.toNat m.wordSize)
    (hmmap : mmap (UInt32.ofNat
      (sizeInWords.toNat * m.wordSize.toNat + sizeInWords.toNat / 4 + 1)) = some p)
    {calls : List MemoryCall}
    (hcalls : ∀ l ∈ Ledger.begin m mmap sizeInWords,
      Throughout Ledger.call Ledger.Allowed l calls) :
    ∃ l, ((Ledger.begin m mmap sizeInWords).bind fun l => run Ledger.call l calls) = some l ∧
      l.manager.map.length = sizeInWords.toNat / 4 + 1 ∧
      (∀ k, k < 4 * l.manager.map.length →
        typeAt l.manager.map k = some (entry sizeInWords.toNat l.live k)) ∧
      (∀ b ∈ l.live, 0 < b.words ∧ b.stop ≤ sizeInWords.toNat) ∧
      l.live.Pairwise Block.Apart ∧
      ∀ h ∈ l.held, h.address = p + h.block.start * m.wordSize.toNat ∧
        h.block.words = wordsFor m.wordSize h.size := by
  obtain ⟨l, hl, hsound, -⟩ := Ledger.begin_of_poolFits hfits hmmap
  obtain ⟨l', hrun, hsound'⟩ := hsound.run_sound (hcalls l hl)
  have hm := hsound'.manages
  have hwords := hm.words
  have hlength := hm.marked.length
  refine ⟨l', by rw [hl, Option.bind_some, hrun], hlength, fun k hk => ?_, fun b hb => ?_,
    hm.laid.apart, fun h hh => ⟨hsound'.address_eq h hh, hsound'.words_eq h hh⟩⟩
  · rw [hlength] at hk
    exact hm.marked.typeAt hm.laid (by omega) (by omega)
  · exact ⟨hm.laid.nonempty b hb, hm.laid.inside b hb⟩

/-- Six words of two bytes: blocks at the start of a hole, directly behind a block
and in the middle of a hole, and one that is given back. Two are left. -/
theorem map_encodes_live_sample :
    ∃ l, ((Ledger.begin (new 2 bestFit) (fun _ => some 4096) 6).bind fun l =>
        run Ledger.call l [.allocate 4, .allocate 2, .setAllocator fun _ _ => some 4,
          .allocate 1, .free (some 4096)]) = some l ∧
      l.live = [⟨4, 1⟩, ⟨2, 1⟩] ∧
      ∀ k, k < 8 → typeAt l.manager.map k = some (entry 6 [⟨4, 1⟩, ⟨2, 1⟩] k) := by
  obtain ⟨l, hl, hlength, htypes, -⟩ :=
    @map_encodes_live (new 2 bestFit) (fun _ => some 4096) 6 4096
      ⟨by decide, by decide, by decide⟩ rfl
      [.allocate 4, .allocate 2, .setAllocator fun _ _ => some 4, .allocate 1, .free (some 4096)]
      (by decide +kernel)
  have hlive : ((Ledger.begin (new 2 bestFit) (fun _ => some 4096) 6).bind fun l =>
      run Ledger.call l [.allocate 4, .allocate 2, .setAllocator fun _ _ => some 4,
        .allocate 1, .free (some 4096)]).map Ledger.live = some [⟨4, 1⟩, ⟨2, 1⟩] := by
    decide +kernel
  rw [hl] at hlive
  have hblocks : l.live = [⟨4, 1⟩, ⟨2, 1⟩] := Option.some.inj hlive
  refine ⟨l, hl, hblocks, fun k hk => ?_⟩
  rw [hlength, hblocks] at htypes
  exact htypes k hk

end Cop4600
