import Cop4600.Wrapping

/-!
# Freeing undoes allocating

The map depends on the set of live blocks only (`Marked.map_eq`), so what a sequence
of calls does to the blocks is what it does to the map. Taking back a block that was
just handed out gives the old map, two blocks can be given back in either order, and
giving back everything, in whatever order, ends where `initialize` began
(`Ledger.Sound.freesUndo`). This needs the offset of the last word to fit 32 bits, and
nothing else (`frees_undo_iff`).
-/

namespace Cop4600

open PackedBits MemoryManager MaximalRuns PartialRuns

/-- In this state freeing undoes allocating; `map₀` is the map of the new pool. -/
structure Ledger.FreesUndo (map₀ : List UInt8) (l : Ledger) : Prop where
  /-- whatever the allocator, if it answers inside a hole -/
  undo : ∀ (allocator : MemoryAllocator) (size : UInt64) (a : Nat) (m' : MemoryManager),
    (l.manager.setAllocator allocator).AnswersInHole (wordsFor l.manager.wordSize size) →
    (l.manager.setAllocator allocator).allocate size = some (some a, m') →
    ∃ m'', m'.free (some a) = some m'' ∧ m''.map = l.manager.map
  swap : ∀ g ∈ l.held, ∀ h ∈ l.held, g ≠ h →
    ∃ m₁ m₂, run free l.manager [some g.address, some h.address] = some m₁ ∧
      run free l.manager [some h.address, some g.address] = some m₂ ∧ m₁.map = m₂.map
  drain : ∀ hs : List Holding, hs.Perm l.held →
    ∃ m', run free l.manager (hs.map fun h => some h.address) = some m' ∧ m'.map = map₀

namespace Ledger.Sound

variable {n p : Nat} {wordSize : UInt32} {l : Ledger}

/-- Different holdings have different addresses. -/
theorem address_ne (hl : l.Sound n wordSize p) {g h : Holding} (hg : g ∈ l.held)
    (hh : h ∈ l.held) (hne : g ≠ h) : g.address ≠ h.address := by
  rw [Ne, hl.address_eq_iff hg hh]
  intro heq
  have : Std.Symm fun g h : Holding => g.block.Apart h.block := ⟨fun _ _ => Or.symm⟩
  have hapart : g.block.Apart h.block :=
    (List.pairwise_map.mp hl.manages.laid.apart).forall hg hh hne
  refine hapart.not_covers (hl.manages.laid.covers_start (mem_live hg)) ?_
  rw [heq]
  exact hl.manages.laid.covers_start (mem_live hh)

/-- A block that was just handed out. -/
theorem undo (hl : l.Sound n wordSize p) {size : UInt64} {a : Nat} {m' : MemoryManager}
    (hanswer : l.manager.AnswersInHole (wordsFor wordSize size))
    (hresult : l.manager.allocate size = some (some a, m')) :
    ∃ m'', m'.free (some a) = some m'' ∧ m''.map = l.manager.map := by
  rcases hl.allocate_cases fun _ => hanswer with hrefused | ⟨h, map, hplaced, -, -, hsound⟩
  · rw [hrefused] at hresult
    cases hresult
  · rw [hplaced] at hresult
    cases hresult
    obtain ⟨map', hfree, hmarked, -⟩ := hsound.free_held List.mem_cons_self
    refine ⟨_, hfree, hmarked.map_eq hl.manages.marked fun b => ?_⟩
    exact mem_without_cons hsound.manages.laid

/-- Two of the holdings given back. -/
theorem free_two (hl : l.Sound n wordSize p) {g h : Holding} (hg : g ∈ l.held)
    (hh : h ∈ l.held) (hne : g ≠ h) :
    ∃ m', run free l.manager [some g.address, some h.address] = some m' ∧
      Marked n (without (without l.live g.block.start) h.block.start) m'.map := by
  obtain ⟨map₁, hfree₁, -, hsound₁⟩ := hl.free_held hg
  have hrest : h ∈ l.held.filter fun k => some k.address != some g.address := by
    refine List.mem_filter.mpr ⟨hh, ?_⟩
    rw [bne_iff_ne, Ne, Option.some.injEq]
    exact hl.address_ne hh hg hne.symm
  obtain ⟨map₂, hfree₂, hmarked₂, -⟩ := hsound₁.free_held hrest
  refine ⟨{ l.manager with map := map₂ }, ?_, ?_⟩
  · rw [run, hfree₁, Option.bind_some, run, hfree₂, Option.bind_some, run]
  · rwa [Ledger.live, hl.live_filter hg] at hmarked₂

/-- **Two blocks can be given back in either order.** -/
theorem swap (hl : l.Sound n wordSize p) {g h : Holding} (hg : g ∈ l.held)
    (hh : h ∈ l.held) (hne : g ≠ h) :
    ∃ m₁ m₂, run free l.manager [some g.address, some h.address] = some m₁ ∧
      run free l.manager [some h.address, some g.address] = some m₂ ∧ m₁.map = m₂.map := by
  obtain ⟨m₁, hrun₁, hmarked₁⟩ := hl.free_two hg hh hne
  obtain ⟨m₂, hrun₂, hmarked₂⟩ := hl.free_two hh hg hne.symm
  refine ⟨m₁, m₂, hrun₁, hrun₂, hmarked₁.map_eq hmarked₂ fun b => ?_⟩
  rw [mem_without, mem_without, mem_without, mem_without, and_right_comm]

/-- What is left of the holdings once the first of them is given back. -/
theorem perm_filter (hl : l.Sound n wordSize p) {h : Holding} {hs : List Holding}
    (hperm : (h :: hs).Perm l.held) :
    hs.Perm (l.held.filter fun g => some g.address != some h.address) := by
  have hlaid : Laid n ((h :: hs).map Holding.block) :=
    hl.manages.laid.perm (hperm.map Holding.block).symm
  have hmem : ∀ g ∈ h :: hs, g ∈ l.held := fun g hg => hperm.subset hg
  have hkeep : ∀ g ∈ hs, (some g.address != some h.address) = true := by
    intro g hg
    rw [bne_iff_ne, Ne, Option.some.injEq, hl.address_eq_iff
      (hmem g (List.mem_cons_of_mem _ hg)) (hmem h List.mem_cons_self)]
    exact hlaid.start_ne (List.mem_map_of_mem hg)
  have hfilter := hperm.filter fun g => some g.address != some h.address
  rwa [List.filter_cons_of_neg (by simp), List.filter_eq_self.mpr hkeep] at hfilter

/-- **Giving everything back**, in any order, leaves no marks but those of a new pool. -/
theorem drain (hs : List Holding) :
    ∀ {l : Ledger}, l.Sound n wordSize p → hs.Perm l.held →
      ∃ m', run free l.manager (hs.map fun h => some h.address) = some m' ∧
        Marked n [] m'.map := by
  induction hs with
  | nil =>
    intro l hl hperm
    have hmarked := hl.manages.marked
    rw [Ledger.live, List.nil_perm.mp hperm] at hmarked
    exact ⟨l.manager, rfl, hmarked⟩
  | cons h hs ih =>
    intro l hl hperm
    obtain ⟨map, hfree, -, hsound⟩ := hl.free_held (hperm.subset List.mem_cons_self)
    obtain ⟨m', hrun, hmarked⟩ := ih hsound (hl.perm_filter hperm)
    exact ⟨m', by rw [List.map_cons, run, hfree, Option.bind_some, hrun], hmarked⟩

theorem freesUndo (hl : l.Sound n wordSize p) {map₀ : List UInt8} (hmap₀ : Marked n [] map₀) :
    l.FreesUndo map₀ where
  undo := fun allocator size a m' hanswer hresult => by
    have hl' : Ledger.Sound n wordSize p ⟨l.manager.setAllocator allocator, l.held⟩ :=
      ⟨hl.fits, hl.manages.setAllocator allocator, hl.address_eq, hl.words_eq⟩
    rw [hl.manages.wordSize_eq] at hanswer
    exact hl'.undo hanswer hresult
  swap := fun g hg h hh hne => hl.swap hg hh hne
  drain := fun hs hperm => by
    obtain ⟨m', hrun, hmarked⟩ := drain hs hl hperm
    exact ⟨m', hrun, hmarked.map_eq hmap₀ fun b => Iff.rfl⟩

end Ledger.Sound

/-- A block at a last word whose offset wraps is not taken back. -/
theorem MemoryManager.Manages.not_freesUndo {n p : Nat} {wordSize : UInt32} {l : Ledger}
    (h : l.manager.Manages n wordSize p []) (hpos : 0 < wordSize.toNat)
    (hlast : 2 ^ 32 ≤ (n - 1) * wordSize.toNat) (map₀ : List UInt8) : ¬ l.FreesUndo map₀ := by
  intro hundo
  have hn : 1 < n := by
    by_contra hle
    rw [show n - 1 = 0 by omega, Nat.zero_mul] at hlast
    omega
  have hin : InHole (runs (used []) n) (n - 1) (wordsFor wordSize 1) := by
    rw [wordsFor_one hpos]
    exact ⟨(0, n), mem_runs.mpr (isRun_all (by omega)), Nat.zero_le _, by simp only; omega⟩
  obtain ⟨hallowed, -, map, hresult, hmanages⟩ :=
    (h.setAllocator (atWord (n - 1))).allocate_atWord hpos 1 (by decide) rfl hin
  rw [wordsFor_one hpos] at hmanages
  rw [← h.wordSize_eq] at hallowed
  obtain ⟨m'', hfree, hmap⟩ := hundo.undo _ _ _ _ hallowed hresult
  obtain ⟨map', hfree', -, -, hhigh⟩ := hmanages.free_wrapped hpos hlast
  rw [hfree'] at hfree
  obtain rfl := Option.some.inj hfree
  -- the mark of the block's start is still there
  have hstays : bit map' (2 * (n - 1) + 1) = true := by
    rw [hhigh]
    exact decide_eq_true (Or.inl rfl)
  have hgone : bit l.manager.map (2 * (n - 1) + 1) = false := by
    rw [h.marked.high, Bool.eq_false_iff, Ne, starts_iff]
    simp
    omega
  rw [show map' = l.manager.map from hmap, hgone] at hstays
  cases hstays

/-- **Where freeing undoes allocating.** In a pool of at most 65535 words, freeing undoes
allocating in every state that allowed calls reach, and none of them fails, exactly if
words have bytes and the offset of the last word fits 32 bits. -/
theorem frees_undo_iff {m : MemoryManager} {mmap : UInt32 → Option Nat} {sizeInWords : UInt64}
    {l₀ : Ledger} (hn : sizeInWords.toNat ≤ 65535)
    (hbegin : Ledger.begin m mmap sizeInWords = some l₀) :
    (∀ calls, Throughout Ledger.call Ledger.Allowed l₀ calls →
      ∃ l, run Ledger.call l₀ calls = some l ∧ l.FreesUndo l₀.manager.map) ↔
    OffsetsFit sizeInWords.toNat m.wordSize := by
  refine Ledger.reached_iff hn hbegin (fun hnew hsound => hsound.freesUndo hnew.marked) ?_
  intro p hmanages hheld hpos hlast
  rw [Ledger.live_of_held hheld] at hmanages
  exact ⟨[], l₀, trivial, rfl, hmanages.not_freesUndo hpos hlast _⟩

/-- Six words of two bytes. -/
theorem frees_undo_iff_sixWords :
    ∃ l₀ ∈ Ledger.begin (new 2 bestFit) (fun _ => some 4096) 6,
      ∀ calls, Throughout Ledger.call Ledger.Allowed l₀ calls →
        ∃ l, run Ledger.call l₀ calls = some l ∧ l.FreesUndo l₀.manager.map := by
  refine ⟨_, rfl, ?_⟩
  exact (@frees_undo_iff (new 2 bestFit) (fun _ => some 4096) 6 _ (by decide) rfl).mpr (by decide)

/-- Three words of two gigabytes: the last word is handed out under the address of the
first, and stays marked once that is given back. -/
theorem free_leaves_marks :
    ∃ l₀ ∈ Ledger.begin (new 2147483648 (atWord 2)) (fun _ => some 4096) 3,
      l₀.manager.AnswersInHole (wordsFor l₀.manager.wordSize 1) ∧
      ∃ m' m'', l₀.manager.allocate 1 = some (some 4096, m') ∧
        m'.free (some 4096) = some m'' ∧ m''.map ≠ l₀.manager.map := by
  refine ⟨⟨wideWords (atWord 2) [129], []⟩, rfl, by decide +kernel, _, _, allocate_wideWords,
    free_wideWords, ?_⟩
  decide

end Cop4600
