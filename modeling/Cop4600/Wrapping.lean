import Cop4600.Ledger

/-!
# Pools whose last offset wraps

Where the offset of the last word does not fit 32 bits, an allocator that answers with
that word has its block handed out under the address of a word in front of it
(`Manages.allocate_atWord`). `free` takes that address for its own, and clears marks that
belong to other words (`Manages.free_wrapped`).
-/

namespace Cop4600

open PackedBits MemoryManager MaximalRuns PartialRuns

/-- An allocator that answers with word `i`, whatever it is asked. -/
def atWord (i : Nat) : MemoryAllocator := fun _ _ => some (Int32.ofNat i)

/-- A pool without blocks is one hole. -/
theorem isRun_all {n : Nat} (hn : 0 < n) : IsRun (used []) n 0 n where
  pos := hn
  le := by omega
  unused := fun _ _ _ => rfl
  left := Or.inl rfl
  right := Or.inl (Nat.zero_add n)

theorem wordsFor_one {wordSize : UInt32} (hpos : 0 < wordSize.toNat) : wordsFor wordSize 1 = 1 := by
  rw [wordsFor, UInt64.toNat_one, show 1 + (wordSize.toNat - 1) = wordSize.toNat by omega]
  exact Nat.div_self hpos

/-- Whole words take that many words. -/
theorem wordsFor_mul {wordSize : UInt32} (hpos : 0 < wordSize.toNat) {k : Nat}
    (hk : k * wordSize.toNat < 2 ^ 64) :
    wordsFor wordSize (UInt64.ofNat (k * wordSize.toNat)) = k := by
  rw [wordsFor, UInt64.toNat_ofNat', Nat.mod_eq_of_lt hk, Nat.add_comm,
    Nat.add_mul_div_right _ _ hpos, Nat.div_eq_of_lt (by omega), Nat.zero_add]

section

variable {n p : Nat} {wordSize : UInt32} {live : List Block} {m : MemoryManager} {l : Ledger}

/-- Such an allocator is allowed where there is room, and gets its block. -/
theorem MemoryManager.Manages.allocate_atWord (h : m.Manages n wordSize p live)
    (hpos : 0 < wordSize.toNat) (size : UInt64) (hsize : size ≠ 0) {i : Nat}
    (halloc : m.allocator = atWord i)
    (hin : InHole (runs (used live) n) i (wordsFor wordSize size)) :
    m.AnswersInHole (wordsFor wordSize size) ∧ m.answer size = some (Int32.ofNat i) ∧
    ∃ map, m.allocate size =
        some (some (p + (UInt32.ofNat i * wordSize).toNat), { m with map }) ∧
      { m with map }.Manages n wordSize p (⟨i, wordsFor wordSize size⟩ :: live) := by
  have hn := h.words
  have hle := (Manages.inHole hin).1
  have hclamp : (Int32.ofNat i).toNatClampNeg = i :=
    Int32.toNatClampNeg_ofNat_of_lt (by omega)
  have hneg := @not_ofNat_neg i (by omega)
  have hanswer : ∀ list, m.allocator (Int32.ofNat (wordsFor wordSize size)) list =
      some (Int32.ofNat i) := fun list => by rw [halloc, atWord]
  obtain ⟨hlaid, map, hmarked, hresult⟩ :=
    h.place hpos hsize (hanswer _) hneg (by rwa [hclamp])
  rw [hclamp] at hlaid hmarked hresult
  refine ⟨fun list hlist => ⟨_, hanswer list, Or.inr ?_⟩, ?_, map, hresult,
    h.withMap hlaid hmarked⟩
  · obtain rfl := Option.some.inj (h.holeList.symm.trans hlist)
    rwa [listedHoles_holesList (by omega), hclamp]
  · rw [answer, h.holeList, Option.bind_some, h.wordSize_eq, hanswer]

/-- The same as a call. -/
theorem Ledger.call_atWord (h : l.manager.Manages n wordSize p l.live)
    (hpos : 0 < wordSize.toNat) (size : UInt64) (hsize : size ≠ 0) {i : Nat}
    (halloc : l.manager.allocator = atWord i)
    (hin : InHole (runs (used l.live) n) i (wordsFor wordSize size)) :
    l.Allowed (.allocate size) ∧
    ∃ l', l.call (.allocate size) = some l' ∧
      l'.held = ⟨p + (UInt32.ofNat i * wordSize).toNat, size, ⟨i, wordsFor wordSize size⟩⟩ ::
        l.held ∧
      l'.manager.Manages n wordSize p l'.live := by
  have hle := (Manages.inHole hin).1
  have hn := h.words
  obtain ⟨hallowed, hanswer, map, hresult, hmanages⟩ := h.allocate_atWord hpos size hsize halloc hin
  refine ⟨?_, ⟨{ l.manager with map }, _⟩, ?_, rfl, hmanages⟩
  · rw [Ledger.Allowed, h.wordSize_eq]
    exact fun _ => hallowed
  · have hclamp : (Int32.ofNat i).toNatClampNeg = i :=
      Int32.toNatClampNeg_ofNat_of_lt (by omega)
    simp only [Ledger.call, hresult, Option.map_some, holding, hanswer, Option.getD_some, hclamp,
      h.wordSize_eq]

/-- Changing to such an allocator, and asking it. -/
theorem Ledger.run_atWord (h : l.manager.Manages n wordSize p l.live)
    (hpos : 0 < wordSize.toNat) (size : UInt64) (hsize : size ≠ 0) {i : Nat}
    (hin : InHole (runs (used l.live) n) i (wordsFor wordSize size)) :
    Throughout Ledger.call Ledger.Allowed l [.setAllocator (atWord i), .allocate size] ∧
    ∃ l', run Ledger.call l [.setAllocator (atWord i), .allocate size] = some l' ∧
      l'.held = ⟨p + (UInt32.ofNat i * wordSize).toNat, size, ⟨i, wordsFor wordSize size⟩⟩ ::
        l.held ∧
      l'.manager.Manages n wordSize p l'.live := by
  obtain ⟨hallowed, l', hcall, hheld, hmanages⟩ := Ledger.call_atWord
    (l := ⟨l.manager.setAllocator (atWord i), l.held⟩) (h.setAllocator _) hpos size hsize rfl hin
  refine ⟨⟨trivial, fun l₁ hl₁ => ?_⟩, l', ?_, hheld, hmanages⟩
  · obtain rfl := Option.some.inj hl₁
    exact ⟨hallowed, fun _ _ => trivial⟩
  · rw [run, Ledger.call, Option.bind_some, run, hcall, Option.bind_some, run]

/-! ## The last word -/

/-- The last word of an empty pool, handed out. -/
theorem Ledger.run_lastWord (h : l.manager.Manages n wordSize p l.live) (hheld : l.held = [])
    (hpos : 0 < wordSize.toNat) (hlast : 2 ^ 32 ≤ (n - 1) * wordSize.toNat) :
    Throughout Ledger.call Ledger.Allowed l [.setAllocator (atWord (n - 1)), .allocate 1] ∧
    ∃ l', run Ledger.call l [.setAllocator (atWord (n - 1)), .allocate 1] = some l' ∧
      l'.held = [⟨p + (UInt32.ofNat (n - 1) * wordSize).toNat, 1, ⟨n - 1, 1⟩⟩] ∧
      l'.manager.Manages n wordSize p [⟨n - 1, 1⟩] ∧ 2 ≤ n := by
  have htwo : 2 ≤ n := by
    by_contra hle
    rw [show n - 1 = 0 by omega, Nat.zero_mul] at hlast
    omega
  have hlive : l.live = [] := by rw [Ledger.live, hheld, List.map_nil]
  have hin : InHole (runs (used l.live) n) (n - 1) (wordsFor wordSize 1) := by
    rw [wordsFor_one hpos, hlive]
    exact ⟨(0, n), mem_runs.mpr (isRun_all (by omega)), Nat.zero_le _, by simp only; omega⟩
  obtain ⟨hallowed, l', hrun, hheld', hmanages⟩ := Ledger.run_atWord h hpos 1 (by decide) hin
  rw [hheld, wordsFor_one hpos] at hheld'
  rw [Ledger.live, hheld', List.map_cons, List.map_nil] at hmanages
  exact ⟨hallowed, l', hrun, hheld', hmanages, htwo⟩

/-- Clearing from a word of the hole in front of a block at the last word: the block
loses the mark of its end, and keeps that of its start. -/
theorem Marked.clearBlock_stray {map : List UInt8} (hm : Marked n [⟨n - 1, 1⟩] map)
    (hn : n < 2 ^ 31) {k : Nat} (hk : k + 1 < n) :
    ∃ map', MemoryManager.clearBlock map k = some map' ∧ map'.length = n / 4 + 1 ∧
      (∀ i, bit map' (2 * i) = decide (i = 0)) ∧
      ∀ i, bit map' (2 * i + 1) = decide (i = n - 1 ∨ i = n) := by
  have hlen := hm.length
  have hends : ∀ i, ends [⟨n - 1, 1⟩] i = decide (i = 0 ∨ i = n) := fun i => by
    have hstop : (⟨n - 1, 1⟩ : Block).stop = n := Nat.sub_add_cancel (by omega)
    rw [Bool.eq_iff_iff, ends_iff, decide_eq_true_eq]
    simp [hstop, eq_comm]
  have hstarts : ∀ i, starts n [⟨n - 1, 1⟩] i = decide (i = n - 1 ∨ i = n) := fun i => by
    rw [Bool.eq_iff_iff, starts_iff, decide_eq_true_eq]
    simp [eq_comm, or_comm]
  obtain ⟨map₁, hclear₁, hlen₁, hbit₁⟩ :=
    exists_clearEntry map k (s := 1) (by decide) (by omega)
  have hlow₁ : ∀ i, bit map₁ (2 * i) = decide (i = 0 ∨ i = n) := fun i => by
    have hne : 2 * i ≠ 2 * k + 1 := by omega
    rw [hbit₁, hm.low, hends, decide_eq_false hne, Bool.not_false, Bool.and_true]
  have hscan : scan map₁ k = some n := by
    refine scan_eq hn (by omega) ?_ (n - k - 1) (by omega) fun i hki hin => ?_
    · rw [hlow₁, decide_eq_true (Or.inr rfl)]
    · rw [hlow₁]
      exact decide_eq_false (by omega)
  obtain ⟨map₂, hclear₂, hlen₂, hbit₂⟩ :=
    exists_clearEntry map₁ n (s := 0) (by decide) (by omega)
  refine ⟨map₂, ?_, by rw [hlen₂, hlen₁, hlen], fun i => ?_, fun i => ?_⟩
  · rw [MemoryManager.clearBlock, show clearEntry map 2 k = some map₁ from hclear₁,
      Option.bind_some, hscan, Option.bind_some]
    exact hclear₂
  · rw [hbit₂, hlow₁, Bool.eq_iff_iff]
    simp only [Bool.and_eq_true, Bool.not_eq_true', decide_eq_true_eq, decide_eq_false_iff_not]
    omega
  · rw [hbit₂, hbit₁, hm.high, hstarts, Bool.eq_iff_iff]
    simp only [Bool.and_eq_true, Bool.not_eq_true', decide_eq_true_eq, decide_eq_false_iff_not]
    omega

/-- `free` with the wrapped address of the last word. -/
theorem MemoryManager.Manages.free_wrapped (h : m.Manages n wordSize p [⟨n - 1, 1⟩])
    (hpos : 0 < wordSize.toNat) (hlast : 2 ^ 32 ≤ (n - 1) * wordSize.toNat) :
    ∃ map, m.free (some (p + (UInt32.ofNat (n - 1) * wordSize).toNat)) =
        some { m with map } ∧ map.length = n / 4 + 1 ∧
      (∀ i, bit map (2 * i) = decide (i = 0)) ∧
      ∀ i, bit map (2 * i + 1) = decide (i = n - 1 ∨ i = n) := by
  have hn := h.words
  have hlt := (UInt32.ofNat (n - 1) * wordSize).toNat_lt
  generalize (UInt32.ofNat (n - 1) * wordSize).toNat = r at hlt ⊢
  -- the word that the address belongs to
  have hk : r / wordSize.toNat < n - 1 :=
    (Nat.div_lt_iff_lt_mul hpos).mpr (Nat.lt_of_lt_of_le hlt hlast)
  have hindex := h.freeIndex_add hpos (r := r) (by omega)
  generalize r / wordSize.toNat = k at hk hindex
  obtain ⟨map, hclear, hlen, hlow, hhigh⟩ :=
    h.marked.clearBlock_stray (k := k) (by omega) (by omega)
  refine ⟨map, ?_, hlen, hlow, hhigh⟩
  rw [free_eq_freeIndex h.pool_eq, hindex, Option.bind_some, hclear]
  rfl

end

/-! ## Where a pool is too large -/

/-- An allocator that never finds a place. -/
def refusing : MemoryAllocator := fun _ _ => some (-1)

/-- Words without bytes: the first request divides by zero. -/
theorem Ledger.divides_by_zero {n p : Nat} {l : Ledger} (h : l.manager.Manages n 0 p l.live) :
    Throughout Ledger.call Ledger.Allowed l [.setAllocator refusing, .allocate 1] ∧
      run Ledger.call l [.setAllocator refusing, .allocate 1] = none := by
  have hstep : (l.manager.setAllocator refusing).allocate 1 = none := by
    unfold allocate
    rw [(h.setAllocator refusing).pool_eq, (h.setAllocator refusing).wordSize_eq]
    rfl
  refine ⟨⟨trivial, fun l' hl' => ⟨fun _ list _ => ⟨-1, ?_, Or.inl (by decide)⟩, ?_⟩⟩, ?_⟩
  · obtain rfl := Option.some.inj hl'
    rfl
  · exact fun _ _ => trivial
  · simp only [run, Ledger.call, Option.bind_some, hstep, Option.map_none, Option.bind_none]

/-- A pool can be too large in one way only, once its words have bytes. -/
theorem last_wraps {n : Nat} {wordSize : UInt32} (hno : ¬ OffsetsFit n wordSize) :
    wordSize = 0 ∨ 0 < wordSize.toNat ∧ 2 ^ 32 ≤ (n - 1) * wordSize.toNat := by
  rcases Nat.eq_zero_or_pos wordSize.toNat with hzero | hpos
  · exact Or.inl (UInt32.toNat.inj hzero)
  · exact Or.inr ⟨hpos, Nat.not_lt.mp fun hlast => hno ⟨hpos, hlast⟩⟩

theorem Ledger.live_of_held {l : Ledger} (hheld : l.held = []) : l.live = [] := by
  rw [Ledger.live, hheld, List.map_nil]

/-- **What decides.** A property that sound ledgers have, and that some run of allowed calls
loses where the offset of the last word wraps, holds in every state reached exactly if
the offsets fit. -/
theorem Ledger.reached_iff {m : MemoryManager} {mmap : UInt32 → Option Nat} {sizeInWords : UInt64}
    {l₀ : Ledger} {P : Ledger → Prop} (hn : sizeInWords.toNat ≤ 65535)
    (hbegin : Ledger.begin m mmap sizeInWords = some l₀)
    (hsound : ∀ {p l}, l₀.manager.Manages sizeInWords.toNat m.wordSize p [] →
      l.Sound sizeInWords.toNat m.wordSize p → P l)
    (hlost : ∀ {p}, l₀.manager.Manages sizeInWords.toNat m.wordSize p l₀.live → l₀.held = [] →
      0 < m.wordSize.toNat → 2 ^ 32 ≤ (sizeInWords.toNat - 1) * m.wordSize.toNat →
      ∃ calls l, Throughout Ledger.call Ledger.Allowed l₀ calls ∧
        run Ledger.call l₀ calls = some l ∧ ¬ P l) :
    (∀ calls, Throughout Ledger.call Ledger.Allowed l₀ calls →
      ∃ l, run Ledger.call l₀ calls = some l ∧ P l) ↔
    OffsetsFit sizeInWords.toNat m.wordSize := by
  obtain ⟨p, hmanages, -, -, hheld⟩ := Ledger.begin_manages hn hbegin
  refine ⟨fun hall => ?_, fun hfits calls hcalls => ?_⟩
  · by_contra hno
    rcases last_wraps hno with hzero | ⟨hpos, hlast⟩
    · rw [hzero] at hmanages
      obtain ⟨hcalls, hnone⟩ := Ledger.divides_by_zero hmanages
      obtain ⟨l, hl, -⟩ := hall _ hcalls
      rw [hnone] at hl
      cases hl
    · obtain ⟨calls, l', hcalls, hl', hnot⟩ := hlost hmanages hheld hpos hlast
      obtain ⟨l, hl, hP⟩ := hall calls hcalls
      obtain rfl := Option.some.inj (hl'.symm.trans hl)
      exact hnot hP
  · obtain ⟨p', hbegun⟩ := Ledger.begin_sound hn hfits hbegin
    obtain ⟨l, hl, hsound'⟩ := hbegun.run_sound hcalls
    exact ⟨l, hl, hsound (Ledger.live_of_held hheld ▸ hbegun.manages) hsound'⟩

/-! ## Three words of two gigabytes -/

/-- A pool of three words, each two gigabytes long, with this map. -/
def wideWords (allocator : MemoryAllocator) (map : List UInt8) : MemoryManager where
  wordSize := 2147483648
  allocator := allocator
  numWords := 3
  poolSize := 2147483648
  totalSize := 2147483649
  pool := some 4096
  map := map

/-- The last word is handed out under the address of the first. -/
theorem allocate_wideWords : (wideWords (atWord 2) [129]).allocate 1 =
    some (some 4096, wideWords (atWord 2) [225]) :=
  allocate_of_map (by decide +kernel)

/-- Given back, it leaves its start mark behind. -/
theorem free_wideWords : (wideWords (atWord 2) [225]).free (some 4096) =
    some (wideWords (atWord 2) [161]) :=
  free_of_map (by decide +kernel)

/-- `getList` then writes past the end of its array. -/
theorem getList_wideWords : (wideWords (atWord 2) [161]).getList = none := by
  decide +kernel

end Cop4600
