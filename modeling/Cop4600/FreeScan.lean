import Cop4600.Views

/-!
# Where the loop of `free` stops

The length of a block is stored nowhere: `free` looks for the next mark of an end behind
the block's start. In the map of a sound ledger that is the block's own end
(`Marked.scan_block`), so the loop reads no further than the mark behind the last word,
and what becomes free is the block, which joins the holes on either side of it
(`Ledger.Sound.freesBlock`). Where the offset of the last word wraps, `free` starts at
another block's word (`frees_block_iff`).
-/

namespace Cop4600

open PackedBits MemoryManager MaximalRuns PartialRuns

/-! ## The loop, with a record -/

/-- `scan` together with the entries of the map that it reads. -/
def MemoryManager.scanned (map : List UInt8) (i : Nat) : List Nat × Option Nat :=
  match h : map[(i + 1) >>> 2]? with
  | none => ([i + 1], none)
  | some b =>
    if i + 1 < 2 ^ 31 then
      if b &&& UInt8.ofNat (1 <<< shamt (i + 1)) ≠ 0 then ([i + 1], some (i + 1))
      else
        let rest := scanned map (i + 1)
        ((i + 1) :: rest.1, rest.2)
    else ([], none)
termination_by 4 * map.length - i
decreasing_by
  have hlt := (List.getElem?_eq_some_iff.mp h).1
  rw [Nat.shiftRight_eq_div_pow] at hlt
  omega

section

variable {map : List UInt8} {i : Nat}

theorem scan_outside (h : map[(i + 1) >>> 2]? = none) :
    scan map i = none ∧ scanned map i = ([i + 1], none) := by
  refine ⟨?_, ?_⟩
  · rw [scan]
    split
    · rfl
    · next hb => cases h.symm.trans hb
  · rw [scanned]
    split
    · rfl
    · next hb => cases h.symm.trans hb

theorem scan_inside {b : UInt8} (h : map[(i + 1) >>> 2]? = some b) :
    (scan map i = if i + 1 < 2 ^ 31 then
        if b &&& UInt8.ofNat (1 <<< shamt (i + 1)) ≠ 0 then some (i + 1) else scan map (i + 1)
      else none) ∧
    scanned map i = if i + 1 < 2 ^ 31 then
        if b &&& UInt8.ofNat (1 <<< shamt (i + 1)) ≠ 0 then ([i + 1], some (i + 1))
        else ((i + 1) :: (scanned map (i + 1)).1, (scanned map (i + 1)).2)
      else ([], none) := by
  refine ⟨?_, ?_⟩
  · rw [scan]
    split
    · next hb => cases h.symm.trans hb
    · next hb =>
      obtain rfl := Option.some.inj (h.symm.trans hb)
      rfl
  · rw [scanned]
    split
    · next hb => cases h.symm.trans hb
    · next hb =>
      obtain rfl := Option.some.inj (h.symm.trans hb)
      rfl

end

/-- The record does not change where the loop stops. -/
theorem scanned_snd (map : List UInt8) (i : Nat) : (scanned map i).2 = scan map i := by
  induction i using scan.induct map with
  | case1 i hb =>
    obtain ⟨hscan, hrecord⟩ := scan_outside hb
    rw [hscan, hrecord]
  | case2 i b hb hint hmark =>
    obtain ⟨hscan, hrecord⟩ := scan_inside hb
    rw [hscan, hrecord, if_pos hint, if_pos hint, if_pos hmark, if_pos hmark]
  | case3 i b hb hint hmark ih =>
    obtain ⟨hscan, hrecord⟩ := scan_inside hb
    rw [hscan, hrecord, if_pos hint, if_pos hint, if_neg hmark, if_neg hmark, ih]
  | case4 i b hb hint =>
    obtain ⟨hscan, hrecord⟩ := scan_inside hb
    rw [hscan, hrecord, if_neg hint, if_neg hint]

/-- **What the loop reads**: every entry behind the one it starts from, up to the one it
stops at. -/
theorem scanned_of_scan {map : List UInt8} {j : Nat} (i : Nat) (h : scan map i = some j) :
    scanned map i = (List.range' (i + 1) (j - i), some j) ∧ i < j := by
  induction i using scan.induct map with
  | case1 i hb =>
    rw [(scan_outside hb).1] at h
    cases h
  | case2 i b hb hint hmark =>
    obtain ⟨hscan, hrecord⟩ := scan_inside hb
    rw [hscan, if_pos hint, if_pos hmark] at h
    obtain rfl := Option.some.inj h
    rw [hrecord, if_pos hint, if_pos hmark, Nat.add_sub_cancel_left]
    exact ⟨rfl, Nat.lt_succ_self i⟩
  | case3 i b hb hint hmark ih =>
    obtain ⟨hscan, hrecord⟩ := scan_inside hb
    rw [hscan, if_pos hint, if_neg hmark] at h
    obtain ⟨hrest, hlt⟩ := ih h
    have hcount : j - i = j - (i + 1) + 1 := by omega
    rw [hrecord, if_pos hint, if_neg hmark, hrest, hcount, List.range'_succ]
    exact ⟨rfl, by omega⟩
  | case4 i b hb hint =>
    rw [(scan_inside hb).1, if_neg hint] at h
    cases h

/-! ## What a free does -/

/-- The words of a block, none of them free before, become free; they are in one maximal
hole then, and so are the holes that touched the block. -/
structure Released (n : Nat) (holes holes' : List (Nat × Nat)) (b : Block) : Prop where
  /-- no word of the block was in a hole -/
  before : ∀ w, b.Covers w → ¬ InHole holes w 1
  /-- now they all are, too, and no other word besides -/
  after : ∀ w, InHole holes' w 1 ↔ InHole holes w 1 ∨ b.Covers w
  /-- one hole has all of them, and the holes next to the block -/
  merged : ∃ hole ∈ holes', hole.1 ≤ b.start ∧ b.stop ≤ hole.1 + hole.2 ∧
    (hole.1 = 0 ∨ ¬ InHole holes' (hole.1 - 1) 1) ∧
    (hole.1 + hole.2 = n ∨ ¬ InHole holes' (hole.1 + hole.2) 1) ∧
    ∀ g ∈ holes, g.1 + g.2 = b.start ∨ g.1 = b.stop →
      hole.1 ≤ g.1 ∧ g.1 + g.2 ≤ hole.1 + hole.2

/-- `free` of this block: its loop stops at the end of the block, having read no entry behind
the mark at the end of the pool, and changes the status of the block's words only. -/
structure Ledger.FreesBlock (l : Ledger) (h : Holding) : Prop where
  stops : ∃ i map₁ reads, l.manager.freeIndex h.address = some i ∧
    clearEntry l.manager.map 2 i = some map₁ ∧ scanned map₁ i = (reads, some h.block.stop) ∧
    h.block.stop ≤ l.manager.numWords.toNat ∧ ∀ k ∈ i :: reads, k ≤ l.manager.numWords.toNat
  frees : ∃ m' holes holes', l.manager.free (some h.address) = some m' ∧
    l.manager.ListShows holes ∧ l.manager.BitmapShows holes ∧
    m'.ListShows holes' ∧ m'.BitmapShows holes' ∧
    Released l.manager.numWords.toNat holes holes' h.block

section

variable {n p : Nat} {wordSize : UInt32} {live : List Block} {l : Ledger}

theorem inHole_runs {w : Nat} : InHole (runs (used live) n) w 1 ↔ w < n ∧ used live w = false := by
  refine ⟨?_, fun ⟨hw, hfree⟩ => ?_⟩
  · rintro ⟨⟨b, r⟩, hmem, hlow, hhigh⟩
    have hrun := mem_runs.mp hmem
    have hle := hrun.le
    simp only at hlow hhigh
    exact ⟨by omega, hrun.unused w hlow (by omega)⟩
  · obtain ⟨b, r, hrun, hlow, hhigh⟩ := exists_isRun hw hfree
    exact ⟨(b, r), mem_runs.mpr hrun, hlow, hhigh⟩

/-- Without a block, its words are unused as well. -/
theorem used_without (h : Laid n live) {b : Block} (hb : b ∈ live) {w : Nat} :
    used (without live b.start) w = false ↔ used live w = false ∨ b.Covers w := by
  rw [used_eq_false_iff, used_eq_false_iff]
  refine ⟨fun hfree => ?_, fun hor c hc hcovers => ?_⟩
  · by_cases hcovers : b.Covers w
    · exact Or.inr hcovers
    · refine Or.inl fun c hc hcw => hfree c (mem_without.mpr ⟨hc, fun heq => ?_⟩) hcw
      rw [h.eq_of_start hb hc heq] at hcw
      exact hcovers hcw
  · obtain ⟨hmem, hne⟩ := mem_without.mp hc
    rcases hor with hfree | hbw
    · exact hfree c hmem hcovers
    · rw [h.eq_of_covers hmem hb hcovers hbw] at hne
      exact hne rfl

/-- **The words of a block join the holes beside it.** -/
theorem released_without (h : Laid n live) {b : Block} (hb : b ∈ live) :
    Released n (runs (used live) n) (runs (used (without live b.start)) n) b := by
  have hstop := h.inside b hb
  have hpos := h.stop_pos hb
  refine ⟨fun w hcovers hin => ?_, fun w => ?_, ?_⟩
  · exact used_eq_false_iff.mp (inHole_runs.mp hin).2 b hb hcovers
  · rw [inHole_runs, inHole_runs, used_without h hb, and_or_left]
    exact or_congr_right (and_iff_right_of_imp fun hcovers => Nat.lt_of_lt_of_le hcovers.2 hstop)
  · have hunused : ∀ w, b.start ≤ w → w < b.stop → used (without live b.start) w = false :=
      fun w hlow hhigh => (used_without h hb).mpr (Or.inr ⟨hlow, hhigh⟩)
    obtain ⟨c, r, hrun, hlow, hhigh⟩ :=
      exists_isRun (h.start_lt hb) (hunused b.start (Nat.le_refl _) hpos)
    have hblock := hrun.absorbs hunused hstop (by omega) (by omega)
    refine ⟨(c, r), mem_runs.mpr hrun, hblock.1, hblock.2, ?_, ?_, ?_⟩
    · refine hrun.left.imp_right fun hused hin => ?_
      rw [(inHole_runs.mp hin).2] at hused
      cases hused
    · refine hrun.right.imp_right fun hused hin => ?_
      rw [(inHole_runs.mp hin).2] at hused
      cases hused
    · rintro ⟨x, s⟩ hmem htouches
      have hold := mem_runs.mp hmem
      simp only at htouches ⊢
      refine hrun.absorbs (fun w hxw hws => ?_) hold.le (by omega) (by omega)
      exact (used_without h hb).mpr (Or.inl (hold.unused w hxw hws))

/-- **`free` stops exactly at the end of its block** in every sound ledger. -/
theorem Ledger.Sound.freesBlock (hl : l.Sound n wordSize p) {h : Holding} (hh : h ∈ l.held) :
    l.FreesBlock h := by
  have hm := hl.manages
  have hn := hm.words
  have hb := mem_live hh
  have hstop := hm.laid.inside _ hb
  have hpos := hm.laid.stop_pos hb
  refine ⟨?_, ?_⟩
  · obtain ⟨map₁, hclear, -, -, -, hscan⟩ := hm.marked.scan_block hm.laid (by omega) hb
    refine ⟨h.block.start, map₁, _, ?_, hclear, (scanned_of_scan _ hscan).1, ?_, fun k hk => ?_⟩
    · rw [hl.address_eq h hh]
      exact hm.freeIndex_block hl.fits.1 hb
    · rw [hm.numWords_eq]
      exact hstop
    · rw [hm.numWords_eq]
      rcases List.mem_cons.mp hk with rfl | hk
      · omega
      · have := List.mem_range'_1.mp hk
        omega
  · obtain ⟨map, hfree, hmarked, -⟩ := hl.free_held hh
    have hm' := hm.withMap (hm.laid.without h.block.start) hmarked
    refine ⟨_, _, _, hfree, hm.listShows, hm.bitmapShows, hm'.listShows, hm'.bitmapShows, ?_⟩
    rw [hm.numWords_eq]
    exact released_without hm.laid hb

/-- Where the address of the last word wraps, the block there is not what is freed. -/
theorem Ledger.not_freesBlock (hm : l.manager.Manages n wordSize p [⟨n - 1, 1⟩])
    (htwo : 2 ≤ n) (hpos : 0 < wordSize.toNat) (hlast : 2 ^ 32 ≤ (n - 1) * wordSize.toNat) :
    ¬ l.FreesBlock ⟨p + (UInt32.ofNat (n - 1) * wordSize).toNat, 1, ⟨n - 1, 1⟩⟩ := by
  rintro ⟨-, m', holes, holes', hfree, -, -, ⟨list, hlist, -⟩, -⟩
  obtain ⟨map, hfree', hlen, hlow, hhigh⟩ := hm.free_wrapped hpos hlast
  obtain rfl := Option.some.inj (hfree'.symm.trans hfree)
  have hnone : MemoryManager.holeList { l.manager with map } = none :=
    holeList_stray hm.numWords_eq hm.words htwo hlen hlow hhigh
  rw [getList] at hlist
  split at hlist
  · cases hlist
  · rw [hnone] at hlist
    cases hlist

/-! ## Words without bytes -/

/-- Nothing is handed out where words have no bytes. -/
theorem Ledger.call_wordSize_zero {l' : Ledger} {c : MemoryCall}
    (hl : l.manager.wordSize = 0 ∧ l.held = []) (h : l.call c = some l') :
    l'.manager.wordSize = 0 ∧ l'.held = [] := by
  obtain ⟨hzero, hheld⟩ := hl
  obtain ⟨allocator, map, hmanager, -⟩ := Ledger.call_frame h
  refine ⟨by rw [hmanager]; exact hzero, ?_⟩
  cases c with
  | allocate size =>
    obtain ⟨⟨a, m'⟩, hallocate, rfl⟩ := Option.map_eq_some_iff.mp h
    cases a with
    | none => exact hheld
    | some a =>
      rw [allocate] at hallocate
      split at hallocate
      · cases hallocate
      · split at hallocate
        · cases hallocate
        · cases hallocate
  | free address =>
    obtain ⟨m', -, rfl⟩ := Option.map_eq_some_iff.mp h
    rw [hheld, List.filter_nil]
  | setAllocator allocator' =>
    obtain rfl := Option.some.inj h
    exact hheld

end

/-- **Where `free` stops exactly at the end of its block.** In a pool of at most 65535 words
it does so for every block that is live in any state that allowed calls reach, exactly if
the offset of the last word fits 32 bits. -/
theorem frees_block_iff {m : MemoryManager} {mmap : UInt32 → Option Nat} {sizeInWords : UInt64}
    {l₀ : Ledger} (hn : sizeInWords.toNat ≤ 65535)
    (hbegin : Ledger.begin m mmap sizeInWords = some l₀) :
    (∀ calls l, Throughout Ledger.call Ledger.Allowed l₀ calls → run Ledger.call l₀ calls = some l →
      ∀ h ∈ l.held, l.FreesBlock h) ↔
    (sizeInWords.toNat - 1) * m.wordSize.toNat < 2 ^ 32 := by
  obtain ⟨p, hmanages, -, -, hheld⟩ := Ledger.begin_manages hn hbegin
  refine ⟨fun hall => ?_, fun hlast calls l hcalls hrun h hh => ?_⟩
  · by_contra hwraps
    have hlast := Nat.not_lt.mp hwraps
    have hpos : 0 < m.wordSize.toNat := by
      by_contra hzero
      rw [show m.wordSize.toNat = 0 by omega, Nat.mul_zero] at hlast
      omega
    obtain ⟨hallowed, l, hrun, hheld', hmanages', htwo⟩ :=
      Ledger.run_lastWord hmanages hheld hpos hlast
    refine Ledger.not_freesBlock hmanages' htwo hpos hlast (hall _ l hallowed hrun _ ?_)
    rw [hheld']
    exact List.mem_singleton_self _
  · rcases Nat.eq_zero_or_pos m.wordSize.toNat with hzero | hpos
    · -- words without bytes: nothing is ever held
      have hword : l₀.manager.wordSize = 0 :=
        hmanages.wordSize_eq.trans (UInt32.toNat.inj hzero)
      have hnone := invariant_of_run (fun _ _ _ => Ledger.call_wordSize_zero) calls
        ⟨hword, hheld⟩ hrun
      rw [hnone.2] at hh
      cases hh
    · obtain ⟨p', hbegun⟩ := Ledger.begin_sound hn ⟨hpos, hlast⟩ hbegin
      obtain ⟨l', hrun', hsound⟩ := hbegun.run_sound hcalls
      obtain rfl := Option.some.inj (hrun'.symm.trans hrun)
      exact hsound.freesBlock hh

/-- Six words of two bytes. -/
theorem frees_block_iff_sixWords :
    ∃ l₀ ∈ Ledger.begin (new 2 bestFit) (fun _ => some 4096) 6,
      ∀ calls l, Throughout Ledger.call Ledger.Allowed l₀ calls →
        run Ledger.call l₀ calls = some l → ∀ h ∈ l.held, l.FreesBlock h := by
  refine ⟨_, rfl, ?_⟩
  exact (@frees_block_iff (new 2 bestFit) (fun _ => some 4096) 6 _ (by decide) rfl).mpr (by decide)

/-- Three words of two gigabytes: the block at the last word is handed out under the address
of the first, and `free` leaves a map from which `getList` writes past its array. -/
theorem free_of_another_word :
    ∃ l₀ ∈ Ledger.begin (new 2147483648 (atWord 2)) (fun _ => some 4096) 3,
      Throughout Ledger.call Ledger.Allowed l₀ [.allocate 1] ∧
      ∃ l, run Ledger.call l₀ [.allocate 1] = some l ∧ ∃ h ∈ l.held, h.block = ⟨2, 1⟩ ∧
        l.manager.freeIndex h.address = some 0 ∧
        (∃ m', l.manager.free (some h.address) = some m' ∧ m'.getList = none) ∧
        ¬ l.FreesBlock h := by
  have hholding : (wideWords (atWord 2) [129]).holding 4096 1 = ⟨4096, 1, ⟨2, 1⟩⟩ := by
    decide +kernel
  refine ⟨⟨wideWords (atWord 2) [129], []⟩, rfl, by decide +kernel,
    ⟨wideWords (atWord 2) [225], [⟨4096, 1, ⟨2, 1⟩⟩]⟩, ?_, ⟨4096, 1, ⟨2, 1⟩⟩,
    List.mem_singleton_self _, rfl, by decide +kernel, ⟨_, free_wideWords, getList_wideWords⟩, ?_⟩
  · simp only [run, Ledger.call, allocate_wideWords, hholding, Option.map_some, Option.bind_some]
  · rintro ⟨-, m', holes, holes', hfree, -, -, ⟨list, hlist, -⟩, -⟩
    obtain rfl := Option.some.inj (free_wideWords.symm.trans hfree)
    rw [getList_wideWords] at hlist
    cases hlist

end Cop4600
