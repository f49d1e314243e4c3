import Cop4600.Heap
import Cop4600.Views

/-!
# A memory manager is a heap

A manager realizes a heap if it has the heap's allocator and a pool whose map encodes the
blocks of the heap's arena. Each call of a manager then gives what the heap replies, as
the C++ types show it, and leaves a manager that realizes the heap the call leaves
(`MemoryManager.Realizes.step`). So does every run, over any number of pools
(`manager_is_heap`).
-/

namespace Cop4600

open MaximalRuns MemoryManager PackedBits

/-! ## Replies as the manager gives them -/

/-- The bytes that `getBitmap` returns: their number in two bytes, then a bit for each
word. -/
def bitmapOf (inUse : List Bool) : List UInt8 :=
  UInt8.ofNat ((inUse.length + 7) / 8 % 256) :: UInt8.ofNat ((inUse.length + 7) / 8 / 256) ::
    pack (fun w => inUse.getD w false) ((inUse.length + 7) / 8)

/-- What `dumpMemoryMap` writes. -/
def dumpOf (holes : List (Nat × Nat)) : List Char :=
  [' ', '-', ' '].intercalate (holes.map bracketed)

/-- What the manager returns where the heap replies so. -/
def HeapReply.encode : HeapReply → ManagerReply
  | .done calls => .done calls
  | .address p => .address p
  | .holes hs => .list (hs.map holesList)
  | .words inUse => .bitmap (inUse.map bitmapOf)
  | .dumped none => .dumped (-1) []
  | .dumped (some hs) => .dumped 0 (dumpOf hs)
  | .number n => .number (UInt32.ofNat n)

/-! ## The relation -/

namespace MemoryManager

/-- The manager's pool is this arena. -/
structure Backs (m : MemoryManager) (a : Arena) : Prop where
  /-- pool and map fit 32 bits -/
  fits : PoolFits a.words m.wordSize
  /-- the map encodes the blocks -/
  manages : m.Manages a.words m.wordSize a.start a.blocks
  /-- the bytes of the pool -/
  poolSize_eq : m.poolSize.toNat = a.words * m.wordSize.toNat
  /-- those of the whole mapping -/
  totalSize_eq : m.totalSize.toNat = a.words * m.wordSize.toNat + (a.words / 4 + 1)

/-- The manager's pool is this arena, or there is none. -/
def BacksAny (m : MemoryManager) : Option Arena → Prop
  | none => m.pool = none
  | some a => m.Backs a

/-- The manager is a heap: it has its word size and policy, and its pool is the arena. -/
structure Realizes (m : MemoryManager) (h : Heap) : Prop where
  /-- words have bytes -/
  wordSize_pos : 0 < h.wordSize
  /-- as many as they have in the heap -/
  wordSize_eq : m.wordSize.toNat = h.wordSize
  /-- the policy is the same -/
  allocator_eq : m.allocator = h.policy.allocator
  /-- the pool is the arena -/
  arena : m.BacksAny h.arena

variable {m : MemoryManager} {h : Heap} {a : Arena}

/-- A step of the manager that allocates. -/
theorem step_allocate {m' : MemoryManager} {size : UInt64} {address : Option Nat}
    (h : m.allocate size = some (address, m')) :
    m.step (.allocate size) = some (m', .address address) := by
  rw [step, h, Option.map_some]

/-- Another allocator leaves the pool as it is. -/
theorem BacksAny.setAllocator {arena : Option Arena} (hb : m.BacksAny arena)
    (allocator : MemoryAllocator) : (m.setAllocator allocator).BacksAny arena := by
  cases arena with
  | none => exact hb
  | some a =>
    exact ⟨hb.fits, hb.manages.setAllocator allocator, hb.poolSize_eq, hb.totalSize_eq⟩

/-- Another map for other blocks. -/
theorem Backs.withMap (hb : m.Backs a) {blocks : List Block} {map : List UInt8}
    (hlaid : Laid a.words blocks) (hmarked : Marked a.words blocks map) :
    { m with map }.Backs { a with blocks } :=
  ⟨hb.fits, hb.manages.withMap hlaid hmarked, hb.poolSize_eq, hb.totalSize_eq⟩

namespace Realizes

/-- Without an arena there is no pool. -/
theorem pool_of_none (hr : m.Realizes h) (harena : h.arena = none) : m.pool = none := by
  have hback := hr.arena
  rwa [harena] at hback

/-- With an arena there is the pool that backs it. -/
theorem backs (hr : m.Realizes h) (harena : h.arena = some a) : m.Backs a := by
  have hback := hr.arena
  rwa [harena] at hback

/-- The pool and the arena begin at the same address. -/
theorem pool_eq (hr : m.Realizes h) : m.pool = h.arena.map Arena.start := by
  rcases harena : h.arena with _ | a
  · exact hr.pool_of_none harena
  · exact (hr.backs harena).manages.pool_eq

/-- The manager and the heap have the same to unmap. -/
theorem unmaps_eq (hr : m.Realizes h) : m.unmaps = h.unmaps := by
  rcases harena : h.arena with _ | a
  · rw [unmaps, hr.pool_of_none harena, Heap.unmaps, harena]
  · have hb := hr.backs harena
    rw [unmaps, hb.manages.pool_eq, Heap.unmaps, harena, hb.totalSize_eq, hr.wordSize_eq]
    rfl

/-! ## Setting up -/

/-- `initialize` unmaps the old pool and maps the new one. -/
theorem initializePool (hr : m.Realizes h) {sizeInWords : UInt64} (mapped : Nat)
    (hpermits : h.Permits (.initializePool sizeInWords mapped)) :
    ∃ m', m.initializePool (fun _ => some mapped) sizeInWords = some m' ∧
      m'.totalSize.toNat = h.mappingLength sizeInWords.toNat ∧
      m'.Realizes { h with arena := some ⟨mapped, sizeInWords.toNat, []⟩ } := by
  obtain ⟨hn, htotal⟩ := hpermits
  have hlength : h.mappingLength sizeInWords.toNat =
      sizeInWords.toNat * m.wordSize.toNat + (sizeInWords.toNat / 4 + 1) := by
    rw [Heap.mappingLength, hr.wordSize_eq]
  rw [hlength] at htotal ⊢
  have hpos : 0 < m.wordSize.toNat := hr.wordSize_eq ▸ hr.wordSize_pos
  have hbytes : sizeInWords.toNat * m.wordSize.toNat % 2 ^ 32 =
      sizeInWords.toNat * m.wordSize.toNat := Nat.mod_eq_of_lt (by omega)
  have hnum : sizeInWords.toUInt32.toNat = sizeInWords.toNat := by
    rw [UInt64.toNat_toUInt32]
    exact Nat.mod_eq_of_lt (by omega)
  obtain ⟨map, hmarked, heq⟩ := initializePool_eq m (fun _ => some mapped) hn
  rw [heq, Option.bind_some, hbytes, if_pos htotal]
  have hpool : (sizeInWords.toUInt32 * m.wordSize).toNat =
      sizeInWords.toNat * m.wordSize.toNat := by
    rw [UInt32.toNat_mul, hnum, hbytes]
  have htotal' : (sizeInWords.toUInt32 * m.wordSize + (sizeInWords.toUInt32 >>> 2) + 1).toNat =
      sizeInWords.toNat * m.wordSize.toNat + (sizeInWords.toNat / 4 + 1) := by
    have hquarter : (sizeInWords.toUInt32 >>> 2).toNat = sizeInWords.toNat / 4 := by
      rw [UInt32.toNat_shiftRight, hnum]
      exact Nat.shiftRight_eq_div_pow _ 2
    rw [UInt32.toNat_add, UInt32.toNat_add, hquarter, hpool, UInt32.toNat_one]
    omega
  refine ⟨_, rfl, htotal', hr.wordSize_pos, hr.wordSize_eq, hr.allocator_eq, ?_⟩
  exact ⟨⟨hn, hpos, by omega⟩, ⟨hn, rfl, hnum, rfl, Laid.nil, hmarked⟩, hpool, htotal'⟩

/-- `shutdown` leaves a manager without a pool. -/
theorem shutdown (hr : m.Realizes h) : m.shutdown.Realizes { h with arena := none } := by
  rcases harena : h.arena with _ | a
  · have hpool := hr.pool_of_none harena
    rw [MemoryManager.shutdown, hpool]
    exact ⟨hr.wordSize_pos, hr.wordSize_eq, hr.allocator_eq, hpool⟩
  · rw [MemoryManager.shutdown, (hr.backs harena).manages.pool_eq]
    exact ⟨hr.wordSize_pos, hr.wordSize_eq, hr.allocator_eq, rfl⟩

/-! ## Blocks -/

/-- A place that the policy has chosen becomes a block. -/
theorem allocate (hr : m.Realizes h) {size : UInt64} (hwords : h.wordsOf size.toNat < 2 ^ 31) :
    ∃ m', m.step (.allocate size) = some (m', (h.allocate size.toNat).2.encode) ∧
      m'.Realizes (h.allocate size.toNat).1 := by
  rw [Heap.allocate]
  rcases harena : h.arena with _ | a
  · have hrefused : m.allocate size = some (none, m) := by
      rw [MemoryManager.allocate, hr.pool_of_none harena]
    exact ⟨m, step_allocate hrefused, hr⟩
  dsimp only
  have hb := hr.backs harena
  have hm := hb.manages
  by_cases hsize : size = 0
  · subst hsize
    exact ⟨m, step_allocate hm.allocate_zero, hr⟩
  have hsize' : size.toNat ≠ 0 := fun h0 => hsize (UInt64.toNat.inj h0)
  have hpos := hb.fits.wordSize_pos
  have hwordsFor : wordsFor m.wordSize size = h.wordsOf size.toNat := by
    rw [wordsFor, Heap.wordsOf, hr.wordSize_eq]
  rw [if_neg hsize']
  obtain ⟨i, hanswer, hnames⟩ := h.policy.follows a.blocks hb.fits.words
    (hwordsFor ▸ wordsFor_pos hpos hsize) hwords
  rw [← hr.allocator_eq, ← hwordsFor] at hanswer
  rw [Arena.holes]
  rcases hchoose : h.policy.choose (h.wordsOf size.toNat) (runs (used a.blocks) a.words) with _ | b
  · rw [hchoose, Names] at hnames
    have hrefused : m.allocate size = some (none, m) := by
      rw [hm.allocate_eq hpos hsize, hanswer, Option.bind_some, if_pos hnames]
    exact ⟨m, step_allocate hrefused, hr⟩
  · rw [hchoose, Names] at hnames
    have hin := h.policy.inHole hchoose
    rw [← hwordsFor] at hin
    obtain ⟨hle, -⟩ := MemoryManager.Manages.inHole hin
    have hn := hb.fits.words
    have hplaced : i.toNatClampNeg = b := by
      rw [hnames]
      exact Int32.toNatClampNeg_ofNat_of_lt (by omega)
    rw [← hplaced] at hin
    obtain ⟨hlaid, map, hmarked, hallocate⟩ :=
      hm.place hpos hsize hanswer (hnames ▸ not_ofNat_neg (by omega)) hin
    rw [hplaced] at hlaid hmarked hallocate
    rw [toNat_offset _ (by omega), Nat.mod_eq_of_lt (hb.fits.offset (by omega))] at hallocate
    rw [hwordsFor] at hlaid hmarked
    refine ⟨{ m with map }, ?_, hr.wordSize_pos, hr.wordSize_eq, hr.allocator_eq, ?_⟩
    · have haddress : h.addressOf a ⟨b, h.wordsOf size.toNat⟩ = a.start + b * m.wordSize.toNat := by
        rw [Heap.addressOf, hr.wordSize_eq]
      dsimp only
      rw [haddress]
      exact step_allocate hallocate
    · exact hb.withMap hlaid hmarked

/-- `free` gives back the block at the address. -/
theorem free (hr : m.Realizes h) {address : Option Nat} (hpermits : h.Permits (.free address)) :
    ∃ m', m.free address = some m' ∧ m'.Realizes (h.free address) := by
  rw [Heap.free]
  rcases harena : h.arena with _ | a
  · refine ⟨m, ?_, hr⟩
    simp only [MemoryManager.free, hr.pool_of_none harena]
  dsimp only
  have hb := hr.backs harena
  rcases address with _ | p
  · have hsame : (a.blocks.filter fun b => some (h.addressOf a b) != none) = a.blocks :=
      List.filter_eq_self.mpr fun b _ => rfl
    refine ⟨m, ?_, hr.wordSize_pos, hr.wordSize_eq, hr.allocator_eq, ?_⟩
    · simp only [MemoryManager.free, hb.manages.pool_eq]
    · rw [hsame]
      exact hb
  · obtain ⟨b, hmem, rfl⟩ := hpermits a harena p rfl
    have haddress : h.addressOf a b = a.start + b.start * m.wordSize.toNat := by
      rw [Heap.addressOf, hr.wordSize_eq]
    have hfilter : (a.blocks.filter fun c => some (h.addressOf a c) != some (h.addressOf a b)) =
        without a.blocks b.start := by
      apply List.filter_congr
      intro c _
      rw [Bool.eq_iff_iff, bne_iff_ne, bne_iff_ne, Ne, Option.some.injEq, Heap.addressOf,
        Heap.addressOf, Nat.add_left_cancel_iff, Nat.mul_left_inj hr.wordSize_pos.ne']
    obtain ⟨map, hfree, hmarked⟩ := hb.manages.free_block hb.fits.wordSize_pos hmem
    refine ⟨{ m with map }, ?_, hr.wordSize_pos, hr.wordSize_eq, hr.allocator_eq, ?_⟩
    · rw [haddress, hfree]
    · rw [hfilter]
      exact hb.withMap (hb.manages.laid.without b.start) hmarked

/-! ## Views -/

/-- `getList` lists the holes of the arena. -/
theorem getList (hr : m.Realizes h) :
    m.getList = some ((h.arena.map Arena.holes).map holesList) := by
  rcases harena : h.arena with _ | a
  · rw [MemoryManager.getList, hr.pool_of_none harena]
    rfl
  · exact (hr.backs harena).manages.getList

/-- The words in use, and none behind the last one. -/
theorem inUse_getD {n : Nat} {blocks : List Block} {i : Nat} :
    ((List.range n).map fun w => used blocks w).getD i false = true ↔
      i < n ∧ used blocks i = true := by
  rw [List.getD_eq_getElem?_getD, List.getElem?_map]
  by_cases hi : i < n
  · rw [List.getElem?_range hi, Option.map_some, Option.getD_some]
    exact ⟨fun h => ⟨hi, h⟩, And.right⟩
  · rw [List.getElem?_eq_none (by rw [List.length_range]; exact Nat.le_of_not_lt hi)]
    exact ⟨fun h => absurd h Bool.false_ne_true, fun h => absurd h.1 hi⟩

/-- The bytes of the bitmap are the only ones with its bits. -/
theorem getBitmap (hr : m.Realizes h) : m.getBitmap = some
    ((h.arena.map fun a => (List.range a.words).map fun w => used a.blocks w).map bitmapOf) := by
  rcases harena : h.arena with _ | a
  · rw [MemoryManager.getBitmap, hr.pool_of_none harena]
    rfl
  have hm := (hr.backs harena).manages
  obtain ⟨bytes, hbitmap, hlength, hbits⟩ := hm.bitmapShows
  rw [hm.numWords_eq] at hbitmap hlength hbits
  have hbytes : bytes = pack (fun w => ((List.range a.words).map fun w => used a.blocks w).getD w
      false) ((a.words + 7) / 8) := by
    apply eq_of_bits (by rw [length_pack, hlength])
    intro i
    rw [bit_pack, ← hlength]
    by_cases hi : i < 8 * bytes.length
    · rw [decide_eq_true hi, Bool.true_and, Bool.eq_iff_iff, hbits i hi, inUse_getD]
      exact and_congr_right fun hlt => (used_iff_not_in_runs hlt).symm
    · rw [decide_eq_false hi, Bool.false_and, bit_eq_false (Nat.le_of_not_lt hi)]
  rw [hbitmap, hbytes]
  simp only [Option.map_some, bitmapOf, List.length_map, List.length_range]

/-- `dumpMemoryMap` writes them, if the file opens. -/
theorem dumpMemoryMap (hr : m.Realizes h) (opens : Bool) :
    ∃ ret written, m.dumpMemoryMap opens = some (ret, written) ∧
      ManagerReply.dumped ret written.flatten =
        (HeapReply.dumped (if opens then h.arena.map Arena.holes else none)).encode := by
  rcases harena : h.arena with _ | a
  · refine ⟨-1, [], ?_, ?_⟩
    · rw [MemoryManager.dumpMemoryMap, hr.pool_of_none harena]
    · rw [Option.map_none, ite_self]
      rfl
  have hm := (hr.backs harena).manages
  cases opens with
  | false =>
    refine ⟨-1, [], ?_, rfl⟩
    rw [MemoryManager.dumpMemoryMap, hm.pool_eq]
    rfl
  | true =>
    obtain ⟨written, hdump, htext⟩ := hm.dumpShows
    exact ⟨0, written, hdump, congrArg _ htext⟩

/-- `getMemoryLimit` tells how many bytes there are. -/
theorem getMemoryLimit (hr : m.Realizes h) :
    ManagerReply.number m.getMemoryLimit = (h.answer .getMemoryLimit).2.encode := by
  rw [Heap.answer, MemoryManager.getMemoryLimit]
  rcases harena : h.arena with _ | a
  · rw [hr.pool_of_none harena]
    rfl
  · have hb := hr.backs harena
    rw [hb.manages.pool_eq]
    dsimp only [HeapReply.encode]
    rw [← hr.wordSize_eq, ← hb.poolSize_eq, UInt32.ofNat_toNat]

/-! ## Every call -/

/-- **Each call** gives what the heap replies. -/
theorem step (hr : m.Realizes h) {call : ManagerCall Policy} (hpermits : h.Permits call) :
    ∃ m', m.step (call.map Policy.allocator) = some (m', (h.answer call).2.encode) ∧
      m'.Realizes (h.answer call).1 := by
  cases call with
  | initializePool sizeInWords mapped =>
    obtain ⟨m', hinit, htotal, hr'⟩ := hr.initializePool mapped hpermits
    refine ⟨m', ?_, hr'⟩
    rw [ManagerCall.map, MemoryManager.step, hinit, Option.map_some, htotal, hr.unmaps_eq]
    rfl
  | shutdown =>
    refine ⟨m.shutdown, ?_, hr.shutdown⟩
    rw [ManagerCall.map, MemoryManager.step, hr.unmaps_eq]
    rfl
  | allocate size => exact hr.allocate hpermits
  | free address =>
    obtain ⟨m', hfree, hr'⟩ := hr.free hpermits
    refine ⟨m', ?_, hr'⟩
    rw [ManagerCall.map, MemoryManager.step, hfree, Option.map_some]
    rfl
  | setAllocator policy =>
    exact ⟨m.setAllocator policy.allocator, rfl, hr.wordSize_pos, hr.wordSize_eq, rfl,
      hr.arena.setAllocator policy.allocator⟩
  | dumpMemoryMap opens =>
    obtain ⟨ret, written, hdump, hencode⟩ := hr.dumpMemoryMap opens
    refine ⟨m, ?_, hr⟩
    rw [ManagerCall.map, MemoryManager.step, hdump, Option.map_some, Heap.answer, ← hencode]
  | getList =>
    refine ⟨m, ?_, hr⟩
    rw [ManagerCall.map, MemoryManager.step, hr.getList, Option.map_some]
    rfl
  | getBitmap =>
    refine ⟨m, ?_, hr⟩
    rw [ManagerCall.map, MemoryManager.step, hr.getBitmap, Option.map_some]
    rfl
  | getWordSize =>
    refine ⟨m, ?_, hr⟩
    rw [ManagerCall.map, MemoryManager.step, Heap.answer, HeapReply.encode, ← hr.wordSize_eq,
      UInt32.ofNat_toNat]
  | getMemoryStart =>
    refine ⟨m, ?_, hr⟩
    rw [ManagerCall.map, MemoryManager.step, MemoryManager.getMemoryStart, hr.pool_eq]
    rfl
  | getMemoryLimit =>
    refine ⟨m, ?_, hr⟩
    rw [ManagerCall.map, MemoryManager.step, hr.getMemoryLimit, Heap.answer]

end Realizes

end MemoryManager

/-! ## Every run -/

/-- A heap without an arena. -/
def Heap.new (wordSize : Nat) (policy : Policy) : Heap := ⟨wordSize, policy, none⟩

/-- **A memory manager is a heap.** Make a manager with words of at least one byte and an
allocator that follows a policy, and call it in any order, over as many pools as wanted,
as long as the heap permits the calls. No call fails, and each one gives what the heap
replies: where the block lies that its policy chooses, which holes there are in the list,
the bitmap and the dump, and what is mapped and unmapped. -/
theorem manager_is_heap {wordSize : UInt32} (hpos : 0 < wordSize.toNat) (policy : Policy)
    {calls : List (ManagerCall Policy)}
    (hpermits : Reactions.Within Heap.answer Heap.Permits (Heap.new wordSize.toNat policy)
      calls) :
    ∃ m', Reactions.run MemoryManager.step (new wordSize policy.allocator)
        (calls.map (ManagerCall.map Policy.allocator)) =
          some (m', (Reactions.answers Heap.answer (Heap.new wordSize.toNat policy) calls).2.map
            HeapReply.encode) ∧
      m'.Realizes (Reactions.answers Heap.answer (Heap.new wordSize.toNat policy) calls).1 := by
  have hstart : (new wordSize policy.allocator).Realizes (Heap.new wordSize.toNat policy) :=
    ⟨hpos, rfl, rfl, rfl⟩
  rw [Reactions.run_map]
  exact Reactions.run_of_refinement_within (fun _ _ _ hr hp => hr.step hp) hstart hpermits

/-- A client of two pools. In the first one, of six words of two bytes, it changes to the
longest hole and gives a block back. -/
def sampleClient : List (ManagerCall Policy) :=
  [.getList, .initializePool 6 4096, .allocate 3, .allocate 1, .free (some 4096), .allocate 1,
    .setAllocator .worst, .allocate 2, .getList, .getBitmap, .dumpMemoryMap true,
    .initializePool 4 8192, .allocate 9, .getMemoryLimit, .shutdown]

/-- A client with two pools and both policies, and all that it gets. -/
theorem manager_is_heap_sample :
    ∃ m', Reactions.run MemoryManager.step (new 2 bestFit)
        (sampleClient.map (ManagerCall.map Policy.allocator)) =
          some (m', [.list none, .done [.mmap 14 4096], .address (some 4096),
            .address (some 4100), .done [], .address (some 4096), .done [], .address (some 4102),
            .list (some [2, 1, 1, 4, 2]), .bitmap (some [1, 0, 13]),
            .dumped 0 "[1, 1] - [4, 2]".toList,
            .done [.munmap 4096 14, .mmap 10 8192], .address none, .number 8,
            .done [.munmap 8192 10]]) := by
  have hpermits : Reactions.Within Heap.answer Heap.Permits
      (Heap.new (UInt32.toNat 2) .best) sampleClient := by
    decide
  obtain ⟨m', hrun, -⟩ := manager_is_heap (by decide) .best hpermits
  refine ⟨m', hrun.trans ?_⟩
  congr 2

end Cop4600
