import Cop4600.Holes

/-!
# A manager and the blocks in its pool

`MemoryManager.Manages` ties a memory manager to the blocks that its map encodes.
`allocate` refuses, or makes a block of the free words that its allocator names
(`Manages.place`), `free` removes the one whose first word it is given
(`Manages.free_block`), and `initialize` begins with none (`initializePool_manages`).

The address of a block is computed in 32 bits. Here it is left as it is computed:
what becomes of it is a matter of the pool's size in bytes.
-/

namespace Cop4600

open PackedBits MemoryManager MaximalRuns

/-- `ceil(size / wordSize)`. -/
def wordsFor (wordSize : UInt32) (size : UInt64) : Nat :=
  (size.toNat + (wordSize.toNat - 1)) / wordSize.toNat

/-- A small number is not negative as an `int`. -/
theorem not_ofNat_neg {i : Nat} (hi : i < 2 ^ 31) : ¬ Int32.ofNat i < 0 := by
  rw [Int32.lt_iff_toInt_lt, Int32.toInt_ofNat_of_lt hi]
  simp

/-- The words `[i, i + l)` lie inside one of these holes. -/
def InHole (holes : List (Nat × Nat)) (i l : Nat) : Prop :=
  ∃ hole ∈ holes, hole.1 ≤ i ∧ i + l ≤ hole.1 + hole.2

instance (holes : List (Nat × Nat)) (i l : Nat) : Decidable (InHole holes i l) :=
  inferInstanceAs (Decidable (∃ hole ∈ holes, _))

/-- Asked for `words` words, the allocator answers with a negative number or with a
place inside one hole of the list it is given. -/
def MemoryManager.AnswersInHole (m : MemoryManager) (words : Nat) : Prop :=
  ∀ list ∈ m.holeList, ∃ i ∈ m.allocator (Int32.ofNat words) list,
    i < 0 ∨ InHole (listedHoles list) i.toNatClampNeg words

instance (m : MemoryManager) (words : Nat) : Decidable (m.AnswersInHole words) :=
  inferInstanceAs (Decidable (∀ list ∈ m.holeList, ∃ i ∈ m.allocator (Int32.ofNat words) list,
    i < 0 ∨ InHole (listedHoles list) i.toNatClampNeg words))

/-- The index that `free` computes from an address; `none` where it divides by zero or the
index is negative. -/
def MemoryManager.freeIndex (m : MemoryManager) (address : Nat) : Option Nat :=
  match m.pool with
  | none => none
  | some pool =>
    if m.wordSize = 0 then none
    else
      let i := Int32.ofInt (((address : Int) - pool).tdiv m.wordSize.toNat)
      if i < 0 then none else some i.toNatClampNeg

/-- `free` by the index that it works out of the address. -/
theorem MemoryManager.free_eq_freeIndex {m : MemoryManager} {p : Nat} (hpool : m.pool = some p)
    (address : Nat) : m.free (some address) =
      (m.freeIndex address).bind fun i => (clearBlock m.map i).map fun map => { m with map } := by
  unfold MemoryManager.free MemoryManager.freeIndex
  rw [hpool]
  dsimp only
  split
  · rfl
  · split
    · rfl
    · rfl

/-- The manager has a pool of `n` words at `p`, and its map encodes the blocks. -/
structure MemoryManager.Manages (n : Nat) (wordSize : UInt32) (p : Nat) (live : List Block)
    (m : MemoryManager) : Prop where
  /-- no more words than a pool may have -/
  words : n ≤ 65535
  /-- words of this size -/
  wordSize_eq : m.wordSize = wordSize
  /-- as many as were asked for -/
  numWords_eq : m.numWords.toNat = n
  /-- the pool is at this address -/
  pool_eq : m.pool = some p
  /-- the blocks are apart and inside -/
  laid : Laid n live
  /-- the map encodes them -/
  marked : Marked n live m.map

/-! ## Numbers that do not overflow -/

/-- The words for a size, as `allocate` computes them. -/
theorem sizeWords_eq (m : MemoryManager) (hpos : 0 < m.wordSize.toNat) {size : UInt64}
    (hsize : size ≠ 0) : (m.sizeWords size).toNat = wordsFor m.wordSize size := by
  have hone : (1 : UInt64) ≤ size := by
    rw [UInt64.le_iff_toNat_le]
    have hne : size.toNat ≠ 0 := fun h => hsize (UInt64.toNat.inj h)
    exact Nat.pos_of_ne_zero hne
  have hlt := size.toNat_lt
  have hsub : (size - 1).toNat = size.toNat - 1 := UInt64.toNat_sub_of_le _ _ hone
  have hdiv : (size.toNat - 1) / m.wordSize.toNat ≤ size.toNat - 1 := Nat.div_le_self _ _
  have hone' : 1 ≤ size.toNat := UInt64.le_iff_toNat_le.mp hone
  have hceil : size.toNat + (m.wordSize.toNat - 1) = size.toNat - 1 + m.wordSize.toNat := by omega
  rw [sizeWords, UInt64.toNat_add, UInt64.toNat_div, hsub, UInt32.toNat_toUInt64, wordsFor, hceil,
    Nat.add_div_right _ hpos]
  exact Nat.mod_eq_of_lt (by simp only [UInt64.toNat_one]; omega)

/-- A size that is not zero takes a word at least. -/
theorem wordsFor_pos {wordSize : UInt32} (hpos : 0 < wordSize.toNat) {size : UInt64}
    (hsize : size ≠ 0) : 0 < wordsFor wordSize size := by
  have hne : size.toNat ≠ 0 := fun h => hsize (UInt64.toNat.inj h)
  rw [wordsFor]
  exact Nat.div_pos (by omega) hpos

/-- The offset of a word, as 32 bits keep it. -/
theorem toNat_offset (wordSize : UInt32) {i : Nat} (hi : i < 2 ^ 32) :
    (UInt32.ofNat i * wordSize).toNat = i * wordSize.toNat % 2 ^ 32 := by
  rw [UInt32.toNat_mul, UInt32.toNat_ofNat', Nat.mod_eq_of_lt hi]

namespace MemoryManager.Manages

variable {n p : Nat} {wordSize : UInt32} {live : List Block} {m : MemoryManager}

/-- The allocator gets the list of the holes. -/
theorem holeList (h : m.Manages n wordSize p live) :
    m.holeList = some (holesList (runs (used live) n)) :=
  h.marked.holeList h.laid (Nat.lt_of_le_of_lt h.words (by decide)) h.numWords_eq

/-- `getList` returns the list of the holes. -/
theorem getList (h : m.Manages n wordSize p live) :
    m.getList = some (some (holesList (runs (used live) n))) := by
  rw [MemoryManager.getList, h.pool_eq]
  simp only [h.holeList, Option.map_some]

/-- Another allocator finds the same pool. -/
theorem setAllocator (h : m.Manages n wordSize p live) (allocator : MemoryAllocator) :
    (m.setAllocator allocator).Manages n wordSize p live :=
  ⟨h.words, h.wordSize_eq, h.numWords_eq, h.pool_eq, h.laid, h.marked⟩

/-- Another map for other blocks. -/
theorem withMap (h : m.Manages n wordSize p live) {live' : List Block} {map : List UInt8}
    (hlaid : Laid n live') (hmarked : Marked n live' map) :
    { m with map }.Manages n wordSize p live' :=
  ⟨h.words, h.wordSize_eq, h.numWords_eq, h.pool_eq, hlaid, hmarked⟩

/-! ### Allocating -/

/-- The words inside a hole are free, and there are at most `n`. -/
theorem inHole {i l : Nat} (hin : InHole (runs (used live) n) i l) :
    i + l ≤ n ∧ ∀ w, i ≤ w → w < i + l → used live w = false := by
  obtain ⟨⟨b, len⟩, hmem, hlow, hhigh⟩ := hin
  have hrun := mem_runs.mp hmem
  have hle := hrun.le
  exact ⟨by omega, fun w hi hw => hrun.unused w (by omega) (by omega)⟩

/-- Nothing is allocated for the size zero. -/
theorem allocate_zero (h : m.Manages n wordSize p live) : m.allocate 0 = some (none, m) := by
  rw [MemoryManager.allocate, h.pool_eq]
  rfl

/-- `allocate` from the allocator's answer on. -/
theorem allocate_eq (h : m.Manages n wordSize p live) (hpos : 0 < wordSize.toNat)
    {size : UInt64} (hsize : size ≠ 0) :
    m.allocate size =
      (m.allocator (Int32.ofNat (wordsFor wordSize size))
        (holesList (runs (used live) n))).bind fun i =>
          if i < 0 then some (none, m)
          else
            let j := Int32.ofNat (UInt64.ofNat i.toNatClampNeg + m.sizeWords size).toNat
            if j < 0 then none
            else
              (markBlock m.map i.toNatClampNeg j.toNatClampNeg).map fun map =>
                (some (p + (UInt32.ofNat i.toNatClampNeg * m.wordSize).toNat), { m with map }) := by
  have hword : m.wordSize ≠ 0 := by
    rw [h.wordSize_eq]
    rintro rfl
    exact Nat.lt_irrefl 0 hpos
  have hwords : (m.sizeWords size).toNat = wordsFor wordSize size := by
    rw [sizeWords_eq m (by rwa [h.wordSize_eq]) hsize, h.wordSize_eq]
  rw [MemoryManager.allocate, h.pool_eq]
  simp only [if_neg hsize, if_neg hword, h.holeList, Option.bind_some, hwords]

/-- **A place inside a hole becomes a block.** -/
theorem place (h : m.Manages n wordSize p live) (hpos : 0 < wordSize.toNat) {size : UInt64}
    (hsize : size ≠ 0) {i : Int32}
    (hanswer : m.allocator (Int32.ofNat (wordsFor wordSize size))
      (holesList (runs (used live) n)) = some i) (hi : ¬ i < 0)
    (hin : InHole (runs (used live) n) i.toNatClampNeg (wordsFor wordSize size)) :
    Laid n (⟨i.toNatClampNeg, wordsFor wordSize size⟩ :: live) ∧
    ∃ map, Marked n (⟨i.toNatClampNeg, wordsFor wordSize size⟩ :: live) map ∧
      m.allocate size =
        some (some (p + (UInt32.ofNat i.toNatClampNeg * wordSize).toNat), { m with map }) := by
  have hn := h.words
  obtain ⟨hle, hfree⟩ := inHole hin
  have hwords : (m.sizeWords size).toNat = wordsFor wordSize size := by
    rw [sizeWords_eq m (by rwa [h.wordSize_eq]) hsize, h.wordSize_eq]
  have hwpos := wordsFor_pos hpos hsize
  let b : Block := ⟨i.toNatClampNeg, wordsFor wordSize size⟩
  -- `i + size_words` is far below both bounds
  have hsum : (UInt64.ofNat i.toNatClampNeg + m.sizeWords size).toNat = b.stop := by
    rw [UInt64.toNat_add, UInt64.toNat_ofNat', hwords,
      Nat.mod_eq_of_lt (a := i.toNatClampNeg) (by omega)]
    exact Nat.mod_eq_of_lt (by omega)
  have hstop : b.stop < 2 ^ 31 := by
    change i.toNatClampNeg + wordsFor wordSize size < 2 ^ 31
    omega
  have hj := not_ofNat_neg hstop
  obtain ⟨map, hmark, hmarked⟩ := h.marked.markBlock (b := b) hle (Nat.le_add_right _ _)
  refine ⟨h.laid.cons hwpos hle fun w hw => hfree w hw.1 hw.2, map, hmarked, ?_⟩
  rw [h.allocate_eq hpos hsize, hanswer, Option.bind_some, if_neg hi, hsum]
  simp only [if_neg hj, Int32.toNatClampNeg_ofNat_of_lt hstop, h.wordSize_eq]
  rw [hmark]
  rfl

/-! ### Freeing -/

/-- `free` starts at the word that the address belongs to. -/
theorem freeIndex_add (h : m.Manages n wordSize p live) (hpos : 0 < wordSize.toNat) {r : Nat}
    (hr : r / wordSize.toNat < 2 ^ 31) : m.freeIndex (p + r) = some (r / wordSize.toNat) := by
  have hword : wordSize ≠ 0 := by
    rintro rfl
    exact Nat.lt_irrefl 0 hpos
  have hindex : (((p + r : Nat) : Int) - p).tdiv wordSize.toNat = (r / wordSize.toNat : Nat) := by
    have hsub : ((p + r : Nat) : Int) - p = (r : Int) := by omega
    rw [hsub, Int.ofNat_tdiv]
  generalize r / wordSize.toNat = k at hr hindex
  have hi : Int32.ofInt (k : Int) = Int32.ofNat k := Int32.ofInt_eq_ofNat
  rw [freeIndex, h.pool_eq]
  simp only [h.wordSize_eq, if_neg hword, hindex, hi, if_neg (not_ofNat_neg hr),
    Int32.toNatClampNeg_ofNat_of_lt hr]

/-- The address of a block leads back to its first word. -/
theorem freeIndex_block (h : m.Manages n wordSize p live) (hpos : 0 < wordSize.toNat) {b : Block}
    (hb : b ∈ live) : m.freeIndex (p + b.start * wordSize.toNat) = some b.start := by
  have hn := h.words
  have hstart := h.laid.start_lt hb
  have hdiv : b.start * wordSize.toNat / wordSize.toNat = b.start := Nat.mul_div_cancel _ hpos
  rw [h.freeIndex_add hpos (by omega), hdiv]

/-- `free` with the address of a block's first word. -/
theorem free_block (h : m.Manages n wordSize p live) (hpos : 0 < wordSize.toNat) {b : Block}
    (hb : b ∈ live) :
    ∃ map, m.free (some (p + b.start * wordSize.toNat)) = some { m with map } ∧
      Marked n (without live b.start) map := by
  have hn := h.words
  obtain ⟨map, hclear, hmarked⟩ := h.marked.clearBlock h.laid (by omega) hb
  refine ⟨map, ?_, hmarked⟩
  rw [free_eq_freeIndex h.pool_eq, h.freeIndex_block hpos hb, Option.bind_some, hclear]
  rfl

end MemoryManager.Manages

/-! ## A new pool -/

/-- `initialize` succeeds where `mmap` does and the size of pool and map together does
not wrap; otherwise the map would have no byte. -/
theorem initializePool_eq (m : MemoryManager) (mmap : UInt32 → Option Nat)
    {sizeInWords : UInt64} (hn : sizeInWords.toNat ≤ 65535) :
    ∃ map, Marked sizeInWords.toNat [] map ∧
      m.initializePool mmap sizeInWords =
        (mmap (UInt32.ofNat (sizeInWords.toNat * m.wordSize.toNat % 2 ^ 32 +
          (sizeInWords.toNat / 4 + 1)))).bind fun p =>
          if sizeInWords.toNat * m.wordSize.toNat % 2 ^ 32 + (sizeInWords.toNat / 4 + 1) < 2 ^ 32
          then some { m with
            numWords := sizeInWords.toUInt32
            poolSize := sizeInWords.toUInt32 * m.wordSize
            totalSize := sizeInWords.toUInt32 * m.wordSize + (sizeInWords.toUInt32 >>> 2) + 1
            pool := some p
            map }
          else none := by
  have hshut : m.shutdown.wordSize = m.wordSize := by
    rw [shutdown]
    split <;> rfl
  have hallocator : m.shutdown.allocator = m.allocator := by
    rw [shutdown]
    split <;> rfl
  have hnum : sizeInWords.toUInt32.toNat = sizeInWords.toNat := by
    rw [UInt64.toNat_toUInt32]
    exact Nat.mod_eq_of_lt (by omega)
  have hquarter : (sizeInWords.toUInt32 >>> 2).toNat = sizeInWords.toNat / 4 := by
    rw [UInt32.toNat_shiftRight, hnum]
    exact Nat.shiftRight_eq_div_pow _ 2
  have hpool : (sizeInWords.toUInt32 * m.wordSize).toNat =
      sizeInWords.toNat * m.wordSize.toNat % 2 ^ 32 := by
    rw [UInt32.toNat_mul, hnum]
  have htotal : (sizeInWords.toUInt32 * m.wordSize + (sizeInWords.toUInt32 >>> 2) + 1).toNat =
      (sizeInWords.toNat * m.wordSize.toNat % 2 ^ 32 + (sizeInWords.toNat / 4 + 1)) % 2 ^ 32 := by
    rw [UInt32.toNat_add, UInt32.toNat_add, hquarter, hpool, UInt32.toNat_one]
    omega
  have hrequest : sizeInWords.toUInt32 * m.wordSize + (sizeInWords.toUInt32 >>> 2) + 1 =
      UInt32.ofNat (sizeInWords.toNat * m.wordSize.toNat % 2 ^ 32 +
        (sizeInWords.toNat / 4 + 1)) := by
    apply UInt32.toNat.inj
    rw [htotal, UInt32.toNat_ofNat']
  obtain ⟨map, hor, hmarked⟩ := exists_marked_new sizeInWords.toNat
  refine ⟨map, hmarked, ?_⟩
  rw [initializePool, ← hrequest]
  simp only [hshut, hallocator, hnum, htotal, hpool, List.length_replicate]
  have hlt : sizeInWords.toNat * m.wordSize.toNat % 2 ^ 32 < 2 ^ 32 := Nat.mod_lt _ (by decide)
  generalize sizeInWords.toNat * m.wordSize.toNat % 2 ^ 32 = poolSize at hlt ⊢
  rcases mmap (sizeInWords.toUInt32 * m.wordSize + (sizeInWords.toUInt32 >>> 2) + 1) with _ | p
  · rfl
  rw [Option.bind_some]
  by_cases hroom : poolSize + (sizeInWords.toNat / 4 + 1) < 2 ^ 32
  · have hlen : (poolSize + (sizeInWords.toNat / 4 + 1)) % 2 ^ 32 - poolSize =
        sizeInWords.toNat / 4 + 1 := by omega
    simp only [hlen, if_neg (Nat.succ_ne_zero _), if_pos hroom, hor]
    rfl
  · have hlen : (poolSize + (sizeInWords.toNat / 4 + 1)) % 2 ^ 32 - poolSize = 0 := by omega
    simp only [hlen, if_pos, if_neg hroom]

/-- **Where `initialize` has succeeded**, the manager has the pool that `mmap` gave it,
no blocks, and the map behind the pool. -/
theorem initializePool_manages {m m₀ : MemoryManager} {mmap : UInt32 → Option Nat}
    {sizeInWords : UInt64} (hn : sizeInWords.toNat ≤ 65535)
    (hinit : m.initializePool mmap sizeInWords = some m₀) :
    ∃ p, m₀.Manages sizeInWords.toNat m.wordSize p [] ∧ m₀.allocator = m.allocator ∧
      m₀.poolSize.toNat = sizeInWords.toNat * m.wordSize.toNat % 2 ^ 32 := by
  obtain ⟨map, hmarked, heq⟩ := initializePool_eq m mmap hn
  rw [heq] at hinit
  obtain ⟨p, -, hinit⟩ := Option.bind_eq_some_iff.mp hinit
  split at hinit
  · obtain rfl := Option.some.inj hinit
    have hnum : sizeInWords.toUInt32.toNat = sizeInWords.toNat := by
      rw [UInt64.toNat_toUInt32]
      exact Nat.mod_eq_of_lt (by omega)
    refine ⟨p, ⟨hn, rfl, hnum, rfl, Laid.nil, hmarked⟩, rfl, ?_⟩
    rw [UInt32.toNat_mul, hnum]
  · cases hinit

end Cop4600
