import Cop4600.MemoryManager
import Cop4600.Blocks

/-!
# The marks of the live blocks

Of the two bits of a word, the upper one marks the starts of blocks and the lower
one their ends (`Marked`). `allocate` sets one bit of each kind, `free` clears one
of each, and so the marks follow the live blocks (`Marked.markBlock`,
`Marked.clearBlock`); `Laid.entry_eq` turns them into the code of the header
comment (`Marked.typeAt`).
-/

namespace Cop4600

open PackedBits MemoryManager

/-! ## Bits of an entry -/

/-- The entry of a word is two bits, of which a byte has four. -/
theorem shamt_eq (i : Nat) : shamt i = 2 * (i % 4) := by
  rw [shamt, Nat.and_two_pow_sub_one_eq_mod i 2, Nat.shiftLeft_eq]
  omega

/-- The byte it is in. -/
theorem index_eq (i : Nat) : i >>> 2 = i / 4 := Nat.shiftRight_eq_div_pow i 2

/-- The mask of one of the two bits. -/
theorem testBit_entryMask {s : Nat} (hs : s < 2) (i p : Nat) :
    (decide (p / 8 = i / 4) && (UInt8.ofNat (2 ^ s <<< shamt i)).toNat.testBit (p % 8)) =
      decide (p = 2 * i + s) := by
  have hmask : 2 ^ s <<< shamt i = 2 ^ (s + shamt i) := by
    rw [Nat.shiftLeft_eq, Nat.pow_add]
  have hlt : s + shamt i < 8 := by
    rw [shamt_eq]
    omega
  rw [hmask, testBit_mask hlt, shamt_eq, Bool.eq_iff_iff]
  simp only [Bool.and_eq_true, decide_eq_true_eq]
  omega

variable {map : List UInt8} {i : Nat}

/-- An entry is read from its two bits. -/
theorem typeAt_eq (hi : i < 2 ^ 31) (hlen : i / 4 < map.length) :
    typeAt map i =
      some (UInt8.ofNat ((bit map (2 * i)).toNat + 2 * (bit map (2 * i + 1)).toNat)) := by
  have hget : map[i / 4]? = some map[i / 4] := List.getElem?_eq_getElem hlen
  have hlow : bit map (2 * i) = map[i / 4].toNat.testBit (2 * (i % 4)) := by
    rw [bit_of_getElem? (b := map[i / 4]) (by rw [← hget]; congr 1; omega)]
    congr 1
    omega
  have hhigh : bit map (2 * i + 1) = map[i / 4].toNat.testBit (2 * (i % 4) + 1) := by
    rw [bit_of_getElem? (b := map[i / 4]) (by rw [← hget]; congr 1; omega)]
    congr 1
    omega
  have hshift : (UInt8.ofNat (shamt i)).toNat = 2 * (i % 4) := by
    rw [shamt_eq, UInt8.toNat_ofNat', Nat.mod_eq_of_lt (by omega)]
  rw [typeAt, if_pos hi, index_eq, hget, Option.map_some, hlow, hhigh, ← twoBits_eq]
  congr 1
  apply UInt8.toNat.inj
  have hle : map[i / 4].toNat >>> (2 * (i % 4)) &&& 3 ≤ 3 := Nat.and_le_right
  rw [UInt8.toNat_and, UInt8.toNat_shiftRight, hshift, UInt8.toNat_ofNat',
    Nat.mod_eq_of_lt (a := 2 * (i % 4)) (by omega)]
  exact (Nat.mod_eq_of_lt (Nat.lt_of_le_of_lt hle (by decide))).symm

/-- Setting one of the two bits. -/
theorem exists_orEntry (map : List UInt8) (i : Nat) {s : Nat} (hs : s < 2)
    (hlen : i / 4 < map.length) :
    ∃ map', orEntry map (2 ^ s) i = some map' ∧ map'.length = map.length ∧
      ∀ p, bit map' p = (bit map p || decide (p = 2 * i + s)) := by
  refine ⟨_, if_pos (by rwa [index_eq]), length_orAt _ _ _, fun p => ?_⟩
  rw [index_eq, bit_orAt hlen, testBit_entryMask hs]

/-- Clearing one of the two bits. -/
theorem exists_clearEntry (map : List UInt8) (i : Nat) {s : Nat} (hs : s < 2)
    (hlen : i / 4 < map.length) :
    ∃ map', clearEntry map (2 ^ s) i = some map' ∧ map'.length = map.length ∧
      ∀ p, bit map' p = (bit map p && !decide (p = 2 * i + s)) := by
  refine ⟨_, if_pos (by rwa [index_eq]), length_andNotAt _ _ _, fun p => ?_⟩
  rw [index_eq, bit_andNotAt, testBit_entryMask hs]

/-- The bit that the loop of `free` looks for. -/
theorem and_lowMask_ne_zero {b : UInt8} (hget : map[i / 4]? = some b) :
    b &&& UInt8.ofNat (1 <<< shamt i) ≠ 0 ↔ bit map (2 * i) = true := by
  have hdiv : 2 * i / 8 = i / 4 := by omega
  have hmod : 2 * i % 8 = shamt i := by
    rw [shamt_eq]
    omega
  rw [bit_of_getElem? (b := b) (by rw [hdiv, hget]), hmod, Nat.shiftLeft_eq, Nat.one_mul]
  exact and_mask_ne_zero (by rw [shamt_eq]; omega) b

/-! ## The marks -/

/-- The map of a pool of `n` words marks the starts and the ends of these blocks. -/
structure Marked (n : Nat) (live : List Block) (map : List UInt8) : Prop where
  /-- four entries a byte, and one entry more than there are words -/
  length : map.length = n / 4 + 1
  /-- the lower bit of an entry says that a block ends in front of it -/
  low : ∀ k, bit map (2 * k) = ends live k
  /-- the higher one that a block starts there -/
  high : ∀ k, bit map (2 * k + 1) = starts n live k

variable {n : Nat} {live : List Block}

/-- A new block adds one start. -/
theorem starts_cons (b : Block) (k : Nat) :
    starts n (b :: live) k = (starts n live k || decide (k = b.start)) := by
  rw [Bool.eq_iff_iff, Bool.or_eq_true, starts_iff, starts_iff, List.exists_mem_cons_iff,
    decide_eq_true_eq, or_left_comm, or_comm, eq_comm (a := k) (b := b.start)]

/-- A new block adds one end. -/
theorem ends_cons (b : Block) (k : Nat) :
    ends (b :: live) k = (ends live k || decide (k = b.stop)) := by
  rw [Bool.eq_iff_iff, Bool.or_eq_true, ends_iff, ends_iff, List.exists_mem_cons_iff,
    decide_eq_true_eq, or_left_comm, or_comm, eq_comm (a := k) (b := b.stop)]

/-- The live blocks without the one that starts at `i`. -/
def without (live : List Block) (i : Nat) : List Block := live.filter fun b => b.start != i

/-- Blocks without one of them are still laid out. -/
theorem Laid.without (h : Laid n live) (i : Nat) : Laid n (without live i) :=
  h.sublist List.filter_sublist

/-- All blocks stay that start elsewhere. -/
theorem mem_without {b : Block} {i : Nat} : b ∈ without live i ↔ b ∈ live ∧ b.start ≠ i := by
  rw [without, List.mem_filter, bne_iff_ne]

/-- A live block is the only one that starts where it does. -/
theorem Laid.eq_of_start (h : Laid n live) {b c : Block} (hb : b ∈ live) (hc : c ∈ live)
    (heq : c.start = b.start) : c = b :=
  h.eq_of_covers hc hb (w := b.start) (heq ▸ h.covers_start hc) (h.covers_start hb)

/-- A live block is the only one that ends where it does. -/
theorem Laid.eq_of_stop (h : Laid n live) {b c : Block} (hb : b ∈ live) (hc : c ∈ live)
    (heq : c.stop = b.stop) : c = b :=
  h.eq_of_covers hc hb (w := b.stop - 1) (heq ▸ h.covers_last hc) (h.covers_last hb)

/-- No other block starts where the first one does. -/
theorem Laid.start_ne {b c : Block} (h : Laid n (b :: live)) (hc : c ∈ live) :
    c.start ≠ b.start := by
  intro heq
  have hapart := List.rel_of_pairwise_cons h.apart hc
  have hb := h.covers_start List.mem_cons_self
  refine hapart.not_covers hb ?_
  rw [← heq]
  exact h.covers_start (List.mem_cons_of_mem _ hc)

/-- Without the block that was added there are those from before. -/
theorem mem_without_cons {b c : Block} (h : Laid n (b :: live)) :
    c ∈ without (b :: live) b.start ↔ c ∈ live := by
  rw [mem_without, List.mem_cons]
  refine ⟨?_, fun hc => ⟨Or.inr hc, h.start_ne hc⟩⟩
  rintro ⟨rfl | hc, hne⟩
  · exact absurd rfl hne
  · exact hc

/-- A block that goes takes its start along. -/
theorem starts_without (h : Laid n live) {b : Block} (hb : b ∈ live) (k : Nat) :
    starts n (without live b.start) k = (starts n live k && !decide (k = b.start)) := by
  have hlt := h.start_lt hb
  rw [Bool.eq_iff_iff, Bool.and_eq_true, starts_iff, starts_iff, Bool.not_eq_true',
    decide_eq_false_iff_not]
  refine ⟨?_, ?_⟩
  · rintro (rfl | ⟨c, hc, rfl⟩)
    · exact ⟨Or.inl rfl, by omega⟩
    · obtain ⟨hmem, hne⟩ := mem_without.mp hc
      exact ⟨Or.inr ⟨c, hmem, rfl⟩, hne⟩
  · rintro ⟨rfl | ⟨c, hc, rfl⟩, hne⟩
    · exact Or.inl rfl
    · exact Or.inr ⟨c, mem_without.mpr ⟨hc, hne⟩, rfl⟩

/-- A block that goes takes its end along. -/
theorem ends_without (h : Laid n live) {b : Block} (hb : b ∈ live) (k : Nat) :
    ends (without live b.start) k = (ends live k && !decide (k = b.stop)) := by
  have hpos := h.stop_pos hb
  rw [Bool.eq_iff_iff, Bool.and_eq_true, ends_iff, ends_iff, Bool.not_eq_true',
    decide_eq_false_iff_not]
  refine ⟨?_, ?_⟩
  · rintro (rfl | ⟨c, hc, rfl⟩)
    · exact ⟨Or.inl rfl, by omega⟩
    · obtain ⟨hmem, hne⟩ := mem_without.mp hc
      exact ⟨Or.inr ⟨c, hmem, rfl⟩, fun heq => hne (by rw [h.eq_of_stop hb hmem heq])⟩
  · rintro ⟨rfl | ⟨c, hc, rfl⟩, hne⟩
    · exact Or.inl rfl
    · refine Or.inr ⟨c, mem_without.mpr ⟨hc, fun heq => hne ?_⟩, rfl⟩
      rw [h.eq_of_start hb hc heq]

/-- **The entries of a marked map are the codes of its words.** -/
theorem Marked.typeAt (hm : Marked n live map) (h : Laid n live) {k : Nat}
    (hk : k / 4 ≤ n / 4) (hint : k < 2 ^ 31) : typeAt map k = some (entry n live k) := by
  rw [typeAt_eq hint (by rw [hm.length]; omega), hm.low, hm.high, h.entry_eq]

/-- **The map is a function of the set of live blocks.** -/
theorem Marked.map_eq {live' : List Block} {map' : List UInt8} (hm : Marked n live map)
    (hm' : Marked n live' map') (hsame : ∀ b, b ∈ live ↔ b ∈ live') : map = map' := by
  have hends : ∀ k, ends live k = ends live' k := fun k => by
    rw [Bool.eq_iff_iff, ends_iff, ends_iff]
    simp only [hsame]
  have hstarts : ∀ k, starts n live k = starts n live' k := fun k => by
    rw [Bool.eq_iff_iff, starts_iff, starts_iff]
    simp only [hsame]
  apply eq_of_bits
  · rw [hm.length, hm'.length]
  · intro p
    obtain ⟨k, rfl | rfl⟩ : ∃ k, p = 2 * k ∨ p = 2 * k + 1 := ⟨p / 2, by omega⟩
    · rw [hm.low, hm'.low, hends]
    · rw [hm.high, hm'.high, hstarts]

/-! ## The map of a new pool -/

/-- In a map of zeros no bit is set. -/
theorem bit_replicate_zero (l p : Nat) : bit (List.replicate l 0) p = false := by
  rw [bit, List.getElem?_replicate]
  split
  · rfl
  · next b hb =>
    split at hb
    · cases hb
      exact Nat.zero_testBit _
    · cases hb

/-- `map[0] = 1; map[num_words >> 2] |= 2 << shamt(num_words);` on zeroed memory. -/
theorem exists_marked_new (n : Nat) :
    ∃ map, orEntry ((List.replicate (n / 4 + 1) 0).set 0 1) 2 n = some map ∧ Marked n [] map := by
  have hset : (List.replicate (n / 4 + 1) (0 : UInt8)).set 0 1 =
      orAt (List.replicate (n / 4 + 1) 0) 0 (UInt8.ofNat (2 ^ 0)) := by
    rw [orAt, List.replicate_succ]
    rfl
  obtain ⟨map, hor, hlen, hbit⟩ :=
    exists_orEntry ((List.replicate (n / 4 + 1) (0 : UInt8)).set 0 1) n
    (s := 1) (by decide) (by simp)
  have hbits : ∀ p, bit map p = (decide (p = 0) || decide (p = 2 * n + 1)) := by
    intro p
    rw [hbit, hset, bit_orAt (by simp), bit_replicate_zero, testBit_mask (by decide), Bool.false_or]
    congr 1
    rw [Bool.eq_iff_iff]
    simp only [Bool.and_eq_true, decide_eq_true_eq]
    omega
  refine ⟨map, hor, ⟨by rw [hlen]; simp, fun k => ?_, fun k => ?_⟩⟩
  · rw [hbits, Bool.eq_iff_iff, ends_iff]
    simp
    omega
  · rw [hbits, Bool.eq_iff_iff, starts_iff]
    simp

/-! ## `allocate` and `free` -/

/-- The two stores of `allocate` mark one more block. -/
theorem Marked.markBlock (hm : Marked n live map) {b : Block} (hle : b.stop ≤ n)
    (hpos : b.start ≤ b.stop) :
    ∃ map', markBlock map b.start b.stop = some map' ∧ Marked n (b :: live) map' := by
  have hlen := hm.length
  obtain ⟨map₁, hor₁, hlen₁, hbit₁⟩ :=
    exists_orEntry map b.start (s := 1) (by decide) (by omega)
  obtain ⟨map₂, hor₂, hlen₂, hbit₂⟩ :=
    exists_orEntry map₁ b.stop (s := 0) (by decide) (by omega)
  refine ⟨map₂, ?_, by rw [hlen₂, hlen₁, hlen], fun k => ?_, fun k => ?_⟩
  · rw [MemoryManager.markBlock, show orEntry map 2 b.start = some map₁ from hor₁, Option.bind_some]
    exact hor₂
  · have hne : 2 * k ≠ 2 * b.start + 1 := by omega
    have hsame : 2 * k = 2 * b.stop + 0 ↔ k = b.stop := by omega
    rw [hbit₂, hbit₁, hm.low, ends_cons, decide_eq_false hne, Bool.or_false,
      decide_eq_decide.mpr hsame]
  · have hne : 2 * k + 1 ≠ 2 * b.stop + 0 := by omega
    have hsame : 2 * k + 1 = 2 * b.start + 1 ↔ k = b.start := by omega
    rw [hbit₂, hbit₁, hm.high, starts_cons, decide_eq_false hne, Bool.or_false,
      decide_eq_decide.mpr hsame]

/-- The loop of `free` stops at the next end of a block. -/
theorem scan_eq {j : Nat} (hint : j < 2 ^ 31) (hlen : j / 4 < map.length)
    (hj : bit map (2 * j) = true) (d : Nat) :
    ∀ {i : Nat}, i + d + 1 = j → (∀ k, i < k → k < j → bit map (2 * k) = false) →
      scan map i = some j := by
  induction d with
  | zero =>
    intro i hij hbetween
    obtain rfl : i + 1 = j := hij
    have hget : map[(i + 1) / 4]? = some map[(i + 1) / 4] := List.getElem?_eq_getElem hlen
    rw [scan]
    split
    · next hnone =>
      rw [index_eq, hget] at hnone
      cases hnone
    · next b hb =>
      rw [index_eq] at hb
      rw [if_pos hint, if_pos ((and_lowMask_ne_zero hb).mpr hj)]
  | succ d ih =>
    intro i hij hbetween
    have hlen' : (i + 1) / 4 < map.length := by omega
    have hget : map[(i + 1) / 4]? = some map[(i + 1) / 4] := List.getElem?_eq_getElem hlen'
    have hlow : bit map (2 * (i + 1)) = false := hbetween (i + 1) (by omega) (by omega)
    rw [scan]
    split
    · next hnone =>
      rw [index_eq, hget] at hnone
      cases hnone
    · next b hb =>
      rw [index_eq] at hb
      have hgoes : ¬ b &&& UInt8.ofNat (1 <<< shamt (i + 1)) ≠ 0 := fun hne => by
        rw [(and_lowMask_ne_zero hb).mp hne] at hlow
        cases hlow
      rw [if_pos (by omega), if_neg hgoes]
      exact ih (by omega) fun k hik hkj => hbetween k (by omega) hkj

/-- **The loop of `free` stops at the end of the block**: of all ends of blocks, the first
one behind the block's start is its own. -/
theorem Marked.scan_block (hm : Marked n live map) (h : Laid n live) (hn : n < 2 ^ 31)
    {b : Block} (hb : b ∈ live) :
    ∃ map₁, clearEntry map 2 b.start = some map₁ ∧ map₁.length = map.length ∧
      (∀ p, bit map₁ p = (bit map p && !decide (p = 2 * b.start + 1))) ∧
      (∀ k, bit map₁ (2 * k) = ends live k) ∧ scan map₁ b.start = some b.stop := by
  have hlen := hm.length
  have hpos := h.stop_pos hb
  have hle := h.inside b hb
  obtain ⟨map₁, hclear₁, hlen₁, hbit₁⟩ :=
    exists_clearEntry map b.start (s := 1) (by decide) (by omega)
  have hlow₁ : ∀ k, bit map₁ (2 * k) = ends live k := fun k => by
    have hne : 2 * k ≠ 2 * b.start + 1 := by omega
    rw [hbit₁, hm.low, decide_eq_false hne, Bool.not_false, Bool.and_true]
  -- a block that ended inside `b` would share its last word with it
  have hbetween : ∀ k, b.start < k → k < b.stop → bit map₁ (2 * k) = false := by
    intro k hlow hhigh
    rw [hlow₁, Bool.eq_false_iff]
    intro hend
    rcases ends_iff.mp hend with rfl | ⟨c, hc, rfl⟩
    · omega
    · obtain rfl : c = b := by
        refine h.eq_of_covers hc hb (w := c.stop - 1) (h.covers_last hc) ⟨?_, ?_⟩ <;> omega
      omega
  refine ⟨map₁, hclear₁, hlen₁, hbit₁, hlow₁, ?_⟩
  refine scan_eq (by omega) (by omega) ?_ (b.stop - b.start - 1) (by omega) hbetween
  rw [hlow₁]
  exact ends_iff.mpr (Or.inr ⟨b, hb, rfl⟩)

/-- **The two stores of `free` unmark the block that starts at the given word.** -/
theorem Marked.clearBlock (hm : Marked n live map) (h : Laid n live) (hn : n < 2 ^ 31)
    {b : Block} (hb : b ∈ live) :
    ∃ map', clearBlock map b.start = some map' ∧ Marked n (without live b.start) map' := by
  have hlen := hm.length
  have hle := h.inside b hb
  obtain ⟨map₁, hclear₁, hlen₁, hbit₁, hlow₁, hscan⟩ := hm.scan_block h hn hb
  obtain ⟨map₂, hclear₂, hlen₂, hbit₂⟩ :=
    exists_clearEntry map₁ b.stop (s := 0) (by decide) (by omega)
  refine ⟨map₂, ?_, by rw [hlen₂, hlen₁, hlen], fun k => ?_, fun k => ?_⟩
  · rw [MemoryManager.clearBlock, hclear₁, Option.bind_some, hscan, Option.bind_some]
    exact hclear₂
  · have hsame : 2 * k = 2 * b.stop + 0 ↔ k = b.stop := by omega
    rw [hbit₂, hlow₁, ends_without h hb, decide_eq_decide.mpr hsame]
  · have hne : 2 * k + 1 ≠ 2 * b.stop + 0 := by omega
    have hsame : 2 * k + 1 = 2 * b.start + 1 ↔ k = b.start := by omega
    rw [hbit₂, hbit₁, hm.high, starts_without h hb, decide_eq_false hne, Bool.not_false,
      Bool.and_true, decide_eq_decide.mpr hsame]

end Cop4600
