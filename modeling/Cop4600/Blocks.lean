import Cop4600.MaximalRuns
import Mathlib.Data.List.Pairwise

/-!
# Live blocks

The abstract state of a memory pool: which ranges of words are handed out. The
blocks are nonempty, lie below `n` and do not overlap (`Laid`), so a block is known
by any word in it (`Laid.eq_of_covers`). `entry` is the two-bit code that the header
comment of `MemoryManager.cpp` gives to every word.

The free words in between are the holes: the maximal runs of words not in use.
-/

namespace Cop4600

open MaximalRuns

/-- Some words of the pool, next to each other. -/
structure Block : Type where
  start : Nat
  words : Nat
  deriving DecidableEq, Repr

/-- The first word behind the block. -/
def Block.stop (b : Block) : Nat := b.start + b.words

/-- The word is one of the block. -/
def Block.Covers (b : Block) (w : Nat) : Prop := b.start ≤ w ∧ w < b.stop

instance (b : Block) (w : Nat) : Decidable (b.Covers w) := inferInstanceAs (Decidable (_ ∧ _))

/-- One of the two blocks ends before the other starts. -/
def Block.Apart (a b : Block) : Prop := a.stop ≤ b.start ∨ b.stop ≤ a.start

/-- Whether a word belongs to a live block. -/
def used (live : List Block) (w : Nat) : Bool := live.any fun b => decide (b.Covers w)

/-- Whether a block starts at `k`; the end of the pool counts as one. -/
def starts (n : Nat) (live : List Block) (k : Nat) : Bool :=
  k == n || live.any fun b => b.start == k

/-- Whether something stands directly before `k`: a block, or the start of the pool. -/
def behindBlock (live : List Block) (k : Nat) : Bool := k == 0 || used live (k - 1)

/-- Whether a block ends directly before `k`; so does the start of the pool. -/
def ends (live : List Block) (k : Nat) : Bool := k == 0 || live.any fun b => b.stop == k

/-- The code of word `k`: `01` at the start of a hole, `10` at the start of a block
following a hole, `11` at the start of a block following a block, `00` elsewhere. -/
def entry (n : Nat) (live : List Block) (k : Nat) : UInt8 :=
  if starts n live k then if behindBlock live k then 3 else 2
  else if k < n ∧ used live k = false ∧ behindBlock live k then 1
  else 0

/-- The blocks of a pool of `n` words. -/
structure Laid (n : Nat) (live : List Block) : Prop where
  /-- no block is empty -/
  nonempty : ∀ b ∈ live, 0 < b.words
  /-- none goes beyond the pool -/
  inside : ∀ b ∈ live, b.stop ≤ n
  /-- no two of them share a word -/
  apart : live.Pairwise Block.Apart

variable {n : Nat} {live : List Block}

/-! ## Words in use -/

/-- A word is used if a block covers it. -/
theorem used_iff {w : Nat} : used live w = true ↔ ∃ b ∈ live, b.Covers w := by
  simp [used]

/-- A word is free if no block covers it. -/
theorem used_eq_false_iff {w : Nat} : used live w = false ↔ ∀ b ∈ live, ¬ b.Covers w := by
  simp [used]

/-- A block starts at a word, or the pool is over there. -/
theorem starts_iff {k : Nat} : starts n live k = true ↔ k = n ∨ ∃ b ∈ live, b.start = k := by
  simp [starts]

/-- A block stops in front of a word, or the pool begins there. -/
theorem ends_iff {k : Nat} : ends live k = true ↔ k = 0 ∨ ∃ b ∈ live, b.stop = k := by
  simp [ends]

/-- The word in front is used, or there is none. -/
theorem behindBlock_iff {k : Nat} :
    behindBlock live k = true ↔ k = 0 ∨ used live (k - 1) = true := by
  simp [behindBlock]

/-! ## Blocks that do not overlap -/

/-- A word is in one of two such blocks at most. -/
theorem Block.Apart.not_covers {a b : Block} (h : a.Apart b) {w : Nat} (ha : a.Covers w) :
    ¬ b.Covers w := by
  intro hb
  obtain ⟨ha₁, ha₂⟩ := ha
  obtain ⟨hb₁, hb₂⟩ := hb
  rcases h with h | h <;> omega

instance : Std.Symm Block.Apart where
  symm := fun _ _ h => Or.symm h

namespace Laid

/-- No blocks overlap in an empty pool. -/
theorem nil : Laid n [] where
  nonempty := fun b hb => by cases hb
  inside := fun b hb => by cases hb
  apart := .nil

/-- Any two blocks are apart, in whatever order they stand in the list. -/
theorem apart_of_ne (h : Laid n live) {a b : Block} (ha : a ∈ live) (hb : b ∈ live)
    (hne : a ≠ b) : a.Apart b :=
  h.apart.forall ha hb hne

/-- **A block is known by any of its words.** -/
theorem eq_of_covers (h : Laid n live) {a b : Block} (ha : a ∈ live) (hb : b ∈ live) {w : Nat}
    (haw : a.Covers w) (hbw : b.Covers w) : a = b := by
  by_contra hne
  exact (h.apart_of_ne ha hb hne).not_covers haw hbw

/-- A block has a first word, as none is empty. -/
theorem covers_start (h : Laid n live) {b : Block} (hb : b ∈ live) : b.Covers b.start := by
  have := h.nonempty b hb
  exact ⟨Nat.le_refl _, by rw [Block.stop]; omega⟩

/-- A block has a last word. -/
theorem covers_last (h : Laid n live) {b : Block} (hb : b ∈ live) : b.Covers (b.stop - 1) := by
  have := h.nonempty b hb
  constructor <;> rw [Block.stop] <;> omega

/-- A block stops behind where it starts. -/
theorem stop_pos (h : Laid n live) {b : Block} (hb : b ∈ live) : b.start < b.stop := by
  have := h.nonempty b hb
  rw [Block.stop]
  omega

/-- A block starts inside the pool. -/
theorem start_lt (h : Laid n live) {b : Block} (hb : b ∈ live) : b.start < n :=
  Nat.lt_of_lt_of_le (h.stop_pos hb) (h.inside b hb)

/-- Blocks can be taken away from a layout. -/
theorem sublist (h : Laid n live) {live' : List Block} (hs : live'.Sublist live) :
    Laid n live' where
  nonempty := fun b hb => h.nonempty b (hs.subset hb)
  inside := fun b hb => h.inside b (hs.subset hb)
  apart := h.apart.sublist hs

/-- The order in which they are listed does not matter. -/
theorem perm (h : Laid n live) {live' : List Block} (hp : live.Perm live') : Laid n live' where
  nonempty := fun b hb => h.nonempty b (hp.symm.subset hb)
  inside := fun b hb => h.inside b (hp.symm.subset hb)
  apart := hp.pairwise h.apart fun hab => Or.symm hab

/-- A block of unused words can be added. -/
theorem cons (h : Laid n live) {b : Block} (hpos : 0 < b.words) (hle : b.stop ≤ n)
    (hfree : ∀ w, b.Covers w → used live w = false) : Laid n (b :: live) where
  nonempty := List.forall_mem_cons.mpr ⟨hpos, h.nonempty⟩
  inside := List.forall_mem_cons.mpr ⟨hle, h.inside⟩
  apart := by
    refine List.pairwise_cons.mpr ⟨fun c hc => ?_, h.apart⟩
    have hcpos := h.stop_pos hc
    -- the later of the two starts would be a word of both
    by_contra hover
    have hstop : b.stop = b.start + b.words := rfl
    have hb : b.Covers (max b.start c.start) := by
      constructor <;> simp only [Block.Apart] at hover <;> omega
    have hc' : c.Covers (max b.start c.start) := by
      constructor <;> simp only [Block.Apart] at hover <;> omega
    exact used_eq_false_iff.mp (hfree _ hb) c hc hc'

/-- The words of one block are not used by the others. -/
theorem unused_of_covers {b : Block} (h : Laid n (b :: live)) {w : Nat} (hw : b.Covers w) :
    used live w = false :=
  used_eq_false_iff.mpr fun _ hc => (List.rel_of_pairwise_cons h.apart hc).not_covers hw

/-! ## The code of a word -/

/-- Where a block starts, another one ends exactly if it stands directly before. -/
theorem ends_of_starts (h : Laid n live) {k : Nat} (hk : starts n live k = true) :
    ends live k = behindBlock live k := by
  rw [Bool.eq_iff_iff, ends_iff, behindBlock_iff]
  refine or_congr_right' fun hk0 => ⟨fun ⟨b, hb, hstop⟩ => ?_, fun hused => ?_⟩
  · exact used_iff.mpr ⟨b, hb, hstop ▸ h.covers_last hb⟩
  · obtain ⟨b, hb, hcovers⟩ := used_iff.mp hused
    refine ⟨b, hb, ?_⟩
    have hle := h.inside b hb
    obtain ⟨hlow, hhigh⟩ := id hcovers
    -- a block that went on would reach into the one that starts here, or past the pool
    rcases starts_iff.mp hk with rfl | ⟨c, hc, rfl⟩
    · omega
    · by_contra hgoes
      obtain rfl : b = c :=
        h.eq_of_covers hb hc (w := c.start) ⟨by omega, by omega⟩ (h.covers_start hc)
      omega

/-- Where no block starts, one ends exactly if a hole starts. -/
theorem ends_of_not_starts (h : Laid n live) {k : Nat} (hk : starts n live k = false) :
    ends live k = true ↔ k < n ∧ used live k = false ∧ behindBlock live k = true := by
  have hkn : k ≠ n ∧ ∀ b ∈ live, b.start ≠ k := by
    simpa [starts] using hk
  rw [ends_iff, behindBlock_iff]
  refine ⟨?_, ?_⟩
  · intro hends
    have hlt : k < n ∨ k = 0 := by
      rcases hends with rfl | ⟨b, hb, rfl⟩
      · exact Or.inr rfl
      · exact Or.inl (Nat.lt_of_le_of_ne (h.inside b hb) hkn.1)
    have hfree : used live k = false := by
      -- a block over `k` does not start there, so it holds the last word of the one that ends
      rw [used_eq_false_iff]
      intro c hc hcovers
      obtain ⟨hlow, hhigh⟩ := id hcovers
      have hne := hkn.2 c hc
      rcases hends with rfl | ⟨b, hb, hstop⟩
      · omega
      · obtain rfl : b = c := by
          refine h.eq_of_covers hb hc (w := k - 1) (hstop ▸ h.covers_last hb) ⟨?_, ?_⟩ <;> omega
        omega
    refine ⟨by omega, hfree, hends.imp_right fun ⟨b, hb, hstop⟩ => ?_⟩
    exact used_iff.mpr ⟨b, hb, hstop ▸ h.covers_last hb⟩
  · rintro ⟨-, hfree, hbehind⟩
    refine hbehind.imp_right fun hused => ?_
    obtain ⟨b, hb, hcovers⟩ := used_iff.mp hused
    refine ⟨b, hb, ?_⟩
    by_contra hgoes
    obtain ⟨hlow, hhigh⟩ := hcovers
    exact used_eq_false_iff.mp hfree b hb ⟨by omega, by omega⟩

/-- **The code, bit by bit**: the upper bit says where blocks start, the lower one
where they end. -/
theorem entry_eq (h : Laid n live) (k : Nat) :
    entry n live k = UInt8.ofNat ((ends live k).toNat + 2 * (starts n live k).toNat) := by
  rw [entry]
  rcases hs : starts n live k with _ | _
  · have hends := h.ends_of_not_starts hs
    rw [if_neg Bool.false_ne_true]
    split
    · next hhole => rw [hends.mpr hhole]; rfl
    · next hno =>
      rw [Bool.eq_false_iff.mpr (fun hend => hno (hends.mp hend))]
      rfl
  · rw [h.ends_of_starts hs, if_pos rfl]
    cases behindBlock live k <;> rfl

end Laid

end Cop4600
