import Cop4600.Policy
import Cop4600.Lifetimes
import Mathlib.Data.List.MinMax
import Mathlib.Data.Prod.Lex

/-!
# Heaps of blocks

What a memory manager is for, without its map: a heap has at most one arena, a range of
words with blocks on it, and hands out blocks from the arena's holes. Which hole it
takes is its policy. A policy comes with an allocator that follows it
(`Policy.follows`); `bestFit` takes the shortest hole that is long enough, `worstFit` the
longest one, and both the first of several (`Policy.best`, `Policy.worst`).
-/

namespace Cop4600

open MaximalRuns MemoryManager

/-! ## Policies -/

/-- The start of the first hole, in the order of this key, that is long enough. -/
def pick {κ : Type} [LinearOrder κ] (key : Nat × Nat → κ) (words : Nat)
    (holes : List (Nat × Nat)) : Option Nat :=
  ((holes.filter fun hole => words ≤ hole.2).argmin key).map Prod.fst

section

variable {κ : Type} [LinearOrder κ] {key : Nat × Nat → κ} {words : Nat}
  {holes : List (Nat × Nat)}

/-- Where all holes are too short, none is picked. -/
theorem pick_eq_none (hshort : ∀ b l, (b, l) ∈ holes → l < words) :
    pick key words holes = none := by
  have hfilter : (holes.filter fun hole => decide (words ≤ hole.2)) = [] := by
    rw [List.filter_eq_nil_iff]
    intro hole hmem
    rw [decide_eq_true_eq, Nat.not_le]
    exact hshort hole.1 hole.2 hmem
  rw [pick, hfilter, List.argmin_nil, Option.map_none]

/-- The hole whose key is the least of those that are long enough is picked. -/
theorem pick_eq_some (hkey : Function.Injective key) {b l : Nat} (hmem : (b, l) ∈ holes)
    (hlong : words ≤ l)
    (hfirst : ∀ hole ∈ holes, words ≤ hole.2 → key (b, l) ≤ key hole) :
    pick key words holes = some b := by
  have hargmin : (holes.filter fun hole => decide (words ≤ hole.2)).argmin key = some (b, l) := by
    refine List.argmin_eq_some_iff.mpr ⟨?_, ?_, ?_⟩
    · exact List.mem_filter.mpr ⟨hmem, decide_eq_true hlong⟩
    · intro hole hhole
      obtain ⟨hhole, hle⟩ := List.mem_filter.mp hhole
      exact hfirst hole hhole (of_decide_eq_true hle)
    · intro hole hhole hle
      obtain ⟨hhole, hfits⟩ := List.mem_filter.mp hhole
      rw [hkey (le_antisymm hle (hfirst hole hhole (of_decide_eq_true hfits)))]
  rw [pick, hargmin, Option.map_some]

/-- What is picked is the start of a hole with room. -/
theorem pick_inHole {b : Nat} (h : pick key words holes = some b) : InHole holes b words := by
  obtain ⟨hole, hargmin, rfl⟩ := Option.map_eq_some_iff.mp h
  obtain ⟨hmem, hle⟩ := List.mem_filter.mp (List.argmin_mem hargmin)
  exact ⟨hole, hmem, Nat.le_refl _, Nat.add_le_add_left (of_decide_eq_true hle) _⟩

end

/-- This answer of an allocator is this choice. -/
def Names (i : Int32) : Option Nat → Prop
  | none => i < 0
  | some b => i = Int32.ofNat b

/-- A way to choose a place for some words, and an allocator that chooses it. -/
structure Policy : Type where
  /-- where a request is to be placed -/
  choose : (words : Nat) → (holes : List (Nat × Nat)) → Option Nat
  /-- it is placed where there is room -/
  inHole : ∀ {words : Nat} {holes : List (Nat × Nat)} {b : Nat},
    choose words holes = some b → InHole holes b words
  /-- the function that answers so -/
  allocator : MemoryAllocator
  /-- as it does about the holes of any pool -/
  follows : ∀ {n words : Nat} (live : List Block), n ≤ 65535 → 0 < words → words < 2 ^ 31 →
    ∃ i, allocator (Int32.ofNat words) (holesList (runs (used live) n)) = some i ∧
      Names i (choose words (runs (used live) n))

/-- The order of `bestFit`: by length, then by start. -/
def shorter (hole : Nat × Nat) : Nat ×ₗ Nat := toLex (hole.2, hole.1)

/-- The order of `worstFit`. -/
def longer (hole : Nat × Nat) : Natᵒᵈ ×ₗ Nat := toLex (OrderDual.toDual hole.2, hole.1)

/-- No two holes are equally short in this order, as ties go by where they begin. -/
theorem shorter_injective : Function.Injective shorter := by
  rintro ⟨b, l⟩ ⟨b', l'⟩ h
  obtain ⟨rfl, rfl⟩ := Prod.mk.inj (toLex.injective h)
  rfl

/-- No two holes are equally long in this order. -/
theorem longer_injective : Function.Injective longer := by
  rintro ⟨b, l⟩ ⟨b', l'⟩ h
  obtain ⟨hl, hb⟩ := Prod.mk.inj (toLex.injective h)
  exact Prod.ext hb (OrderDual.toDual.injective hl)

/-- `bestFit` names the shortest hole that is long enough. -/
theorem bestFit_follows {n words : Nat} (live : List Block) (hn : n ≤ 65535)
    (hwords : words < 2 ^ 31) :
    ∃ i, bestFit (Int32.ofNat words) (holesList (runs (used live) n)) = some i ∧
      Names i (pick shorter words (runs (used live) n)) := by
  have hn' : n < 2 ^ 16 := Nat.lt_succ_of_le hn
  have hnarrow : Narrow (runs (used live) n) := narrow_runs hn'
  have hint : (Int32.ofNat words).toInt = words := intWords_of_lt hwords
  rcases bestFit_cases hnarrow (length_runs_lt hn') (Int32.ofNat words)
    with ⟨hanswer, hshort⟩ | ⟨b, l, hchosen, hanswer⟩
  · refine ⟨-1, hanswer, ?_⟩
    rw [pick_eq_none fun b l hmem => Int.ofNat_lt.mp (hint ▸ hshort b l hmem), Names]
    decide
  · rw [hint] at hchosen
    have hshortest := hchosen.shortest hn'
    refine ⟨Int32.ofNat b, hanswer, ?_⟩
    rw [pick_eq_some shorter_injective (mem_runs.mpr hshortest.isRun) hshortest.fits]
    · rfl
    · intro hole hmem hle
      rw [shorter, shorter, Prod.Lex.toLex_le_toLex]
      exact hshortest.first hole.1 hole.2 (mem_runs.mp hmem) hle

/-- `worstFit` names the longest. -/
theorem worstFit_follows {n words : Nat} (live : List Block) (hn : n ≤ 65535)
    (hwords : words < 2 ^ 31) :
    ∃ i, worstFit (Int32.ofNat words) (holesList (runs (used live) n)) = some i ∧
      Names i (pick longer words (runs (used live) n)) := by
  have hn' : n < 2 ^ 16 := Nat.lt_succ_of_le hn
  have hnarrow : Narrow (runs (used live) n) := narrow_runs hn'
  have hint : (Int32.ofNat words).toInt = words := intWords_of_lt hwords
  have hmin : (Int32.ofNat words).toInt ≠ -2 ^ 31 := by omega
  rcases worstFit_cases hnarrow (length_runs_lt hn') hmin
    with ⟨hanswer, hshort⟩ | ⟨b, l, hchosen, hanswer⟩
  · refine ⟨-1, hanswer, ?_⟩
    rw [pick_eq_none fun b l hmem => Int.ofNat_lt.mp (hint ▸ hshort b l hmem), Names]
    decide
  · rw [hint] at hchosen
    have hlongest := hchosen.longest
    refine ⟨Int32.ofNat b, hanswer, ?_⟩
    rw [pick_eq_some longer_injective (mem_runs.mpr hlongest.isRun) hlongest.fits]
    · rfl
    · intro hole hmem _
      rw [longer, longer, Prod.Lex.toLex_le_toLex]
      rcases hlongest.first hole.1 hole.2 (mem_runs.mp hmem) with hlt | ⟨heq, hle⟩
      · exact Or.inl (OrderDual.toDual_lt_toDual.mpr hlt)
      · exact Or.inr ⟨congrArg OrderDual.toDual heq.symm, hle⟩

namespace Policy

/-- The policy of `bestFit`. -/
def best : Policy where
  choose := pick shorter
  inHole := pick_inHole
  allocator := bestFit
  follows := fun live hn _ hwords => bestFit_follows live hn hwords

/-- The policy of `worstFit`. -/
def worst : Policy where
  choose := pick longer
  inHole := pick_inHole
  allocator := worstFit
  follows := fun live hn _ hwords => worstFit_follows live hn hwords

end Policy

/-! ## Heaps -/

/-- A range of words, the address of its first byte, and the blocks on it. -/
structure Arena : Type where
  /-- its address -/
  start : Nat
  /-- how many words it has -/
  words : Nat
  /-- what has been handed out -/
  blocks : List Block

/-- The holes between the blocks. -/
def Arena.holes (a : Arena) : List (Nat × Nat) := runs (used a.blocks) a.words

/-- A heap with at most one arena. -/
structure Heap : Type where
  /-- the bytes in a word -/
  wordSize : Nat
  /-- how requests are placed -/
  policy : Policy
  /-- the words that there are, if any -/
  arena : Option Arena

/-- What a heap replies. A word is shown by whether it is in use. -/
inductive HeapReply : Type where
  | done (sysCalls : List SysCall)
  | address (address : Option Nat)
  | holes (holes : Option (List (Nat × Nat)))
  | words (inUse : Option (List Bool))
  | dumped (holes : Option (List (Nat × Nat)))
  | number (number : Nat)

namespace Heap

/-- `ceil(size / wordSize)`. -/
def wordsOf (h : Heap) (size : Nat) : Nat := (size + (h.wordSize - 1)) / h.wordSize

/-- The address of a block. -/
def addressOf (h : Heap) (a : Arena) (b : Block) : Nat := a.start + b.start * h.wordSize

/-- The bytes of so many words, and two bits more for every word and one for the end. -/
def mappingLength (h : Heap) (words : Nat) : Nat := words * h.wordSize + (words / 4 + 1)

/-- What is unmapped when the arena is given up. -/
def unmaps (h : Heap) : List SysCall :=
  match h.arena with
  | none => []
  | some a => [.munmap a.start (h.mappingLength a.words)]

/-- A block for so many bytes, at the place that the policy chooses. -/
def allocate (h : Heap) (size : Nat) : Heap × HeapReply :=
  match h.arena with
  | none => (h, .address none)
  | some a =>
    if size = 0 then (h, .address none)
    else
      match h.policy.choose (h.wordsOf size) a.holes with
      | none => (h, .address none)
      | some i =>
        let b : Block := ⟨i, h.wordsOf size⟩
        ({ h with arena := some { a with blocks := b :: a.blocks } },
          .address (some (h.addressOf a b)))

/-- Without the block at this address. -/
def free (h : Heap) (address : Option Nat) : Heap :=
  match h.arena with
  | none => h
  | some a =>
    { h with arena := some { a with
        blocks := a.blocks.filter fun b => some (h.addressOf a b) != address } }

/-- What a heap does at a call, and what it replies. -/
def answer (h : Heap) : ManagerCall Policy → Heap × HeapReply
  | .initializePool sizeInWords mapped =>
    ({ h with arena := some ⟨mapped, sizeInWords.toNat, []⟩ },
      .done (h.unmaps ++ [.mmap (h.mappingLength sizeInWords.toNat) mapped]))
  | .shutdown => ({ h with arena := none }, .done h.unmaps)
  | .allocate size => h.allocate size.toNat
  | .free address => (h.free address, .done [])
  | .setAllocator policy => ({ h with policy }, .done [])
  | .dumpMemoryMap opens => (h, .dumped (if opens then h.arena.map Arena.holes else none))
  | .getList => (h, .holes (h.arena.map Arena.holes))
  | .getBitmap =>
    (h, .words (h.arena.map fun a => (List.range a.words).map fun w => used a.blocks w))
  | .getWordSize => (h, .number h.wordSize)
  | .getMemoryStart => (h, .address (h.arena.map Arena.start))
  | .getMemoryLimit =>
    (h, .number (match h.arena with
      | none => 0
      | some a => a.words * h.wordSize))

/-- Pools of at most 65535 words that 32 bits can count the bytes of, requests for words
that an `int` can count, and frees of blocks. -/
def Permits (h : Heap) : ManagerCall Policy → Prop
  | .initializePool sizeInWords _ =>
    sizeInWords.toNat ≤ 65535 ∧ h.mappingLength sizeInWords.toNat < 2 ^ 32
  | .allocate size => h.wordsOf size.toNat < 2 ^ 31
  | .free address =>
    ∀ a ∈ h.arena, ∀ p ∈ address, ∃ b ∈ a.blocks, h.addressOf a b = p
  | _ => True

instance (h : Heap) : (call : ManagerCall Policy) → Decidable (h.Permits call)
  | .initializePool _ _ => inferInstanceAs (Decidable (_ ∧ _))
  | .allocate _ => inferInstanceAs (Decidable (_ < _))
  | .free address => inferInstanceAs (Decidable
      (∀ a ∈ h.arena, ∀ p ∈ address, ∃ b ∈ a.blocks, h.addressOf a b = p))
  | .shutdown | .setAllocator _ | .dumpMemoryMap _ | .getList | .getBitmap | .getWordSize
  | .getMemoryStart | .getMemoryLimit => isTrue trivial

end Heap

end Cop4600
