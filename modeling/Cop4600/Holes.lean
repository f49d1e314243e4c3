import Cop4600.Marks

/-!
# The list of holes

`getList` walks over the map twice, once to count the holes and once to write them
down. On the map of live blocks it writes their number and then the start and the
length of every maximal free run, in order (`Marked.holeList`); read back, that is
the list of the holes (`listedHoles_holesList`).
-/

namespace Cop4600

open PackedBits MemoryManager MaximalRuns

/-! ## Codes and holes -/

variable {n : Nat} {live : List Block} {map : List UInt8}

/-- No hole is open behind a block. -/
theorem behindBlock_iff_closed {k : Nat} :
    behindBlock live k = true ↔ Closed (used live) k := behindBlock_iff

/-- Inside a hole there is no block in front. -/
theorem not_behindBlock_of_openRun {k b : Nat} (h : OpenRun (used live) k b) :
    behindBlock live k = false := by
  have hlt := h.lt
  rw [Bool.eq_false_iff, Ne, behindBlock_iff]
  rintro (rfl | hused)
  · omega
  · rw [h.unused (k - 1) (by omega) (by omega)] at hused
    cases hused

/-- No block starts at a word that is not in use. -/
theorem Laid.not_starts (h : Laid n live) {k : Nat} (hk : k < n) (hfree : used live k = false) :
    starts n live k = false := by
  rw [Bool.eq_false_iff, Ne, starts_iff]
  rintro (rfl | ⟨b, hb, rfl⟩)
  · omega
  · exact used_eq_false_iff.mp hfree b hb (h.covers_start hb)

/-- Where no hole is open and none starts, the code says nothing about holes. -/
theorem entry_of_closed_used {k : Nat} (hclosed : Closed (used live) k)
    (hk : used live k = true ∨ k = n) : entry n live k ≠ 1 ∧ entry n live k ≠ 2 := by
  have hbehind := behindBlock_iff_closed.mpr hclosed
  have hno : ¬ (k < n ∧ used live k = false ∧ behindBlock live k = true) := by
    rintro ⟨hlt, hfree, -⟩
    rcases hk with hused | rfl
    · rw [hused] at hfree
      cases hfree
    · omega
  rw [entry, if_pos hbehind, if_neg hno]
  split <;> decide

/-- A free word behind a block is marked as the start of a hole. -/
theorem Laid.entry_of_closed_free (h : Laid n live) {k : Nat} (hclosed : Closed (used live) k)
    (hk : k < n) (hfree : used live k = false) : entry n live k = 1 := by
  rw [entry, h.not_starts hk hfree, if_neg Bool.false_ne_true,
    if_pos ⟨hk, hfree, behindBlock_iff_closed.mpr hclosed⟩]

/-- A free word inside a hole is not marked. -/
theorem Laid.entry_of_open_free (h : Laid n live) {k b : Nat} (hopen : OpenRun (used live) k b)
    (hk : k < n) (hfree : used live k = false) : entry n live k = 0 := by
  rw [entry, h.not_starts hk hfree, if_neg Bool.false_ne_true, not_behindBlock_of_openRun hopen]
  simp

/-- A hole ends where a block starts, or with the pool. -/
theorem entry_of_open_used {k b : Nat} (hopen : OpenRun (used live) k b)
    (hk : used live k = true ∨ k = n) : entry n live k = 2 := by
  have hstarts : starts n live k = true := by
    rw [starts_iff]
    refine hk.symm.imp_right fun hused => ?_
    obtain ⟨c, hc, hcovers⟩ := used_iff.mp hused
    refine ⟨c, hc, ?_⟩
    obtain ⟨hlow, hhigh⟩ := hcovers
    have hlt := hopen.lt
    have hfree := hopen.unused (k - 1) (by omega) (by omega)
    by_contra hne
    exact used_eq_false_iff.mp hfree c hc ⟨by omega, by omega⟩
  rw [entry, if_pos hstarts, not_behindBlock_of_openRun hopen, if_neg Bool.false_ne_true]

/-! ## The two loops -/

/-- The entries of some holes in the list. -/
def writeHoles (holes : List (Nat × Nat)) : List UInt16 :=
  holes.flatMap fun (b, l) => [UInt16.ofNat b, UInt16.ofNat l]

/-- A whole list: how many holes there are, then the start and the length of each. -/
def holesList (holes : List (Nat × Nat)) : List UInt16 :=
  UInt16.ofNat holes.length :: writeHoles holes

/-- **The first loop counts the holes**, from a word on at which none is open, and
from one inside a hole that has been counted. -/
theorem Marked.countHoles (hm : Marked n live map) (h : Laid n live) (hn : n < 2 ^ 31) (r : Nat) :
    ∀ {i : Nat} (numHoles : Nat), i + r = n →
      (Closed (used live) i →
        countHoles map r i numHoles = some (numHoles + (runsFrom (used live) i r none).length)) ∧
      ∀ b, OpenRun (used live) i b →
        countHoles map r i (numHoles + 1) =
          some (numHoles + (runsFrom (used live) i r (some b)).length) := by
  induction r with
  | zero =>
    intro i numHoles hi
    exact ⟨fun _ => rfl, fun b _ => rfl⟩
  | succ r ih =>
    intro i numHoles hi
    have htype := hm.typeAt h (k := i) (by omega) (by omega)
    -- an entry is read in four situations: `i` free or used, inside a hole or not
    rcases hused : used live i with _ | _
    · refine ⟨fun hclosed => ?_, fun b hopen => ?_⟩
      · rw [MemoryManager.countHoles, htype, Option.bind_some,
          h.entry_of_closed_free hclosed (by omega) hused, if_pos rfl,
          (ih numHoles (by omega)).2 i (hclosed.open hused), runsFrom, hused]
        rfl
      · rw [MemoryManager.countHoles, htype, Option.bind_some,
          h.entry_of_open_free hopen (by omega) hused, if_neg (by decide),
          (ih numHoles (by omega)).2 b (hopen.extend hused), runsFrom, hused]
        rfl
    · refine ⟨fun hclosed => ?_, fun b hopen => ?_⟩
      · rw [MemoryManager.countHoles, htype, Option.bind_some,
          if_neg (entry_of_closed_used hclosed (Or.inl hused)).1,
          (ih numHoles (by omega)).1 (closed_succ hused), runsFrom, hused]
        rfl
      · rw [MemoryManager.countHoles, htype, Option.bind_some,
          entry_of_open_used hopen (Or.inl hused), if_neg (by decide),
          (ih (numHoles + 1) (by omega)).1 (closed_succ hused), runsFrom, hused, if_pos rfl,
          List.length_cons]
        congr 1
        omega

/-- **The second loop writes the holes down.** -/
theorem Marked.listHoles (hm : Marked n live map) (h : Laid n live) (hn : n < 2 ^ 31)
    {room : Nat} (r : Nat) :
    ∀ {i : Nat} (begin : Option Nat) (list : List UInt16), i + r = n →
      (Closed (used live) i →
        list.length + 2 * (runsFrom (used live) i r none).length ≤ room →
        listHoles map room (r + 1) i begin list =
          some (list ++ writeHoles (runsFrom (used live) i r none))) ∧
      ∀ b, OpenRun (used live) i b →
        list.length + 2 * (runsFrom (used live) i r (some b)).length ≤ room →
        listHoles map room (r + 1) i (some b) (list ++ [UInt16.ofNat b]) =
          some (list ++ writeHoles (runsFrom (used live) i r (some b))) := by
  induction r with
  | zero =>
    intro i begin list hi
    -- the word behind the pool ends an open hole
    obtain rfl : i = n := hi
    have htype := hm.typeAt h (k := i) (by omega) (by omega)
    refine ⟨fun hclosed _ => ?_, fun b hopen hroom => ?_⟩
    · obtain ⟨hne1, hne2⟩ := entry_of_closed_used (n := i) hclosed (Or.inr rfl)
      rw [MemoryManager.listHoles, htype, Option.bind_some, if_neg hne1, if_neg hne2,
        MemoryManager.listHoles, runsFrom]
      simp [writeHoles]
    · rw [runsFrom, List.length_singleton] at hroom
      rw [MemoryManager.listHoles, htype, Option.bind_some, entry_of_open_used hopen (Or.inr rfl),
        if_neg (by decide), if_pos rfl, Option.bind_some, if_pos (by simp; omega),
        MemoryManager.listHoles, runsFrom]
      simp [writeHoles]
  | succ r ih =>
    intro i begin list hi
    have htype := hm.typeAt h (k := i) (by omega) (by omega)
    rcases hused : used live i with _ | _
    · refine ⟨fun hclosed hroom => ?_, fun b hopen hroom => ?_⟩
      · rw [runsFrom, hused, if_neg Bool.false_ne_true] at hroom ⊢
        have hpos : 0 < (runsFrom (used live) (i + 1) r (some i)).length :=
          length_runsFrom_pos i r (i + 1)
        rw [MemoryManager.listHoles, htype, Option.bind_some,
          h.entry_of_closed_free hclosed (by omega) hused, if_pos rfl, if_pos (by omega),
          (ih none list (by omega)).2 i (hclosed.open hused) hroom]
      · rw [runsFrom, hused, if_neg Bool.false_ne_true] at hroom ⊢
        rw [MemoryManager.listHoles, htype, Option.bind_some,
          h.entry_of_open_free hopen (by omega) hused, if_neg (by decide), if_neg (by decide),
          (ih none list (by omega)).2 b (hopen.extend hused) hroom]
    · refine ⟨fun hclosed hroom => ?_, fun b hopen hroom => ?_⟩
      · obtain ⟨hne1, hne2⟩ := entry_of_closed_used (n := n) hclosed (Or.inl hused)
        rw [runsFrom, hused, if_pos rfl] at hroom ⊢
        rw [MemoryManager.listHoles, htype, Option.bind_some, if_neg hne1, if_neg hne2,
          (ih begin list (by omega)).1 (closed_succ hused) hroom]
      · rw [runsFrom, hused, if_pos rfl, List.length_cons] at hroom
        rw [MemoryManager.listHoles, htype, Option.bind_some,
          entry_of_open_used hopen (Or.inl hused), if_neg (by decide), if_pos rfl,
          Option.bind_some, if_pos (by simp; omega),
          (ih (some b) _ (by omega)).1 (closed_succ hused) (by simp; omega), runsFrom, hused,
          if_pos rfl]
        simp [writeHoles]

/-- **The list that is written is the list of the holes.** -/
theorem Marked.holeList {m : MemoryManager} (hm : Marked n live m.map) (h : Laid n live)
    (hn : n < 2 ^ 31) (hnum : m.numWords.toNat = n) :
    m.holeList = some (holesList (runs (used live) n)) := by
  have hcount := (hm.countHoles h hn n (i := 0) 0 (Nat.zero_add n)).1 (Or.inl rfl)
  rw [Nat.zero_add] at hcount
  rw [MemoryManager.holeList, hnum, hcount, Option.bind_some]
  refine (hm.listHoles h hn n (i := 0) none _ (Nat.zero_add n)).1 (Or.inl rfl) ?_
  rw [List.length_singleton]
  omega

/-! ## Reading the list -/

/-- The entries of a list, two by two. -/
def pairs : List UInt16 → List (Nat × Nat)
  | b :: l :: p => (b.toNat, l.toNat) :: pairs p
  | _ => []

/-- The holes a list gives, as many as it says. -/
def listedHoles : List UInt16 → List (Nat × Nat)
  | [] => []
  | count :: p => (pairs p).take count.toNat

/-- Starts and lengths that fit the 16-bit entries. -/
def Narrow (holes : List (Nat × Nat)) : Prop := ∀ b l, (b, l) ∈ holes → b < 2 ^ 16 ∧ l < 2 ^ 16

/-- The holes behind the first one are narrow, too. -/
theorem Narrow.tail {hole : Nat × Nat} {holes : List (Nat × Nat)} (h : Narrow (hole :: holes)) :
    Narrow holes :=
  fun b l hmem => h b l (List.mem_cons_of_mem _ hmem)

/-- What is written as 16-bit numbers is read as it was. -/
theorem pairs_writeHoles {holes : List (Nat × Nat)} (hfit : Narrow holes) :
    pairs (writeHoles holes) = holes := by
  induction holes with
  | nil => rfl
  | cons hole holes ih =>
    obtain ⟨b, l⟩ := hole
    obtain ⟨hb, hl⟩ := hfit b l List.mem_cons_self
    rw [writeHoles, List.flatMap_cons, ← writeHoles]
    change (_, _) :: pairs (writeHoles holes) = _
    rw [ih hfit.tail, UInt16.toNat_ofNat',
      UInt16.toNat_ofNat', Nat.mod_eq_of_lt hb, Nat.mod_eq_of_lt hl]

/-- The holes of a pool have starts and lengths of 16 bits. -/
theorem narrow_runs (hn : n < 2 ^ 16) : Narrow (runs (used live) n) := by
  intro b l hmem
  have hle := (mem_runs.mp hmem).le
  constructor <;> omega

/-- The holes of a pool are so few that their number is one of 16 bits, too. -/
theorem length_runs_lt (hn : n < 2 ^ 16) : (runs (used live) n).length < 2 ^ 16 :=
  Nat.lt_of_le_of_lt (length_runs_le n) hn

/-- Holes of a pool of at most 65535 words survive the way through the list. -/
theorem listedHoles_holesList (hn : n < 2 ^ 16) :
    listedHoles (holesList (runs (used live) n)) = runs (used live) n := by
  rw [holesList, listedHoles, pairs_writeHoles (narrow_runs hn), UInt16.toNat_ofNat',
    Nat.mod_eq_of_lt (length_runs_lt hn), List.take_length]

end Cop4600
