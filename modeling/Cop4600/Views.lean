import Cop4600.Wrapping
import Mathlib.Data.Nat.Digits.Defs

/-!
# The three views of free space

`getList`, `getBitmap` and `dumpMemoryMap` each tell a client which words are free.
The list and the dump are written from the starts of the holes, the bitmap from a scan
that carries along whether it is inside a block (`Marked.fillBitmap`). For the map of a
sound ledger they agree about the runs of free words (`Ledger.Sound.viewsAgree`). Once
a block has been given back under a wrapped address they do not: `getList` then writes
past the end of its array (`views_agree_iff`).
-/

namespace Cop4600

open PackedBits MemoryManager MaximalRuns PartialRuns

/-! ## What the views show -/

/-- `getList` returns the number of these holes and then the start and the length of
each. Its array has no room for more than was written. -/
def MemoryManager.ListShows (m : MemoryManager) (holes : List (Nat × Nat)) : Prop :=
  ∃ list, m.getList = some (some list) ∧
    countHoles m.map m.numWords.toNat 0 0 = some holes.length ∧
    list.length = 1 + holes.length * 2 ∧
    list.map UInt16.toNat = holes.length :: holes.flatMap fun (b, l) => [b, l]

/-- `getBitmap` returns the number of bytes that the words take, as two bytes, and then
these; a bit is set where a word is in no hole. -/
def MemoryManager.BitmapShows (m : MemoryManager) (holes : List (Nat × Nat)) : Prop :=
  ∃ bytes, m.getBitmap = some (some (
      UInt8.ofNat ((m.numWords.toNat + 7) / 8 % 256) ::
        UInt8.ofNat ((m.numWords.toNat + 7) / 8 / 256) :: bytes)) ∧
    bytes.length = (m.numWords.toNat + 7) / 8 ∧
    ∀ i, i < 8 * bytes.length → (bit bytes i = true ↔
      i < m.numWords.toNat ∧ ∀ hole ∈ holes, ¬ (hole.1 ≤ i ∧ i < hole.1 + hole.2))

/-- `[offset, length]`. -/
def bracketed (hole : Nat × Nat) : List Char :=
  ['['] ++ Nat.toDigits 10 hole.1 ++ [',', ' '] ++ Nat.toDigits 10 hole.2 ++ [']']

/-- `dumpMemoryMap` succeeds and writes these holes, joined by `" - "`. -/
def MemoryManager.DumpShows (m : MemoryManager) (holes : List (Nat × Nat)) : Prop :=
  ∃ written, m.dumpMemoryMap true = some (0, written) ∧
    written.flatten = [' ', '-', ' '].intercalate (holes.map bracketed)

/-- All three show the maximal runs of free words, in order and with a block between any
two of them. -/
def Ledger.ViewsAgree (l : Ledger) : Prop :=
  ∃ holes : List (Nat × Nat),
    (∀ b r, (b, r) ∈ holes ↔ IsRun (used l.live) l.manager.numWords.toNat b r) ∧
    holes.Pairwise (fun g h => g.1 + g.2 < h.1) ∧
    l.manager.ListShows holes ∧ l.manager.BitmapShows holes ∧ l.manager.DumpShows holes

section

variable {n p : Nat} {wordSize : UInt32} {live : List Block} {map : List UInt8}
  {m : MemoryManager} {l : Ledger}

/-! ## The list -/

theorem map_toNat_holesList {holes : List (Nat × Nat)} (hfit : Narrow holes)
    (hlen : holes.length < 2 ^ 16) :
    (holesList holes).map UInt16.toNat = holes.length :: holes.flatMap fun (b, l) => [b, l] := by
  rw [holesList, List.map_cons, UInt16.toNat_ofNat', Nat.mod_eq_of_lt hlen]
  congr 1
  clear hlen
  induction holes with
  | nil => rfl
  | cons hole holes ih =>
    obtain ⟨b, l⟩ := hole
    obtain ⟨hb, hl⟩ := hfit b l List.mem_cons_self
    rw [writeHoles, List.flatMap_cons, List.map_append, ← writeHoles, ih hfit.tail]
    simp only [List.map_cons, List.map_nil, UInt16.toNat_ofNat', Nat.mod_eq_of_lt hb,
      Nat.mod_eq_of_lt hl, List.flatMap_cons]

theorem length_holesList (holes : List (Nat × Nat)) :
    (holesList holes).length = 1 + holes.length * 2 := by
  have hpairs : (writeHoles holes).length = holes.length * 2 := by
    rw [writeHoles, List.length_flatMap]
    simp
  rw [holesList, List.length_cons, hpairs, Nat.add_comm]

theorem MemoryManager.Manages.listShows (h : m.Manages n wordSize p live) :
    m.ListShows (runs (used live) n) := by
  have hn := h.words
  have hcount := (h.marked.countHoles h.laid (by omega) n (i := 0) 0 (Nat.zero_add n)).1
    (Or.inl rfl)
  refine ⟨_, h.getList, ?_, length_holesList _, ?_⟩
  · rw [h.numWords_eq, hcount, Nat.zero_add]
    rfl
  · exact map_toNat_holesList (narrow_runs (by omega)) (length_runs_lt (by omega))

/-! ## The bitmap -/

/-- A word whose code is not zero begins a hole or a block; any other is what the word
in front of it is. -/
theorem Laid.entry_used (h : Laid n live) {k : Nat} (hk : k < n) :
    (entry n live k ≠ 0 → (entry n live k != 1) = used live k) ∧
    (entry n live k = 0 → 0 < k ∧ used live (k - 1) = used live k) := by
  rcases hused : used live k with _ | _
  · have hstarts := h.not_starts hk hused
    rcases hbehind : behindBlock live k with _ | _
    · have hcode : entry n live k = 0 := by
        rw [entry, hstarts, if_neg Bool.false_ne_true, hbehind]
        simp
      have hfront : ¬ (k = 0 ∨ used live (k - 1) = true) := fun hfront => by
        rw [behindBlock_iff.mpr hfront] at hbehind
        cases hbehind
      refine ⟨fun hne => absurd hcode hne, fun _ => ⟨by omega, ?_⟩⟩
      exact Bool.eq_false_iff.mpr fun hlast => hfront (Or.inr hlast)
    · have hcode := h.entry_of_closed_free (behindBlock_iff_closed.mp hbehind) hk hused
      rw [hcode]
      exact ⟨fun _ => rfl, fun hzero => absurd hzero (by decide)⟩
  · rcases hstarts : starts n live k with _ | _
    · have hcode : entry n live k = 0 := by
        rw [entry, hstarts, if_neg Bool.false_ne_true, if_neg (by simp [hused])]
      refine ⟨fun hne => absurd hcode hne, fun _ => ?_⟩
      -- the block over `k` begins in front of it
      obtain ⟨b, hb, hlow, hhigh⟩ := used_iff.mp hused
      have hne : b.start ≠ k := fun heq => by
        rw [starts_iff.mpr (Or.inr ⟨b, hb, heq⟩)] at hstarts
        cases hstarts
      exact ⟨by omega, used_iff.mpr ⟨b, hb, by omega, by omega⟩⟩
    · have hcode : entry n live k = 2 ∨ entry n live k = 3 := by
        rw [entry, hstarts, if_pos rfl]
        cases behindBlock live k
        · exact Or.inl rfl
        · exact Or.inr rfl
      rcases hcode with hcode | hcode
      · rw [hcode]
        exact ⟨fun _ => rfl, fun hzero => absurd hzero (by decide)⟩
      · rw [hcode]
        exact ⟨fun _ => rfl, fun hzero => absurd hzero (by decide)⟩

/-- `inBlock` behind a word, when in front of it it says what it should. -/
theorem Laid.inBlock_eq (h : Laid n live) {i : Nat} (hi : i < n) {inBlock : Option Bool}
    (hfront : 0 < i → inBlock = some (used live (i - 1))) :
    (if entry n live i ≠ 0 then some (entry n live i != 1) else inBlock) = some (used live i) := by
  obtain ⟨hbegins, hgoes⟩ := h.entry_used hi
  split
  · next hne => rw [hbegins hne]
  · next heq =>
    obtain ⟨hpos, hsame⟩ := hgoes (not_not.mp heq)
    rw [hfront hpos, hsame]

/-- **The loop sets the bits of the words in use**, from word `i` on. -/
theorem Marked.fillBitmap (hm : Marked n live map) (h : Laid n live) (hn : n < 2 ^ 31) (r : Nat) :
    ∀ (i : Nat) (inBlock : Option Bool) (bytes : List UInt8), i + r = n →
      n ≤ 8 * bytes.length → (0 < i → inBlock = some (used live (i - 1))) →
      ∃ bytes', fillBitmap map r i inBlock bytes = some bytes' ∧
        bytes'.length = bytes.length ∧
        ∀ k, bit bytes' k = (bit bytes k || decide (i ≤ k ∧ k < n) && used live k) := by
  induction r with
  | zero =>
    intro i inBlock bytes hi _ _
    refine ⟨bytes, rfl, rfl, fun k => ?_⟩
    rw [decide_eq_false (by omega), Bool.false_and, Bool.or_false]
  | succ r ih =>
    intro i inBlock bytes hi hroom hfront
    have htype := hm.typeAt h (k := i) (by omega) (by omega)
    have hinside := h.inBlock_eq (by omega) hfront
    rw [MemoryManager.fillBitmap, htype, Option.bind_some]
    simp only [hinside, Option.bind_some]
    rcases hused : used live i with _ | _
    · obtain ⟨bytes', hloop, hlen, hbit⟩ :=
        ih (i + 1) (some false) bytes (by omega) hroom fun _ => by rw [Nat.add_sub_cancel, hused]
      refine ⟨bytes', by rw [if_neg Bool.false_ne_true, hloop], hlen, fun k => ?_⟩
      rw [hbit]
      congr 1
      by_cases hk : k = i
      · rw [hk, hused, Bool.and_false, Bool.and_false]
      · congr 1
        exact decide_eq_decide.mpr (by omega)
    · have hindex : i >>> 3 = i / 8 := Nat.shiftRight_eq_div_pow i 3
      have hmask : UInt8.ofNat (1 <<< (i &&& 7)) = UInt8.ofNat (2 ^ (i % 8)) := by
        rw [Nat.and_two_pow_sub_one_eq_mod i 3, Nat.shiftLeft_eq, Nat.one_mul]
      have hlt : i / 8 < bytes.length := by omega
      obtain ⟨bytes', hloop, hlen, hbit⟩ := ih (i + 1) (some true)
        (orAt bytes (i / 8) (UInt8.ofNat (2 ^ (i % 8)))) (by omega)
        (by rwa [length_orAt]) fun _ => by rw [Nat.add_sub_cancel, hused]
      refine ⟨bytes', ?_, by rw [hlen, length_orAt], fun k => ?_⟩
      · rw [if_pos rfl, hindex, if_pos hlt, hmask, hloop]
      · rw [hbit, bit_orAt_two_pow hlt, Bool.or_assoc]
        congr 1
        by_cases hk : k = i
        · rw [hk, hused, decide_eq_true rfl, decide_eq_true (show i ≤ i ∧ i < n by omega)]
          rfl
        · rw [decide_eq_false hk, Bool.false_or]
          congr 1
          exact decide_eq_decide.mpr (by omega)

/-- A word is free where it is in one of the runs. -/
theorem used_iff_not_in_runs {i : Nat} (hi : i < n) :
    used live i = true ↔ ∀ hole ∈ runs (used live) n, ¬ (hole.1 ≤ i ∧ i < hole.1 + hole.2) := by
  refine ⟨?_, fun hno => ?_⟩
  · rintro hused ⟨b, r⟩ hmem ⟨hlow, hhigh⟩
    rw [(mem_runs.mp hmem).unused i hlow hhigh] at hused
    cases hused
  · by_contra hfree
    obtain ⟨b, r, hrun, hlow, hhigh⟩ := exists_isRun hi (Bool.not_eq_true _ ▸ hfree)
    exact hno _ (mem_runs.mpr hrun) ⟨hlow, hhigh⟩

theorem MemoryManager.Manages.bitmapShows (h : m.Manages n wordSize p live) :
    m.BitmapShows (runs (used live) n) := by
  have hn := h.words
  have hlen : ((m.numWords + 7) >>> 3).toUInt16.toNat = (n + 7) / 8 := by
    rw [UInt32.toNat_toUInt16, UInt32.toNat_shiftRight, UInt32.toNat_add, h.numWords_eq,
      Nat.mod_eq_of_lt (a := n + (7 : UInt32).toNat) (by change n + 7 < _; omega)]
    change (n + 7) >>> 3 % 65536 = _
    rw [Nat.shiftRight_eq_div_pow]
    omega
  have hlow : (((m.numWords + 7) >>> 3).toUInt16 &&& 0xff).toUInt8 =
      UInt8.ofNat ((n + 7) / 8 % 256) := by
    apply UInt8.toNat.inj
    rw [UInt16.toNat_toUInt8, UInt16.toNat_and, hlen, UInt8.toNat_ofNat']
    change ((n + 7) / 8 &&& 255) % 256 = _
    rw [Nat.and_two_pow_sub_one_eq_mod _ 8]
  have hhigh : (((m.numWords + 7) >>> 3).toUInt16 >>> 8).toUInt8 =
      UInt8.ofNat ((n + 7) / 8 / 256) := by
    apply UInt8.toNat.inj
    rw [UInt16.toNat_toUInt8, UInt16.toNat_shiftRight, hlen, UInt8.toNat_ofNat']
    change ((n + 7) / 8) >>> 8 % 256 = _
    rw [Nat.shiftRight_eq_div_pow]
  obtain ⟨bytes, hloop, hbytes, hbit⟩ := h.marked.fillBitmap h.laid (by omega) n
    0 none (List.replicate ((n + 7) / 8) 0) (Nat.zero_add n)
    (by rw [List.length_replicate]; omega) (fun hpos => absurd hpos (Nat.lt_irrefl 0))
  rw [List.length_replicate] at hbytes
  refine ⟨bytes, ?_, by rw [hbytes, h.numWords_eq], fun i hi => ?_⟩
  · rw [getBitmap, h.pool_eq]
    simp only [bitmap, hlow, hhigh, hlen, h.numWords_eq, hloop, Option.map_some]
  · rw [hbit, bit_replicate_zero, Bool.false_or, Bool.and_eq_true, decide_eq_true_eq, h.numWords_eq]
    refine ⟨fun ⟨⟨_, hlt⟩, hused⟩ => ⟨hlt, (used_iff_not_in_runs hlt).mp hused⟩, ?_⟩
    exact fun ⟨hlt, hno⟩ => ⟨⟨Nat.zero_le i, hlt⟩, (used_iff_not_in_runs hlt).mpr hno⟩

/-! ## The dump -/

theorem holeText_eq {b l : Nat} (hb : b < 2 ^ 16) (hl : l < 2 ^ 16) (count : Nat) :
    holeText (UInt16.ofNat b) (UInt16.ofNat l) count =
      bracketed (b, l) ++ if count = 0 then [] else [' ', '-', ' '] := by
  rw [holeText, bracketed, UInt16.toNat_ofNat', UInt16.toNat_ofNat', Nat.mod_eq_of_lt hb,
    Nat.mod_eq_of_lt hl]
  split <;> simp

/-- `buf` is large enough for two numbers of five digits. -/
theorem length_holeText_lt (start len : UInt16) (count : Nat) :
    (holeText start len count).length < 32 := by
  have hdigits : ∀ x : UInt16, (Nat.toDigits 10 x.toNat).length ≤ 5 := fun x =>
    Nat.toDigits_length 10 _ 5 (by decide) (Nat.lt_of_lt_of_le x.toNat_lt (by decide))
  have hstart := hdigits start
  have hlen := hdigits len
  rw [holeText]
  split <;> simp <;> omega

/-- **The loop writes the holes**, joined. -/
theorem dumpHoles_eq {holes : List (Nat × Nat)} (hfit : Narrow holes) :
    ∃ written, dumpHoles holes.length (writeHoles holes) = some written ∧
      written.flatten = [' ', '-', ' '].intercalate (holes.map bracketed) := by
  induction holes with
  | nil => exact ⟨[], rfl, rfl⟩
  | cons hole holes ih =>
    obtain ⟨b, l⟩ := hole
    obtain ⟨hb, hl⟩ := hfit b l List.mem_cons_self
    obtain ⟨written, hloop, hflat⟩ := ih hfit.tail
    refine ⟨holeText (UInt16.ofNat b) (UInt16.ofNat l) holes.length :: written, ?_, ?_⟩
    · rw [writeHoles, List.flatMap_cons, ← writeHoles]
      change dumpHoles (holes.length + 1) (UInt16.ofNat b :: UInt16.ofNat l :: writeHoles holes) = _
      rw [dumpHoles, if_pos (length_holeText_lt _ _ _), hloop, Option.map_some]
    · rw [List.flatten_cons, hflat, holeText_eq hb hl, List.map_cons]
      cases holes with
      | nil => simp
      | cons hole' holes =>
        rw [List.map_cons, List.intercalate_cons_cons, List.length_cons,
          if_neg (Nat.succ_ne_zero _)]

theorem MemoryManager.Manages.dumpShows (h : m.Manages n wordSize p live) :
    m.DumpShows (runs (used live) n) := by
  have hn := h.words
  have hnarrow : Narrow (runs (used live) n) := narrow_runs (by omega)
  have hlen : (runs (used live) n).length < 2 ^ 16 := length_runs_lt (by omega)
  obtain ⟨written, hloop, hflat⟩ := dumpHoles_eq hnarrow
  refine ⟨written, ?_, hflat⟩
  rw [dumpMemoryMap, h.pool_eq]
  simp only [if_true, h.holeList, Option.bind_some, holesList, UInt16.toNat_ofNat',
    Nat.mod_eq_of_lt hlen, hloop, Option.map_some]

/-- **The views agree** in every state in which the map encodes the blocks. -/
theorem Ledger.Sound.viewsAgree (hl : l.Sound n wordSize p) : l.ViewsAgree := by
  have hm := hl.manages
  refine ⟨runs (used l.live) n, fun b r => ?_, pairwise_runs n, hm.listShows, hm.bitmapShows,
    hm.dumpShows⟩
  rw [hm.numWords_eq]
  exact mem_runs

/-! ## After a wrapped address -/

/-- Entries inside a hole or a block are passed over. -/
theorem countHoles_zeros (d : Nat) : ∀ {i : Nat} (r c : Nat),
    (∀ k, i ≤ k → k < i + d → typeAt map k = some 0) →
    countHoles map (d + r) i c = countHoles map r (i + d) c := by
  induction d with
  | zero =>
    intro i r c _
    rw [Nat.zero_add, Nat.add_zero]
  | succ d ih =>
    intro i r c hzeros
    rw [Nat.succ_add, countHoles, hzeros i (Nat.le_refl i) (by omega), Option.bind_some,
      if_neg (by decide), ih r c fun k hik hkd => hzeros k (by omega) (by omega),
      Nat.succ_add_eq_add_succ]

theorem listHoles_zeros {room : Nat} {begin : Option Nat} {list : List UInt16} (d : Nat) :
    ∀ {i : Nat} (r : Nat), (∀ k, i ≤ k → k < i + d → typeAt map k = some 0) →
      listHoles map room (d + r) i begin list = listHoles map room r (i + d) begin list := by
  induction d with
  | zero =>
    intro i r _
    rw [Nat.zero_add, Nat.add_zero]
  | succ d ih =>
    intro i r hzeros
    rw [Nat.succ_add, listHoles, hzeros i (Nat.le_refl i) (by omega), Option.bind_some,
      if_neg (by decide), if_neg (by decide),
      ih r fun k hik hkd => hzeros k (by omega) (by omega), Nat.succ_add_eq_add_succ]

/-- With the mark of a start at the last word but none of an end, the one hole that is
counted ends twice: the array is too small for the list. -/
theorem holeList_stray (hnum : m.numWords.toNat = n) (hn : n ≤ 65535) (htwo : 2 ≤ n)
    (hlen : m.map.length = n / 4 + 1) (hlow : ∀ i, bit m.map (2 * i) = decide (i = 0))
    (hhigh : ∀ i, bit m.map (2 * i + 1) = decide (i = n - 1 ∨ i = n)) : m.holeList = none := by
  have htype : ∀ i, i ≤ n → typeAt m.map i =
      some (if i = 0 then 1 else if i = n - 1 ∨ i = n then 2 else 0) := by
    intro i hi
    rw [typeAt_eq (by omega) (by omega), hlow, hhigh]
    by_cases hzero : i = 0
    · rw [if_pos hzero, decide_eq_true hzero, decide_eq_false (by omega)]
      rfl
    · rw [if_neg hzero, decide_eq_false hzero]
      split
      · next hend => rw [decide_eq_true hend]; rfl
      · next hend => rw [decide_eq_false hend]; rfl
  obtain ⟨d, rfl⟩ : ∃ d, n = d + 2 := ⟨n - 2, by omega⟩
  have hfirst : typeAt m.map 0 = some 1 := htype 0 (by omega)
  have hzeros : ∀ k, 1 ≤ k → k < 1 + d → typeAt m.map k = some 0 := fun k hk hkd => by
    rw [htype k (by omega), if_neg (by omega), if_neg (by omega)]
  have hlast : typeAt m.map (1 + d) = some 2 := by
    rw [htype (1 + d) (by omega), if_neg (by omega), if_pos (Or.inl (by omega))]
  have hbehind : typeAt m.map (1 + d + 1) = some 2 := by
    rw [htype (1 + d + 1) (by omega), if_neg (by omega), if_pos (Or.inr (by omega))]
  have hcount : countHoles m.map (d + 2) 0 0 = some 1 := by
    rw [countHoles, hfirst, Option.bind_some, if_pos rfl, countHoles_zeros d 1 _ hzeros, countHoles,
      hlast, Option.bind_some, if_neg (by decide), countHoles]
  rw [MemoryManager.holeList, hnum, hcount, Option.bind_some, listHoles, hfirst, Option.bind_some,
    if_pos rfl, if_pos (by decide), listHoles_zeros d 2 hzeros, listHoles, hlast, Option.bind_some,
    if_neg (by decide), if_pos rfl, Option.bind_some, if_pos (by decide), listHoles, hbehind,
    Option.bind_some, if_neg (by decide), if_pos rfl, Option.bind_some, if_neg (by simp)]

/-- A run after which the views do not agree. -/
theorem Ledger.exists_not_viewsAgree (h : l.manager.Manages n wordSize p l.live)
    (hheld : l.held = []) (hpos : 0 < wordSize.toNat)
    (hlast : 2 ^ 32 ≤ (n - 1) * wordSize.toNat) :
    ∃ calls l', Throughout Ledger.call Ledger.Allowed l calls ∧
      run Ledger.call l calls = some l' ∧ ¬ l'.ViewsAgree := by
  have hn := h.words
  obtain ⟨hallowed, l₁, hrun₁, hheld₁, hmanages₁, htwo⟩ := Ledger.run_lastWord h hheld hpos hlast
  obtain ⟨map, hfree, hlen, hlow, hhigh⟩ := hmanages₁.free_wrapped hpos hlast
  obtain ⟨l₂, hcall₂, hmanager₂⟩ :
      ∃ l₂, l₁.call (.free (some (p + (UInt32.ofNat (n - 1) * wordSize).toNat))) = some l₂ ∧
        l₂.manager = { l₁.manager with map } :=
    ⟨_, by rw [Ledger.call, hfree, Option.map_some], rfl⟩
  refine ⟨[.setAllocator (atWord (n - 1)), .allocate 1] ++
      [.free (some (p + (UInt32.ofNat (n - 1) * wordSize).toNat))], l₂,
    hallowed.append fun l₃ hl₃ => ?_, ?_, ?_⟩
  · obtain rfl := Option.some.inj (hrun₁.symm.trans hl₃)
    refine ⟨?_, fun _ _ => trivial⟩
    rw [Ledger.Allowed, hheld₁]
    exact ⟨_, List.mem_singleton_self _, rfl⟩
  · rw [run_append, hrun₁, Option.bind_some, run, hcall₂, Option.bind_some, run]
  · rintro ⟨holes, -, -, ⟨list, hlist, -⟩, -⟩
    have hnone : MemoryManager.holeList { l₁.manager with map } = none :=
      holeList_stray hmanages₁.numWords_eq hn htwo hlen hlow hhigh
    rw [hmanager₂, getList, show ({ l₁.manager with map } : MemoryManager).pool = some p from
      hmanages₁.pool_eq] at hlist
    simp only [hnone, Option.map_none] at hlist
    cases hlist

end

/-- **Where the views agree.** In a pool of at most 65535 words the three views agree in
every state that allowed calls reach, and none of these fails, exactly if words have bytes
and the offset of the last word fits 32 bits. -/
theorem views_agree_iff {m : MemoryManager} {mmap : UInt32 → Option Nat} {sizeInWords : UInt64}
    {l₀ : Ledger} (hn : sizeInWords.toNat ≤ 65535)
    (hbegin : Ledger.begin m mmap sizeInWords = some l₀) :
    (∀ calls, Throughout Ledger.call Ledger.Allowed l₀ calls →
      ∃ l, run Ledger.call l₀ calls = some l ∧ l.ViewsAgree) ↔
    OffsetsFit sizeInWords.toNat m.wordSize :=
  Ledger.reached_iff hn hbegin (fun _ hsound => hsound.viewsAgree) Ledger.exists_not_viewsAgree

/-- Six words of two bytes. -/
theorem views_agree_iff_sixWords :
    ∃ l₀ ∈ Ledger.begin (new 2 bestFit) (fun _ => some 4096) 6,
      ∀ calls, Throughout Ledger.call Ledger.Allowed l₀ calls →
        ∃ l, run Ledger.call l₀ calls = some l ∧ l.ViewsAgree := by
  refine ⟨_, rfl, ?_⟩
  exact (@views_agree_iff (new 2 bestFit) (fun _ => some 4096) 6 _ (by decide) rfl).mpr (by decide)

/-- Three words of two gigabytes, the last one allocated and given back: nothing is held,
and `getList` writes past the end of its array. -/
theorem list_past_its_end :
    ∃ l₀ ∈ Ledger.begin (new 2147483648 (atWord 2)) (fun _ => some 4096) 3,
      Throughout Ledger.call Ledger.Allowed l₀ [.allocate 1, .free (some 4096)] ∧
      ∃ l, run Ledger.call l₀ [.allocate 1, .free (some 4096)] = some l ∧ l.held = [] ∧
        l.manager.getList = none ∧ ¬ l.ViewsAgree := by
  refine ⟨⟨wideWords (atWord 2) [129], []⟩, rfl, by decide +kernel,
    ⟨wideWords (atWord 2) [161], []⟩, ?_, rfl, getList_wideWords, ?_⟩
  · simp only [run, Ledger.call, allocate_wideWords, Option.map_some, Option.bind_some,
      free_wideWords]
    rfl
  · rintro ⟨holes, -, -, ⟨list, hlist, -⟩, -⟩
    rw [getList_wideWords] at hlist
    cases hlist

end Cop4600
