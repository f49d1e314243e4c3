import Cop4600.Wadfs

/-!
# Reading a file piece by piece

A client of `getContents` that reads on from where it is, with a buffer of any size each
time. Inside the file a read delivers what the buffer has room for and the file still has,
never nothing; from its end on it delivers nothing (`getContentsInt_inside`,
`getContentsInt_behind`). So whatever the sizes of the buffers are, the pieces make up the
file, and the first read that returns 0 comes when all of it has been read
(`chunks_reassemble`).
-/

namespace Cop4600

open Storage

/-- Where a client is in a file, and what it has collected so far. -/
structure Reader : Type where
  position : Int32
  collected : Bytes

/-- One read with a buffer of `length` bytes: the count that it returns, and the reader
advanced by it. -/
def Wad.readOn (w : Wad) (path : Bytes) (length : Int32) (r : Reader) : Option (Int × Reader) :=
  (w.getContentsInt path length r.position).map fun (count, buffer) =>
    (count,
      { position := r.position + Int32.ofInt count
        collected := r.collected ++ buffer })

/-- The reader in front of its `k`-th read, when the buffers have these lengths. -/
def Wad.reader (w : Wad) (path : Bytes) (lengths : Nat → Int32) : (k : Nat) → Option Reader
  | 0 => some { position := 0, collected := [] }
  | k + 1 =>
    (w.reader path lengths k).bind fun r => (w.readOn path (lengths k) r).map Prod.snd

/-- What the `k`-th read returns. -/
def Wad.returned (w : Wad) (path : Bytes) (lengths : Nat → Int32) (k : Nat) : Option Int :=
  (w.reader path lengths k).bind fun r => (w.readOn path (lengths k) r).map Prod.fst

/-- The reads return positive counts until one returns 0, and what has been collected by
then is `text`. -/
def Wad.Reassembles (w : Wad) (path : Bytes) (lengths : Nat → Int32) (text : Bytes) : Prop :=
  ∃ n, (∀ k < n, ∃ count, w.returned path lengths k = some count ∧ 0 < count) ∧
    w.returned path lengths n = some 0 ∧
    ∃ r, w.reader path lengths n = some r ∧ r.collected = text

/-- The first read that returns 0 is determined by the lengths. -/
theorem Wad.Reassembles.unique {w : Wad} {path : Bytes} {lengths : Nat → Int32}
    {text text' : Bytes} (h : w.Reassembles path lengths text)
    (h' : w.Reassembles path lengths text') : text = text' := by
  obtain ⟨n, hbefore, hzero, r, hr, rfl⟩ := h
  obtain ⟨n', hbefore', hzero', r', hr', rfl⟩ := h'
  obtain rfl : n = n' := by
    rcases Nat.lt_trichotomy n n' with hlt | heq | hlt
    · obtain ⟨count, hcount, hpos⟩ := hbefore' n hlt
      obtain rfl := Option.some.inj (hzero.symm.trans hcount)
      exact absurd hpos (Int.lt_irrefl 0)
    · exact heq
    · obtain ⟨count, hcount, hpos⟩ := hbefore n' hlt
      obtain rfl := Option.some.inj (hzero'.symm.trans hcount)
      exact absurd hpos (Int.lt_irrefl 0)
  rw [Option.some.inj (hr.symm.trans hr')]

section

variable {w : Wad} {path : Bytes} {i : Nat} {d : WadDescriptor}
  (hres : w.resolveFile path = some (some (i, d))) (hsize : d.size.toNat < 2 ^ 31)

/-! ## One read -/

include hres hsize

/-- Behind the end of the file there is nothing to read. -/
theorem getContentsInt_behind {position : Int32} (hbehind : d.size.toNat ≤ position.toInt)
    (length : Int32) : w.getContentsInt path length position = some (delivered []) := by
  have hnonneg : 0 ≤ position.toInt := Int.le_trans (Int.natCast_nonneg _) hbehind
  rw [Wad.getContentsInt_eq hnonneg, Wad.getContents, hres, Option.map_some]
  simp only [toInt_toInt32_of_lt hsize, if_pos hbehind]
  rfl

variable (hoffset : d.offset.toNat + d.size.toNat < 2 ^ 32)
include hoffset

/-- Inside the file a read delivers what fits the buffer of what is left. -/
theorem getContentsInt_inside {position length : Int32} (hnonneg : 0 ≤ position.toInt)
    (hinside : position.toInt < d.size.toNat) (hlength : 0 ≤ length.toInt) :
    w.getContentsInt path length position =
      some (delivered (((w.contents d).drop position.toInt.toNat).take length.toInt.toNat)) := by
  have hclamped : (if (d.size.toNat : Int) - position.toInt < length.toInt then
      (d.size.toNat : Int) - position.toInt else length.toInt) =
        (min length.toInt.toNat (d.size.toNat - position.toInt.toNat) : Nat) := by
    split <;> omega
  have hstart : (d.offset + position.toUInt32).toNat =
      d.offset.toNat + position.toInt.toNat := by
    rw [UInt32.toNat_add, toNat_toUInt32_of_nonneg hnonneg]
    exact Nat.mod_eq_of_lt (by omega)
  rw [Wad.getContentsInt_eq hnonneg, Wad.getContents, hres, Option.map_some]
  simp only [toInt_toInt32_of_lt hsize, if_neg (Int.not_le.mpr hinside), hclamped, pread_natCast,
    hstart, Wad.contents, take_drop_readAt]

variable (hlump : d.offset.toNat + d.size.toNat ≤ w.file.length)
include hlump

/-- **One read**: a reader that has collected what stands in front of its position
advances by the count, and has then collected what stands in front of the new one. -/
theorem readOn_eq {p n : Nat} (hp : p ≤ d.size.toNat) {length : Int32} (hlength : 0 < length.toInt)
    (hn : n = min length.toInt.toNat (d.size.toNat - p)) :
    w.readOn path length { position := Int32.ofNat p, collected := (w.contents d).take p } =
      some ((n : Int),
        { position := Int32.ofNat (p + n), collected := (w.contents d).take (p + n) }) := by
  have hposition : (Int32.ofNat p).toInt = p := Int32.toInt_ofNat_of_lt (by omega)
  have hcontents : (w.contents d).length = d.size.toNat := length_readAt_of_le hlump
  have hread : w.getContentsInt path length (Int32.ofNat p) =
      some (delivered (((w.contents d).drop p).take length.toInt.toNat)) := by
    rcases Nat.lt_or_eq_of_le hp with hlt | rfl
    · have hinside := @getContentsInt_inside w path i d hres hsize hoffset (Int32.ofNat p) length
        (by omega) (by omega) (by omega)
      rwa [hposition] at hinside
    · rw [getContentsInt_behind hres hsize (by omega), List.drop_eq_nil_of_le (by omega),
        List.take_nil]
  have hdelivered : ((w.contents d).drop p).take length.toInt.toNat =
      ((w.contents d).drop p).take n := by
    rw [List.take_eq_take_iff, List.length_drop, hcontents]
    omega
  have hcount : (((w.contents d).drop p).take n).length = n := by
    rw [List.length_take, List.length_drop, hcontents]
    omega
  rw [Wad.readOn, hread, hdelivered, Option.map_some, delivered]
  simp only [hcount, Int32.ofInt_eq_ofNat, ← Int32.ofNat_add, ← List.take_add]

/-! ## All reads -/

variable {lengths : Nat → Int32} (hlengths : ∀ k, 0 < (lengths k).toInt)
include hlengths

/-- **In front of every read** the reader has collected what it has passed, and unless it
is at the end it has passed at least one byte for each read it has made. -/
theorem reader_eq (k : Nat) : ∃ p ≤ d.size.toNat, (p < d.size.toNat → k ≤ p) ∧
    w.reader path lengths k =
      some { position := Int32.ofNat p, collected := (w.contents d).take p } := by
  induction k with
  | zero => exact ⟨0, Nat.zero_le _, fun _ => Nat.le_refl 0, rfl⟩
  | succ k ih =>
    obtain ⟨p, hp, hprogress, hreader⟩ := ih
    refine ⟨p + min (lengths k).toInt.toNat (d.size.toNat - p), by omega, fun hlt => ?_, ?_⟩
    · have := hlengths k
      have := hprogress (by omega)
      omega
    · rw [Wad.reader, hreader, Option.bind_some,
        readOn_eq hres hsize hoffset hlump hp (hlengths k) rfl, Option.map_some]

/-- What a read returns is 0 exactly at the end. -/
theorem returned_eq {k p : Nat} (hp : p ≤ d.size.toNat) (hreader : w.reader path lengths k =
    some { position := Int32.ofNat p, collected := (w.contents d).take p }) :
    ∃ n : Nat, w.returned path lengths k = some (n : Int) ∧ (n = 0 ↔ p = d.size.toNat) := by
  have := hlengths k
  refine ⟨min (lengths k).toInt.toNat (d.size.toNat - p), ?_, by omega⟩
  rw [Wad.returned, hreader, Option.bind_some,
    readOn_eq hres hsize hoffset hlump hp (hlengths k) rfl, Option.map_some]

theorem reassembles : w.Reassembles path lengths (w.contents d) := by
  have hcontents : (w.contents d).length = d.size.toNat := length_readAt_of_le hlump
  have hend : ∃ n, w.returned path lengths n = some 0 := by
    obtain ⟨p, hp, hprogress, hreader⟩ :=
      reader_eq hres hsize hoffset hlump hlengths d.size.toNat
    obtain ⟨n, hn, hzero⟩ := returned_eq hres hsize hoffset hlump hlengths hp hreader
    obtain rfl : n = 0 := hzero.mpr (by omega)
    exact ⟨_, hn⟩
  refine ⟨Nat.find hend, fun k hk => ?_, Nat.find_spec hend, ?_⟩
  · obtain ⟨p, hp, -, hreader⟩ := reader_eq hres hsize hoffset hlump hlengths k
    obtain ⟨n, hn, -⟩ := returned_eq hres hsize hoffset hlump hlengths hp hreader
    refine ⟨n, hn, Int.natCast_pos.mpr (Nat.pos_of_ne_zero fun hzero => ?_)⟩
    exact Nat.find_min hend hk (by rw [hn, hzero]; rfl)
  · -- the first read that returns 0 stands at the end
    obtain ⟨p, hp, -, hreader⟩ := reader_eq hres hsize hoffset hlump hlengths (Nat.find hend)
    obtain ⟨n, hn, hzero⟩ := returned_eq hres hsize hoffset hlump hlengths hp hreader
    have hn0 := Option.some.inj (hn.symm.trans (Nat.find_spec hend))
    obtain rfl : p = d.size.toNat := hzero.mp (by omega)
    exact ⟨_, hreader, by rw [← hcontents, List.take_length]⟩

end

/-- **Chunked reading reassembles the file.** The lump of the file lies inside the WAD and
in front of `2 ^ 32`. Whatever the lengths of the buffers are, reading on from position 0
returns 0 for the first time after finitely many reads, and what they have delivered is
the lump; no two choices of lengths deliver different bytes; and a read at a position
behind the end returns 0. -/
theorem chunks_reassemble {w : Wad} {path : Bytes} {i : Nat} {d : WadDescriptor}
    (hres : w.resolveFile path = some (some (i, d))) (hsize : d.size.toNat < 2 ^ 31)
    (hlump : d.offset.toNat + d.size.toNat ≤ w.file.length)
    (hoffset : d.offset.toNat + d.size.toNat < 2 ^ 32) :
    (∀ lengths : Nat → Int32, (∀ k, 0 < (lengths k).toInt) →
      w.Reassembles path lengths (w.contents d)) ∧
    (∀ lengths lengths' : Nat → Int32, (∀ k, 0 < (lengths k).toInt) →
      (∀ k, 0 < (lengths' k).toInt) → ∀ text text', w.Reassembles path lengths text →
      w.Reassembles path lengths' text' → text = text') ∧
    ∀ position length : Int32, d.size.toNat ≤ position.toInt →
      w.getContentsInt path length position = some (0, []) := by
  refine ⟨fun lengths hlengths => reassembles hres hsize hoffset hlump hlengths, ?_, ?_⟩
  · intro lengths lengths' hlengths hlengths' text text' h h'
    rw [h.unique (reassembles hres hsize hoffset hlump hlengths),
      h'.unique (reassembles hres hsize hoffset hlump hlengths')]
  · intro position length hbehind
    exact getContentsInt_behind hres hsize hbehind length

/-- Four bytes, three at a time. -/
theorem chunks_reassemble_fourBytes :
    fourBytes.Reassembles (chars ['/', 'A']) (fun _ => 3) [1, 2, 3, 4] :=
  (chunks_reassemble resolveFile_fourBytes (by decide) (by decide) (by decide)).1 _
    fun _ => by decide

end Cop4600
