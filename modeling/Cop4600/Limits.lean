import Cop4600.Contents

/-!
# The limit of the offsets

`doffset`, offsets and sizes are 32-bit numbers, and `writeToFile` adds to them without a
check. The test `desc->offset + desc->size != doffset` does not go wrong by that: as long
as the data lies in front of `doffset`, it holds of the numbers what it says of their low
bits (`Wad.DataBefore.startOf_add_size`). What goes wrong is `doffset += length`: an
accepted write keeps the data in front of `doffset` exactly if the new `doffset` is a
32-bit number (`append_fits_iff`).
-/

namespace Cop4600

open Storage

/-- What `writeToFile` tests of a file's descriptor: the write begins at the end of the
file, and the file is empty or the last in the data. -/
def Wad.Accepts (w : Wad) (d : WadDescriptor) (offset : Int32) : Prop :=
  offset.toUInt32 = d.size ∧ (d.size = 0 ∨ d.offset + d.size = w.doffset)

instance (w : Wad) (d : WadDescriptor) (offset : Int32) : Decidable (w.Accepts d offset) :=
  inferInstanceAs (Decidable (_ ∧ _))

theorem Wad.writeToFile_of_none {w : Wad} {path : Bytes} (hres : w.resolveFile path = some none)
    (io : Pwrites) (buffer : Bytes) (length offset : Int32) :
    w.writeToFile io path buffer length offset = some (w, -1) := by
  rw [Wad.writeToFile, hres, Option.map_some]

/-- **What `writeToFile` does** with a file. -/
theorem Wad.writeToFile_of_file {w : Wad} {path : Bytes} {i : Nat} {d : WadDescriptor}
    (hres : w.resolveFile path = some (some (i, d))) (io : Pwrites) (buffer : Bytes)
    (length offset : Int32) :
    w.writeToFile io path buffer length offset =
      some (if w.Accepts d offset then (w.append io i (startOf w d) buffer length, length.toInt)
        else (w, 0)) := by
  rw [Wad.writeToFile, hres, Option.map_some]
  congr 1
  dsimp only
  by_cases hoff : offset.toUInt32 = d.size
  · rw [if_neg (not_not_intro hoff)]
    by_cases hzero : d.size = 0
    · have haccepts : w.Accepts d offset := ⟨hoff, Or.inl hzero⟩
      rw [if_pos hzero, if_pos haccepts, startOf, if_pos hzero]
    · rw [if_neg hzero]
      by_cases hlast : d.offset + d.size = w.doffset
      · have haccepts : w.Accepts d offset := ⟨hoff, Or.inr hlast⟩
        rw [if_neg (not_not_intro hlast), if_pos haccepts, startOf, if_neg hzero]
      · rw [if_pos hlast, if_neg fun h => hlast (h.2.resolve_left hzero)]
  · rw [if_pos hoff, if_neg fun h => hoff h.1]

section

variable {w : Wad} {i : Nat} {d : WadDescriptor} (hi : w.descriptors[i]? = some d)
  {offset length : Int32} (hlength : 0 ≤ length.toInt)

/-- A file resolved is in the table. -/
theorem getElem?_of_resolveFile {path : Bytes}
    (hres : w.resolveFile path = some (some (i, d))) : w.descriptors[i]? = some d := by
  obtain ⟨⟨desc, name⟩, -, hfile⟩ := Option.bind_eq_some_iff.mp hres
  cases desc with
  | null => cases hfile
  | root => cases hfile
  | entry j =>
    obtain ⟨d', hd', heq⟩ := Option.map_eq_some_iff.mp hfile
    split at heq
    · cases heq
    · cases heq
      exact hd'

include hi hlength

/-- **An accepted write grows the data** if there is room in 32 bits, and only then. -/
theorem append_grows_iff (hbefore : w.DataBefore) (haccepts : w.Accepts d offset) (io : Pwrites)
    (buffer : Bytes) :
    ((w.append io i (startOf w d) buffer length).doffset.toNat =
          w.doffset.toNat + length.toInt.toNat ∧
        (w.append io i (startOf w d) buffer length).DataBefore) ↔
      w.doffset.toNat + length.toInt.toNat < 2 ^ 32 := by
  have hdoffset : (w.append io i (startOf w d) buffer length).doffset =
      w.doffset + length.toUInt32 := rfl
  have htable : (w.append io i (startOf w d) buffer length).descriptors =
      w.descriptors.modify i (appended (startOf w d) length) := rfl
  have hsum : (w.doffset + length.toUInt32).toNat =
      (w.doffset.toNat + length.toInt.toNat) % 2 ^ 32 := by
    rw [UInt32.toNat_add, toNat_toUInt32_of_nonneg hlength]
  refine ⟨fun h => ?_, fun hfits => ?_⟩
  · rw [hdoffset, hsum] at h
    have hlt : (w.doffset.toNat + length.toInt.toNat) % 2 ^ 32 < 2 ^ 32 := Nat.mod_lt _ (by decide)
    rwa [h.1] at hlt
  · rw [Nat.mod_eq_of_lt hfits] at hsum
    refine ⟨by rw [hdoffset, hsum], fun e he hsize => ?_⟩
    rw [hdoffset, hsum]
    rw [htable] at he
    rcases mem_modify hi he with hold | rfl
    · exact (hbefore e hold hsize).trans (Nat.le_add_right _ _)
    · -- the file written to ends where the data ends now
      have hend := hbefore.startOf_add_size (List.mem_of_getElem? hi) haccepts.2.resolve_left
      have hgrown : (appended (startOf w d) length d).size.toNat =
          d.size.toNat + length.toInt.toNat := size_appended_of_fits hlength (by omega)
      have hstart : (appended (startOf w d) length d).offset = startOf w d := rfl
      rw [hgrown, hstart]
      omega

end

/-- The write was refused and nothing was changed, or `doffset` has grown by `length`, is
below `2 ^ 32`, and the data lies in front of it. -/
def Wad.Grows (w : Wad) (length : Int32) (w' : Wad) (r : Int) : Prop :=
  (r = -1 ∨ r = 0) ∧ w' = w ∨
    w'.doffset.toNat = w.doffset.toNat + length.toInt.toNat ∧ w'.doffset.toNat < 2 ^ 32 ∧
      w'.DataBefore

/-- **Where offsets do not wrap.** With the data in front of `doffset`, a call of
`writeToFile` with a length that is not negative returns, and is refused or grows the data,
exactly if the path is resolved inside the table and, where the write is accepted, the new
`doffset` is below `2 ^ 32`. -/
theorem append_fits_iff {w : Wad} (hbefore : w.DataBefore) (io : Pwrites) (path buffer : Bytes)
    {length offset : Int32} (hlength : 0 ≤ length.toInt) :
    (∃ w' r, w.writeToFile io path buffer length offset = some (w', r) ∧ w.Grows length w' r) ↔
      ∃ target, w.resolveFile path = some target ∧ ∀ i d, target = some (i, d) →
        w.Accepts d offset → w.doffset.toNat + length.toInt.toNat < 2 ^ 32 := by
  rcases hres : w.resolveFile path with _ | _ | ⟨i, d⟩
  · -- a read outside the table
    refine ⟨?_, ?_⟩
    · rintro ⟨w', r, hwrite, -⟩
      rw [Wad.writeToFile, hres] at hwrite
      cases hwrite
    · rintro ⟨target, htarget, -⟩
      cases htarget
  · refine ⟨fun _ => ⟨none, rfl, fun i d heq => by cases heq⟩, fun _ => ?_⟩
    exact ⟨w, -1, Wad.writeToFile_of_none hres io buffer length offset, Or.inl ⟨Or.inl rfl, rfl⟩⟩
  · have hwrite := Wad.writeToFile_of_file hres io buffer length offset
    by_cases haccepts : w.Accepts d offset
    · rw [if_pos haccepts] at hwrite
      have hgrows := append_grows_iff (getElem?_of_resolveFile hres) hlength hbefore haccepts io
        buffer
      refine ⟨?_, ?_⟩
      · rintro ⟨w', r, hwrite', h⟩
        obtain ⟨rfl, rfl⟩ := Prod.mk.inj (Option.some.inj (hwrite.symm.trans hwrite'))
        refine ⟨_, rfl, fun i' d' heq _ => ?_⟩
        rcases h with ⟨hrefused, hsame⟩ | ⟨hdoffset, -, hdata⟩
        · -- only a write of nothing changes nothing
          have hzero : length.toInt = 0 := by omega
          have := w.doffset.toNat_lt
          rw [hzero]
          exact this
        · exact hgrows.mp ⟨hdoffset, hdata⟩
      · rintro ⟨target, htarget, hfits⟩
        cases htarget
        obtain ⟨hdoffset, hdata⟩ := hgrows.mpr (hfits i d rfl haccepts)
        exact ⟨_, _, hwrite, Or.inr ⟨hdoffset, UInt32.toNat_lt _, hdata⟩⟩
    · rw [if_neg haccepts] at hwrite
      refine ⟨fun _ => ⟨_, rfl, fun i' d' heq haccepts' => ?_⟩,
        fun _ => ⟨w, 0, hwrite, Or.inl ⟨Or.inr rfl, rfl⟩⟩⟩
      cases heq
      exact absurd haccepts' haccepts

/-! ### A WAD at the limit -/

/-- A WAD with unused bytes between its header and its table. -/
def withGap (gap : Nat) (ds : List WadDescriptor) : Wad where
  file := chars ['I', 'W', 'A', 'D'] ++ leBytes 4 ds.length ++ leBytes 4 (12 + gap) ++
    List.replicate gap 0 ++ tableBytes ds
  magic := chars ['I', 'W', 'A', 'D']
  doffset := UInt32.ofNat (12 + gap)
  descriptors := ds

theorem onDisk_withGap {gap : Nat} (hgap : 12 + gap < 2 ^ 32) {ds : List WadDescriptor}
    (hcount : ds.length < 2 ^ 32) : OnDisk (withGap gap ds) := by
  have hdoffset : (withGap gap ds).doffset.toNat = 12 + gap :=
    UInt32.toNat_ofNat_of_lt' hgap
  refine ⟨rfl, ?_, ?_, ?_, ?_, ?_, hcount⟩
  · have := holds_middle [] (chars ['I', 'W', 'A', 'D'])
      (leBytes 4 ds.length ++ leBytes 4 (12 + gap) ++ List.replicate gap 0 ++ tableBytes ds)
    simpa [withGap] using this
  · have := holds_middle (chars ['I', 'W', 'A', 'D']) (leBytes 4 ds.length)
      (leBytes 4 (12 + gap) ++ List.replicate gap 0 ++ tableBytes ds)
    simpa [withGap, chars] using this
  · have := holds_middle (chars ['I', 'W', 'A', 'D'] ++ leBytes 4 ds.length)
      (leBytes 4 (12 + gap)) (List.replicate gap 0 ++ tableBytes ds)
    rw [hdoffset]
    simpa [withGap, chars] using this
  · have := holds_middle (chars ['I', 'W', 'A', 'D'] ++ leBytes 4 ds.length ++
      leBytes 4 (12 + gap) ++ List.replicate gap 0) (tableBytes ds) []
    have hlen : (chars ['I', 'W', 'A', 'D'] ++ leBytes 4 ds.length ++ leBytes 4 (12 + gap) ++
        List.replicate gap 0).length = 12 + gap := by
      simp [chars]
      omega
    rw [hlen, List.append_nil] at this
    rw [hdoffset]
    exact this
  · rw [hdoffset]
    exact Nat.le_add_right _ _

/-- The name `A`, for a file without data. -/
theorem resolveFile_withGap (gap : Nat) :
    (withGap gap [emptyLump ['A']]).resolveFile (chars ['/', 'A']) =
      some (some (0, emptyLump ['A'])) :=
  (by decide +kernel : (withGap 0 [emptyLump ['A']]).resolveFile (chars ['/', 'A']) = _)

theorem append_fits_iff_sample :
    ∃ w' r, (withGap 0 [emptyLump ['A']]).writeToFile allBytes (chars ['/', 'A']) [7] 1 0 =
      some (w', r) ∧ (withGap 0 [emptyLump ['A']]).Grows 1 w' r :=
  (append_fits_iff (by decide) allBytes (chars ['/', 'A']) [7] (by decide)).mpr
    ⟨_, resolveFile_withGap 0, fun _ _ _ _ => by decide⟩

/-- One byte written to a WAD whose data may reach up to `2 ^ 32 - 1`: `doffset` becomes 0. -/
theorem append_wraps_doffset :
    ¬ ∀ (file : Bytes) (w : Wad), Wad.loadWad file = some w → w.DataBefore →
      ∀ (io : Pwrites) (path buffer : Bytes) (length offset : Int32), 0 ≤ length.toInt →
        length.toInt.toNat ≤ buffer.length →
        ∃ w' r, w.writeToFile io path buffer length offset = some (w', r) ∧
          w.Grows length w' r := by
  intro hall
  obtain ⟨gap, hgap⟩ : ∃ gap, 12 + gap + 1 = 2 ^ 32 := ⟨4294967283, rfl⟩
  have hdisk := @onDisk_withGap gap (by omega) [emptyLump ['A']] (by decide)
  have hdoffset : (withGap gap [emptyLump ['A']]).doffset.toNat = 12 + gap :=
    UInt32.toNat_ofNat_of_lt' (show 12 + gap < 2 ^ 32 by omega)
  have hbefore : (withGap gap [emptyLump ['A']]).DataBefore := fun d hd hsize => by
    rw [List.mem_singleton.mp hd] at hsize
    exact absurd rfl hsize
  have haccepts : (withGap gap [emptyLump ['A']]).Accepts (emptyLump ['A']) 0 :=
    ⟨rfl, Or.inl rfl⟩
  obtain ⟨w', r, hwrite, hgrows⟩ := hall _ _ (loadWad_of_onDisk hdisk) hbefore allBytes
    (chars ['/', 'A']) [7] 1 0 (by decide) (by decide)
  rw [Wad.writeToFile_of_file (resolveFile_withGap gap), if_pos haccepts] at hwrite
  obtain ⟨rfl, rfl⟩ := Prod.mk.inj (Option.some.inj hwrite)
  rcases hgrows with ⟨hrefused, -⟩ | ⟨hsum, -, hdata⟩
  · exact absurd hrefused (by decide)
  · have hfits := (append_grows_iff (getElem?_of_resolveFile (resolveFile_withGap gap)) (by decide)
      hbefore haccepts allBytes [7]).mp ⟨hsum, hdata⟩
    have hone : (1 : Int32).toInt.toNat = 1 := by decide
    omega

end Cop4600
