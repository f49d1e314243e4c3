import Cop4600.Contents

/-!
# `wadfs_read` and `wadfs_write`

FUSE hands over a 64-bit offset, and the library takes an `int`. What is left of the
offset is compared as signed with the size in `getContents` and as unsigned in
`writeToFile`, and is added to an unsigned position in the file. Under which
conditions both operations honour the offset they were given is
`offsets_honoured_iff`.
-/

namespace Cop4600

open Storage

/-- `errno.h`. -/
def EPERM : Int := 1

/-- `getContents` with the `int` subtraction that it makes: `none` also where
`(int)desc->size - offset` overflows. -/
def Wad.getContentsInt (w : Wad) (path : Bytes) (length offset : Int32) : Option (Int × Bytes) :=
  (w.resolveFile path).bind fun
    | none => w.getContents path length offset
    | some (_, desc) =>
      if offset.toInt < desc.size.toInt32.toInt ∧
          2 ^ 31 ≤ desc.size.toInt32.toInt - offset.toInt then none
      else w.getContents path length offset

/-- `wadfs_read`: the return value, and the bytes put into `buf`. -/
def wadfsRead (wad : Wad) (path : Bytes) (len : UInt64) (offset : Int64) : Option (Int × Bytes) :=
  (wad.getContentsInt path len.toUInt32.toInt32 offset.toInt32).map fun (res, buf) =>
    (if res < 0 then -EPERM else res, buf)

/-- `wadfs_write`. -/
def wadfsWrite (io : Pwrites) (wad : Wad) (path buf : Bytes) (len : UInt64) (offset : Int64) :
    Option (Wad × Int) :=
  (wad.writeToFile io path buf len.toUInt32.toInt32 offset.toInt32).map fun (wad', res) =>
    (wad', if res = len.toUInt32.toInt32.toInt then len.toUInt32.toInt32.toInt else -EPERM)

/-- Offsets that are not negative do not overflow. -/
theorem Wad.getContentsInt_eq {w : Wad} {path : Bytes} {length offset : Int32}
    (h : 0 ≤ offset.toInt) :
    w.getContentsInt path length offset = w.getContents path length offset := by
  rw [getContentsInt, Wad.getContents]
  rcases w.resolveFile path with _ | _ | ⟨i, desc⟩
  · rfl
  · rfl
  · have hlt := desc.size.toInt32.toInt_lt
    rw [Option.bind_some]
    simp only
    rw [if_neg (by omega)]

/-! ## What is left of an offset -/

section Narrowing

/-- The low 32 bits of an offset, unsigned. -/
theorem toNat_narrowed {offset : Int64} (h : 0 ≤ offset.toInt) :
    offset.toInt32.toUInt32.toNat = offset.toInt.toNat % 2 ^ 32 := by
  have hle : 0 ≤ offset := Int64.le_iff_toInt_le.mpr (by simpa using h)
  change (offset.toBitVec.signExtend 32).toNat = _
  rw [BitVec.signExtend_eq_setWidth_of_le _ (by decide), BitVec.toNat_setWidth,
    Int64.toNat_toBitVec_of_le hle]
  rfl

/-- And signed. -/
theorem toInt_narrowed {offset : Int64} (h : 0 ≤ offset.toInt) :
    offset.toInt32.toInt =
      if offset.toInt.toNat % 2 ^ 32 < 2 ^ 31 then ((offset.toInt.toNat % 2 ^ 32 : Nat) : Int)
      else ((offset.toInt.toNat % 2 ^ 32 : Nat) : Int) - 2 ^ 32 := by
  have hcond := offset.toInt32.toBitVec.toInt_eq_toNat_cond
  have hnat : offset.toInt32.toBitVec.toNat = offset.toInt.toNat % 2 ^ 32 := toNat_narrowed h
  rw [hnat, Int32.toInt_toBitVec] at hcond
  rw [hcond]
  split <;> split <;> omega

/-- A length that is an `int` stays what it is. -/
theorem toInt_len {len : UInt64} (h : len.toNat < 2 ^ 31) :
    len.toUInt32.toInt32.toInt = len.toNat := by
  have hnat : len.toUInt32.toNat = len.toNat := by
    rw [UInt64.toNat_toUInt32]
    omega
  rw [toInt_toInt32_of_lt (by omega), hnat]

end Narrowing

/-! ## Reading -/

/-- A read that has delivered these bytes. -/
def delivered (bs : Bytes) : Int × Bytes := (bs.length, bs)

/-- A read of a size that is not negative. -/
theorem pread_natCast (file : Bytes) (n : Nat) (off : UInt32) :
    pread file n off = delivered (readAt file n off.toNat) := by
  rw [pread, if_neg (by omega), Int.toNat_natCast, delivered]

/-- What has been read is not a negative number of bytes. -/
theorem not_delivered_neg (bs : Bytes) : ¬ (delivered bs).1 < 0 := by
  rw [delivered]
  omega

/-- Where `pread` is told to start. -/
def readPosition (d : WadDescriptor) (offset : Int64) : Nat :=
  (d.offset + offset.toInt32.toUInt32).toNat

/-- `wadfs_read` delivers the bytes of the file from `offset` on, at most `len`. -/
def ReadsFile (w : Wad) (path : Bytes) (d : WadDescriptor) (len : UInt64) (offset : Int64) : Prop :=
  wadfsRead w path len offset =
    some (delivered (((w.contents d).drop offset.toInt.toNat).take len.toNat))

/-- Inside the file, the position does not wrap around; behind its end, what is left
of the offset is behind the end too, or at least the subtraction does not overflow
and nothing is read (unless `len` is 0, because the WAD ends in front of the
position). -/
def ReadOffsetKept (w : Wad) (d : WadDescriptor) (len : UInt64) (offset : Int64) : Prop :=
  if offset.toInt < d.size.toNat then len.toNat = 0 ∨ d.offset.toNat + offset.toInt < 2 ^ 32
  else d.size.toNat ≤ offset.toInt32.toInt ∨
    d.size.toNat - offset.toInt32.toInt < 2 ^ 31 ∧
      (len.toNat = 0 ∨ w.file.length ≤ readPosition d offset)

section Read

variable {w : Wad} {path : Bytes} {i : Nat} {d : WadDescriptor}
  (hres : w.resolveFile path = some (some (i, d))) (hsize : d.size.toNat < 2 ^ 31)
  {len : UInt64} (hlen : len.toNat < 2 ^ 31) {offset : Int64}
include hres hsize hlen

/-- What `wadfs_read` computes at a file. -/
theorem wadfsRead_eq : wadfsRead w path len offset =
    if (d.size.toNat : Int) ≤ offset.toInt32.toInt then some (delivered [])
    else if 2 ^ 31 ≤ (d.size.toNat : Int) - offset.toInt32.toInt then none
    else some (delivered (readAt w.file
      (min len.toNat (d.size.toNat - offset.toInt32.toInt).toNat) (readPosition d offset))) := by
  rw [wadfsRead, Wad.getContentsInt, hres, Option.bind_some, Wad.getContents, hres, Option.map_some]
  simp only [toInt_toInt32_of_lt hsize, toInt_len hlen]
  by_cases hbehind : (d.size.toNat : Int) ≤ offset.toInt32.toInt
  · rw [if_pos hbehind, if_pos hbehind, if_neg (by omega)]
    rfl
  · rw [if_neg hbehind, if_neg hbehind]
    by_cases hover : 2 ^ 31 ≤ (d.size.toNat : Int) - offset.toInt32.toInt
    · rw [if_pos hover, if_pos ⟨by omega, hover⟩, Option.map_none]
    · rw [if_neg hover, if_neg (by omega), Option.map_some]
      have hlength : (if (d.size.toNat : Int) - offset.toInt32.toInt < len.toNat then
          (d.size.toNat : Int) - offset.toInt32.toInt else len.toNat) =
            (min len.toNat (d.size.toNat - offset.toInt32.toInt).toNat : Nat) := by
        split <;> omega
      simp only [hlength, pread_natCast, if_neg (not_delivered_neg _), readPosition]

/-- Inside the file: `wadfs_read` is told to start where the bytes are, if the
position does not wrap around. -/
theorem wadfsRead_inside (hoff : 0 ≤ offset.toInt) (hin : offset.toInt < d.size.toNat) :
    wadfsRead w path len offset =
      some (delivered (readAt w.file (min len.toNat (d.size.toNat - offset.toInt.toNat))
        ((d.offset.toNat + offset.toInt.toNat) % 2 ^ 32))) := by
  have hsame : offset.toInt32.toInt = offset.toInt := by
    rw [toInt_narrowed hoff, Nat.mod_eq_of_lt (by omega)]
    split <;> omega
  have hposition : readPosition d offset = (d.offset.toNat + offset.toInt.toNat) % 2 ^ 32 := by
    rw [readPosition, UInt32.toNat_add, toNat_narrowed hoff, Nat.add_mod_mod]
  rw [wadfsRead_eq hres hsize hlen, hsame, if_neg (by omega), if_neg (by omega), hposition]
  congr 4
  omega

/-- **Reads of a file's bytes**, whatever bytes the WAD holds, inside the file. -/
theorem readsFile_inside_iff (hlump : d.offset.toNat + d.size.toNat ≤ w.file.length)
    (hoff : 0 ≤ offset.toInt) (hin : offset.toInt < d.size.toNat) :
    (∀ file, file.length = w.file.length → ReadsFile { w with file } path d len offset) ↔
      len.toNat = 0 ∨ d.offset.toNat + offset.toInt < 2 ^ 32 := by
  have hread : ∀ file, ReadsFile { w with file } path d len offset ↔
      readAt file (min len.toNat (d.size.toNat - offset.toInt.toNat))
          ((d.offset.toNat + offset.toInt.toNat) % 2 ^ 32) =
        readAt file (min len.toNat (d.size.toNat - offset.toInt.toNat))
          (d.offset.toNat + offset.toInt.toNat) := by
    intro file
    have hresolve : ({ w with file } : Wad).resolveFile path = some (some (i, d)) := hres
    rw [ReadsFile, wadfsRead_inside hresolve hsize hlen hoff hin, Wad.contents, take_drop_readAt]
    refine ⟨fun h => (Prod.mk.inj (Option.some.inj h)).2, fun h => by rw [h]⟩
  refine ⟨fun hall => ?_, fun hkept file _ => (hread file).mpr ?_⟩
  · -- a one at the right position is not what stands at the wrapped one
    by_contra hnot
    obtain ⟨hlen0, hwraps⟩ := not_or.mp hnot
    have heq := (hread _).mp (hall ((List.replicate w.file.length 0).set
      (d.offset.toNat + offset.toInt.toNat) 1) (by simp))
    have hhead := congrArg List.head? heq
    rw [readAt_head? _ (by omega), readAt_head? _ (by omega),
      List.getElem?_set_ne (by omega),
      List.getElem?_set_self (by rw [List.length_replicate]; omega),
      List.getElem?_replicate, if_pos (by omega)] at hhead
    revert hhead
    decide
  · rcases hkept with hzero | hfits
    · rw [hzero, Nat.zero_min, readAt_zero, readAt_zero]
    · rw [Nat.mod_eq_of_lt (by omega)]

/-- Behind its end. -/
theorem readsFile_behind_iff (hbehind : d.size.toNat ≤ offset.toInt) :
    (∀ file, file.length = w.file.length → ReadsFile { w with file } path d len offset) ↔
      d.size.toNat ≤ offset.toInt32.toInt ∨
        d.size.toNat - offset.toInt32.toInt < 2 ^ 31 ∧
          (len.toNat = 0 ∨ w.file.length ≤ readPosition d offset) := by
  have hnothing : ∀ file, (({ w with file } : Wad).contents d).drop offset.toInt.toNat = [] := by
    intro file
    rw [List.drop_eq_nil_iff, Wad.contents, length_readAt]
    omega
  have hread : ∀ file, ReadsFile { w with file } path d len offset ↔
      (if (d.size.toNat : Int) ≤ offset.toInt32.toInt then some (delivered [])
        else if 2 ^ 31 ≤ (d.size.toNat : Int) - offset.toInt32.toInt then none
        else some (delivered (readAt file
          (min len.toNat (d.size.toNat - offset.toInt32.toInt).toNat) (readPosition d offset)))) =
        some (delivered []) := by
    intro file
    have hresolve : ({ w with file } : Wad).resolveFile path = some (some (i, d)) := hres
    rw [ReadsFile, wadfsRead_eq hresolve hsize hlen, hnothing, List.take_nil]
  by_cases hint : (d.size.toNat : Int) ≤ offset.toInt32.toInt
  · exact iff_of_true (fun file _ => (hread file).mpr (if_pos hint)) (Or.inl hint)
  · by_cases hover : 2 ^ 31 ≤ (d.size.toNat : Int) - offset.toInt32.toInt
    · refine iff_of_false (fun hall => ?_) (by omega)
      have hnone := (hread _).mp (hall w.file rfl)
      rw [if_neg hint, if_pos hover] at hnone
      cases hnone
    · have hempty : ∀ file : Bytes, file.length = w.file.length →
          (ReadsFile { w with file } path d len offset ↔
            len.toNat = 0 ∨ w.file.length ≤ readPosition d offset) := by
        intro file hfile
        rw [hread, if_neg hint, if_neg hover, ← hfile]
        refine ⟨fun h => ?_, fun h => ?_⟩
        · have hnil := readAt_eq_nil_iff.mp (Prod.mk.inj (Option.some.inj h)).2
          omega
        · rw [readAt_eq_nil_iff.mpr (by omega)]
      refine ⟨fun hall => Or.inr ⟨by omega, (hempty _ rfl).mp (hall w.file rfl)⟩, ?_⟩
      intro hkept file hfile
      exact (hempty file hfile).mpr ((hkept.resolve_left hint).2)

/-- **A read** delivers what it should of any file exactly if its offset survives the
conversions. -/
theorem readsFile_iff (hlump : d.offset.toNat + d.size.toNat ≤ w.file.length)
    (hoff : 0 ≤ offset.toInt) :
    (∀ file, file.length = w.file.length → ReadsFile { w with file } path d len offset) ↔
      ReadOffsetKept w d len offset := by
  rw [ReadOffsetKept]
  split
  · next hin => exact readsFile_inside_iff hres hsize hlen hlump hoff hin
  · next hbehind => exact readsFile_behind_iff hres hsize hlen (Int.not_lt.mp hbehind)

end Read

/-! ## Writing -/

/-- A buffer that is not empty is accepted at the end of the file only. -/
def WritesAtEnd (w : Wad) (path : Bytes) (d : WadDescriptor) (len : UInt64) (offset : Int64) :
    Prop :=
  0 < len.toNat → ∀ io buf w', wadfsWrite io w path buf len offset = some (w', (len.toNat : Int)) →
    offset.toInt = d.size.toNat

/-- The low 32 bits of the offset are the size only where the offset is, or else the
file is not the last one in the data. -/
def WriteOffsetKept (w : Wad) (d : WadDescriptor) (len : UInt64) (offset : Int64) : Prop :=
  len.toNat = 0 ∨ offset.toInt = d.size.toNat ∨ offset.toInt % 2 ^ 32 ≠ d.size.toNat ∨
    d.size ≠ 0 ∧ d.offset + d.size ≠ w.doffset

section Write

variable {w : Wad} {path : Bytes} {i : Nat} {d : WadDescriptor}
  (hres : w.resolveFile path = some (some (i, d))) {len : UInt64} (hlen : len.toNat < 2 ^ 31)
  {offset : Int64} (hoff : 0 ≤ offset.toInt)
include hres hlen hoff

/-- What `wadfs_write` computes for a buffer that is not empty. -/
theorem wadfsWrite_eq (hpos : 0 < len.toNat) (io : Pwrites) (buf : Bytes) :
    wadfsWrite io w path buf len offset =
      some (if offset.toInt % 2 ^ 32 = d.size.toNat ∧ (d.size ≠ 0 → d.offset + d.size = w.doffset)
        then (w.append io i (startOf w d) buf len.toUInt32.toInt32, (len.toNat : Int))
        else (w, -EPERM)) := by
  have hlow : offset.toInt32.toUInt32 = d.size ↔ offset.toInt % 2 ^ 32 = d.size.toNat := by
    rw [← UInt32.toNat_inj, toNat_narrowed hoff]
    omega
  have hrefused : ¬ (0 : Int) = len.toNat := by omega
  rw [wadfsWrite, Wad.writeToFile, hres, Option.map_some, Option.map_some]
  simp only [toInt_len hlen, ne_eq, hlow, startOf]
  by_cases hsame : offset.toInt % 2 ^ 32 = d.size.toNat
  · by_cases hzero : d.size = 0
    · simp only [hsame, hzero, not_true_eq_false, if_false, if_true, false_imp_iff, and_self]
    · by_cases hlast : d.offset + d.size = w.doffset
      · simp only [hsame, hzero, hlast, not_true_eq_false, if_false, if_true, implies_true,
          and_self]
      · rw [if_neg (not_not.mpr hsame), if_neg hzero, if_pos hlast, if_neg hrefused,
          if_neg fun h => hlast (h.2 hzero)]
  · rw [if_pos hsame, if_neg hrefused, if_neg fun h => hsame h.1]

/-- **A write** is accepted at the end of the file only, exactly if its offset does. -/
theorem writesAtEnd_iff :
    WritesAtEnd w path d len offset ↔ WriteOffsetKept w d len offset := by
  rw [WritesAtEnd, WriteOffsetKept]
  rcases Nat.eq_zero_or_pos len.toNat with hzero | hpos
  · exact iff_of_true (fun hpos => absurd hpos (by omega)) (Or.inl hzero)
  · have hwrite := wadfsWrite_eq hres hlen hoff hpos
    by_cases haccepted : offset.toInt % 2 ^ 32 = d.size.toNat ∧
        (d.size ≠ 0 → d.offset + d.size = w.doffset)
    · simp only [if_pos haccepted] at hwrite
      refine ⟨fun h => Or.inr (Or.inl (h hpos allBytes [] _ (hwrite _ _))), fun h _ _ _ _ _ => ?_⟩
      obtain ⟨hsame, hlast⟩ := haccepted
      rcases h with hzero | hend | hdiff | ⟨hsize, hdata⟩
      · omega
      · exact hend
      · exact absurd hsame hdiff
      · exact absurd (hlast hsize) hdata
    · simp only [if_neg haccepted] at hwrite
      refine iff_of_true (fun _ io buf w' hw' => ?_) ?_
      · rw [hwrite] at hw'
        have hres' := (Prod.mk.inj (Option.some.inj hw')).2
        simp only [EPERM] at hres'
        omega
      · by_cases hsame : offset.toInt % 2 ^ 32 = d.size.toNat
        · exact Or.inr (Or.inr (Or.inr (Classical.not_imp.mp fun h => haccepted ⟨hsame, h⟩)))
        · exact Or.inr (Or.inr (Or.inl hsame))

end Write

/-! ## Both -/

/-- **Where 64-bit offsets are honoured.** For a file of less than two gigabytes that
lies in the WAD, `wadfs_read` delivers the bytes from `offset` on, whatever bytes the
WAD holds, and `wadfs_write` accepts a buffer at the end of the file only, exactly if
what is left of the offset in the library means the same. -/
theorem offsets_honoured_iff {w : Wad} {path : Bytes} {i : Nat} {d : WadDescriptor}
    (hres : w.resolveFile path = some (some (i, d))) (hsize : d.size.toNat < 2 ^ 31)
    (hlump : d.offset.toNat + d.size.toNat ≤ w.file.length) {len : UInt64}
    (hlen : len.toNat < 2 ^ 31) {offset : Int64} (hoff : 0 ≤ offset.toInt) :
    (∀ file, file.length = w.file.length → ReadsFile { w with file } path d len offset) ∧
        WritesAtEnd w path d len offset ↔
      ReadOffsetKept w d len offset ∧ WriteOffsetKept w d len offset := by
  rw [readsFile_iff hres hsize hlen hlump hoff, writesAtEnd_iff hres hlen hoff]

/-- A WAD with the file `A`, which holds the bytes 1 to 4. -/
def fourBytes : Wad where
  file := chars ['I', 'W', 'A', 'D'] ++ leBytes 4 1 ++ leBytes 4 16 ++ [1, 2, 3, 4] ++
    tableBytes [⟨12, 4, Name.ofBytes (chars ['A'])⟩]
  magic := chars ['I', 'W', 'A', 'D']
  doffset := 16
  descriptors := [⟨12, 4, Name.ofBytes (chars ['A'])⟩]

/-- `/A` is the file of four bytes. -/
theorem resolveFile_fourBytes :
    fourBytes.resolveFile (chars ['/', 'A']) =
      some (some (0, ⟨12, 4, Name.ofBytes (chars ['A'])⟩)) := by
  decide +kernel

/-- What is behind offset 1 is read, and nothing can be written there. -/
theorem offsets_honoured_iff_fourBytes :
    (∀ file, file.length = fourBytes.file.length →
      ReadsFile { fourBytes with file } (chars ['/', 'A'])
        ⟨12, 4, Name.ofBytes (chars ['A'])⟩ 8 1) ∧
      WritesAtEnd fourBytes (chars ['/', 'A']) ⟨12, 4, Name.ofBytes (chars ['A'])⟩ 8 1 :=
  (offsets_honoured_iff resolveFile_fourBytes (by decide) (by decide) (by decide) (by decide)).mpr
    ⟨Or.inr (by decide), Or.inr (Or.inr (Or.inl (by decide)))⟩

/-- A read at `2 ^ 32`, far behind the end, delivers the first byte. -/
theorem read_at_two_pow_32 :
    ¬ ∀ (file : Bytes) (w : Wad), Wad.loadWad file = some w →
      ∀ (path : Bytes) (i : Nat) (d : WadDescriptor), w.resolveFile path = some (some (i, d)) →
        d.size.toNat < 2 ^ 31 → d.offset.toNat + d.size.toNat ≤ w.file.length →
        ∀ (len : UInt64) (offset : Int64), len.toNat < 2 ^ 31 → 0 ≤ offset.toInt →
          ReadsFile w path d len offset ∧ WritesAtEnd w path d len offset := by
  intro hall
  have hload : Wad.loadWad fourBytes.file = some fourBytes := by decide +kernel
  have hread := (hall _ _ hload _ 0 _ resolveFile_fourBytes (by decide) (by decide) 1
    4294967296 (by decide) (by decide)).1
  have hone : wadfsRead fourBytes (chars ['/', 'A']) 1 4294967296 = some (1, [1]) := by
    decide +kernel
  rw [ReadsFile, hone] at hread
  revert hread
  decide +kernel

end Cop4600
