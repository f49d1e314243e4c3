import Cop4600.Limits

/-!
# Writes that break off

`writeToFile` looks at none of its three `pwrite`s: what it returns is `length`, however
much of the header, the buffer and the table has been transferred. So a write that is
reported can be lost (`reported_write_lost`). It is durable where everything that the three
calls leave out stands in the file already, and neither `doffset` nor the size of the file
wraps around (`reported_durable`).

The file is then exactly the state in memory, and that needs the whole condition
(`durable_append_iff`). A client of the reloaded file sees less than this: bytes left over
in it can happen to show what has been written though the header has not been.
-/

namespace Cop4600

open Outline Storage

/-! ## What a file loads as -/

/-- The file, which is taken to go on with zeros, shows the state. -/
structure Stored (w : Wad) : Prop where
  /-- there is a whole header -/
  long : 12 ≤ w.file.length
  /-- with the same magic -/
  magic : readAt w.file 4 0 = w.magic
  /-- the number of descriptors fits it -/
  count : w.descriptors.length < 2 ^ 32
  /-- and stands in it -/
  dcount : Stands w.file 4 (leBytes 4 w.descriptors.length)
  /-- so does the offset of the table -/
  doffset : Stands w.file 8 (leBytes 4 w.doffset.toNat)
  /-- there the table stands -/
  table : Stands w.file w.doffset.toNat (tableBytes w.descriptors)

/-- A loaded WAD keeps the file it was loaded from. -/
theorem file_of_loadWad {file : Bytes} {w : Wad} (h : Wad.loadWad file = some w) :
    w.file = file := by
  rw [Wad.loadWad] at h
  split at h
  · cases h
  · obtain rfl := Option.some.inj h
    rfl

/-- No shorter file is loaded than one with a whole header. -/
theorem long_of_loadWad {file : Bytes} {w : Wad} (h : Wad.loadWad file = some w) :
    12 ≤ file.length := by
  rw [Wad.loadWad] at h
  split at h
  · cases h
  · omega

/-- **A file loads as a state** exactly if it shows it. -/
theorem loadWad_iff_stored {w : Wad} : Wad.loadWad w.file = some w ↔ Stored w := by
  have hword {off : Nat} {bs : Bytes} (hlong : 12 ≤ w.file.length) (hoff : off + 4 ≤ 12)
      (hbs : bs.length = 4) : Stands w.file off bs ↔ readAt w.file 4 off = bs :=
    stands_iff_readAt hbs (by omega)
  refine ⟨fun h => ?_, fun h => ?_⟩
  · have hlong := long_of_loadWad h
    have hlt := loadWad_count h
    have hread {off : Nat} (hoff : off + 4 ≤ 12) : (readAt w.file 4 off).length = 4 :=
      length_readAt_of_le (by omega)
    rw [Wad.loadWad, if_neg (by omega)] at h
    have hw := Option.some.inj h
    have hdescriptors := congrArg Wad.descriptors hw
    have hdoffset := congrArg (fun v => v.doffset.toNat) hw
    have hcount := congrArg List.length hdescriptors
    simp only [length_readTable] at hcount
    simp only [toNat_ofNat_leNat (hread (Nat.le_refl 12))] at hdoffset
    refine ⟨hlong, congrArg Wad.magic hw, hlt, ?_, ?_, ?_⟩
    · rw [hword hlong (by decide) (length_leBytes _ _), ← hcount, leBytes_leNat (hread (by decide))]
    · rw [hword hlong (by decide) (length_leBytes _ _), ← hdoffset,
        leBytes_leNat (hread (by decide))]
    · rw [Stands, length_tableBytes, ← hdescriptors, length_readTable, ← hdoffset]
      exact (tableBytes_readTable (List.takeD_length ..)).symm
  · have hlong := h.long
    have hdcount := (hword hlong (by decide) (length_leBytes _ _)).mp h.dcount
    have hdoffset := (hword hlong (by decide) (length_leBytes _ _)).mp h.doffset
    have htable := h.table
    rw [Stands, length_tableBytes, bytesAt] at htable
    rw [Wad.loadWad, if_neg (by omega)]
    simp only [h.magic, hdcount, hdoffset, leNat_leBytes_of_lt h.count,
      leNat_leBytes_of_lt w.doffset.toNat_lt, htable, readTable_tableBytes, UInt32.ofNat_toNat]

/-- What is loaded is shown by its file. -/
theorem stored_of_loadWad {file : Bytes} {w : Wad} (h : Wad.loadWad file = some w) :
    Stored w := by
  rw [← loadWad_iff_stored, file_of_loadWad h]
  exact h

/-! ## What an append leaves on disk -/

/-- What is left out of these bytes when only `sent` of them are written stands in the file
already. -/
def RestStands (f : Bytes) (off : Nat) (bs : Bytes) (sent : Nat) : Prop :=
  Stands f (off + sent) (bs.drop sent)

instance (f : Bytes) (off : Nat) (bs : Bytes) (sent : Nat) : Decidable (RestStands f off bs sent) :=
  inferInstanceAs (Decidable (Stands _ _ _))

section Append

variable {w : Wad} (hbehind : 12 ≤ w.doffset.toNat) {length : Int32} (hpos : 0 ≤ length.toInt)
  (hfits : w.doffset.toNat + length.toInt.toNat < 2 ^ 32) (io : Pwrites) (i : Nat) (start : UInt32)
  (buffer : Bytes)
include hpos hfits

/-- What is in front of the old table is not written over, but for the offset in the header. -/
theorem readAt_append {n off : Nat} (hclear : off + n ≤ 8 ∨ 12 ≤ off)
    (hhigh : off + n ≤ w.doffset.toNat) (hfile : off + n ≤ w.file.length) :
    readAt (w.append io i start buffer length).file n off = readAt w.file n off := by
  have h₁ := length_le_writeAt w.file
    ((leBytes 4 (w.doffset.toNat + length.toInt.toNat)).take (io 0 4)) 8
  have h₂ := length_le_writeAt (writeAt w.file
    ((leBytes 4 (w.doffset.toNat + length.toInt.toNat)).take (io 0 4)) 8)
    ((buffer.take length.toInt.toNat).take (io 1 length.toInt.toNat)) w.doffset.toNat
  rw [(append_file io i start buffer hpos hfits).2,
    readAt_writeAt_of_disjoint _ (by omega) (Or.inl (by omega)),
    readAt_writeAt_of_disjoint _ (by omega) (Or.inl (by omega)),
    readAt_writeAt_of_disjoint _ hfile (hclear.imp_right fun _ => ?_)]
  rw [List.length_take, length_leBytes]
  omega

include hbehind

/-- **The state is on disk** after an append if what its header and its table are short of
was there before. -/
theorem stored_append_iff (hstored : Stored w) :
    Stored (w.append io i start buffer length) ↔
      RestStands w.file 8 (leBytes 4 (w.doffset.toNat + length.toInt.toNat)) (io 0 4) ∧
        RestStands w.file (w.doffset.toNat + length.toInt.toNat)
          (tableBytes (w.descriptors.modify i (appended start length)))
          (io 2 (w.descriptors.length * 16)) := by
  obtain ⟨hdoffset, hfile⟩ := append_file io i start buffer hpos hfits
  have hheader : Stands (w.append io i start buffer length).file 8
      (leBytes 4 (w.doffset.toNat + length.toInt.toNat)) ↔
        RestStands w.file 8 (leBytes 4 (w.doffset.toNat + length.toInt.toNat)) (io 0 4) := by
    rw [hfile, stands_writeAt_of_disjoint (Or.inl (by rw [length_leBytes]; omega)),
      stands_writeAt_of_disjoint (Or.inl (by rw [length_leBytes]; omega)), stands_writeAt_take]
    rfl
  have htable : Stands (w.append io i start buffer length).file
      (w.doffset.toNat + length.toInt.toNat)
      (tableBytes (w.descriptors.modify i (appended start length))) ↔
        RestStands w.file (w.doffset.toNat + length.toInt.toNat)
          (tableBytes (w.descriptors.modify i (appended start length)))
          (io 2 (w.descriptors.length * 16)) := by
    rw [hfile, stands_writeAt_take, stands_writeAt_of_disjoint (Or.inr ?_),
      stands_writeAt_of_disjoint (Or.inr ?_)]
    · rfl
    · rw [List.length_take, length_leBytes]
      omega
    · rw [List.length_take, List.length_take]
      omega
  have hnew : (w.append io i start buffer length).doffset.toNat =
      w.doffset.toNat + length.toInt.toNat := hdoffset
  have hcount : (w.append io i start buffer length).descriptors.length = w.descriptors.length :=
    List.length_modify ..
  have hlong := hstored.long
  rw [← hheader, ← htable]
  refine ⟨fun h => ⟨?_, ?_⟩, fun ⟨hdoff, htab⟩ => ⟨?_, ?_, ?_, ?_, ?_, ?_⟩⟩
  · rw [← hnew]
    exact h.doffset
  · rw [← hnew]
    exact h.table
  · rw [hfile]
    exact hlong.trans ((length_le_writeAt _ _ _).trans ((length_le_writeAt _ _ _).trans
      (length_le_writeAt _ _ _)))
  · rw [readAt_append hpos hfits io i start buffer (Or.inl (by omega)) (by omega) (by omega)]
    exact hstored.magic
  · rw [hcount]
    exact hstored.count
  · rw [hcount, hfile, stands_writeAt_of_disjoint (Or.inl ?_),
      stands_writeAt_of_disjoint (Or.inl ?_), stands_writeAt_of_disjoint (Or.inl ?_)]
    · exact hstored.dcount
    · rw [length_leBytes]
    · rw [length_leBytes]
      omega
    · rw [length_leBytes]
      omega
  · rw [hnew]
    exact hdoff
  · rw [hnew]
    exact htab

/-- **The buffer is on disk** after an append if what has not been written was there
before. -/
theorem readAt_append_buffer (hbuffer : length.toInt.toNat ≤ buffer.length)
    (hlong : w.doffset.toNat + length.toInt.toNat ≤
      (w.append io i start buffer length).file.length) :
    readAt (w.append io i start buffer length).file length.toInt.toNat w.doffset.toNat =
        buffer.take length.toInt.toNat ↔
      RestStands w.file w.doffset.toNat (buffer.take length.toInt.toNat)
        (io 1 length.toInt.toNat) := by
  have hlen : (buffer.take length.toInt.toNat).length = length.toInt.toNat := by
    rw [List.length_take, Nat.min_eq_left hbuffer]
  rw [← stands_iff_readAt hlen hlong, (append_file io i start buffer hpos hfits).2,
    stands_writeAt_of_disjoint (Or.inl (by rw [hlen])), stands_writeAt_take,
    stands_writeAt_of_disjoint (Or.inr ?_)]
  · rfl
  · rw [List.length_take, length_leBytes]
    omega

end Append

/-! ## Reported writes -/

/-- `v` shows these bytes at the end of the file at `path`, and every other file as it was in
`w`, to whoever asks for sizes and contents. -/
structure ShowsWrite (w : Wad) (path bytes : Bytes) (v : Wad) : Prop where
  /-- the file has grown by the bytes, at its end -/
  written : ∃ size old, w.getSize path = some size ∧ w.wholeFile path = some (size, old) ∧
    v.getSize path = some (size + bytes.length) ∧
    v.wholeFile path = some (size + bytes.length, old ++ bytes)
  /-- all other files are what they were -/
  others : ∀ path' j e, w.resolveFile path' = some (some (j, e)) →
    w.resolveFile path' ≠ w.resolveFile path →
    v.getSize path' = w.getSize path' ∧ ∀ length offset : Int32, 0 ≤ offset.toInt →
      v.getContents path' length offset = w.getContents path' length offset

/-- A call of `writeToFile` that returns `length` has left a file that loads and shows the
write; any other has left the descriptors and `doffset` alone. -/
def Wad.ReportsDurably (w : Wad) (io : Pwrites) (path buffer : Bytes) (length offset : Int32) :
    Prop :=
  ∃ w' r, w.writeToFile io path buffer length offset = some (w', r) ∧
    (r = length.toInt → ∃ v, Wad.loadWad w'.file = some v ∧
      ShowsWrite w path (buffer.take length.toInt.toNat) v) ∧
    (r ≠ length.toInt → w'.descriptors = w.descriptors ∧ w'.doffset = w.doffset)

/-- The write is on disk: the file loads as the state in memory, with the data in front of
the table, and that state shows the write. -/
structure Durable (w : Wad) (path bytes : Bytes) (w' : Wad) : Prop where
  /-- the file loads as what is in memory -/
  reloads : Wad.loadWad w'.file = some w'
  /-- the data is in front of the table -/
  dataBefore : w'.DataBefore
  /-- what is loaded shows the write -/
  shows : ShowsWrite w path bytes w'

/-- What a write to this file leaves out stands in the file already, in the header, behind
the data and behind the buffer. -/
structure NothingMissing (w : Wad) (io : Pwrites) (i : Nat) (d : WadDescriptor) (buffer : Bytes)
    (length : Int32) : Prop where
  /-- the offset of the table in the header -/
  header : RestStands w.file 8 (leBytes 4 (w.doffset.toNat + length.toInt.toNat)) (io 0 4)
  /-- the buffer -/
  data : RestStands w.file w.doffset.toNat (buffer.take length.toInt.toNat)
    (io 1 length.toInt.toNat)
  /-- the table behind it -/
  table : RestStands w.file (w.doffset.toNat + length.toInt.toNat)
    (tableBytes (w.descriptors.modify i (appended (startOf w d) length)))
    (io 2 (w.descriptors.length * 16))

/-- Neither `doffset` nor the size of this file, as an `int`, wraps around, and nothing is
missing. -/
structure Kept (w : Wad) (io : Pwrites) (i : Nat) (d : WadDescriptor) (buffer : Bytes)
    (length : Int32) : Prop extends NothingMissing w io i d buffer length where
  /-- the table can be found -/
  doffset : w.doffset.toNat + length.toInt.toNat < 2 ^ 32
  /-- the size is not negative as an `int` -/
  size : d.size.toNat + length.toInt.toNat < 2 ^ 31

/-- Nothing is left out of what is written to its end. -/
theorem restStands_of_length_le {f bs : Bytes} {off sent : Nat} (h : bs.length ≤ sent) :
    RestStands f off bs sent := by
  rw [RestStands, List.drop_eq_nil_of_le h]
  rfl

/-- Nothing is missing where every `pwrite` transfers what it is asked to. -/
theorem nothingMissing_of_complete {io : Pwrites} (hio : ∀ k n, n ≤ io k n) (w : Wad) (i : Nat)
    (d : WadDescriptor) (buffer : Bytes) (length : Int32) :
    NothingMissing w io i d buffer length := by
  refine ⟨?_, ?_, ?_⟩
  · apply restStands_of_length_le
    rw [length_leBytes]
    exact hio 0 4
  · apply restStands_of_length_le
    rw [List.length_take]
    exact (Nat.min_le_left _ _).trans (hio 1 _)
  · apply restStands_of_length_le
    rw [length_tableBytes, List.length_modify]
    exact hio 2 _

/-! ### What sizes say -/

/-- `getSize` gives an `int`. -/
theorem Wad.getSize_lt {w : Wad} {path : Bytes} {size : Int} (h : w.getSize path = some size) :
    size < 2 ^ 31 := by
  obtain ⟨target, -, rfl⟩ := Option.map_eq_some_iff.mp h
  rcases target with _ | ⟨i, d⟩
  · decide
  · exact d.size.toInt32.toInt_lt

/-- A file that is as long as `getSize` says has a size that is not negative as an `int`. -/
theorem Wad.size_of_wholeFile {w : Wad} {path : Bytes} {i : Nat} {d : WadDescriptor}
    (hfile : w.resolveFile path = some (some (i, d))) {size : Int} {old : Bytes}
    (hsize : w.getSize path = some size) (hwhole : w.wholeFile path = some (size, old)) :
    size = d.size.toNat := by
  have hint : d.size.toInt32.toInt = size := by
    rw [Wad.getSize, hfile, Option.map_some] at hsize
    exact Option.some.inj hsize
  have hzero : (0 : Int32).toInt = 0 := by decide
  have hnonneg : 0 ≤ size := by
    rw [Wad.wholeFile, hsize, Option.bind_some, Wad.getContents, hfile, Option.map_some] at hwhole
    simp only [hint, hzero] at hwhole
    split at hwhole
    · -- nothing has been read, so the size is zero
      exact Int.le_of_eq (Prod.mk.inj (Option.some.inj hwhole)).1
    · omega
  rw [toNat_of_toInt32_nonneg (hint ▸ hnonneg), hint]
  omega

/-- **The size that a write leads to** is an `int`, if any loaded WAD is to show it. -/
theorem ShowsWrite.size {w v : Wad} {path bytes : Bytes} (h : ShowsWrite w path bytes v) {i : Nat}
    {d : WadDescriptor} (hfile : w.resolveFile path = some (some (i, d))) :
    d.size.toNat + bytes.length < 2 ^ 31 := by
  obtain ⟨size, old, hsize, hwhole, hsize', -⟩ := h.written
  have hlt := Wad.getSize_lt hsize'
  have heq := Wad.size_of_wholeFile hfile hsize hwhole
  omega

section Reported

variable {file : Bytes} {w : Wad} (hload : Wad.loadWad file = some w)
  (hbehind : 12 ≤ w.doffset.toNat)
  (hdata : ∀ d ∈ w.descriptors, d.size ≠ 0 →
    12 ≤ d.offset.toNat ∧ d.offset.toNat + d.size.toNat ≤ w.doffset.toNat)
include hload hdata

/-- The file holds the data of every descriptor. -/
theorem length_contents_of_loadWad {e : WadDescriptor} (he : e ∈ w.descriptors) :
    (w.contents e).length = e.size.toNat := by
  by_cases hsize : e.size = 0
  · simp [Wad.contents, hsize]
  · obtain ⟨hlow, hhigh⟩ := hdata e he hsize
    have hlt := doffset_lt_of_loadWad hload he hsize
    exact length_readAt_of_le (by omega)

/-- The data of an old descriptor is where it was. -/
theorem contents_append_old (io : Pwrites) (i : Nat) (start : UInt32) (buffer : Bytes)
    {length : Int32} (hpos : 0 ≤ length.toInt)
    (hfits : w.doffset.toNat + length.toInt.toNat < 2 ^ 32) {e : WadDescriptor}
    (he : e ∈ w.descriptors) :
    (w.append io i start buffer length).contents e = w.contents e := by
  by_cases hsize : e.size = 0
  · simp [Wad.contents, hsize]
  · obtain ⟨hlow, hhigh⟩ := hdata e he hsize
    have hlt := doffset_lt_of_loadWad hload he hsize
    exact readAt_append hpos hfits io i start buffer (Or.inr hlow) hhigh (by omega)

include hbehind

/-- **The contents of the file appended to**, once the state is on disk: the buffer follows
if nothing of it is missing. -/
theorem contents_append_iff {io : Pwrites} {i : Nat} {d : WadDescriptor}
    (hi : w.descriptors[i]? = some d) (hend : (startOf w d).toNat + d.size.toNat = w.doffset.toNat)
    {buffer : Bytes} {length : Int32} (hlength : 0 < length.toInt)
    (hbuffer : length.toInt.toNat ≤ buffer.length)
    (hfits : w.doffset.toNat + length.toInt.toNat < 2 ^ 32)
    (hreload : Wad.loadWad (w.append io i (startOf w d) buffer length).file =
      some (w.append io i (startOf w d) buffer length)) :
    (w.append io i (startOf w d) buffer length).contents (appended (startOf w d) length d) =
        w.contents d ++ buffer.take length.toInt.toNat ↔
      RestStands w.file w.doffset.toNat (buffer.take length.toInt.toNat)
        (io 1 length.toInt.toNat) := by
  have hpos := Int.le_of_lt hlength
  have hmem : appended (startOf w d) length d ∈
      (w.append io i (startOf w d) buffer length).descriptors := by
    refine List.mem_of_getElem? (i := i) ?_
    have htable : (w.append io i (startOf w d) buffer length).descriptors =
        w.descriptors.modify i (appended (startOf w d) length) := rfl
    rw [htable, List.getElem?_modify_eq, hi]
    rfl
  have hsize : (appended (startOf w d) length d).size.toNat =
      d.size.toNat + length.toInt.toNat := size_appended_of_fits hpos (by omega)
  have hlong := doffset_lt_of_loadWad hreload hmem fun hzero => by
    rw [hzero] at hsize
    have : (0 : UInt32).toNat = 0 := rfl
    omega
  have hnew : (w.append io i (startOf w d) buffer length).doffset =
    w.doffset + length.toUInt32 := rfl
  rw [hnew, (append_file io i (startOf w d) buffer hpos hfits).1] at hlong
  have hstart : (appended (startOf w d) length d).offset = startOf w d := rfl
  have hold : readAt (w.append io i (startOf w d) buffer length).file
      d.size.toNat (startOf w d).toNat = w.contents d := by
    by_cases hzero : d.size = 0
    · simp [Wad.contents, hzero]
    · rw [startOf, if_neg hzero]
      exact contents_append_old hload hdata io _ _ buffer hpos hfits (List.mem_of_getElem? hi)
  rw [Wad.contents, hsize, hstart, readAt_add, hold, hend, List.append_cancel_left_eq]
  exact readAt_append_buffer hbehind hpos hfits io _ _ buffer hbuffer (Nat.le_of_lt hlong)

variable {F : WadForest} (hF : WellFormed F) (hw : w.descriptors = flattenAll F)
include hF hw

omit hdata hload hbehind in
/-- The path of the file appended to leads to its new descriptor. -/
theorem resolveFile_append {path : Bytes} {as : List Nat} {d : WadDescriptor}
    (hfile : LeadsTo F path as d) (io : Pwrites) (start : UInt32) (buffer : Bytes)
    (length : Int32) :
    (w.append io (position F as) start buffer length).resolveFile path =
      some (some (position F as, appended start length d)) := by
  have hforest : ForestStep F (.writeToFile path buffer length 0)
      (updateAt F as (appended start length)) := .rewritten hfile.file fun _ => rfl
  have hw' : (w.append io (position F as) start buffer length).descriptors =
      flattenAll (updateAt F as (appended start length)) :=
    append_position hw hfile.file start buffer length
  have hlead := hfile.forestStep hforest (nodeAt_updateAt_self _ hfile.file)
  have hresolve := hlead.resolveFile (hforest.wellFormed hF) hw'
  rwa [position_updateAt] at hresolve

omit hdata hload hbehind in
/-- And the path of any other file to the one that it had. -/
theorem resolveFile_append_other {path path' : Bytes} {as : List Nat} {d e : WadDescriptor}
    {j : Nat} (hfile : LeadsTo F path as d) (hfile' : w.resolveFile path' = some (some (j, e)))
    (hother : w.resolveFile path' ≠ w.resolveFile path) (io : Pwrites) (start : UInt32)
    (buffer : Bytes) (length : Int32) :
    (w.append io (position F as) start buffer length).resolveFile path' = some (some (j, e)) := by
  obtain ⟨as', hlead', rfl⟩ := leadsTo_of_resolveFile hF hw hfile'
  have has : as' ≠ as := by
    rintro rfl
    obtain rfl := Outline.item.inj (Option.some.inj (hlead'.file.symm.trans hfile.file))
    exact hother (hfile'.trans (hfile.resolveFile hF hw).symm)
  have hforest : ForestStep F (.writeToFile path buffer length 0)
      (updateAt F as (appended start length)) := .rewritten hfile.file fun _ => rfl
  have hw' : (w.append io (position F as) start buffer length).descriptors =
      flattenAll (updateAt F as (appended start length)) :=
    append_position hw hfile.file start buffer length
  have hlead := hlead'.forestStep hforest (nodeAt_updateAt_ne _ has hlead'.file)
  have hresolve := hlead.resolveFile (hforest.wellFormed hF) hw'
  rwa [position_updateAt] at hresolve

omit hbehind in
/-- The state in memory shows the write once the buffer follows the old bytes of the file. -/
theorem showsWrite_append {path : Bytes} {as : List Nat} {d : WadDescriptor}
    (hfile : LeadsTo F path as d) {io : Pwrites} {buffer : Bytes} {length : Int32}
    (hpos : 0 ≤ length.toInt) (hbuffer : length.toInt.toNat ≤ buffer.length)
    (hfits : w.doffset.toNat + length.toInt.toNat < 2 ^ 32)
    (hsmall : d.size.toNat + length.toInt.toNat < 2 ^ 31)
    (hcontents : (w.append io (position F as) (startOf w d) buffer length).contents
      (appended (startOf w d) length d) = w.contents d ++ buffer.take length.toInt.toNat) :
    ShowsWrite w path (buffer.take length.toInt.toNat)
      (w.append io (position F as) (startOf w d) buffer length) := by
  have hres := hfile.resolveFile hF hw
  have hres' := resolveFile_append hF hw hfile io (startOf w d) buffer length
  have hlen : (buffer.take length.toInt.toNat).length = length.toInt.toNat := by
    rw [List.length_take, Nat.min_eq_left hbuffer]
  have hold := length_contents_of_loadWad hload hdata
    (List.mem_of_getElem? (getElem?_of_resolveFile hres))
  have hsize : (appended (startOf w d) length d).size.toNat =
      d.size.toNat + length.toInt.toNat := size_appended_of_fits hpos (by omega)
  refine ⟨⟨d.size.toNat, w.contents d, Wad.getSize_of_file hres (by omega),
    by rw [Wad.wholeFile_of_file hres (by omega), hold], ?_, ?_⟩,
    fun path' j e hfile' hother => ?_⟩
  · rw [Wad.getSize_of_file hres' (by omega), hsize, hlen]
    rfl
  · rw [Wad.wholeFile_of_file hres' (by omega), hcontents, List.length_append, hold]
    rfl
  · have hres₁ := resolveFile_append_other hF hw hfile hfile' hother io (startOf w d) buffer length
    have hmem := List.mem_of_getElem? (getElem?_of_resolveFile hfile')
    have hlt := w.doffset.toNat_lt
    refine ⟨?_, fun length' offset' hoffset => ?_⟩
    · rw [Wad.getSize, Wad.getSize, hfile', hres₁]
    · refine Wad.getContents_congr hfile' hres₁
        (contents_append_old hload hdata io _ _ buffer hpos hfits hmem) (fun hne => ?_) _ hoffset
      exact Nat.lt_of_le_of_lt (hdata e hmem hne).2 hlt

/-- **An accepted write is on disk** if no number wraps around and nothing is missing, and
only then. -/
theorem durable_append_iff {path : Bytes} {as : List Nat} {d : WadDescriptor}
    (hfile : LeadsTo F path as d) {offset : Int32} (haccepts : w.Accepts d offset)
    {buffer : Bytes} {length : Int32} (hlength : 0 < length.toInt)
    (hbuffer : length.toInt.toNat ≤ buffer.length) (io : Pwrites) :
    Durable w path (buffer.take length.toInt.toNat)
        (w.append io (position F as) (startOf w d) buffer length) ↔
      Kept w io (position F as) d buffer length := by
  have hpos := Int.le_of_lt hlength
  have hres := hfile.resolveFile hF hw
  have hi := getElem?_of_resolveFile hres
  have hres' := resolveFile_append hF hw hfile io (startOf w d) buffer length
  have hbefore : w.DataBefore := fun e he hsize => (hdata e he hsize).2
  have hend := hbefore.startOf_add_size (List.mem_of_getElem? hi) haccepts.2.resolve_left
  have hlen : (buffer.take length.toInt.toNat).length = length.toInt.toNat := by
    rw [List.length_take, Nat.min_eq_left hbuffer]
  have hstored := stored_of_loadWad hload
  have hstart : (appended (startOf w d) length d).offset = startOf w d := rfl
  refine ⟨fun h => ?_, fun h => ?_⟩
  · have hsmall := h.shows.size hres
    rw [hlen] at hsmall
    have hsize : (appended (startOf w d) length d).size.toNat =
        d.size.toNat + length.toInt.toNat := size_appended_of_fits hpos (by omega)
    have hfits : w.doffset.toNat + length.toInt.toNat < 2 ^ 32 := by
      have hdata' := h.dataBefore _ (List.mem_of_getElem? (getElem?_of_resolveFile hres'))
        fun hzero => by
          rw [hzero] at hsize
          have : (0 : UInt32).toNat = 0 := rfl
          omega
      have hlt := (w.append io (position F as) (startOf w d) buffer length).doffset.toNat_lt
      rw [hsize, hstart] at hdata'
      omega
    obtain ⟨hheader, htable⟩ := (stored_append_iff hbehind hpos hfits io _ _ buffer hstored).mp
      (loadWad_iff_stored.mp h.reloads)
    have hcontents : (w.append io (position F as) (startOf w d) buffer length).contents
        (appended (startOf w d) length d) = w.contents d ++ buffer.take length.toInt.toNat := by
      obtain ⟨size, old, -, hwhole, -, hwhole'⟩ := h.shows.written
      rw [Wad.wholeFile_of_file hres (by omega)] at hwhole
      rw [Wad.wholeFile_of_file hres' (by omega)] at hwhole'
      rw [(Prod.mk.inj (Option.some.inj hwhole)).2, (Prod.mk.inj (Option.some.inj hwhole')).2]
    exact ⟨⟨hheader, (contents_append_iff hload hbehind hdata hi hend hlength hbuffer hfits
      h.reloads).mp hcontents, htable⟩, hfits, hsmall⟩
  · have hreload := loadWad_iff_stored.mpr ((stored_append_iff hbehind hpos h.doffset io
      (position F as) (startOf w d) buffer hstored).mpr ⟨h.header, h.table⟩)
    have hgrows := (append_grows_iff hi hpos hbefore haccepts io buffer).mpr h.doffset
    have hcontents := (contents_append_iff hload hbehind hdata hi hend hlength hbuffer h.doffset
      hreload).mpr h.data
    exact ⟨hreload, hgrows.2,
      showsWrite_append hload hdata hF hw hfile hpos hbuffer h.doffset h.size hcontents⟩

/-- **A file with the new header and the new table** loads as the state in memory, so that
a write which it shows is on disk with all its bytes. -/
theorem kept_of_showsWrite {path : Bytes} {i : Nat} {d : WadDescriptor}
    (hres : w.resolveFile path = some (some (i, d))) {offset : Int32}
    (haccepts : w.Accepts d offset) {buffer : Bytes} {length : Int32} (hlength : 0 < length.toInt)
    (hbuffer : length.toInt.toNat ≤ buffer.length) {io : Pwrites}
    (hfits : w.doffset.toNat + length.toInt.toNat < 2 ^ 32)
    (hheader : RestStands w.file 8 (leBytes 4 (w.doffset.toNat + length.toInt.toNat)) (io 0 4))
    (htable : RestStands w.file (w.doffset.toNat + length.toInt.toNat)
      (tableBytes (w.descriptors.modify i (appended (startOf w d) length)))
      (io 2 (w.descriptors.length * 16)))
    {v : Wad} (hv : Wad.loadWad (w.append io i (startOf w d) buffer length).file = some v)
    (hshows : ShowsWrite w path (buffer.take length.toInt.toNat) v) :
    Kept w io i d buffer length := by
  obtain ⟨as, hfile, rfl⟩ := leadsTo_of_resolveFile hF hw hres
  have hpos := Int.le_of_lt hlength
  have hbefore : w.DataBefore := fun e he hsize => (hdata e he hsize).2
  have hreload := loadWad_iff_stored.mpr ((stored_append_iff hbehind hpos hfits io (position F as)
    (startOf w d) buffer (stored_of_loadWad hload)).mpr ⟨hheader, htable⟩)
  obtain rfl := Option.some.inj (hreload.symm.trans hv)
  have hgrows := (append_grows_iff (getElem?_of_resolveFile hres) hpos hbefore haccepts io
    buffer).mpr hfits
  exact (durable_append_iff hload hbehind hdata hF hw hfile haccepts hlength hbuffer io).mp
    ⟨hreload, hgrows.2, hshows⟩

/-- **When a reported write is durable.** Whatever its three `pwrite`s transfer, a call of
`writeToFile` either returns `length` and the file loads and shows the write, or returns
something else and changes neither the descriptors nor `doffset` — provided that, where the
write is accepted, neither `doffset` nor the size wraps around and what the `pwrite`s leave
out stands in the file already. Where the size as an `int` does wrap around, no call is
durable, nor is one that misses a byte of the buffer though header and table stand. -/
theorem reported_durable {path buffer : Bytes} {length offset : Int32}
    (hlength : 0 < length.toInt) (hbuffer : length.toInt.toNat ≤ buffer.length) (io : Pwrites) :
    ((∀ i d, w.resolveFile path = some (some (i, d)) → w.Accepts d offset →
        Kept w io i d buffer length) → w.ReportsDurably io path buffer length offset) ∧
      (w.ReportsDurably io path buffer length offset →
        ∀ i d, w.resolveFile path = some (some (i, d)) → w.Accepts d offset →
          d.size.toNat + length.toInt.toNat < 2 ^ 31 ∧
            (w.doffset.toNat + length.toInt.toNat < 2 ^ 32 →
              RestStands w.file 8 (leBytes 4 (w.doffset.toNat + length.toInt.toNat)) (io 0 4) →
              RestStands w.file (w.doffset.toNat + length.toInt.toNat)
                (tableBytes (w.descriptors.modify i (appended (startOf w d) length)))
                (io 2 (w.descriptors.length * 16)) → Kept w io i d buffer length)) := by
  refine ⟨fun hkept => ?_, fun hreports i d hres haccepts => ?_⟩
  · rcases resolveFile_cases hF hw path with ⟨as, d, hfile, hres⟩ | ⟨-, hres⟩
    · have hwrite := Wad.writeToFile_of_file hres io buffer length offset
      by_cases haccepts : w.Accepts d offset
      · rw [if_pos haccepts] at hwrite
        have hdurable := (durable_append_iff hload hbehind hdata hF hw hfile haccepts hlength
          hbuffer io).mpr (hkept _ d hres haccepts)
        exact ⟨_, _, hwrite, fun _ => ⟨_, hdurable.reloads, hdurable.shows⟩,
          fun hne => absurd rfl hne⟩
      · -- the write is refused
        rw [if_neg haccepts] at hwrite
        exact ⟨w, 0, hwrite, fun h => by omega, fun _ => ⟨rfl, rfl⟩⟩
    · -- there is no such file
      exact ⟨w, -1, Wad.writeToFile_of_none hres io buffer length offset, fun h => by omega,
        fun _ => ⟨rfl, rfl⟩⟩
  · have hwrite := Wad.writeToFile_of_file hres io buffer length offset
    rw [if_pos haccepts] at hwrite
    obtain ⟨w', r, hwrite', hreported, -⟩ := hreports
    obtain ⟨rfl, rfl⟩ := Prod.mk.inj (Option.some.inj (hwrite.symm.trans hwrite'))
    obtain ⟨v, hv, hshows⟩ := hreported rfl
    have hsmall := hshows.size hres
    rw [List.length_take, Nat.min_eq_left hbuffer] at hsmall
    exact ⟨hsmall, fun hfits hheader htable => kept_of_showsWrite hload hbehind hdata hF hw hres
      haccepts hlength hbuffer hfits hheader htable hv hshows⟩

end Reported

/-! ### A write of which nothing is transferred -/

/-- A WAD with one empty file `A`. -/
def oneLump : WadForest := [item (emptyLump ['A'])]

theorem wellFormed_oneLump : WellFormed oneLump := .file (by decide) .nil

/-- A byte that is written to the end of everything is there when the file is loaded. -/
theorem reported_durable_sample :
    ∃ w' v, (tableOnly oneLump).writeToFile allBytes (chars ['/', 'A']) [7] 1 0 = some (w', 1) ∧
      Wad.loadWad w'.file = some v ∧ v.getSize (chars ['/', 'A']) = some 1 ∧
      v.wholeFile (chars ['/', 'A']) = some (1, [7]) := by
  have hres : (tableOnly oneLump).resolveFile (chars ['/', 'A']) =
      some (some (0, emptyLump ['A'])) := by decide +kernel
  have hold : (tableOnly oneLump).getSize (chars ['/', 'A']) = some 0 ∧
      (tableOnly oneLump).wholeFile (chars ['/', 'A']) = some (0, []) := by decide +kernel
  have haccepted : ((tableOnly oneLump).writeToFile allBytes (chars ['/', 'A']) [7] 1 0).map
      Prod.snd = some 1 := by decide +kernel
  obtain ⟨w', r, hwrite, hreported, -⟩ := (@reported_durable _ (tableOnly oneLump)
    (loadWad_of_onDisk (onDisk_tableOnly (by decide))) (by decide) (by decide) oneLump
    wellFormed_oneLump rfl (chars ['/', 'A']) [7] 1 0 (by decide) (by decide) allBytes).1
    fun i d hfile _ => by
      obtain ⟨rfl, rfl⟩ := Prod.mk.inj (Option.some.inj (Option.some.inj (hres.symm.trans hfile)))
      exact ⟨nothingMissing_of_complete (fun _ _ => Nat.le_refl _) _ _ _ _ _, by decide, by decide⟩
  rw [hwrite, Option.map_some, Option.some.injEq] at haccepted
  obtain rfl : r = 1 := haccepted
  obtain ⟨v, hload, hshows⟩ := hreported (by decide)
  obtain ⟨size, old, hsize, hwhole, hsize', hwhole'⟩ := hshows.written
  obtain rfl := Option.some.inj (hold.1.symm.trans hsize)
  obtain rfl := (Prod.mk.inj (Option.some.inj (hold.2.symm.trans hwhole))).2
  exact ⟨w', v, hwrite, hload, hsize', hwhole'⟩

-- Of the header and the table nothing is written here. The old table's place holds the buffer,
-- which happens to be a table that shows what it should.
example : (((tableOnly oneLump).writeToFile (fun k n => if k = 1 then n else 0) (chars ['/', 'A'])
    (descriptorBytes ⟨12, 16, Name.ofBytes (chars ['A'])⟩) 16 0).bind fun p =>
      (Wad.loadWad p.1.file).bind fun v => v.wholeFile (chars ['/', 'A'])) =
    some (16, descriptorBytes ⟨12, 16, Name.ofBytes (chars ['A'])⟩) := by
  decide +kernel

/-- Every `pwrite` fails, the call returns `length`, and the file still shows no byte. -/
theorem reported_write_lost :
    ¬ ∀ (file : Bytes) (w : Wad), Wad.loadWad file = some w → ∀ F : WadForest, WellFormed F →
      w.descriptors = flattenAll F → 12 ≤ w.doffset.toNat →
      (∀ d ∈ w.descriptors, d.size ≠ 0 →
        12 ≤ d.offset.toNat ∧ d.offset.toNat + d.size.toNat ≤ w.doffset.toNat) →
      ∀ (io : Pwrites) (path buffer : Bytes) (length offset : Int32), 0 < length.toInt →
        length.toInt.toNat ≤ buffer.length → w.ReportsDurably io path buffer length offset := by
  intro hall
  have hload := loadWad_of_onDisk (onDisk_tableOnly (F := oneLump) (by decide))
  obtain ⟨w', r, hwrite, hreported, -⟩ := hall _ _ hload oneLump wellFormed_oneLump rfl (by decide)
    (by decide) (fun _ _ => 0) (chars ['/', 'A']) [7] 1 0 (by decide) (by decide)
  have hresult : ((tableOnly oneLump).writeToFile (fun _ _ => 0) (chars ['/', 'A']) [7] 1 0).map
      (fun p => (p.1.file, p.2)) = some ((tableOnly oneLump).file, 1) := by decide +kernel
  rw [hwrite, Option.map_some, Option.some.injEq, Prod.mk.injEq] at hresult
  obtain ⟨v, hv, hshows⟩ := hreported hresult.2
  rw [hresult.1, hload] at hv
  obtain rfl := Option.some.inj hv
  -- the state before shows an empty file, and so does the state loaded afterwards
  have hempty : (tableOnly oneLump).getSize (chars ['/', 'A']) = some 0 := by decide +kernel
  obtain ⟨size, old, hsize, -, hsize', -⟩ := hshows.written
  rw [hempty] at hsize hsize'
  rw [← Option.some.inj hsize] at hsize'
  exact absurd (Option.some.inj hsize') (by decide)

end Cop4600
