import Cop4600.Disk

/-!
# File contents over whole runs

All data lies behind the header and in front of the table (`Layout`). A creation
writes behind the data, an append first puts its buffer where the data ended and
then the table behind that, so the data of every other file is never written over
and the file appended to continues with the buffer. Over a run this makes the
contents of a file its old contents and then the buffers of the accepted writes to
it, in order (`contents_after_run`).
-/

namespace Cop4600

open Outline Storage

/-! ## Reading a whole file -/

/-- The bytes a descriptor stands for. -/
def Wad.contents (w : Wad) (d : WadDescriptor) : Bytes := readAt w.file d.size.toNat d.offset.toNat

/-- `getContents` for as many bytes as `getSize` says. -/
def Wad.wholeFile (w : Wad) (path : Bytes) : Option (Int × Bytes) :=
  (w.getSize path).bind fun size => w.getContents path (Int32.ofInt size) 0

/-- Where the data lies: between the header and the table, and present in the
file. Sizes are not negative as `int`s. -/
structure Layout (w : Wad) : Prop where
  /-- the data begins behind the header -/
  behind : 12 ≤ w.doffset.toNat
  /-- each lump lies there, and the file has all of it -/
  data : ∀ d ∈ w.descriptors, d.size ≠ 0 → 12 ≤ d.offset.toNat ∧
    d.offset.toNat + d.size.toNat ≤ w.doffset.toNat ∧
    d.offset.toNat + d.size.toNat ≤ w.file.length
  /-- its size is not negative as an `int` -/
  sizes : ∀ d ∈ w.descriptors, d.size.toNat < 2 ^ 31

/-- A size below `2 ^ 31` is the same as an `int`. -/
theorem toInt_toInt32_of_lt {x : UInt32} (h : x.toNat < 2 ^ 31) : x.toInt32.toInt = x.toNat := by
  rw [← Int32.toInt_toBitVec, UInt32.toBitVec_toInt32, BitVec.toInt_eq_toNat_of_lt]
  · rfl
  · rw [UInt32.toNat_toBitVec]
    omega

/-- A number that is not negative as an `int` is what it is as a `uint32_t`. -/
theorem toNat_of_toInt32_nonneg {x : UInt32} (h : 0 ≤ x.toInt32.toInt) :
    x.toNat = x.toInt32.toInt.toNat := by
  have hnat := toNat_toUInt32_of_nonneg h
  rwa [UInt32.toUInt32_toInt32] at hnat

/-- What `getSize` returns for a file whose size is not negative as an `int`. -/
theorem Wad.getSize_of_file {w : Wad} {path : Bytes} {i : Nat} {d : WadDescriptor}
    (hfile : w.resolveFile path = some (some (i, d))) (hsize : d.size.toNat < 2 ^ 31) :
    w.getSize path = some (d.size.toNat : Int) := by
  rw [Wad.getSize, hfile, Option.map_some]
  simp only [toInt_toInt32_of_lt hsize]

/-- **Reading a whole file** gives its contents, as far as these are in the WAD. -/
theorem Wad.wholeFile_of_file {w : Wad} {path : Bytes} {i : Nat} {d : WadDescriptor}
    (hfile : w.resolveFile path = some (some (i, d))) (hsize : d.size.toNat < 2 ^ 31) :
    w.wholeFile path = some (((w.contents d).length : Int), w.contents d) := by
  have hint : (Int32.ofInt (d.size.toNat : Int)).toInt = d.size.toNat :=
    Int32.toInt_ofInt_of_le (by omega) (by omega)
  have hzero : (0 : Int32).toInt = 0 := by decide
  have hoff : d.offset + (0 : Int32).toUInt32 = d.offset := UInt32.add_zero _
  rw [Wad.wholeFile, Wad.getSize_of_file hfile hsize, Option.bind_some, Wad.getContents, hfile,
    Option.map_some]
  simp only [toInt_toInt32_of_lt hsize, hint, hzero, hoff, Int.sub_zero, Int.lt_irrefl, if_false]
  by_cases hempty : d.size = 0
  · simp [hempty, Wad.contents]
  · have hpos : d.size.toNat ≠ 0 := fun h => hempty (UInt32.toNat_inj.mp h)
    rw [if_neg (by omega), pread, if_neg (by omega)]
    rfl

/-- Files that agree on a stretch agree on what lies in it. -/
theorem readAt_eq_of_readAt_eq {f g : Bytes} {n off m k : Nat} (h : readAt f n off = readAt g n off)
    (hle : k + m ≤ n) : readAt f m (off + k) = readAt g m (off + k) := by
  have hpart (f : Bytes) : ((readAt f n off).drop k).take m = readAt f m (off + k) := by
    rw [take_drop_readAt, Nat.min_eq_left (by omega)]
  rw [← hpart f, ← hpart g, h]

/-- What is read of a file from a position in it on depends on its contents only. -/
theorem Wad.getContents_congr {w v : Wad} {path : Bytes} {i : Nat} {d : WadDescriptor}
    (hfile : w.resolveFile path = some (some (i, d)))
    (hfile' : v.resolveFile path = some (some (i, d))) (hsame : v.contents d = w.contents d)
    (hend : d.size ≠ 0 → d.offset.toNat + d.size.toNat < 2 ^ 32) (length : Int32) {offset : Int32}
    (hoffset : 0 ≤ offset.toInt) :
    v.getContents path length offset = w.getContents path length offset := by
  rw [Wad.getContents, Wad.getContents, hfile, hfile', Option.map_some, Option.map_some]
  simp only
  by_cases hbehind : d.size.toInt32.toInt ≤ offset.toInt
  · rw [if_pos hbehind, if_pos hbehind]
  · -- what is read lies inside the file, whose offsets do not wrap
    have hsize := toNat_of_toInt32_nonneg (x := d.size) (by omega)
    have hfits := hend fun hzero => by
      rw [hzero] at hbehind
      exact hbehind hoffset
    have hstart : (d.offset + offset.toUInt32).toNat = d.offset.toNat + offset.toInt.toNat := by
      rw [UInt32.toNat_add, toNat_toUInt32_of_nonneg hoffset]
      exact Nat.mod_eq_of_lt (by omega)
    rw [if_neg hbehind, if_neg hbehind, pread, pread, hstart]
    split
    · rw [readAt_eq_of_readAt_eq hsame (by omega)]
    · rw [readAt_eq_of_readAt_eq hsame (by omega)]

/-- In such a layout a reader gets all of a file. -/
theorem wholeFile_eq {w : Wad} {F : WadForest} (hF : WellFormed F)
    (hw : w.descriptors = flattenAll F) (hlay : Layout w) {path : Bytes} {as : List Nat}
    {d : WadDescriptor} (h : LeadsTo F path as d) :
    w.wholeFile path = some ((d.size.toNat : Int), w.contents d) := by
  have hmem : d ∈ w.descriptors := by
    rw [hw]
    exact List.mem_of_getElem? (getElem?_position h.file)
  have hlen : (w.contents d).length = d.size.toNat := by
    by_cases hempty : d.size = 0
    · simp [Wad.contents, hempty]
    · exact length_readAt_of_le (hlay.data d hmem hempty).2.2
  rw [Wad.wholeFile_of_file (h.resolveFile hF hw) (hlay.sizes d hmem), hlen]

/-- Zeroed bytes are read as descriptors without data. -/
theorem size_readTable_of_zeros {n : Nat} : ∀ {bs : Bytes}, (∀ b ∈ bs, b = 0) →
    ∀ d ∈ readTable n bs, d.size = 0 := by
  induction n with
  | zero => intro bs _ d hd; simp [readTable] at hd
  | succ n ih =>
    intro bs hbs d hd
    rw [readTable, List.mem_cons] at hd
    rcases hd with rfl | hd
    · have hsize : leNat (((bs.take 16).drop 4).take 4) = 0 := leNat_of_zeros fun b hb =>
        hbs b (List.mem_of_mem_take (List.mem_of_mem_drop (List.mem_of_mem_take hb)))
      rw [readDescriptor, hsize]
      rfl
    · exact ih (fun b hb => hbs b (List.mem_of_mem_drop hb)) d hd

/-- A file in which a loaded descriptor speaks of data reaches past `doffset`. -/
theorem doffset_lt_of_loadWad {file : Bytes} {w : Wad} (h : Wad.loadWad file = some w)
    {d : WadDescriptor} (hd : d ∈ w.descriptors) (hsize : d.size ≠ 0) :
    w.doffset.toNat < w.file.length := by
  rw [Wad.loadWad] at h
  split at h
  · cases h
  · obtain rfl := Option.some.inj h
    by_contra hge
    rw [toNat_ofNat_leNat (length_readAt_of_le (by omega))] at hge
    simp only [Nat.not_lt] at hge hd
    refine hsize (size_readTable_of_zeros (fun b hb => ?_) d hd)
    rw [readAt_of_length_le hge, List.takeD_nil] at hb
    exact List.eq_of_mem_replicate hb

/-- A WAD that was loaded with its data in front of its table has one, if its sizes fit an
`int`. -/
theorem layout_of_loadWad {file : Bytes} {w : Wad} (h : Wad.loadWad file = some w)
    (hbehind : 12 ≤ w.doffset.toNat) (hdata : ∀ d ∈ w.descriptors, d.size ≠ 0 →
      12 ≤ d.offset.toNat ∧ d.offset.toNat + d.size.toNat ≤ w.doffset.toNat)
    (hsizes : ∀ d ∈ w.descriptors, d.size.toNat < 2 ^ 31) : Layout w where
  behind := hbehind
  data := fun d hd hsize => by
    have := doffset_lt_of_loadWad h hd hsize
    obtain ⟨hlow, hhigh⟩ := hdata d hd hsize
    exact ⟨hlow, hhigh, by omega⟩
  sizes := hsizes

/-- The data is in front of the table. -/
theorem Layout.dataBefore {w : Wad} (h : Layout w) : w.DataBefore :=
  fun d hd hsize => (h.data d hd hsize).2.1

/-! ## One call -/

/-- Data of the old state that a write does not touch. -/
theorem contents_congr {w w' : Wad} {d : WadDescriptor} (h : d.size ≠ 0 →
    Holds w'.file d.offset.toNat (w.contents d) ∧
      d.offset.toNat + d.size.toNat ≤ w.file.length) : w'.contents d = w.contents d := by
  by_cases hsize : d.size = 0
  · simp [Wad.contents, hsize]
  · obtain ⟨hholds, hle⟩ := h hsize
    exact hholds.readAt_eq (length_readAt_of_le hle)

/-- The file has all of what a descriptor says. -/
theorem holds_contents {w : Wad} (hlay : Layout w) {d : WadDescriptor} (hd : d ∈ w.descriptors)
    (hsize : d.size ≠ 0) : Holds w.file d.offset.toNat (w.contents d) ∧
      (w.contents d).length = d.size.toNat := by
  have hlen : (w.contents d).length = d.size.toNat :=
    length_readAt_of_le (hlay.data d hd hsize).2.2
  exact ⟨by rw [Holds, hlen]; rfl, hlen⟩

/-- An insertion keeps the data of every old descriptor. -/
theorem contents_insert {w : Wad} (hlay : Layout w) {desc : Nat} {new : List WadDescriptor}
    (hdesc : desc ≤ w.descriptors.length) (hcount : w.descriptors.length + new.length < 2 ^ 32)
    {d : WadDescriptor} (hd : d ∈ w.descriptors) :
    (w.insert allBytes desc new).contents d = w.contents d := by
  refine contents_congr fun hsize => ?_
  obtain ⟨hlow, hhigh, hpresent⟩ := hlay.data d hd hsize
  obtain ⟨hholds, hlen⟩ := holds_contents hlay hd hsize
  rw [insert_allBytes hdesc hcount]
  refine ⟨(hholds.writeAt (Or.inr ?_)).writeAt (Or.inl ?_), hpresent⟩
  · rw [length_leBytes]
    omega
  · omega

/-- New descriptors without data keep the layout. -/
theorem Layout.insert {w : Wad} (hlay : Layout w) {desc : Nat} {new : List WadDescriptor}
    (hdesc : desc ≤ w.descriptors.length) (hcount : w.descriptors.length + new.length < 2 ^ 32)
    (hnew : ∀ d ∈ new, d.size = 0) : Layout (w.insert allBytes desc new) := by
  have hmem : ∀ d ∈ (w.insert allBytes desc new).descriptors, d ∈ w.descriptors ∨ d ∈ new := by
    intro d hd
    rw [insert_descriptors, List.mem_append, List.mem_append] at hd
    rcases hd with hd | hd | hd
    · exact Or.inl (List.mem_of_mem_take hd)
    · exact Or.inr hd
    · exact Or.inl (List.mem_of_mem_drop hd)
  have hlen : w.file.length ≤ (w.insert allBytes desc new).file.length := by
    rw [insert_allBytes hdesc hcount]
    exact (length_le_writeAt _ _ _).trans (length_le_writeAt _ _ _)
  refine ⟨hlay.behind, fun d hd hsize => ?_, fun d hd => ?_⟩
  · -- the data has stayed, and the file has not become shorter
    rcases hmem d hd with hold | hold
    · obtain ⟨hlow, hhigh, hpresent⟩ := hlay.data d hold hsize
      exact ⟨hlow, hhigh, hpresent.trans hlen⟩
    · exact absurd (hnew d hold) hsize
  · rcases hmem d hd with hold | hold
    · exact hlay.sizes d hold
    · rw [hnew d hold]
      decide

/-- An append keeps the data of every old descriptor, too. -/
theorem contents_append {w : Wad} (hlay : Layout w) (i : Nat) (start : UInt32) (buffer : Bytes)
    {length : Int32} (hpos : 0 ≤ length.toInt)
    (hfit : w.doffset.toNat + length.toInt.toNat < 2 ^ 32)
    {d : WadDescriptor} (hd : d ∈ w.descriptors) :
    (w.append allBytes i start buffer length).contents d = w.contents d := by
  refine contents_congr fun hsize => ?_
  obtain ⟨hlow, hhigh, hpresent⟩ := hlay.data d hd hsize
  obtain ⟨hholds, hlen⟩ := holds_contents hlay hd hsize
  rw [(append_allBytes i start buffer hpos hfit).2]
  refine ⟨((hholds.writeAt (Or.inr ?_)).writeAt (Or.inl ?_)).writeAt (Or.inl ?_), hpresent⟩
  · rw [length_leBytes]
    omega
  · omega
  · omega

/-- After a change of one element the others are still there. -/
theorem mem_modify {α : Type} {l : List α} {i : Nat} {x y : α} {f : α → α} (hi : l[i]? = some x)
    (h : y ∈ l.modify i f) : y ∈ l ∨ y = f x := by
  obtain ⟨j, hj⟩ := List.getElem?_of_mem h
  by_cases hij : i = j
  · subst hij
    rw [List.getElem?_modify_eq, hi] at hj
    exact Or.inr (Option.some.inj hj).symm
  · rw [List.getElem?_modify_ne _ _ hij] at hj
    exact Or.inl (List.mem_of_getElem? hj)

section Append

variable {w : Wad} {i : Nat} {d : WadDescriptor} {buffer : Bytes} {length : Int32}
  (hlay : Layout w) (hi : w.descriptors[i]? = some d)
  (hlast : d.size ≠ 0 → d.offset + d.size = w.doffset)
include hlay hi hlast

/-- The file appended to ends where the data ended. -/
theorem startOf_add_size : (startOf w d).toNat + d.size.toNat = w.doffset.toNat :=
  hlay.dataBefore.startOf_add_size (List.mem_of_getElem? hi) hlast

variable (hpos : 0 ≤ length.toInt) (hfit : w.doffset.toNat + length.toInt.toNat < 2 ^ 32)
  (hsmall : d.size.toNat < 2 ^ 31)
include hpos hfit hsmall

omit hlay hi hlast hfit in
/-- The size grows by the length. -/
theorem size_appended : (appended (startOf w d) length d).size.toNat =
    d.size.toNat + length.toInt.toNat := by
  have hlt := length.toInt_lt
  exact size_appended_of_fits hpos (by omega)

variable (hbuffer : length.toInt.toNat ≤ buffer.length)
include hbuffer

omit hi hlast hsmall hlay in
/-- The buffer stands where the data ended. -/
theorem holds_buffer : Holds (w.append allBytes i (startOf w d) buffer length).file
    w.doffset.toNat (buffer.take length.toInt.toNat) := by
  rw [(append_allBytes i (startOf w d) buffer hpos hfit).2]
  refine (holds_writeAt _ _ _).writeAt (Or.inl ?_)
  rw [List.length_take, Nat.min_eq_left hbuffer]

/-- **The file appended to** continues with the buffer. -/
theorem contents_append_self :
    (w.append allBytes i (startOf w d) buffer length).contents (appended (startOf w d) length d) =
      w.contents d ++ buffer.take length.toInt.toNat := by
  have hsum := startOf_add_size hlay hi hlast
  have hnew := holds_buffer (i := i) (d := d) hpos hfit hbuffer
  have hlen : (buffer.take length.toInt.toNat).length = length.toInt.toNat := by
    rw [List.length_take, Nat.min_eq_left hbuffer]
  rw [Wad.contents, size_appended hpos hsmall, readAt_add]
  refine congrArg₂ _ ?_ ?_
  · have hold := contents_append hlay i (startOf w d) buffer hpos hfit
      (List.mem_of_getElem? hi)
    by_cases hsize : d.size = 0
    · simp [Wad.contents, hsize]
    · have hstart : (appended (startOf w d) length d).offset = d.offset := if_neg hsize
      rw [hstart]
      exact hold
  · have hstart : (appended (startOf w d) length d).offset = startOf w d := rfl
    rw [hstart, hsum]
    exact hnew.readAt_eq hlen

/-- An append keeps the layout. -/
theorem Layout.append (hgrown : d.size.toNat + length.toInt.toNat < 2 ^ 31) :
    Layout (w.append allBytes i (startOf w d) buffer length) := by
  have hsum := startOf_add_size hlay hi hlast
  have hnew := holds_buffer (i := i) (d := d) hpos hfit hbuffer
  have hsize' := size_appended (w := w) hpos hsmall
  have hlen : (buffer.take length.toInt.toNat).length = length.toInt.toNat := by
    rw [List.length_take, Nat.min_eq_left hbuffer]
  obtain ⟨hdoffset, happend⟩ :=
    append_allBytes i (startOf w d) buffer hpos hfit
  have hgrow : w.file.length ≤ (w.append allBytes i (startOf w d) buffer length).file.length := by
    rw [happend]
    exact (length_le_writeAt _ _ _).trans
      ((length_le_writeAt _ _ _).trans (length_le_writeAt _ _ _))
  have hdoff' : (w.append allBytes i (startOf w d) buffer length).doffset.toNat =
      w.doffset.toNat + length.toInt.toNat := by
    rw [happend, hdoffset]
  have hmem : ∀ e ∈ (w.append allBytes i (startOf w d) buffer length).descriptors,
      e ∈ w.descriptors ∨ e = appended (startOf w d) length d := by
    intro e he
    rw [happend] at he
    exact mem_modify hi he
  refine ⟨?_, fun e he hsize => ?_, fun e he => ?_⟩
  · rw [hdoff']
    exact hlay.behind.trans (Nat.le_add_right _ _)
  · rcases hmem e he with hold | rfl
    · obtain ⟨hlow, hhigh, hpresent⟩ := hlay.data e hold hsize
      exact ⟨hlow, by omega, by omega⟩
    · -- the file itself: its data ends where the data of the image ends now
      have hstart : (appended (startOf w d) length d).offset = startOf w d := rfl
      rw [hstart, hsize', hdoff', ← Nat.add_assoc, hsum]
      refine ⟨?_, Nat.le_refl _, ?_⟩
      · by_cases hempty : d.size = 0
        · rw [startOf, if_pos hempty]
          exact hlay.behind
        · rw [startOf, if_neg hempty]
          exact (hlay.data d (List.mem_of_getElem? hi) hempty).1
      · rcases Nat.eq_zero_or_pos length.toInt.toNat with hzero | hsome
        · -- nothing is appended: the old data is there
          have hempty : d.size ≠ 0 := fun hempty => by
            refine hsize ?_
            rw [← UInt32.toNat_inj, hsize', hempty, hzero]
            rfl
          obtain ⟨-, -, hpresent⟩ := hlay.data d (List.mem_of_getElem? hi) hempty
          rw [startOf, if_neg hempty] at hsum
          omega
        · have hne : buffer.take length.toInt.toNat ≠ [] :=
            List.ne_nil_of_length_pos (by omega)
          have hpresent := hnew.length_le hne
          omega
  · rcases hmem e he with hold | rfl
    · exact hlay.sizes e hold
    · rw [hsize']
      exact hgrown

end Append

/-! ## Accepted writes -/

/-- What a call that returned `r` appends to the file at `path`: the buffer of an
accepted `writeToFile` to that file, and nothing otherwise. -/
def Wad.accepted (w : Wad) (path : Bytes) (op : WadOp) (r : Int) : Bytes :=
  match op with
  | .writeToFile path' buffer length _ =>
    if w.resolveFile path' = w.resolveFile path ∧ r = length.toInt then
      buffer.take length.toInt.toNat
    else []
  | _ => []

/-- A creation adds no bytes to a file. -/
theorem accepted_create (w : Wad) (path : Bytes) (kind : Creation) (path' : Bytes) (r : Int) :
    w.accepted path (kind.op path') r = [] := by
  cases kind <;> rfl

/-- A call that is refused returns `0` or `-1`, and appends nothing. -/
theorem accepted_of_refused {w : Wad} {path : Bytes} {op : WadOp} {r : Int} (hr : r ≤ 0) :
    w.accepted path op r = [] := by
  cases op with
  | createDirectory path' => rfl
  | createFile path' => rfl
  | writeToFile path' buffer length offset =>
    rw [Wad.accepted]
    split
    · rename_i hacc
      rw [← hacc.2, Int.toNat_of_nonpos hr, List.take_zero]
    · rfl

/-- The buffers of the accepted writes to the file at `path`, in order. -/
def Wad.bytesFor (path : Bytes) (w : Wad) : List WadOp → Bytes
  | [] => []
  | op :: ops =>
    match w.step allBytes op with
    | none => []
    | some (w', r) => w.accepted path op r ++ w'.bytesFor path ops

/-- The buffer is as long as the call says. -/
def HasBytes : WadOp → Prop
  | .writeToFile _ buffer length _ => length.toInt.toNat ≤ buffer.length
  | _ => True

instance : (op : WadOp) → Decidable (HasBytes op)
  | .writeToFile _ _ _ _ => inferInstanceAs (Decidable (_ ≤ _))
  | .createFile _ => isTrue trivial
  | .createDirectory _ => isTrue trivial

/-- The next call overflows no 32-bit quantity: neither the header's, nor the
sizes, which `getSize` returns as `int`s. -/
structure FitsWords (w : Wad) (op : WadOp) : Prop extends FitsHeader w op where
  sizes : ∀ next ∈ w.step allBytes op, ∀ d ∈ next.1.descriptors, d.size.toNat < 2 ^ 31
  buffer : HasBytes op

instance (w : Wad) (op : WadOp) : Decidable (FitsWords w op) :=
  decidable_of_iff
    (FitsHeader w op ∧
      (∀ next ∈ w.step allBytes op, ∀ d ∈ next.1.descriptors, d.size.toNat < 2 ^ 31) ∧ HasBytes op)
    ⟨fun ⟨h₁, h₂, h₃⟩ => ⟨h₁, h₂, h₃⟩, fun ⟨h₁, h₂, h₃⟩ => ⟨h₁, h₂, h₃⟩⟩

/-- A path keeps leading to its file. -/
theorem LeadsTo.forestStep {F F' : WadForest} {op : WadOp} (h : ForestStep F op F') {path : Bytes}
    {as : List Nat} {d d' : WadDescriptor} (hlead : LeadsTo F path as d)
    (hfile : Outline.nodeAt F' as = some (item d')) : LeadsTo F' path as d' where
  lookup := treeLookup_of_extends (h.extends.map displayName) hlead.lookup
  file := hfile

/-- Paths to different files have different answers. -/
theorem LeadsTo.resolveFile_ne {F : WadForest} {w : Wad} (hF : WellFormed F)
    (hw : w.descriptors = flattenAll F) {path path' : Bytes} {as as' : List Nat}
    {d d' : WadDescriptor} (h : LeadsTo F path as d) (h' : LeadsTo F path' as' d')
    (has : as ≠ as') :
    w.resolveFile path' ≠ w.resolveFile path := by
  rw [h.resolveFile hF hw, h'.resolveFile hF hw]
  intro heq
  have hpos := (Prod.mk.inj (Option.some.inj (Option.some.inj heq))).1
  exact has (position_injective h.file h'.file hpos.symm)

/-- **One call and the contents of a file**: the path leads to the same file, which
continues with what the call appended to it. -/
theorem Stepped.contents {F : WadForest} {w w' : Wad} (hF : WellFormed F)
    (hw : w.descriptors = flattenAll F) {op : WadOp} {r : Int} (h : Stepped F w allBytes op w' r)
    (hstep : w.step allBytes op = some (w', r)) (hfit : FitsWords w op) (hlay : Layout w) :
    ∃ F', ForestStep F op F' ∧ w'.descriptors = flattenAll F' ∧ Layout w' ∧
      ∀ path as d, LeadsTo F path as d → ∃ d', LeadsTo F' path as d' ∧
        w'.contents d' = w.contents d ++ w.accepted path op r := by
  have hdcount := hfit.dcount _ hstep
  have hdoffset := hfit.doffset _ hstep
  have hsizes := hfit.sizes _ hstep
  have hmem : ∀ {as d}, Outline.nodeAt F as = some (item d) → d ∈ w.descriptors := fun hd => by
    rw [hw]
    exact List.mem_of_getElem? (getElem?_position hd)
  cases h with
  | refused hr =>
    refine ⟨F, .unchanged, hw, hlay, fun path as d hlead => ⟨d, hlead, ?_⟩⟩
    rw [accepted_of_refused hr, List.append_nil]
  | @created kind path' as' c site hc =>
    have hopen := hc.stops.opens
    have hle : endPosition F site ≤ w.descriptors.length := by
      rw [hw]
      exact (drop_endPosition hopen).1
    rw [insert_length] at hdcount
    have hforest : ForestStep F (kind.op path') (appendAt F site (kind.node c)) :=
      .added hopen (newChild_node hc.asks.name_noNul hc.asks.short hc.accepted)
    refine ⟨_, hforest, insert_endPosition hw hopen (by omega) _,
      hlay.insert hle hdcount fun d hd => ?_, fun path as d hlead => ?_⟩
    · cases kind with
      | file =>
        rw [Creation.node, flatten_item] at hd
        rw [List.mem_singleton.mp hd]
      | directory =>
        rw [Creation.node, flatten_group, flattenAll_nil, List.nil_append, List.mem_pair] at hd
        rcases hd with rfl | rfl <;> rfl
    · refine ⟨d, hlead.forestStep hforest (nodeAt_appendAt_item _ hlead.file), ?_⟩
      rw [accepted_create, List.append_nil]
      exact contents_insert hlay hle hdcount (hmem hlead.file)
  | @written path' buffer length offset as' d' hfile hoff hlast =>
    have hi : w.descriptors[position F as']? = some d' := by
      rw [hw]
      exact getElem?_position hfile.file
    have hforest : ForestStep F (.writeToFile path' buffer length offset)
        (updateAt F as' (appended (startOf w d') length)) := .rewritten hfile.file fun _ => rfl
    have hsmall := hlay.sizes d' (List.mem_of_getElem? hi)
    have hgrown : d'.size.toNat + length.toInt.toNat < 2 ^ 31 := by
      rw [← size_appended (w := w) hfit.nonneg hsmall]
      refine hsizes _ (List.mem_of_getElem? (i := position F as') ?_)
      rw [(append_allBytes _ _ _ hfit.nonneg hdoffset).2, List.getElem?_modify_eq, hi]
      rfl
    refine ⟨_, hforest, append_position hw hfile.file _ _ _,
      hlay.append hi hlast hfit.nonneg hdoffset hsmall hfit.buffer hgrown,
      fun path as d hlead => ?_⟩
    by_cases has : as = as'
    · obtain rfl := has
      obtain rfl : d = d' := Outline.item.inj (Option.some.inj (hlead.file.symm.trans hfile.file))
      have hsame : w.resolveFile path' = w.resolveFile path :=
        (hfile.resolveFile hF hw).trans (hlead.resolveFile hF hw).symm
      refine ⟨_, hlead.forestStep hforest (nodeAt_updateAt_self _ hlead.file), ?_⟩
      rw [Wad.accepted, if_pos ⟨hsame, rfl⟩]
      exact contents_append_self hlay hi hlast hfit.nonneg hdoffset hsmall hfit.buffer
    · -- another file: its descriptor stands elsewhere in the table
      have hother := hlead.resolveFile_ne hF hw hfile has
      refine ⟨d, hlead.forestStep hforest (nodeAt_updateAt_ne _ has hlead.file), ?_⟩
      rw [Wad.accepted, if_neg fun hacc => hother hacc.1, List.append_nil]
      exact contents_append hlay _ _ _ hfit.nonneg hdoffset (hmem hlead.file)

/-! ## Runs -/

/-- The contents of all files over a run. -/
theorem run_contents {ops : List WadOp} : ∀ {w : Wad} {F : WadForest}, WellFormed F →
    w.descriptors = flattenAll F → Layout w → w.Throughout FitsWords (allWritten ops) →
    ∃ w' F', TreeRun w F (allWritten ops) w' F' ∧ Layout w' ∧
      ∀ path as d, LeadsTo F path as d → ∃ d', LeadsTo F' path as d' ∧
        w'.contents d' = w.contents d ++ w.bytesFor path ops := by
  induction ops with
  | nil =>
    intro w F hF hw hlay _
    exact ⟨w, F, .nil hw, hlay, fun path as d h => ⟨d, h, by rw [Wad.bytesFor, List.append_nil]⟩⟩
  | cons op ops ih =>
    intro w F hF hw hlay hfits
    obtain ⟨hfit, hrest⟩ := hfits
    obtain ⟨w₁, r, hstep, hcase⟩ := step_cases hF hw allBytes op
    obtain ⟨F₁, hforest, hw₁, hlay₁, hcall⟩ := hcase.contents hF hw hstep hfit hlay
    obtain ⟨w', F', hrun, hlay', hrun'⟩ := ih (hforest.wellFormed hF) hw₁ hlay₁
      (hrest _ (Wad.call_eq hstep))
    refine ⟨w', F', .cons hw hstep hforest hrun, hlay', fun path as d hlead => ?_⟩
    obtain ⟨d₁, hlead₁, hcontents₁⟩ := hcall path as d hlead
    obtain ⟨d', hlead', hcontents'⟩ := hrun' path as d₁ hlead₁
    refine ⟨d', hlead', ?_⟩
    rw [Wad.bytesFor, hstep, hcontents', hcontents₁, List.append_assoc]

/-- **File contents over whole runs.** Take a run from a loaded WAD, cut anywhere,
and a path that resolves to a file there. After the rest of the run the path
resolves to that same file — the node at the same address of the tree — and the
whole file reads as what it was at the cut, followed by the buffers of the writes
to it that were accepted since. -/
theorem contents_after_run {file : Bytes} {w₀ : Wad} (hload : Wad.loadWad file = some w₀)
    {F₀ : WadForest} (hF₀ : WellFormed F₀) (hw₀ : w₀.descriptors = flattenAll F₀)
    (hbehind : 12 ≤ w₀.doffset.toNat)
    (hdata : ∀ d ∈ w₀.descriptors, d.size ≠ 0 →
      12 ≤ d.offset.toNat ∧ d.offset.toNat + d.size.toNat ≤ w₀.doffset.toNat)
    (hsizes : ∀ d ∈ w₀.descriptors, d.size.toNat < 2 ^ 31) {before after : List WadOp}
    (hfits : w₀.Throughout FitsWords (allWritten (before ++ after))) :
    ∃ w F w' F', TreeRun w₀ F₀ (allWritten before) w F ∧ TreeRun w F (allWritten after) w' F' ∧
      ∀ path i d, w.resolveFile path = some (some (i, d)) →
        ∃ as d', Outline.nodeAt F as = some (item d) ∧ i = position F as ∧
          Outline.nodeAt F' as = some (item d') ∧ d'.name = d.name ∧
          w'.resolveFile path = some (some (position F' as, d')) ∧
          ∃ old, w.wholeFile path = some ((d.size.toNat : Int), old) ∧
            w'.wholeFile path = some ((d'.size.toNat : Int), old ++ w.bytesFor path after) := by
  rw [allWritten, List.map_append] at hfits
  obtain ⟨w, F, hrun, hlay, -⟩ := run_contents hF₀ hw₀
    (layout_of_loadWad hload hbehind hdata hsizes) hfits.left
  obtain ⟨hrun_eq, hw⟩ := hrun.run_eq
  have hF := hrun.wellFormed hF₀
  obtain ⟨w', F', hrun', hlay', hcontents⟩ := run_contents hF hw hlay
    (hfits.right hrun_eq)
  obtain ⟨-, hw'⟩ := hrun'.run_eq
  have hF' := hrun'.wellFormed hF
  refine ⟨w, F, w', F', hrun, hrun', fun path i d hres => ?_⟩
  obtain ⟨as, hlead, rfl⟩ := leadsTo_of_resolveFile hF hw hres
  obtain ⟨d', hlead', hcontents'⟩ := hcontents path as d hlead
  obtain ⟨t, ht, hname, -⟩ := hrun'.extends.nodeAt hlead.file
  obtain rfl := Option.some.inj (hlead'.file.symm.trans ht)
  refine ⟨as, d', hlead.file, rfl, hlead'.file, hname, hlead'.resolveFile hF' hw', w.contents d,
    wholeFile_eq hF hw hlay hlead, ?_⟩
  rw [wholeFile_eq hF' hw' hlay' hlead', hcontents']

/-- The path `/Gl/b`, the calls that create that file, and some that write to it. -/
def samplePath : Bytes := chars ['/', 'G', 'l', '/', 'b']

/-- A new file, and two bytes in another one. -/
def sampleBefore : List WadOp :=
  [.createFile samplePath, .writeToFile (chars ['/', 'm', 'p']) [1, 2] 2 0]

/-- Three writes, two of them to the new file under different paths. -/
def sampleAfter : List WadOp :=
  [.writeToFile samplePath [7] 1 0, .writeToFile (chars ['/', 'm', 'p']) [3] 1 2,
    .writeToFile (chars ['/', '/', 'G', 'l', '/', 'b', '/']) [8, 9] 2 1]

/-- The new file has the bytes of these two. -/
theorem contents_after_run_sample :
    ∃ w w' n, (tableOnly sampleForest).run (allWritten sampleBefore) = some w ∧
      w.run (allWritten sampleAfter) = some w' ∧ w'.wholeFile samplePath = some (n, [7, 8, 9]) := by
  obtain ⟨w, F, w', F', hrun, hrun', hfiles⟩ := contents_after_run
    (loadWad_of_onDisk (onDisk_tableOnly (by decide))) wellFormed_sampleForest rfl
    (by decide) (by decide) (by decide)
    (by decide +kernel : Wad.Throughout FitsWords (tableOnly sampleForest)
      (allWritten (sampleBefore ++ sampleAfter)))
  have hw := hrun.run_eq.1
  have hres : ((tableOnly sampleForest).run (allWritten sampleBefore)).bind
      (fun w => w.resolveFile samplePath) = some (some (4, emptyLump ['b'])) := by decide +kernel
  have hold : ((tableOnly sampleForest).run (allWritten sampleBefore)).bind
      (fun w => w.wholeFile samplePath) = some (0, []) := by decide +kernel
  have hbytes : ((tableOnly sampleForest).run (allWritten sampleBefore)).map
      (fun w => w.bytesFor samplePath sampleAfter) = some [7, 8, 9] := by decide +kernel
  rw [hw, Option.bind_some] at hres hold
  rw [hw, Option.map_some, Option.some.injEq] at hbytes
  obtain ⟨as, d', -, -, -, -, -, old, hwhole, hwhole'⟩ := hfiles _ _ _ hres
  rw [hold, Option.some.injEq, Prod.mk.injEq] at hwhole
  rw [← hwhole.2, hbytes] at hwhole'
  exact ⟨w, w', _, hw, hrun'.run_eq.1, hwhole'⟩

end Cop4600
