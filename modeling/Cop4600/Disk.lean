import Cop4600.Growth

/-!
# Memory and disk

While every `pwrite` transfers every byte, the file holds the header and the table
of the state in memory (`OnDisk`): each mutator persists what it has changed, and
what it leaves alone is on disk already. So loading the file gives the state back
(`loadWad_of_onDisk`), after any run of calls.

The header's count has 32 bits. A state with `2 ^ 32` descriptors or more is not on
disk.
-/

namespace Cop4600

open Outline Storage

/-! ## The file format, back and forth -/

/-- A descriptor takes 16 bytes. -/
@[simp] theorem length_descriptorBytes (d : WadDescriptor) : (descriptorBytes d).length = 16 := by
  rw [descriptorBytes, List.length_append, List.length_append, length_leBytes, length_leBytes,
    Vector.length_toList]

/-- A table takes 16 bytes for each. -/
@[simp] theorem length_tableBytes (ds : List WadDescriptor) :
    (tableBytes ds).length = ds.length * 16 := by
  induction ds with
  | nil => rfl
  | cons d ds ih =>
    rw [tableBytes, List.length_append, length_descriptorBytes, ih, List.length_cons]
    omega

/-- Two tables one after the other are written so. -/
theorem tableBytes_append (A B : List WadDescriptor) :
    tableBytes (A ++ B) = tableBytes A ++ tableBytes B := by
  induction A with
  | nil => rfl
  | cons d A ih => rw [List.cons_append, tableBytes, tableBytes, ih, List.append_assoc]

/-- A name is made of its own bytes. -/
theorem ofBytes_toList (name : Name) : Name.ofBytes name.toList = name := by
  rw [← Vector.toList_inj, Name.toList_ofBytes, List.takeD_eq_take _ (by simp),
    List.take_of_length_le (by simp)]

/-- Four bytes are a `uint32_t`. -/
theorem toNat_ofNat_leNat {bs : Bytes} (h : bs.length = 4) :
    (UInt32.ofNat (leNat bs)).toNat = leNat bs := by
  rw [UInt32.toNat_ofNat']
  exact Nat.mod_eq_of_lt (leNat_lt h)

/-- Four bytes hold a number of 32 bits. -/
theorem leNat_leBytes_of_lt {n : Nat} (h : n < 2 ^ 32) : leNat (leBytes 4 n) = n := by
  rw [leNat_leBytes]
  exact Nat.mod_eq_of_lt h

/-- A `uint32_t` is read as it was written. -/
theorem ofNat_leNat_leBytes (x : UInt32) : UInt32.ofNat (leNat (leBytes 4 x.toNat)) = x := by
  rw [leNat_leBytes_of_lt x.toNat_lt, UInt32.ofNat_toNat]

/-- Reading a descriptor back. -/
theorem readDescriptor_descriptorBytes (d : WadDescriptor) :
    readDescriptor (descriptorBytes d) = d := by
  have hsize : (descriptorBytes d).drop 4 = leBytes 4 d.size.toNat ++ d.name.toList := by
    rw [descriptorBytes, List.drop_left' (length_leBytes _ _)]
  have hname : (descriptorBytes d).drop 8 = d.name.toList := by
    rw [← List.drop_drop (i := 4) (j := 4), hsize, List.drop_left' (length_leBytes _ _)]
  rw [readDescriptor, hsize, hname, descriptorBytes, List.take_left' (length_leBytes _ _),
    List.take_left' (length_leBytes _ _), ofNat_leNat_leBytes, ofNat_leNat_leBytes,
    List.take_of_length_le (by simp), ofBytes_toList]

/-- Reading a table back. -/
theorem readTable_tableBytes (ds : List WadDescriptor) :
    readTable ds.length (tableBytes ds) = ds := by
  induction ds with
  | nil => rfl
  | cons d ds ih =>
    rw [List.length_cons, tableBytes, readTable, List.take_left' (length_descriptorBytes d),
      List.drop_left' (length_descriptorBytes d), readDescriptor_descriptorBytes, ih]

/-- Sixteen bytes are written back as they were read. -/
theorem descriptorBytes_readDescriptor {bs : Bytes} (h : bs.length = 16) :
    descriptorBytes (readDescriptor bs) = bs := by
  have hoff : (bs.take 4).length = 4 := by rw [List.length_take]; omega
  have hsize : ((bs.drop 4).take 4).length = 4 := by
    rw [List.length_take, List.length_drop]
    omega
  have hrest : (bs.drop 8).length = 8 := by rw [List.length_drop]; omega
  have hbs : bs.take 4 ++ ((bs.drop 4).take 4 ++ bs.drop 8) = bs := by
    rw [← List.drop_drop (i := 4) (j := 4), List.take_append_drop, List.take_append_drop]
  rw [descriptorBytes, readDescriptor, toNat_ofNat_leNat hoff, toNat_ofNat_leNat hsize,
    leBytes_leNat hoff, leBytes_leNat hsize, Name.toList_ofBytes,
    List.take_of_length_le (Nat.le_of_eq hrest), List.takeD_eq_take _ (Nat.le_of_eq hrest.symm),
    List.take_of_length_le (Nat.le_of_eq hrest), hbs]

/-- A whole table is written back as it was read. -/
theorem tableBytes_readTable {n : Nat} : ∀ {bs : Bytes}, bs.length = n * 16 →
    tableBytes (readTable n bs) = bs := by
  induction n with
  | zero =>
    intro bs h
    obtain rfl := List.eq_nil_of_length_eq_zero (h.trans (Nat.zero_mul _))
    rfl
  | succ n ih =>
    intro bs h
    rw [readTable, tableBytes, descriptorBytes_readDescriptor (by rw [List.length_take]; omega),
      ih (by rw [List.length_drop]; omega), List.take_append_drop]

/-- As many descriptors are read as are asked for. -/
@[simp] theorem length_readTable (n : Nat) (bs : Bytes) : (readTable n bs).length = n := by
  induction n generalizing bs with
  | zero => rfl
  | succ n ih => rw [readTable, List.length_cons, ih]

/-! ## What is on disk -/

/-- The file holds the state: the header, and the table at `doffset`. -/
structure OnDisk (w : Wad) : Prop where
  /-- four bytes of magic -/
  magic_length : w.magic.length = 4
  /-- they are the first ones of the file -/
  magic : Holds w.file 0 w.magic
  /-- then comes the number of descriptors -/
  dcount : Holds w.file 4 (leBytes 4 w.descriptors.length)
  /-- and where they are -/
  doffset : Holds w.file 8 (leBytes 4 w.doffset.toNat)
  /-- there they are, all of them -/
  table : Holds w.file w.doffset.toNat (tableBytes w.descriptors)
  /-- the table is behind the header -/
  behind : 12 ≤ w.doffset.toNat
  /-- its length fits the header -/
  count : w.descriptors.length < 2 ^ 32

/-- **A state on disk can be loaded back.** -/
theorem loadWad_of_onDisk {w : Wad} (h : OnDisk w) : Wad.loadWad w.file = some w := by
  have hlong : ¬ w.file.length < 12 := by
    have := h.doffset.length_le (by simp [leBytes])
    rw [length_leBytes] at this
    omega
  rw [Wad.loadWad, if_neg hlong]
  simp only [h.magic.readAt_eq h.magic_length, h.dcount.readAt_eq (length_leBytes _ _),
    h.doffset.readAt_eq (length_leBytes _ _), leNat_leBytes_of_lt h.count,
    leNat_leBytes_of_lt w.doffset.toNat_lt, h.table.readAt_eq (length_tableBytes _)]
  rw [List.takeD_eq_take _ (by simp), List.take_of_length_le (by simp), readTable_tableBytes,
    UInt32.ofNat_toNat]

/-- A loaded state is on disk, if its table was there to be read. -/
theorem onDisk_of_loadWad {file : Bytes} {w : Wad} (h : Wad.loadWad file = some w)
    (hoff : 12 ≤ w.doffset.toNat)
    (htable : w.doffset.toNat + w.descriptors.length * 16 ≤ file.length) : OnDisk w := by
  rw [Wad.loadWad] at h
  split at h
  · cases h
  · have hword : ∀ {off}, off + 4 ≤ 12 → (readAt file 4 off).length = 4 := fun hle =>
      length_readAt_of_le (by omega)
    have hdoff := toNat_ofNat_leNat (hword (Nat.le_refl 12))
    obtain rfl := Option.some.inj h
    simp only [length_readTable, hdoff] at hoff htable
    have hread := length_readAt_of_le htable
    refine ⟨?_, ?_, ?_, ?_, ?_, ?_, ?_⟩
    · exact hword (by omega)
    · rw [Holds, hword (by omega)]
    · rw [length_readTable, leBytes_leNat (hword (by omega)), Holds, hword (by omega)]
    · rw [hdoff, leBytes_leNat (hword (by omega)), Holds, hword (by omega)]
    · rw [hdoff, List.takeD_eq_take _ (Nat.le_of_eq hread.symm),
        List.take_of_length_le (Nat.le_of_eq hread), tableBytes_readTable hread, Holds, hread]
    · rw [hdoff]
      exact hoff
    · rw [length_readTable]
      exact leNat_lt (hword (by omega))

/-! ## What a call writes -/

/-- A complete `pwrite`. -/
theorem pwrite_allBytes (i : Nat) (f buf : Bytes) (count : Int) (off : Nat) :
    pwrite (allBytes i) f buf count off = writeAt f (buf.take count.toNat) off := by
  rw [pwrite, allBytes, List.take_take, Nat.min_self]

/-- **What an insertion writes**: the new count, and the table from the insertion
point on. -/
theorem insert_allBytes {w : Wad} {desc : Nat} {new : List WadDescriptor}
    (hdesc : desc ≤ w.descriptors.length)
    (hcount : w.descriptors.length + new.length < 2 ^ 32) :
    w.insert allBytes desc new =
      { w with
        descriptors := w.descriptors.take desc ++ (new ++ w.descriptors.drop desc)
        file := writeAt (writeAt w.file (leBytes 4 (w.descriptors.length + new.length)) 4)
          (tableBytes (new ++ w.descriptors.drop desc)) (w.doffset.toNat + desc * 16) } := by
  have hindex : (UInt32.ofNat desc).toNat = desc := by
    rw [UInt32.toNat_ofNat']
    exact Nat.mod_eq_of_lt (by omega)
  have hlen := length_spliced w.descriptors new desc
  have hdcount : (UInt32.ofNat (w.descriptors.length + new.length)).toNat =
      w.descriptors.length + new.length := by
    rw [UInt32.toNat_ofNat']
    exact Nat.mod_eq_of_lt hcount
  have hle : UInt32.ofNat desc ≤ UInt32.ofNat (w.descriptors.length + new.length) := by
    rw [UInt32.le_iff_toNat_le, hindex, hdcount]
    omega
  have hdrop : (w.descriptors.take desc ++ (new ++ w.descriptors.drop desc)).drop desc =
      new ++ w.descriptors.drop desc :=
    List.drop_left' (by rw [List.length_take]; omega)
  have htail : (tableBytes (new ++ w.descriptors.drop desc)).length =
      (w.descriptors.length + new.length - desc) * 16 := by
    rw [length_tableBytes, List.length_append, List.length_drop]
    congr 1
    omega
  -- neither of the two byte counts cuts off anything
  rw [Wad.insert]
  simp only [pwrite_allBytes, hindex, hlen, hdcount, hdrop, UInt32.toNat_sub_of_le _ _ hle]
  rw [List.take_of_length_le (by simp), List.take_of_length_le (by rw [htail]; omega)]

/-- A creation leaves on disk what it has in memory. -/
theorem OnDisk.insert {w : Wad} (h : OnDisk w) {desc : Nat} {new : List WadDescriptor}
    (hdesc : desc ≤ w.descriptors.length)
    (hcount : w.descriptors.length + new.length < 2 ^ 32) :
    OnDisk (w.insert allBytes desc new) := by
  have hbehind := h.behind
  rw [insert_allBytes hdesc hcount]
  have hlen := length_spliced w.descriptors new desc
  have htake : (tableBytes (w.descriptors.take desc)).length = desc * 16 := by
    rw [length_tableBytes, List.length_take, Nat.min_eq_left hdesc]
  refine ⟨h.magic_length, ?_, ?_, ?_, ?_, hbehind, ?_⟩
  · refine (h.magic.writeAt (Or.inl ?_)).writeAt (Or.inl ?_)
    · rw [h.magic_length]
    · rw [h.magic_length]
      omega
  · simp only [hlen]
    exact (holds_writeAt _ _ _).writeAt (Or.inl (by rw [length_leBytes]; omega))
  · refine (h.doffset.writeAt (Or.inr ?_)).writeAt (Or.inl ?_)
    · rw [length_leBytes]
    · rw [length_leBytes]
      omega
  · -- the table before the insertion point stays, the rest has just been written
    have hold := h.table
    rw [← List.take_append_drop desc w.descriptors, tableBytes_append] at hold
    simp only [tableBytes_append (w.descriptors.take desc)]
    refine holds_append.mpr ⟨?_, ?_⟩
    · refine ((holds_append.mp hold).1.writeAt (Or.inr ?_)).writeAt (Or.inl ?_)
      · rw [length_leBytes]
        omega
      · rw [htake]
    · rw [htake]
      exact holds_writeAt _ _ _
  · rw [hlen]
    exact hcount

/-- A length that is not negative is the same as a `uint32_t`. -/
theorem toNat_toUInt32_of_nonneg {length : Int32} (h : 0 ≤ length.toInt) :
    length.toUInt32.toNat = length.toInt.toNat :=
  Int32.toNat_toUInt32_of_le (Int32.le_iff_toInt_le.mpr (by simpa using h))

/-- A size that grows without wrapping. -/
theorem size_appended_of_fits {d : WadDescriptor} {start : UInt32} {length : Int32}
    (hpos : 0 ≤ length.toInt) (hfits : d.size.toNat + length.toInt.toNat < 2 ^ 32) :
    (appended start length d).size.toNat = d.size.toNat + length.toInt.toNat := by
  rw [appended, UInt32.toNat_add, toNat_toUInt32_of_nonneg hpos]
  exact Nat.mod_eq_of_lt hfits

/-- **What an append writes**: the new end of the data, the buffer where the old
end was, and the whole table behind it, each as far as its `pwrite` gets. -/
theorem append_file {w : Wad} (io : Pwrites) (i : Nat) (start : UInt32) (buffer : Bytes)
    {length : Int32} (hpos : 0 ≤ length.toInt)
    (hfit : w.doffset.toNat + length.toInt.toNat < 2 ^ 32) :
    (w.doffset + length.toUInt32).toNat = w.doffset.toNat + length.toInt.toNat ∧
      (w.append io i start buffer length).file =
        writeAt (writeAt (writeAt w.file
          ((leBytes 4 (w.doffset.toNat + length.toInt.toNat)).take (io 0 4)) 8)
          ((buffer.take length.toInt.toNat).take (io 1 length.toInt.toNat)) w.doffset.toNat)
          ((tableBytes (w.descriptors.modify i (appended start length))).take
            (io 2 (w.descriptors.length * 16)))
          (w.doffset.toNat + length.toInt.toNat) := by
  have hdoffset : (w.doffset + length.toUInt32).toNat =
      w.doffset.toNat + length.toInt.toNat := by
    rw [UInt32.toNat_add, toNat_toUInt32_of_nonneg hpos]
    exact Nat.mod_eq_of_lt hfit
  have hstart : w.doffset + length.toUInt32 - length.toUInt32 = w.doffset :=
    UInt32.add_sub_cancel ..
  have hcount : ((w.descriptors.length : Int) * 16).toNat = w.descriptors.length * 16 := by omega
  have htable : (tableBytes (w.descriptors.modify i (appended start length))).take
      (w.descriptors.length * 16) = tableBytes (w.descriptors.modify i (appended start length)) :=
    List.take_of_length_le (by rw [length_tableBytes, List.length_modify])
  have hdata : (leBytes 4 (w.doffset.toNat + length.toInt.toNat)).take 4 =
      leBytes 4 (w.doffset.toNat + length.toInt.toNat) :=
    List.take_of_length_le (by rw [length_leBytes])
  have hfour : (4 : Int).toNat = 4 := rfl
  refine ⟨hdoffset, ?_⟩
  rw [Wad.append]
  simp only [pwrite, hdoffset, hstart, hfour, hdata, List.length_modify, hcount]
  rw [← htable]
  rfl

/-- An append whose `pwrite`s transfer every byte. -/
theorem append_allBytes {w : Wad} (i : Nat) (start : UInt32) (buffer : Bytes) {length : Int32}
    (hpos : 0 ≤ length.toInt) (hfit : w.doffset.toNat + length.toInt.toNat < 2 ^ 32) :
    (w.doffset + length.toUInt32).toNat = w.doffset.toNat + length.toInt.toNat ∧
      w.append allBytes i start buffer length =
        { w with
          doffset := w.doffset + length.toUInt32
          descriptors := w.descriptors.modify i (appended start length)
          file :=
            writeAt (writeAt (writeAt w.file (leBytes 4 (w.doffset.toNat + length.toInt.toNat)) 8)
              (buffer.take length.toInt.toNat) w.doffset.toNat)
              (tableBytes (w.descriptors.modify i (appended start length)))
              (w.doffset.toNat + length.toInt.toNat) } := by
  obtain ⟨hdoffset, hfile⟩ := append_file allBytes i start buffer hpos hfit
  refine ⟨hdoffset, ?_⟩
  have hword : (leBytes 4 (w.doffset.toNat + length.toInt.toNat)).take 4 =
      leBytes 4 (w.doffset.toNat + length.toInt.toNat) :=
    List.take_of_length_le (by rw [length_leBytes])
  have htable : (tableBytes (w.descriptors.modify i (appended start length))).take
      (w.descriptors.length * 16) = tableBytes (w.descriptors.modify i (appended start length)) :=
    List.take_of_length_le (by rw [length_tableBytes, List.length_modify])
  simp only [allBytes, hword, htable, List.take_take, Nat.min_self] at hfile
  rw [← hfile]
  rfl

/-- A write leaves on disk what it has in memory. -/
theorem OnDisk.append {w : Wad} (h : OnDisk w) {i : Nat} {start : UInt32} {buffer : Bytes}
    {length : Int32} (hpos : 0 ≤ length.toInt)
    (hfit : w.doffset.toNat + length.toInt.toNat < 2 ^ 32) :
    OnDisk (w.append allBytes i start buffer length) := by
  have hbehind := h.behind
  obtain ⟨hdoffset, happend⟩ :=
    append_allBytes i start buffer hpos hfit
  rw [happend]
  refine ⟨?_, ?_, ?_, ?_, ?_, ?_, ?_⟩
  · exact h.magic_length
  · refine ((h.magic.writeAt (Or.inl ?_)).writeAt (Or.inl ?_)).writeAt (Or.inl ?_) <;>
      rw [h.magic_length] <;> omega
  · rw [List.length_modify]
    refine ((h.dcount.writeAt (Or.inl ?_)).writeAt (Or.inl ?_)).writeAt (Or.inl ?_) <;>
      rw [length_leBytes] <;> omega
  · rw [hdoffset]
    refine ((holds_writeAt _ _ _).writeAt (Or.inl ?_)).writeAt (Or.inl ?_) <;>
      rw [length_leBytes] <;> omega
  · rw [hdoffset]
    exact holds_writeAt _ _ _
  · rw [hdoffset]
    omega
  · rw [List.length_modify]
    exact h.count

/-! ## Runs -/

/-- The same calls, every `pwrite` transferring every byte. -/
def allWritten (ops : List WadOp) : Calls := ops.map fun op => (allBytes, op)

/-- No write has a negative length. -/
def NonnegLength : WadOp → Prop
  | .writeToFile _ _ length _ => 0 ≤ length.toInt
  | _ => True

instance : (op : WadOp) → Decidable (NonnegLength op)
  | .writeToFile _ _ _ _ => inferInstanceAs (Decidable (_ ≤ _))
  | .createFile _ => isTrue trivial
  | .createDirectory _ => isTrue trivial

/-- The next call takes neither `doffset` nor the number of descriptors to
`2 ^ 32`. -/
structure FitsHeader (w : Wad) (op : WadOp) : Prop where
  /-- no negative length is written -/
  nonneg : NonnegLength op
  /-- the table can be found afterwards -/
  doffset : ∀ next ∈ w.step allBytes op, w.doffset.toNat + next.2.toNat < 2 ^ 32
  /-- and its length be told -/
  dcount : ∀ next ∈ w.step allBytes op, next.1.descriptors.length < 2 ^ 32

instance (w : Wad) (op : WadOp) : Decidable (FitsHeader w op) :=
  decidable_of_iff
    (NonnegLength op ∧ (∀ next ∈ w.step allBytes op, w.doffset.toNat + next.2.toNat < 2 ^ 32) ∧
      ∀ next ∈ w.step allBytes op, next.1.descriptors.length < 2 ^ 32)
    ⟨fun ⟨h₁, h₂, h₃⟩ => ⟨h₁, h₂, h₃⟩, fun ⟨h₁, h₂, h₃⟩ => ⟨h₁, h₂, h₃⟩⟩

/-- One call leaves the state on disk. -/
theorem Stepped.onDisk {F : WadForest} {w w' : Wad} (hw : w.descriptors = flattenAll F)
    {op : WadOp} {r : Int} (h : Stepped F w allBytes op w' r)
    (hstep : w.step allBytes op = some (w', r)) (hfit : FitsHeader w op) (hdisk : OnDisk w) :
    OnDisk w' := by
  have hdcount := hfit.dcount _ hstep
  have hdoffset := hfit.doffset _ hstep
  cases h with
  | refused _ => exact hdisk
  | created hc =>
    rw [insert_length] at hdcount
    refine hdisk.insert ?_ hdcount
    rw [hw]
    exact (drop_endPosition hc.stops.opens).1
  | written _ _ _ => exact hdisk.append hfit.nonneg hdoffset

/-- Every run leaves the state on disk. -/
theorem run_onDisk {ops : List WadOp} : ∀ {w : Wad} {F : WadForest}, WellFormed F →
    w.descriptors = flattenAll F → OnDisk w → w.Throughout FitsHeader (allWritten ops) →
    ∃ w', w.run (allWritten ops) = some w' ∧ OnDisk w' := by
  induction ops with
  | nil => intro w F _ _ hdisk _; exact ⟨w, rfl, hdisk⟩
  | cons op ops ih =>
    intro w F hF hw hdisk hfits
    obtain ⟨hfit, hrest⟩ := hfits
    obtain ⟨w₁, r, hstep, hcase⟩ := step_cases hF hw allBytes op
    obtain ⟨F₁, hforest, hw₁⟩ := hcase.forestStep hw hdisk.count
    obtain ⟨w', hrun, hdisk'⟩ := ih (hforest.wellFormed hF) hw₁ (hcase.onDisk hw hstep hfit hdisk)
      (hrest _ (Wad.call_eq hstep))
    refine ⟨w', ?_, hdisk'⟩
    rw [allWritten, List.map_cons, Wad.run, PartialRuns.run, Wad.call_eq hstep]
    exact hrun

/-- **Memory and disk never drift apart.** Loading the file that a run of calls
leaves gives back the state that the run leaves in memory. -/
theorem reload_after_run {file : Bytes} {w : Wad} (hload : Wad.loadWad file = some w)
    {F : WadForest} (hF : WellFormed F) (hw : w.descriptors = flattenAll F)
    (hoff : 12 ≤ w.doffset.toNat)
    (htable : w.doffset.toNat + w.descriptors.length * 16 ≤ file.length) {ops : List WadOp}
    (hfits : w.Throughout FitsHeader (allWritten ops)) :
    ∃ w', w.run (allWritten ops) = some w' ∧ Wad.loadWad w'.file = some w' := by
  obtain ⟨w', hrun, hdisk⟩ := run_onDisk hF hw (onDisk_of_loadWad hload hoff htable) hfits
  exact ⟨w', hrun, loadWad_of_onDisk hdisk⟩

/-! ### The limit of the count -/

/-- A WAD without data is on disk as it stands. -/
theorem onDisk_tableOnly {F : WadForest} (h : (flattenAll F).length < 2 ^ 32) :
    OnDisk (tableOnly F) where
  magic_length := rfl
  magic := by
    have := holds_middle [] (chars ['I', 'W', 'A', 'D'])
      (leBytes 4 (flattenAll F).length ++ leBytes 4 12 ++ tableBytes (flattenAll F))
    simpa [tableOnly, withoutData] using this
  dcount := by
    have := holds_middle (chars ['I', 'W', 'A', 'D']) (leBytes 4 (flattenAll F).length)
      (leBytes 4 12 ++ tableBytes (flattenAll F))
    simpa [tableOnly, withoutData, chars] using this
  doffset := by
    have := holds_middle (chars ['I', 'W', 'A', 'D'] ++ leBytes 4 (flattenAll F).length)
      (leBytes 4 12) (tableBytes (flattenAll F))
    simpa [tableOnly, withoutData, chars] using this
  table := by
    have := holds_middle (chars ['I', 'W', 'A', 'D'] ++ leBytes 4 (flattenAll F).length ++
      leBytes 4 12) (tableBytes (flattenAll F)) []
    simpa [tableOnly, withoutData, chars] using this
  behind := Nat.le_refl _
  count := h

/-- No file loads as `2 ^ 32` descriptors. -/
theorem loadWad_count {file : Bytes} {w : Wad} (h : Wad.loadWad file = some w) :
    w.descriptors.length < 2 ^ 32 := by
  rw [Wad.loadWad] at h
  split at h
  · cases h
  · obtain rfl := Option.some.inj h
    rw [length_readTable]
    exact leNat_lt (length_readAt_of_le (by omega))

/-- Once the count reaches `2 ^ 32`, the file no longer loads as the state. -/
theorem reload_fails {n : Nat} (hn : n + 1 = 2 ^ 32) :
    ∃ w', (tableOnly (lumps n)).step allBytes (.createFile besideLumps) = some (w', 0) ∧
      Wad.loadWad w'.file ≠ some w' := by
  refine ⟨_, createFile_lumps (by omega), fun hload => ?_⟩
  have hcount := loadWad_count hload
  rw [insert_length, Creation.node, flatten_item, tableOnly, withoutData,
    flattenAll_lumps] at hcount
  simp only [List.length_singleton] at hcount
  omega

/-- A WAD of `2 ^ 32 - 1` lumps loads, but `createFile("/B")` makes its count wrap. -/
theorem createFile_wraps_dcount :
    ¬ ∀ (file : Bytes) (w : Wad) (F : WadForest) (ops : List WadOp),
      Wad.loadWad file = some w → WellFormed F → w.descriptors = flattenAll F →
      12 ≤ w.doffset.toNat → w.doffset.toNat + w.descriptors.length * 16 ≤ file.length →
      w.Throughout (fun w op => NonnegLength op ∧
        ∀ next ∈ w.step allBytes op, w.doffset.toNat + next.2.toNat < 2 ^ 32) (allWritten ops) →
      ∃ w', w.run (allWritten ops) = some w' ∧ Wad.loadWad w'.file = some w' := by
  intro hall
  obtain ⟨n, hn⟩ : ∃ n, n + 1 = 2 ^ 32 := ⟨4294967295, rfl⟩
  obtain ⟨w', hstep, hreload⟩ := reload_fails hn
  have hdisk := onDisk_tableOnly (F := lumps n) (by rw [flattenAll_lumps]; omega)
  have hdoffset : ∀ next ∈ (tableOnly (lumps n)).step allBytes (.createFile besideLumps),
      (tableOnly (lumps n)).doffset.toNat + next.2.toNat < 2 ^ 32 := by
    intro next hnext
    rw [hstep] at hnext
    obtain rfl := Option.some.inj hnext
    exact (by decide : (12 : UInt32).toNat + (0 : Int).toNat < 2 ^ 32)
  obtain ⟨w'', hrun, hload⟩ := hall _ (tableOnly (lumps n)) (lumps n) [.createFile besideLumps]
    (loadWad_of_onDisk hdisk) (wellFormed_lumps n) rfl (Nat.le_refl _)
    (by simp [tableOnly, withoutData, chars]; omega) ⟨⟨trivial, hdoffset⟩, fun _ _ => trivial⟩
  rw [allWritten, List.map_cons, List.map_nil, Wad.run, PartialRuns.run, Wad.call_eq hstep] at hrun
  obtain rfl := Option.some.inj hrun
  exact hreload hload

/-- After a creation and a write the small WAD is loaded again. -/
theorem reload_after_run_sample :
    ∃ w', (tableOnly sampleForest).run (allWritten
        [.createFile (chars ['/', 'G', 'l', '/', 'b']),
          .writeToFile (chars ['/', 'G', 'l', '/', 'b']) [7] 1 0]) = some w' ∧
      Wad.loadWad w'.file = some w' :=
  reload_after_run (loadWad_of_onDisk (onDisk_tableOnly (by decide))) wellFormed_sampleForest rfl
    (by decide) (by decide) (by decide +kernel)

end Cop4600
