import Cop4600.Placement

/-!
# Runs of the mutators

What one call of `createDirectory`, `createFile` or `writeToFile` does to a state
whose table is the text of a well-formed forest is one of three things
(`Stepped`, `step_cases`): nothing, an insertion of a node behind the children of
some directory, or an append to some file. Everything about runs below is derived
from these three cases.
-/

namespace Cop4600

open Outline Storage

/-! ## One call -/

/-- The call that performs a creation. -/
def Creation.op : Creation → Bytes → WadOp
  | file, path => .createFile path
  | directory, path => .createDirectory path

/-- A path leads to the file at an address. -/
structure LeadsTo (F : WadForest) (path : Bytes) (as : List Nat) (d : WadDescriptor) : Prop where
  lookup : treeLookup F (cstr path) = some as
  file : Outline.nodeAt F as = some (item d)

theorem LeadsTo.unique {F : WadForest} {path : Bytes} {as as' : List Nat} {d d' : WadDescriptor}
    (h : LeadsTo F path as d) (h' : LeadsTo F path as' d') : as = as' ∧ d = d' := by
  obtain rfl := Option.some.inj (h.lookup.symm.trans h'.lookup)
  exact ⟨rfl, Outline.item.inj (Option.some.inj (h.file.symm.trans h'.file))⟩

theorem isFile_entry {F : WadForest} (hF : WellFormed F) {as : List Nat}
    {t : Outline WadDescriptor} (ht : Outline.nodeAt F as = some t) :
    isFile (flattenAll F) (.entry (position F as)) =
      some (match t with
        | item d => some (position F as, d)
        | _ => none) := by
  rw [isFile, getElem?_position ht, Option.map_some]
  have hwf := hF.nodeAt ht
  cases hwf with
  | file hd _ =>
    obtain ⟨hs, hm, -⟩ := isLump_iff.mp hd
    simp [hs, hm]
  | map hm _ _ _ => simp [hm]
  | dir ho _ _ _ => simp [ho]

/-- **What `resolve` and `is_file` make of a path**: the file it leads to. -/
theorem resolveFile_cases {w : Wad} {F : WadForest} (hF : WellFormed F)
    (hw : w.descriptors = flattenAll F) (path : Bytes) :
    (∃ as d, LeadsTo F path as d ∧ w.resolveFile path = some (some (position F as, d))) ∨
      (∀ as d, ¬ LeadsTo F path as d) ∧ w.resolveFile path = some none := by
  rw [Wad.resolveFile, hw, resolve_cstr, resolve_lookup hF (zero_notMem_cstr path),
    Option.bind_some]
  rcases hlook : treeLookup F (cstr path) with _ | as
  · refine Or.inr ⟨fun as d h => ?_, rfl⟩
    rw [h.lookup] at hlook
    cases hlook
  · rcases reached_of_treeLookup hlook with rfl | ⟨t, ht⟩
    · refine Or.inr ⟨fun as d h => ?_, rfl⟩
      obtain rfl := Option.some.inj (h.lookup.symm.trans hlook)
      simpa using h.file
    · have has : as ≠ [] := by
        rintro rfl
        simp at ht
      have hptr : pointerTo F as = .entry (position F as) := if_neg has
      simp only [hptr, isFile_entry hF ht]
      -- `is_file` tells a lump from a map and a directory
      cases t with
      | item d => exact Or.inl ⟨as, d, ⟨hlook, ht⟩, rfl⟩
      | block m ls =>
        refine Or.inr ⟨fun as' d h => ?_, rfl⟩
        obtain rfl := Option.some.inj (h.lookup.symm.trans hlook)
        cases h.file.symm.trans ht
      | group o cs c =>
        refine Or.inr ⟨fun as' d h => ?_, rfl⟩
        obtain rfl := Option.some.inj (h.lookup.symm.trans hlook)
        cases h.file.symm.trans ht

theorem LeadsTo.resolveFile {w : Wad} {F : WadForest} (hF : WellFormed F)
    (hw : w.descriptors = flattenAll F) {path : Bytes} {as : List Nat} {d : WadDescriptor}
    (h : LeadsTo F path as d) : w.resolveFile path = some (some (position F as, d)) := by
  rcases resolveFile_cases hF hw path with ⟨as', d', h', hres⟩ | ⟨hnot, -⟩
  · obtain ⟨rfl, rfl⟩ := h.unique h'
    exact hres
  · exact absurd h (hnot as d)

/-- A file that is found has been led to. -/
theorem leadsTo_of_resolveFile {w : Wad} {F : WadForest} (hF : WellFormed F)
    (hw : w.descriptors = flattenAll F) {path : Bytes} {i : Nat} {d : WadDescriptor}
    (h : w.resolveFile path = some (some (i, d))) :
    ∃ as, LeadsTo F path as d ∧ position F as = i := by
  rcases resolveFile_cases hF hw path with ⟨as, d', hlead, hres⟩ | ⟨-, hres⟩
  · rw [h, Option.some.injEq, Option.some.injEq, Prod.mk.injEq] at hres
    obtain ⟨rfl, rfl⟩ := hres
    exact ⟨as, hlead, rfl⟩
  · rw [h] at hres
    cases hres

/-- Where the data of a file that is appended to begins afterwards: an empty file
gets a place at the end of the data. -/
def startOf (w : Wad) (d : WadDescriptor) : UInt32 := if d.size = 0 then w.doffset else d.offset

/-- Every lump that is not empty ends in front of `doffset`. -/
def Wad.DataBefore (w : Wad) : Prop :=
  ∀ d ∈ w.descriptors, d.size ≠ 0 → d.offset.toNat + d.size.toNat ≤ w.doffset.toNat

instance (w : Wad) : Decidable w.DataBefore :=
  inferInstanceAs (Decidable (∀ d ∈ w.descriptors, _))

/-- Where a file that is appended to ends, the data ends. -/
theorem Wad.DataBefore.startOf_add_size {w : Wad} (h : w.DataBefore) {d : WadDescriptor}
    (hd : d ∈ w.descriptors) (hlast : d.size ≠ 0 → d.offset + d.size = w.doffset) :
    (startOf w d).toNat + d.size.toNat = w.doffset.toNat := by
  by_cases hsize : d.size = 0
  · rw [startOf, if_pos hsize, hsize]
    rfl
  · have hbefore := h d hd hsize
    have hbound := w.doffset.toNat_lt
    have hsum := congrArg UInt32.toNat (hlast hsize)
    rw [UInt32.toNat_add, Nat.mod_eq_of_lt (by omega)] at hsum
    rw [startOf, if_neg hsize, hsum]

/-- What a call can do to a state whose table is the text of `F`, and what it
returns. -/
inductive Stepped (F : WadForest) (w : Wad) (io : Pwrites) : WadOp → Wad → Int → Prop where
  /-- nothing is changed -/
  | refused {op : WadOp} {r : Int} (hr : r ≤ 0) : Stepped F w io op w r
  /-- a node is inserted behind the children of the site -/
  | created {kind : Creation} {path : Bytes} {as : List Nat} {c : Bytes} {site : List Nat}
      (h : Creates kind F path as c site) :
      Stepped F w io (kind.op path) (w.insert io (endPosition F site) (kind.node c).flatten) 0
  /-- the buffer is appended to a file: an empty one, or the last in the data -/
  | written {path buffer : Bytes} {length offset : Int32} {as : List Nat} {d : WadDescriptor}
      (hfile : LeadsTo F path as d) (hoff : offset.toUInt32 = d.size)
      (hlast : d.size ≠ 0 → d.offset + d.size = w.doffset) :
      Stepped F w io (.writeToFile path buffer length offset)
        (w.append io (position F as) (startOf w d) buffer length) length.toInt

theorem step_create (w : Wad) (io : Pwrites) (kind : Creation) (path : Bytes) :
    w.step io (kind.op path) = (w.create io kind path).map fun w' => (w', 0) := by
  cases kind <;> rfl

/-- **What a call does.** On a well-nested table every call returns, with one of
the three effects. -/
theorem step_cases {F : WadForest} (hF : WellFormed F) {w : Wad}
    (hw : w.descriptors = flattenAll F) (io : Pwrites) (op : WadOp) :
    ∃ w' r, w.step io op = some (w', r) ∧ Stepped F w io op w' r := by
  have hcreate : ∀ kind path,
      ∃ w' r, w.step io (Creation.op kind path) = some (w', r) ∧
        Stepped F w io (Creation.op kind path) w' r := by
    intro kind path
    rcases create_cases hF hw kind path with ⟨as, c, site, hc, hw'⟩ | ⟨-, hw'⟩
    · exact ⟨_, 0, by rw [step_create, hw', Option.map_some], .created hc⟩
    · exact ⟨w, 0, by rw [step_create, hw', Option.map_some], .refused (Int.le_refl 0)⟩
  cases op with
  | createDirectory path => exact hcreate .directory path
  | createFile path => exact hcreate .file path
  | writeToFile path buffer length offset =>
    rw [Wad.step, Wad.writeToFile]
    rcases resolveFile_cases hF hw path with ⟨as, d, hfile, hres⟩ | ⟨-, hres⟩
    · rw [hres, Option.map_some]
      by_cases hoff : offset.toUInt32 = d.size
      · by_cases hzero : d.size = 0
        · have hstart : startOf w d = w.doffset := if_pos hzero
          refine ⟨_, _, ?_, .written hfile hoff fun h => absurd hzero h⟩
          simp only [hoff, ne_eq, not_true_eq_false, if_false, if_pos hzero, hstart]
        · have hstart : startOf w d = d.offset := if_neg hzero
          by_cases hlast : d.offset + d.size = w.doffset
          · refine ⟨_, _, ?_, .written hfile hoff fun _ => hlast⟩
            simp only [hoff, ne_eq, not_true_eq_false, if_false, if_neg hzero, hlast, hstart]
          · exact ⟨w, 0, by simp only [hoff, ne_eq, not_true_eq_false, if_false, if_neg hzero,
              hlast, not_false_eq_true, if_true], .refused (Int.le_refl 0)⟩
      · exact ⟨w, 0, by simp only [hoff, ne_eq, not_false_eq_true, if_true],
          .refused (Int.le_refl 0)⟩
    · exact ⟨w, -1, by rw [hres]; rfl, .refused (by decide)⟩

end Cop4600
