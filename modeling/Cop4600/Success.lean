import Cop4600.Inserted
import Cop4600.Uniqueness

/-!
# Do valid creations succeed?

A creation that is asked for a new acceptable name in the root or in a `_START`
directory puts one empty node behind the children there; the path then resolves to
it, and the parent lists it last (`succeeds_of_grown`). If names are padded, no other
place would do (`grown_of_succeeds`). There is one exception: in
a vector without descriptors the place to insert is the null pointer, which the
two mutators take for a refusal (`creation_succeeds_iff`). (A second one needs a table
of `2 ^ 32` descriptors and more, as the index does not hold the place there.)
-/

namespace Cop4600

open Outline

/-- A creation of `c` in the directory at `as` has succeeded. -/
structure Succeeds (kind : Creation) (F : WadForest) (path : Bytes) (as : List Nat) (c : Bytes)
    (w w' : Wad) : Prop where
  /-- the path resolves to a new descriptor -/
  resolves : ∃ front back, w.descriptors = front ++ back ∧
    w'.descriptors = front ++ ((kind.node c).flatten ++ back) ∧
    resolve w'.descriptors path none = some (.entry front.length, none)
  /-- a file of size 0 -/
  file : kind = .file → w'.isContent path = some true ∧ w'.getSize path = some 0
  /-- or a directory without entries -/
  directory : kind = .directory → w'.isDirectory path = some true ∧
    ∀ directory, getDirectory w'.descriptors path directory = some (some 0, directory)
  /-- its name is the last one listed for the parent -/
  listed : ∀ parent, 0 ∉ parent → treeLookup F parent = some as → ∀ directory,
    ∃ names : List Bytes, getDirectory w'.descriptors parent directory =
      some (asInt (names.length + 1 : Nat), directory ++ names ++ [c])

theorem listedName_node {kind : Creation} {c : Bytes} (h0 : 0 ∉ c) (h8 : c.length ≤ 8)
    (ha : kind.accepts c) : listedName (kind.node c).label.name = c := by
  have hshown := shownAs_node h0 h8 ha
  rw [listedName_eq, ← shownAs, hshown]
  cases kind with
  | file => exact zeroPadded_ofBytes h0 h8
  | directory =>
    have h2 : c.length ≤ 2 := by simpa [Creation.accepts] using ha
    refine zeroPadded_ofBytes ?_ ?_
    · simpa [h0] using (by decide : (0 : UInt8) ∉ suffixStart)
    · simp [suffixStart, chars]
      omega

section

variable {F : WadForest} {kind : Creation} {path c : Bytes} {as : List Nat} {w' : Wad}
  (hF : WellFormed F) (hask : AsksFor F path as c) (hopen : Opens F as) (ha : kind.accepts c)
include hask hopen ha

/-- The path of a new child leads to it. -/
theorem AsksFor.treeLookup_appendAt {H : WadForest} (hH : Outline.kidsAt F as = some H) :
    treeLookup (appendAt F as (kind.node c)) path = some (as ++ [H.length]) := by
  obtain ⟨ps, hps, hlook⟩ := hask.parent
  obtain ⟨H', hH', hk⟩ := hask.missing
  obtain rfl := Option.some.inj (hH.symm.trans hH')
  have hfirst := firstKid_concat hk (shownAs_node hask.name_noNul hask.short ha)
  rw [treeLookup, if_pos hask.slashed, hps, lookup_concat,
    lookup_of_extends (extends_appendAt _ as F) hlook, Option.bind_some,
    kidsAt_appendAt hopen hH, Option.bind_some, hfirst, Option.map_some]

include hF

/-- **A new last child is a creation that has succeeded.** -/
theorem succeeds_of_grown {w : Wad} (hw : w.descriptors = flattenAll F)
    (hw' : w'.descriptors = flattenAll (appendAt F as (kind.node c))) :
    Succeeds kind F path as c w w' := by
  have h0 := hask.name_noNul
  have hF' : WellFormed (appendAt F as (kind.node c)) := .appendAt (wellFormed_node h0 ha) hF
  obtain ⟨H, hH⟩ := hopen.exists_kids
  have hlook := hask.treeLookup_appendAt hopen ha hH
  have hkids := kidsAt_appendAt hopen hH (kind.node c)
  have hnode : Outline.nodeAt (appendAt F as (kind.node c)) (as ++ [H.length]) =
      some (kind.node c) := by
    exact nodeAt_child hkids List.getElem?_concat_length
  have hres : resolve (flattenAll (appendAt F as (kind.node c))) path none =
      some (pointerTo (appendAt F as (kind.node c)) (as ++ [H.length]), none) := by
    rw [resolve_lookup hF' hask.noNul, hlook]
  refine ⟨?_, ?_, ?_, ?_⟩
  · refine ⟨(flattenAll F).take (endPosition F as), (flattenAll F).drop (endPosition F as), ?_, ?_,
      ?_⟩
    · rw [hw, List.take_append_drop]
    · rw [hw', flattenAll_appendAt _ hopen]
    · rw [hw', hres, pointerTo, if_neg (by simp), position_appendAt hopen hH, List.length_take,
        Nat.min_eq_left (drop_endPosition hopen).1]
  · rintro rfl
    have hleads : LeadsTo (appendAt F as (Creation.file.node c)) path (as ++ [H.length])
        ⟨0, 0, Name.ofBytes c⟩ := ⟨by rw [cstr_eq_self hask.noNul, hlook], hnode⟩
    have hfile := hleads.resolveFile hF' hw'
    refine ⟨?_, ?_⟩
    · rw [Wad.isContent, hfile]
      rfl
    · rw [Wad.getSize, hfile]
      rfl
  · rintro rfl
    have hempty : Outline.kidsAt (appendAt F as (Creation.directory.node c)) (as ++ [H.length]) =
        some [] := by
      rw [kidsAt_eq_nodeAt _ (by simp), hnode]
      rfl
    refine ⟨?_, fun directory => ?_⟩
    · have hdir := isDir_pointerTo hF' (.inr ⟨_, hnode⟩)
      rw [hempty] at hdir
      rw [Wad.isDirectory, hw', hres]
      exact hdir
    · have hzero : asInt (0 : Nat) = some 0 := rfl
      rw [hw', getDirectory_lookup hF' hask.noNul, hlook, Option.bind_some, hempty]
      simp [← hzero]
  · intro parent hparent hparentLook directory
    have hsame := treeLookup_of_extends (extends_appendAt (kind.node c) as F) hparentLook
    refine ⟨H.map fun t => listedName t.label.name, ?_⟩
    rw [hw', getDirectory_lookup hF' hparent, hsame, Option.bind_some, hkids]
    simp [listedName_node h0 hask.short ha]

/-- **A creation that has succeeded has put in a last child**, if names are padded. -/
theorem grown_of_succeeds {w : Wad} (hw : w.descriptors = flattenAll F)
    (hpadded : ∀ d ∈ w.descriptors, ZeroPadded d.name)
    (h : Succeeds kind F path as c w w') :
    w'.descriptors = flattenAll (appendAt F as (kind.node c)) := by
  obtain ⟨front, back, hsplit, hds, hres⟩ := h.resolves
  obtain ⟨H, hH, -⟩ := hask.missing
  have hlisted : ∀ parent, 0 ∉ parent → treeLookup F parent = some as → ∃ count names,
      getDirectory (front ++ ((kind.node c).flatten ++ back)) parent [] =
        some (count, names ++ [c]) := fun parent h0 hlook => by
    obtain ⟨names, hlist⟩ := h.listed parent h0 hlook []
    rw [hds, List.nil_append] at hlist
    exact ⟨_, names, hlist⟩
  rw [hds] at hres
  rw [hw] at hsplit hpadded
  have hplace := length_front_of_listed hF hsplit hH hpadded hask hopen
    (wellFormed_node hask.name_noNul ha) hres hlisted
  rw [hds, flattenAll_appendAt _ hopen, hsplit, ← hplace, List.take_left, List.drop_left]

/-- **Where the tree grows**: in every directory of a table that is not empty, if its end can
be told in 32 bits. -/
theorem creation_grows_iff {io : Pwrites} {w : Wad} (hw : w.descriptors = flattenAll F) :
    ∃ w', w.create io kind path = some w' ∧
      (w'.descriptors = flattenAll (appendAt F as (kind.node c)) ↔
        F ≠ [] ∧ endPosition F as < 2 ^ 32) := by
  have hcstr := cstr_eq_self hask.noNul
  rcases @create_cases io w F hF hw kind path with ⟨as', c', site, hc, hw'⟩ | ⟨hnot, hw'⟩
  · have hasks := hc.asks
    rw [hcstr] at hasks
    obtain ⟨rfl, rfl⟩ := hasks.unique hask
    obtain rfl : site = as' := hc.stops.site_of_opens hopen
    obtain ⟨H, hH, hk⟩ := hask.missing
    refine ⟨_, hw', fun h => ⟨hc.nonempty, ?_⟩, fun h => insert_endPosition hw hopen h.2 _⟩
    by_contra hbig
    exact insert_truncated hF hw hopen hH hk hask.name_noNul hask.short ha
      (Nat.not_lt.mp hbig) _ h
  · refine ⟨w, hw', iff_of_false (fun heq => ?_) fun h => ?_⟩
    · -- the call has been refused, so the table has not grown
      have hlen := congrArg List.length heq
      have hpos := (kind.node c).flatten_length_pos
      rw [hw, flattenAll_appendAt _ hopen, length_spliced] at hlen
      omega
    · exact hnot as c as ⟨by rwa [hcstr], .own hopen, ha, h.1⟩

/-- **Where valid creations succeed**: in every directory of a table that is not
empty (whose end can be told in 32 bits). For zero-padded names this is all that a
caller can see; whatever the names are, it is there that the tree grows by one node,
the last child of the directory. -/
theorem creation_succeeds_iff {io : Pwrites} {w : Wad} (hw : w.descriptors = flattenAll F) :
    ∃ w', w.create io kind path = some w' ∧
      ((∀ d ∈ w.descriptors, ZeroPadded d.name) →
        (Succeeds kind F path as c w w' ↔ F ≠ [] ∧ endPosition F as < 2 ^ 32)) ∧
      (w'.descriptors = flattenAll (appendAt F as (kind.node c)) ↔
        F ≠ [] ∧ endPosition F as < 2 ^ 32) := by
  obtain ⟨w', hcreate, hgrown⟩ := @creation_grows_iff F kind path c as hF hask hopen ha io w hw
  refine ⟨w', hcreate, fun hpadded => ⟨fun h => ?_, fun h => ?_⟩, hgrown⟩
  · exact hgrown.mp (grown_of_succeeds hF hask hopen ha hw hpadded h)
  · exact succeeds_of_grown hF hask hopen ha hw (hgrown.mpr h)

end

/-! ### A table without descriptors -/

/-- `createFile("/Gl/b")` leaves a file of size 0 at that path. -/
theorem creation_succeeds_iff_sample :
    ∃ w', (tableOnly sampleForest).create allBytes .file (chars ['/', 'G', 'l', '/', 'b']) =
        some w' ∧
      Succeeds .file sampleForest (chars ['/', 'G', 'l', '/', 'b']) [0] (chars ['b'])
        (tableOnly sampleForest) w' ∧
      w'.descriptors =
        flattenAll (appendAt sampleForest [0] (Creation.file.node (chars ['b']))) := by
  obtain ⟨w', hcreate, hiff, hgrown⟩ := @creation_succeeds_iff sampleForest .file
    (chars ['/', 'G', 'l', '/', 'b']) (chars ['b']) [0] wellFormed_sampleForest
    ⟨by decide, by decide, ⟨[chars ['G', 'l']], by decide, by decide⟩, ⟨_, rfl, by decide⟩,
      by decide⟩
    (opens_cons.mpr ⟨_, _, _, rfl, opens_nil _⟩) (by decide) allBytes (tableOnly sampleForest) rfl
  have hfits : sampleForest ≠ [] ∧ endPosition sampleForest [0] < 2 ^ 32 :=
    ⟨List.cons_ne_nil _ _, by decide⟩
  exact ⟨w', hcreate, (hiff (by decide)).mpr hfits, hgrown.mpr hfits⟩

/-- `createFile("/A")` in a WAD without descriptors creates nothing. -/
theorem createFile_without_descriptors :
    ¬ ∀ (io : Pwrites) (w : Wad) (F : WadForest), WellFormed F → w.descriptors = flattenAll F →
      (∀ d ∈ w.descriptors, ZeroPadded d.name) →
      ∀ (kind : Creation) (path : Bytes) (as : List Nat) (c : Bytes), AsksFor F path as c →
        Opens F as → kind.accepts c →
        ∃ w', w.create io kind path = some w' ∧ Succeeds kind F path as c w w' := by
  intro hall
  have hask : AsksFor [] (chars ['/', 'A']) [] (chars ['A']) :=
    ⟨by decide, by decide, ⟨[], by decide, rfl⟩, ⟨[], rfl, rfl⟩, by decide⟩
  obtain ⟨w', hw', h⟩ := hall allBytes (tableOnly []) [] .nil rfl (by decide) .file _ _ _ hask
    (opens_nil _) (by decide)
  have hsame : (tableOnly []).create allBytes .file (chars ['/', 'A']) = some (tableOnly []) := by
    decide +kernel
  rw [hsame] at hw'
  obtain rfl := Option.some.inj hw'
  have hfile := (h.file rfl).1
  revert hfile
  decide +kernel

end Cop4600
