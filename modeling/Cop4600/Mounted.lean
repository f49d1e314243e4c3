import Cop4600.FileTree
import Cop4600.Limits
import Cop4600.Listing
import Cop4600.Preorder

/-!
# A mounted WAD is a file system of names and contents

`treeOf` reads a `FileTree` off a `Wad` whose table is the text of a forest: the
display names, the bytes that the descriptors stand for, and which files end where
the data ends. Whatever callbacks are called, in whatever order, and however often
the program is ended and started again on its file, they answer what the tree
answers (`mounted_run`).
-/

namespace Cop4600

open Outline Storage FileTree

/-! ## The tree of a WAD -/

/-- What a descriptor is in the tree: its display name, its contents, and whether the data
ends with them. -/
def entryOf (w : Wad) (d : WadDescriptor) : FsEntry where
  name := shownAs d
  data := w.contents d
  last := decide (d.size ≠ 0 ∧ d.offset + d.size = w.doffset)

/-- What the descriptors of a table say to a user. -/
def entriesOf (w : Wad) : Relabel WadDescriptor FsEntry where
  item := entryOf w
  marker d := FsEntry.named (shownAs d)
  closing := FsEntry.named []

/-- The tree of a forest of descriptors, with the contents that the file has for them. -/
def treeOf (w : Wad) (F : WadForest) : FileTree := relabelAll (entriesOf w) F

/-- Entries have the names of their descriptors. -/
theorem keepsKey_entriesOf (w : Wad) : KeepsKey (entriesOf w) shownAs FsEntry.name where
  item _ := rfl
  marker _ := rfl

/-- A path leads to the same place in the tree and in the forest. -/
theorem locate_treeOf (w : Wad) (F : WadForest) (path : Bytes) :
    locate (treeOf w F) path = treeLookup F (cstr path) := by
  rw [locate, treeLookup, treeOf, lookup_relabelAll (keepsKey_entriesOf w)]

/-- A lump is a file of the tree. -/
theorem found_of_item {w : Wad} {F : WadForest} {as : List Nat} {d : WadDescriptor}
    (h : Outline.nodeAt F as = some (item d)) :
    found (treeOf w F) as = .file (entryOf w d) := by
  have has : as ≠ [] := fun hnil => by
    rw [hnil, nodeAt_nil] at h
    cases h
  have hkids : Outline.kidsAt F as = none := by
    rw [kidsAt_eq_nodeAt F has, h, Option.bind_some, kids_item]
  rw [found, treeOf, kidsAt_relabelAll, hkids, nodeAt_relabelAll, h]
  rfl

/-- A map or a `_START` directory, and the root, is a directory of it. -/
theorem found_of_kids {w : Wad} {F H : WadForest} {as : List Nat}
    (h : Outline.kidsAt F as = some H) : found (treeOf w F) as = .directory (treeOf w H) := by
  rw [found, treeOf, kidsAt_relabelAll, h]
  rfl

/-- What a path can lead to. -/
theorem path_cases (F : WadForest) (path : Bytes) :
    (∃ as d, LeadsTo F path as d) ∨
      (∃ as H, treeLookup F (cstr path) = some as ∧ Outline.kidsAt F as = some H) ∨
      treeLookup F (cstr path) = none := by
  rcases hlook : treeLookup F (cstr path) with _ | as
  · exact Or.inr (Or.inr rfl)
  · rcases hH : Outline.kidsAt F as with _ | H
    · rcases reached_of_treeLookup hlook with rfl | ⟨t, ht⟩
      · rw [kidsAt_nil] at hH
        cases hH
      · have has : as ≠ [] := fun hnil => by
          rw [hnil, nodeAt_nil] at ht
          cases ht
        rw [kidsAt_eq_nodeAt F has, ht, Option.bind_some] at hH
        cases t with
        | item d => exact Or.inl ⟨as, d, hlook, ht⟩
        | block m ls => rw [kids_block] at hH; cases hH
        | group o cs c => rw [kids_group] at hH; cases hH
    · exact Or.inr (Or.inl ⟨as, H, rfl, hH⟩)

/-- Where a directory is found, there is no file. -/
theorem LeadsTo.kidsAt_eq_none {F : WadForest} {path : Bytes} {as : List Nat} {d : WadDescriptor}
    (h : LeadsTo F path as d) : Outline.kidsAt F as = none := by
  have has : as ≠ [] := fun hnil => by
    have hfile := h.file
    rw [hnil, nodeAt_nil] at hfile
    cases hfile
  rw [kidsAt_eq_nodeAt F has, h.file, Option.bind_some, kids_item]

/-- A path that leads to a lump finds its file. -/
theorem look_of_leadsTo {w : Wad} {F : WadForest} {path : Bytes} {as : List Nat}
    {d : WadDescriptor} (h : LeadsTo F path as d) :
    look (treeOf w F) path = .file (entryOf w d) := by
  rw [look, locate_treeOf, h.lookup]
  exact found_of_item h.file

/-- A path that leads to children finds a directory. -/
theorem look_of_kids {w : Wad} {F H : WadForest} {path : Bytes} {as : List Nat}
    (hlook : treeLookup F (cstr path) = some as) (hH : Outline.kidsAt F as = some H) :
    look (treeOf w F) path = .directory (treeOf w H) := by
  rw [look, locate_treeOf, hlook]
  exact found_of_kids hH

/-- A path that leads nowhere finds nothing. -/
theorem look_of_none {w : Wad} {F : WadForest} {path : Bytes}
    (h : treeLookup F (cstr path) = none) : look (treeOf w F) path = .nothing := by
  rw [look, locate_treeOf, h]

/-! ## What holds while a WAD is mounted -/

/-- The table is the text of a forest, with names padded by zeros; the data lies where
it should, and the file holds all of it. -/
structure Mounted (w : Wad) (F : WadForest) : Prop where
  /-- the forest is well-formed -/
  wellFormed : WellFormed F
  /-- the table is its text -/
  table : w.descriptors = flattenAll F
  /-- the data is where it should be -/
  layout : Layout w
  /-- the file holds all that is in memory -/
  onDisk : OnDisk w
  /-- names have zeros behind them -/
  padded : ∀ d ∈ w.descriptors, ZeroPadded d.name

/-- The file has all the bytes that a descriptor says it has. -/
theorem Layout.length_contents {w : Wad} (h : Layout w) {d : WadDescriptor}
    (hd : d ∈ w.descriptors) : (w.contents d).length = d.size.toNat := by
  by_cases hsize : d.size = 0
  · rw [Wad.contents, hsize, UInt32.toNat_zero, readAt_zero, List.length_nil]
  · exact (holds_contents h hd hsize).2

/-- The descriptor of a node is in the table. -/
theorem Mounted.mem {w : Wad} {F : WadForest} (h : Mounted w F) {as : List Nat}
    {d : WadDescriptor} (hd : Outline.nodeAt F as = some (item d)) : d ∈ w.descriptors := by
  rw [h.table]
  exact List.mem_of_getElem? (getElem?_position hd)

/-! ## Callbacks that look -/

section Look

variable {w : Wad} {F : WadForest} {path : Bytes}

/-- Where there are children there is no lump. -/
theorem not_leadsTo_of_kids {as : List Nat} {H : WadForest}
    (hlook : treeLookup F (cstr path) = some as) (hH : Outline.kidsAt F as = some H) :
    ∀ as' d, ¬ LeadsTo F path as' d := by
  intro as' d hlead
  have has : as = as' := Option.some.inj (hlook.symm.trans hlead.lookup)
  rw [has, hlead.kidsAt_eq_none] at hH
  cases hH

/-- There is no lump where a path leads nowhere. -/
theorem not_leadsTo_of_none (hlook : treeLookup F (cstr path) = none) :
    ∀ as d, ¬ LeadsTo F path as d := by
  intro as d hlead
  rw [hlead.lookup] at hlook
  cases hlook

variable (h : Mounted w F)
include h

/-- `Wad` then finds no file. -/
theorem Mounted.resolveFile_of_not (hnot : ∀ as d, ¬ LeadsTo F path as d) :
    w.resolveFile path = some none := by
  rcases resolveFile_cases h.wellFormed h.table path with ⟨as, d, hlead, _⟩ | ⟨_, hnone⟩
  · exact absurd hlead (hnot as d)
  · exact hnone

/-- `getSize` gives how much data there is. -/
theorem Mounted.getSize {as : List Nat} {d : WadDescriptor} (hlead : LeadsTo F path as d) :
    w.getSize path = some ((entryOf w d).data.length : Int) := by
  have hd := h.mem hlead.file
  have hlen : (entryOf w d).data.length = d.size.toNat := h.layout.length_contents hd
  rw [Wad.getSize, hlead.resolveFile h.wellFormed h.table, Option.map_some, hlen,
    ← toInt_toInt32_of_lt (h.layout.sizes d hd)]

/-- `isDirectory` says yes where there are children. -/
theorem Mounted.isDirectory_of_kids {as : List Nat} {H : WadForest}
    (hlook : treeLookup F (cstr path) = some as) (hH : Outline.kidsAt F as = some H) :
    w.isDirectory path = some true := by
  have hres := resolve_lookup h.wellFormed (zero_notMem_cstr path)
  rw [hlook] at hres
  rw [Wad.isDirectory, h.table, resolve_cstr, hres, Option.bind_some]
  simp only
  rw [isDir_pointerTo h.wellFormed (reached_of_treeLookup hlook), hH]
  rfl

/-- `isDirectory` says no where the path leads nowhere. -/
theorem Mounted.isDirectory_of_none (hlook : treeLookup F (cstr path) = none) :
    w.isDirectory path = some false := by
  have hres := resolve_lookup h.wellFormed (zero_notMem_cstr path)
  rw [hlook] at hres
  rw [Wad.isDirectory, h.table, resolve_cstr, hres, Option.bind_some]
  rfl

/-- `wadfs_getattr` tells files from directories and knows their sizes. -/
theorem step_getattr (io : Pwrites) (st : Stat) :
    wadfsStep io w (.getattr path st) =
      some (w, (answer (treeOf w F) (.getattr path st)).2) := by
  rw [wadfsStep, wadfsGetattr, Wad.isContent, answer]
  rcases path_cases F path with ⟨as, d, hlead⟩ | ⟨as, H, hlook, hH⟩ | hlook
  · rw [look_of_leadsTo hlead, hlead.resolveFile h.wellFormed h.table, Option.map_some,
      Option.bind_some, Option.isSome_some]
    simp only
    rw [h.getSize hlead]
    rfl
  · rw [look_of_kids hlook hH, h.resolveFile_of_not (not_leadsTo_of_kids hlook hH),
      Option.map_some, Option.bind_some, Option.isSome_none]
    simp only
    rw [h.isDirectory_of_kids hlook hH]
    rfl
  · rw [look_of_none hlook, h.resolveFile_of_not (not_leadsTo_of_none hlook),
      Option.map_some, Option.bind_some, Option.isSome_none]
    simp only
    rw [h.isDirectory_of_none hlook]
    rfl

/-- Offsets that are an `int` are honoured by reads. -/
theorem Mounted.readsFile {as : List Nat} {d : WadDescriptor} (hlead : LeadsTo F path as d)
    {len : UInt64} {offset : Int64} (hlen : len.toNat < 2 ^ 31) (hnonneg : 0 ≤ offset.toInt)
    (hoff : offset.toInt < 2 ^ 31) : ReadsFile w path d len offset := by
  have hd := h.mem hlead.file
  have hres := hlead.resolveFile h.wellFormed h.table
  have hsize := h.layout.sizes d hd
  by_cases hin : offset.toInt < d.size.toNat
  · have hne : d.size ≠ 0 := fun hzero => by
      rw [hzero, UInt32.toNat_zero] at hin
      exact absurd hin (Int.not_lt.mpr hnonneg)
    obtain ⟨_, hend, hpresent⟩ := h.layout.data d hd hne
    have hlt := w.doffset.toNat_lt
    exact (readsFile_inside_iff hres hsize hlen hpresent hnonneg hin).mpr
      (Or.inr (by omega)) w.file rfl
  · have hsame : offset.toInt32.toInt = offset.toInt := by
      rw [toInt_narrowed hnonneg, Nat.mod_eq_of_lt (by omega)]
      split <;> omega
    have hnothing : (w.contents d).drop offset.toInt.toNat = [] := by
      rw [List.drop_eq_nil_iff, h.layout.length_contents hd]
      omega
    rw [ReadsFile, wadfsRead_eq hres hsize hlen, hsame, if_pos (Int.not_lt.mp hin), hnothing,
      List.take_nil]

/-- A path that leads to no file cannot be read. -/
theorem Mounted.read_of_not (hnot : ∀ as d, ¬ LeadsTo F path as d) (len : UInt64)
    (offset : Int64) : wadfsRead w path len offset = some (-EPERM, []) := by
  rw [wadfsRead, Wad.getContentsInt, Wad.getContents, h.resolveFile_of_not hnot]
  rfl

/-- `wadfs_read` gives the bytes of a file from an offset on. -/
theorem step_read (io : Pwrites) {len : UInt64} {offset : Int64}
    (hgiven : (Callback.read path len offset).Given) :
    wadfsStep io w (.read path len offset) =
      some (w, (answer (treeOf w F) (.read path len offset)).2) := by
  obtain ⟨hlen, hnonneg, hoff⟩ := hgiven
  rw [wadfsStep, answer]
  rcases path_cases F path with ⟨as, d, hlead⟩ | ⟨as, H, hlook, hH⟩ | hlook
  · rw [look_of_leadsTo hlead, h.readsFile hlead hlen hnonneg hoff]
    rfl
  · rw [look_of_kids hlook hH, h.read_of_not (not_leadsTo_of_kids hlook hH)]
    rfl
  · rw [look_of_none hlook, h.read_of_not (not_leadsTo_of_none hlook)]
    rfl

omit h in
/-- The names of a directory's entries, as the tree and as the table have them. -/
theorem names_treeOf {H : WadForest} (hpad : ∀ t ∈ H, ZeroPadded t.label.name) :
    (H.map fun t => listedName t.label.name).map cstr =
      (treeOf w H).map fun t => t.label.name := by
  rw [treeOf, relabelAll_eq_map, List.map_map, List.map_map]
  apply List.map_congr_left
  intro t ht
  rw [Function.comp_apply, Function.comp_apply, (keepsKey_entriesOf w).label,
    listedName_eq (hpad t ht)]
  exact cstr_eq_self (zero_notMem_displayName (hpad t ht))

/-- `wadfs_readdir` lists the entries of a directory, as many as an `int` can count. -/
theorem step_readdir (io : Pwrites) (hcount : w.descriptors.length < 2 ^ 31) :
    wadfsStep io w (.readdir path) = some (w, (answer (treeOf w F) (.readdir path)).2) := by
  have hlist := getDirectory_lookup h.wellFormed (zero_notMem_cstr path) []
  have hcstr : getDirectory (flattenAll F) path [] =
      getDirectory (flattenAll F) (cstr path) [] := by
    rw [getDirectory, getDirectory, ← resolve_cstr]
  have hbound := hcount
  rw [h.table] at hbound
  rw [wadfsStep, wadfsReaddir, h.table, hcstr, hlist, answer, Option.bind_some]
  rcases path_cases F path with ⟨as, d, hlead⟩ | ⟨as, H, hlook, hH⟩ | hlook
  · rw [look_of_leadsTo hlead, hlead.lookup, Option.bind_some, hlead.kidsAt_eq_none]
    rfl
  · have hpad : ∀ t ∈ H, ZeroPadded t.label.name := by
      intro t ht
      obtain ⟨k, hk⟩ := List.mem_iff_getElem?.mp ht
      apply h.padded
      rw [h.table]
      exact List.mem_of_getElem? (getElem?_position (nodeAt_child hH hk))
    rw [look_of_kids hlook hH, hlook, Option.bind_some, hH]
    simp only [List.nil_append, asInt_natCast ((length_le_of_kidsAt hH).trans_lt hbound),
      Option.map_some]
    rw [if_neg (by omega), names_treeOf hpad]
  · rw [look_of_none hlook, hlook, Option.bind_none]
    rfl

end Look

/-! ## Creations -/

section Create

variable {w : Wad} {F : WadForest}

/-- Below a map, an iteration stops where something can be inserted only if the map is
the last child of its directory. -/
theorem stopsAt_block_iff {as place : List Nat} {k : Nat} {m : WadDescriptor}
    {ls : List WadDescriptor} (hm : Outline.nodeAt F (as ++ [k]) = some (block m ls)) :
    StopsAt F (as ++ [k]) place ↔
      (Outline.kidsAt F as).map List.length = some (k + 1) ∧ as = place := by
  refine ⟨fun h => ?_, fun ⟨hlen, hplace⟩ => ?_⟩
  · obtain rfl := h.site_of_block rfl hm
    refine ⟨?_, rfl⟩
    generalize hbs : place ++ [k] = bs at h
    cases h with
    | own hopen =>
      rw [hbs] at hm
      exact absurd hopen (not_opens_block hm)
    | lastMap _ hG hk =>
      obtain ⟨_, hkk⟩ := List.append_inj' hbs rfl
      obtain rfl := List.singleton_inj.mp hkk
      rw [hG, Option.map_some, hk]
  · subst hplace
    obtain ⟨G, hG, hk⟩ := Option.map_eq_some_iff.mp hlen
    exact .lastMap hm hG hk

/-- The tree's own rule for where a new entry goes is where the iteration stops. -/
theorem site_treeOf {as : List Nat} {H : WadForest} (hH : Outline.kidsAt F as = some H)
    (place : List Nat) : site (treeOf w F) as = some place ↔ StopsAt F as place := by
  have hnode : ∀ bs, Outline.nodeAt (treeOf w F) bs =
      (Outline.nodeAt F bs).map (relabel (entriesOf w)) := nodeAt_relabelAll _ F
  rcases hlast : as.getLast? with _ | k
  · obtain rfl := List.getLast?_eq_none_iff.mp hlast
    rw [site, hnode, nodeAt_nil, Option.map_none]
    refine ⟨fun h => ?_, fun h => by rw [h.site_of_opens (opens_nil F)]⟩
    obtain rfl := Option.some.inj h
    exact .own (opens_nil F)
  · obtain ⟨bs, rfl⟩ := List.getLast?_eq_some_iff.mp hlast
    rw [kidsAt_eq_nodeAt F (List.concat_ne_nil k bs)] at hH
    obtain ⟨t, ht, hkids⟩ := Option.bind_eq_some_iff.mp hH
    rw [site, hnode, ht, Option.map_some, hlast]
    cases t with
    | item d =>
      rw [kids_item] at hkids
      cases hkids
    | group o cs c =>
      rw [relabel_group]
      have hopen := opens_of_nodeAt ht
      refine ⟨fun h => ?_, fun h => by rw [h.site_of_opens hopen]⟩
      obtain rfl := Option.some.inj h
      exact .own hopen
    | block m ls =>
      have hlengths : (Outline.kidsAt (treeOf w F) bs).map List.length =
          (Outline.kidsAt F bs).map List.length := by
        rw [treeOf, kidsAt_relabelAll, Option.map_map]
        congr 1
        funext G
        exact length_relabelAll _ G
      rw [relabel_block, stopsAt_block_iff ht]
      simp only [List.dropLast_concat, hlengths, Option.ite_none_right_eq_some, Option.some.injEq]

/-- **The tree accepts a creation** exactly if the library does. -/
theorem wanted_treeOf (kind : Creation) (path : Bytes) (place : List Nat) (c : Bytes) :
    wanted (treeOf w F) kind (cstr path) = some (place, c) ↔
      ∃ as, Creates kind F path as c place := by
  have hlook : ∀ cs, lookup FsEntry.name (treeOf w F) cs = lookup shownAs F cs := fun cs =>
    lookup_relabelAll (keepsKey_entriesOf w) cs F
  have hlen : (treeOf w F).length ≠ 0 ↔ F ≠ [] := by
    rw [treeOf, length_relabelAll, ne_eq, List.length_eq_zero_iff]
  refine ⟨fun h => ?_, fun ⟨as, h⟩ => ?_⟩
  · obtain ⟨⟨hslash, hne⟩, h⟩ := Option.ite_none_right_eq_some.mp h
    obtain ⟨c', hlast, h⟩ := Option.bind_eq_some_iff.mp h
    obtain ⟨as, has, h⟩ := Option.bind_eq_some_iff.mp h
    obtain ⟨H', hH', h⟩ := Option.bind_eq_some_iff.mp h
    obtain ⟨⟨hmissing, h8, haccepted⟩, h⟩ := Option.ite_none_right_eq_some.mp h
    obtain ⟨place', hplace, heq⟩ := Option.map_eq_some_iff.mp h
    obtain ⟨rfl, rfl⟩ := Prod.mk.inj heq
    rw [treeOf, kidsAt_relabelAll] at hH'
    obtain ⟨H, hH, rfl⟩ := Option.map_eq_some_iff.mp hH'
    rw [firstKid_relabelAll (keepsKey_entriesOf w)] at hmissing
    rw [hlook] at has
    exact ⟨as, ⟨hslash, zero_notMem_cstr path,
      ⟨_, (List.dropLast_append_getLast? _ hlast).symm, has⟩, ⟨H, hH, hmissing⟩, h8⟩,
      (site_treeOf hH _).mp hplace, haccepted, hlen.mp hne⟩
  · obtain ⟨⟨hslash, h0, ⟨ps, hps, has⟩, ⟨H, hH, hmissing⟩, h8⟩, hstops, haccepted, hne⟩ := h
    rw [wanted, if_pos ⟨hslash, hlen.mpr hne⟩, hps, List.getLast?_concat, Option.bind_some,
      List.dropLast_concat, hlook, has, Option.bind_some, treeOf, kidsAt_relabelAll, hH,
      Option.map_some, Option.bind_some, firstKid_relabelAll (keepsKey_entriesOf w),
      if_pos ⟨hmissing, h8, haccepted⟩, ← treeOf, (site_treeOf hH place).mpr hstops]
    rfl

/-- Descriptors that say the same of another state give the same tree. -/
theorem treeOf_congr {w' : Wad} (h : ∀ d ∈ flattenAll F, entryOf w' d = entryOf w d) :
    treeOf w' F = treeOf w F :=
  relabelAll_congr (r := entriesOf w') (s := entriesOf w) rfl F h fun _ _ => rfl

/-- What a creation adds is empty, and shows the name that was asked for. -/
theorem relabel_node {kind : Creation} {c : Bytes} (h0 : 0 ∉ c) (h8 : c.length ≤ 8)
    (haccepted : kind.accepts c) :
    relabel (entriesOf w) (kind.node c) = newEntry kind c := by
  have hshown := shownAs_node h0 h8 haccepted
  cases kind with
  | file =>
    rw [Creation.node, label_item] at hshown
    rw [Creation.node, relabel_item, newEntry, FsEntry.named, entriesOf]
    simp only [entryOf, hshown, Wad.contents, UInt32.toNat_zero, readAt_zero, ne_eq,
      not_true_eq_false, false_and, decide_false]
  | directory =>
    rw [Creation.node, label_group] at hshown
    rw [Creation.node, relabel_group, relabelAll_nil, newEntry, entriesOf]
    simp only [hshown]

/-- A new node has no data, and its names are padded. -/
theorem mem_node {kind : Creation} {c : Bytes} (h0 : 0 ∉ c) (h8 : c.length ≤ 8)
    (haccepted : kind.accepts c) {d : WadDescriptor} (hd : d ∈ (kind.node c).flatten) :
    d.size = 0 ∧ ZeroPadded d.name := by
  cases kind with
  | file =>
    rw [Creation.node, flatten_item, List.mem_singleton] at hd
    subst hd
    exact ⟨rfl, zeroPadded_ofBytes h0 h8⟩
  | directory =>
    have hshort : c.length ≤ 2 := by simpa [Creation.accepts] using haccepted
    rw [Creation.node, flatten_group, flattenAll_nil, List.nil_append, List.mem_pair] at hd
    rcases hd with rfl | rfl
    · refine ⟨rfl, zeroPadded_ofBytes (fun h => ?_) ?_⟩
      · rcases List.mem_append.mp h with h | h
        · exact h0 h
        · revert h
          decide
      · rw [List.length_append]
        exact Nat.add_le_add hshort (Nat.le_refl 6)
    · refine ⟨rfl, zeroPadded_ofBytes (fun h => ?_) ?_⟩
      · rcases List.mem_append.mp h with h | h
        · exact h0 h
        · revert h
          decide
      · rw [List.length_append]
        exact (Nat.add_le_add hshort (Nat.le_refl 4)).trans (by decide)

/-- How many descriptors a creation adds. -/
def Creation.descriptors : Creation → Nat
  | .file => 1
  | .directory => 2

/-- A creation puts in as many descriptors as it is said to ask for. -/
theorem length_node (kind : Creation) (c : Bytes) :
    (kind.node c).flatten.length = kind.descriptors := by
  cases kind with
  | file => rw [Creation.node, flatten_item]; rfl
  | directory => rw [Creation.node, flatten_group, flattenAll_nil]; rfl

/-- What is left of a state after a creation: it has the same data, and new descriptors
are empty. -/
structure Enlarged (kind : Creation) (w w' : Wad) : Prop where
  doffset : w'.doffset = w.doffset
  mem : ∀ d' ∈ w'.descriptors, d'.size = 0 ∨ d' ∈ w.descriptors
  length : w'.descriptors.length ≤ w.descriptors.length + kind.descriptors

/-- **A creation in the table is a creation in the tree.** -/
theorem Mounted.create (h : Mounted w F) (kind : Creation) (path : Bytes)
    (hcount : w.descriptors.length + kind.descriptors < 2 ^ 32) :
    ∃ w' F', w.create allBytes kind path = some w' ∧ Mounted w' F' ∧
      treeOf w' F' = FileTree.create (treeOf w F) kind path ∧ Enlarged kind w w' := by
  rcases @create_cases allBytes w F h.wellFormed h.table kind path with
    ⟨as, c, place, hcreates, hw'⟩ | ⟨hnot, hw'⟩
  · have hwanted := (wanted_treeOf (w := w) kind path place c).mpr ⟨as, hcreates⟩
    have hopen := hcreates.stops.opens
    have h0 := hcreates.asks.name_noNul
    have h8 := hcreates.asks.short
    have hle : endPosition F place ≤ w.descriptors.length := by
      rw [h.table]
      exact (drop_endPosition hopen).1
    have hlen : (kind.node c).flatten.length = kind.descriptors := length_node kind c
    rw [← hlen] at hcount
    have hmem : ∀ d ∈ (w.insert allBytes (endPosition F place) (kind.node c).flatten).descriptors,
        d ∈ (kind.node c).flatten ∨ d ∈ w.descriptors := by
      intro d hd
      rw [insert_descriptors, List.mem_append, List.mem_append] at hd
      rcases hd with hd | hd | hd
      · exact Or.inr (List.mem_of_mem_take hd)
      · exact Or.inl hd
      · exact Or.inr (List.mem_of_mem_drop hd)
    have hnew := fun d hd => mem_node (d := d) h0 h8 hcreates.accepted hd
    have htree : treeOf (w.insert allBytes (endPosition F place) (kind.node c).flatten) F =
        treeOf w F := treeOf_congr fun d hd => by
      rw [← h.table] at hd
      rw [entryOf, entryOf, contents_insert h.layout hle hcount hd]
      rfl
    refine ⟨_, appendAt F place (kind.node c), hw', ⟨?_, ?_, ?_, ?_, ?_⟩, ?_, ⟨?_, ?_, ?_⟩⟩
    · exact WellFormed.appendAt (wellFormed_node h0 hcreates.accepted) h.wellFormed
    · exact insert_endPosition h.table hopen (by omega) _
    · exact h.layout.insert hle hcount fun d hd => (hnew d hd).1
    · exact h.onDisk.insert hle hcount
    · intro d hd
      rcases hmem d hd with hd | hd
      · exact (hnew d hd).2
      · exact h.padded d hd
    · rw [FileTree.create, hwanted]
      simp only
      rw [← htree, treeOf, relabelAll_appendAt, relabel_node h0 h8 hcreates.accepted, treeOf]
    · rfl
    · intro d hd
      exact (hmem d hd).imp (fun hd => (hnew d hd).1) id
    · rw [insert_length, hlen]
  · refine ⟨w, F, hw', h, ?_, rfl, fun d hd => Or.inr hd, Nat.le_add_right _ _⟩
    have hnone : wanted (treeOf w F) kind (cstr path) = none := by
      rcases hsome : wanted (treeOf w F) kind (cstr path) with _ | ⟨place, c⟩
      · rfl
      · obtain ⟨as, hcreates⟩ := (wanted_treeOf kind path place c).mp hsome
        exact absurd hcreates (hnot as c place)
    rw [FileTree.create, hnone]

end Create

/-! ## Writes -/

section Write

variable {w : Wad} {F : WadForest} (h : Mounted w F)
include h

/-- The library accepts a write where the tree does. -/
theorem Mounted.accepts_iff {d : WadDescriptor} (hd : d ∈ w.descriptors) {offset : Int64}
    (hnonneg : 0 ≤ offset.toInt) (hoff : offset.toInt < 2 ^ 31) :
    w.Accepts d offset.toInt32 ↔ offset.toInt.toNat = (entryOf w d).data.length ∧
      ((entryOf w d).data = [] ∨ (entryOf w d).last) := by
  have hlen : (entryOf w d).data.length = d.size.toNat := h.layout.length_contents hd
  have hempty : (entryOf w d).data = [] ↔ d.size = 0 := by
    rw [← List.length_eq_zero_iff, hlen, ← UInt32.toNat_inj, UInt32.toNat_zero]
  have hoffset : offset.toInt32.toUInt32 = d.size ↔ offset.toInt.toNat = d.size.toNat := by
    rw [← UInt32.toNat_inj, toNat_narrowed hnonneg, Nat.mod_eq_of_lt (by omega)]
  have hlast : (entryOf w d).last = true ↔ d.size ≠ 0 ∧ d.offset + d.size = w.doffset :=
    decide_eq_true_iff
  rw [Wad.Accepts, hlen, hempty, hlast, hoffset]
  refine and_congr_right fun _ => ⟨fun hor => ?_, fun hor => hor.imp_right And.right⟩
  by_cases hzero : d.size = 0
  · exact Or.inl hzero
  · exact Or.inr ⟨hzero, hor.resolve_left hzero⟩

variable {as : List Nat} {d : WadDescriptor} (hfile : Outline.nodeAt F as = some (item d))
  (hlast : d.size ≠ 0 → d.offset + d.size = w.doffset) {length : Int32}
  (hpos : 0 ≤ length.toInt) (hfit : w.doffset.toNat + length.toInt.toNat < 2 ^ 32)
  {buffer : Bytes}

include hpos hfit in
/-- What is said of all old descriptors, when something is appended. -/
theorem Mounted.entryOf_append (hsome : 0 < length.toInt.toNat) {i : Nat} {start : UInt32}
    {e : WadDescriptor} (he : e ∈ w.descriptors) :
    entryOf (w.append allBytes i start buffer length) e = noneLast.item (entryOf w e) := by
  have hdoffset : (w.doffset + length.toUInt32).toNat = w.doffset.toNat + length.toInt.toNat :=
    (append_allBytes i start buffer hpos hfit).1
  rw [entryOf, contents_append h.layout i start buffer hpos hfit he]
  congr 1
  rw [decide_eq_false_iff_not]
  rintro ⟨hsize, hends⟩
  -- it ends where the data ended before
  have hbefore := h.layout.dataBefore e he hsize
  have hlt := w.doffset.toNat_lt
  have hwrapped : (e.offset + e.size).toNat = w.doffset.toNat + length.toInt.toNat := by
    rw [hends]
    exact hdoffset
  rw [UInt32.toNat_add] at hwrapped
  omega

include hpos hfit in
/-- What is said of them when nothing is appended. -/
theorem Mounted.entryOf_append_nothing (hnone : length.toInt.toNat = 0) {i : Nat} {start : UInt32}
    {e : WadDescriptor} (he : e ∈ w.descriptors) :
    entryOf (w.append allBytes i start buffer length) e = entryOf w e := by
  have hdoffset : (w.append allBytes i start buffer length).doffset = w.doffset := by
    rw [← UInt32.toNat_inj]
    exact (append_allBytes i start buffer hpos hfit).1.trans (by rw [hnone, Nat.add_zero])
  rw [entryOf, entryOf, contents_append h.layout i start buffer hpos hfit he, hdoffset]

variable (hbuffer : length.toInt.toNat ≤ buffer.length)
include hfile hlast hpos hfit hbuffer

/-- What is said of the file that has been appended to. -/
theorem Mounted.entryOf_appended :
    entryOf (w.append allBytes (position F as) (startOf w d) buffer length)
        (appended (startOf w d) length d) =
      { name := shownAs d
        data := w.contents d ++ buffer.take length.toInt.toNat
        last := decide (d.size.toNat + length.toInt.toNat ≠ 0) } := by
  have hi : w.descriptors[position F as]? = some d := by
    rw [h.table]
    exact getElem?_position hfile
  have hsmall := h.layout.sizes d (h.mem hfile)
  have hsum : startOf w d + d.size = w.doffset := by
    rw [← UInt32.toNat_inj, UInt32.toNat_add, startOf_add_size h.layout hi hlast]
    exact Nat.mod_eq_of_lt w.doffset.toNat_lt
  have hends : (appended (startOf w d) length d).offset + (appended (startOf w d) length d).size =
      w.doffset + length.toUInt32 := by
    rw [appended, ← UInt32.add_assoc, hsum]
  have hsize : (appended (startOf w d) length d).size ≠ 0 ↔
      d.size.toNat + length.toInt.toNat ≠ 0 := by
    rw [ne_eq, ← UInt32.toNat_inj, size_appended hpos hsmall, UInt32.toNat_zero]
  rw [entryOf, contents_append_self h.layout hi hlast hpos hfit hsmall hbuffer]
  congr 1
  rw [decide_eq_decide, hsize]
  exact and_iff_left hends

/-- **An append in the table is an append in the tree.** -/
theorem Mounted.treeOf_append :
    treeOf (w.append allBytes (position F as) (startOf w d) buffer length)
        (updateAt F as (appended (startOf w d) length)) =
      FileTree.append (treeOf w F) as (buffer.take length.toInt.toNat) := by
  have hentry := h.entryOf_appended hfile hlast hpos hfit hbuffer
  have hd := h.mem hfile
  rcases Nat.eq_zero_or_pos length.toInt.toNat with hzero | hsome
  · have hold : ∀ e ∈ w.descriptors,
        entryOf (w.append allBytes (position F as) (startOf w d) buffer length) e = entryOf w e :=
      fun e he => h.entryOf_append_nothing hpos hfit hzero he
    have hlabel : entryOf (w.append allBytes (position F as) (startOf w d) buffer length)
        (appended (startOf w d) length d) = entryOf w d := by
      rw [hentry, hzero, List.take_zero, List.append_nil, Nat.add_zero, entryOf]
      congr 1
      rw [decide_eq_decide, ne_eq, ne_eq, ← UInt32.toNat_inj, UInt32.toNat_zero]
      exact ⟨fun hne => ⟨hne, hlast fun hz => hne (by rw [hz, UInt32.toNat_zero])⟩, And.left⟩
    rw [hzero, List.take_zero, FileTree.append, if_pos rfl, treeOf,
      relabelAll_updateAt (g := id) (hlabel.trans (hold d hd).symm) hfile, updateAt_id]
    exact treeOf_congr (by rwa [← h.table])
  · have hold : ∀ e ∈ w.descriptors,
        entryOf (w.append allBytes (position F as) (startOf w d) buffer length) e =
          noneLast.item (entryOf w e) :=
      fun e he => h.entryOf_append hpos hfit hsome he
    have hlabel : entryOf (w.append allBytes (position F as) (startOf w d) buffer length)
        (appended (startOf w d) length d) =
          grown (buffer.take length.toInt.toNat)
            (entryOf (w.append allBytes (position F as) (startOf w d) buffer length) d) := by
      rw [hentry, hold d hd, decide_eq_true (by omega)]
      rfl
    have hne : buffer.take length.toInt.toNat ≠ [] := fun hnil => by
      have hlen := congrArg List.length hnil
      rw [List.length_take, List.length_nil] at hlen
      omega
    have hothers : treeOf (w.append allBytes (position F as) (startOf w d) buffer length) F =
        relabelAll noneLast (treeOf w F) := by
      rw [treeOf, treeOf, relabelAll_comp]
      refine relabelAll_congr (r := entriesOf _) (s := noneLast.comp (entriesOf w)) rfl F ?_
        fun _ _ => rfl
      rwa [← h.table]
    rw [FileTree.append, if_neg hne, ← hothers, treeOf, treeOf]
    exact relabelAll_updateAt hlabel hfile

/-- What has been appended to stays mounted. -/
theorem Mounted.append (hgrown : d.size.toNat + length.toInt.toNat < 2 ^ 31) :
    Mounted (w.append allBytes (position F as) (startOf w d) buffer length)
      (updateAt F as (appended (startOf w d) length)) := by
  have hi : w.descriptors[position F as]? = some d := by
    rw [h.table]
    exact getElem?_position hfile
  have hsmall := h.layout.sizes d (h.mem hfile)
  have hname : ∀ e, (appended (startOf w d) length e).name = e.name := fun _ => rfl
  refine ⟨h.wellFormed.updateAt hname, append_position h.table hfile _ _ _,
    h.layout.append hi hlast hpos hfit hsmall hbuffer hgrown, h.onDisk.append hpos hfit, ?_⟩
  intro e he
  rw [(append_allBytes _ _ _ hpos hfit).2] at he
  rcases mem_modify hi he with hold | rfl
  · exact h.padded e hold
  · exact h.padded d (h.mem hfile)

end Write

/-! ## Every callback -/

/-- A mounted WAD, the tree it stands for, and room for what is still to be asked for. -/
structure Serves (calls : List Callback) (w : Wad) (T : FileTree) : Prop where
  /-- the WAD stands for the tree -/
  forest : ∃ F, Mounted w F ∧ T = treeOf w F
  /-- what is still to be asked for has room -/
  room : Room w calls
  /-- and can be asked for -/
  given : ∀ call ∈ calls, call.Given

section Step

variable {call : Callback} {calls : List Callback} {w : Wad} {F : WadForest}

/-- A call that changes nothing. -/
theorem Serves.same {T : FileTree} (h : Serves (call :: calls) w T) : Serves calls w T where
  forest := h.forest
  room := h.room.tail (Nat.le_add_right _ _)
    (fun d hd => Or.inr ⟨d, hd, Nat.le_add_right _ _⟩) (Nat.le_add_right _ _)
  given c hc := h.given c (List.mem_cons_of_mem _ hc)

/-- **A creation** does to the WAD what it does to the tree. -/
theorem Serves.created {T : FileTree} (h : Serves (call :: calls) w T) (hm : Mounted w F)
    (hT : T = treeOf w F) (kind : Creation) (hcall : call.descriptors = kind.descriptors)
    (path : Bytes) :
    ∃ w', w.create allBytes kind path = some w' ∧
      Serves calls w' (FileTree.create T kind path) := by
  have hcount := h.room.dcount
  rw [descriptorsAsked, hcall] at hcount
  obtain ⟨w', F', hw', hm', htree, hdoffset, hmem, hlen⟩ := hm.create kind path (by omega)
  refine ⟨w', hw', ⟨F', hm', ?_⟩, h.room.tail ?_ ?_ ?_,
    fun c hc => h.given c (List.mem_cons_of_mem _ hc)⟩
  · rw [hT, htree]
  · rw [hdoffset]
    exact Nat.le_add_right _ _
  · exact fun d hd => (hmem d hd).imp_right fun hold => ⟨d, hold, Nat.le_add_right _ _⟩
  · rwa [hcall]

/-- A write to a path that leads to no file. -/
theorem Mounted.write_of_not (hm : Mounted w F) {path : Bytes}
    (hnot : ∀ as d, ¬ LeadsTo F path as d) (buf : Bytes) {len : UInt64} (hlen : len.toNat < 2 ^ 31)
    (offset : Int64) : wadfsWrite allBytes w path buf len offset = some (w, -EPERM) := by
  rw [wadfsWrite, Wad.writeToFile_of_none (hm.resolveFile_of_not hnot), Option.map_some]
  simp only [toInt_len hlen]
  rw [if_neg (by omega)]

/-- A write that is accepted. -/
theorem Serves.appended {path buf : Bytes} {len : UInt64} {offset : Int64} {T : FileTree}
    (h : Serves (.write path buf len offset :: calls) w T) (hm : Mounted w F)
    {as : List Nat} {d : WadDescriptor} (hlead : LeadsTo F path as d)
    (hacc : w.Accepts d offset.toInt32) :
    Serves calls (w.append allBytes (position F as) (startOf w d) buf len.toUInt32.toInt32)
      (FileTree.append (treeOf w F) as (buf.take len.toNat)) := by
  obtain ⟨hlen, _, _, hbuf⟩ := h.given _ List.mem_cons_self
  have hi : w.descriptors[position F as]? = some d := by
    rw [hm.table]
    exact getElem?_position hlead.file
  have hnat : len.toUInt32.toInt32.toInt.toNat = len.toNat := by
    rw [toInt_len hlen, Int.toNat_natCast]
  have hpos : 0 ≤ len.toUInt32.toInt32.toInt := by
    rw [toInt_len hlen]
    exact Int.natCast_nonneg _
  have hlast : d.size ≠ 0 → d.offset + d.size = w.doffset := hacc.2.resolve_left
  obtain ⟨hdoffset, hsizes, _, _⟩ := h.room
  have hfit : w.doffset.toNat + len.toUInt32.toInt32.toInt.toNat < 2 ^ 32 := by
    rw [hnat]
    exact lt_of_le_of_lt (Nat.add_le_add_left (Nat.le_add_right _ _) _) hdoffset
  have hgrown : d.size.toNat + len.toUInt32.toInt32.toInt.toNat < 2 ^ 31 := by
    rw [hnat]
    exact lt_of_le_of_lt (Nat.add_le_add_left (Nat.le_add_right _ _) _)
      (hsizes d (hm.mem hlead.file))
  rw [← hnat] at hbuf ⊢
  have happend := append_allBytes (position F as) (startOf w d) buf hpos hfit
  refine ⟨⟨_, hm.append hlead.file hlast hpos hfit hbuf hgrown, ?_⟩, h.room.tail ?_ ?_ ?_,
    fun c hc => h.given c (List.mem_cons_of_mem _ hc)⟩
  · exact (hm.treeOf_append hlead.file hlast hpos hfit hbuf).symm
  · rw [happend.2]
    exact Nat.le_of_eq (happend.1.trans (by rw [hnat]; rfl))
  · intro e he
    rw [happend.2] at he
    rcases mem_modify hi he with hold | rfl
    · exact Or.inr ⟨e, hold, Nat.le_add_right _ _⟩
    · refine Or.inr ⟨d, hm.mem hlead.file, Nat.le_of_eq ?_⟩
      rw [size_appended hpos (hm.layout.sizes d (hm.mem hlead.file)), hnat]
      rfl
  · rw [happend.2, List.length_modify]
    exact Nat.le_add_right _ _

/-- **A write** does, too, and both say how much has been written. -/
theorem Serves.written {path buf : Bytes} {len : UInt64} {offset : Int64} {T : FileTree}
    (h : Serves (.write path buf len offset :: calls) w T) :
    ∃ w', wadfsWrite allBytes w path buf len offset =
        some (w', (FileTree.write T path buf len.toNat offset.toInt.toNat).2) ∧
      Serves calls w' (FileTree.write T path buf len.toNat offset.toInt.toNat).1 := by
  obtain ⟨F, hm, hT⟩ := h.forest
  obtain ⟨hlen, hnonneg, hoff, hbuf⟩ := h.given _ List.mem_cons_self
  have htoInt := toInt_len hlen
  rw [hT, FileTree.write, locate_treeOf]
  rcases path_cases F path with ⟨as, d, hlead⟩ | ⟨as, H, hlook, hH⟩ | hlook
  · have hd := hm.mem hlead.file
    have haccepts := hm.accepts_iff hd hnonneg hoff
    rw [hlead.lookup, wadfsWrite,
      Wad.writeToFile_of_file (hlead.resolveFile hm.wellFormed hm.table), Option.map_some]
    simp only [found_of_item hlead.file, htoInt]
    by_cases hacc : w.Accepts d offset.toInt32
    · rw [if_pos hacc, if_pos (haccepts.mp hacc), if_pos rfl]
      exact ⟨_, rfl, h.appended hm hlead hacc⟩
    · rw [if_neg hacc, if_neg fun hcond => hacc (haccepts.mpr hcond)]
      refine ⟨w, ?_, hT ▸ h.same⟩
      congr 2
      by_cases hzero : len.toNat = 0
      · rw [hzero, if_pos rfl]
        exact if_pos rfl
      · rw [if_neg hzero]
        exact if_neg fun heq => hzero (Int.ofNat.inj heq).symm
  · rw [hlook]
    simp only [found_of_kids hH]
    exact ⟨w, hm.write_of_not (not_leadsTo_of_kids hlook hH) buf hlen offset, hT ▸ h.same⟩
  · rw [hlook]
    exact ⟨w, hm.write_of_not (not_leadsTo_of_none hlook) buf hlen offset, hT ▸ h.same⟩

/-- **One callback**: it returns, answers what the tree answers, and leaves a WAD that
stands for the tree left. -/
theorem Serves.step {T : FileTree} (h : Serves (call :: calls) w T) :
    ∃ w', wadfsStep allBytes w call = some (w', (answer T call).2) ∧
      Serves calls w' (answer T call).1 := by
  obtain ⟨F, hm, hT⟩ := h.forest
  have hgiven := h.given call List.mem_cons_self
  cases call with
  | getattr path st => exact ⟨w, hT ▸ step_getattr hm allBytes st, h.same⟩
  | mknod path =>
    obtain ⟨w', hw', hserves⟩ := h.created hm hT .file rfl path
    exact ⟨w', congrArg (Option.map _) (congrArg (Option.map _) hw'), hserves⟩
  | mkdir path =>
    obtain ⟨w', hw', hserves⟩ := h.created hm hT .directory rfl path
    exact ⟨w', congrArg (Option.map _) (congrArg (Option.map _) hw'), hserves⟩
  | read path len offset => exact ⟨w, hT ▸ step_read hm allBytes hgiven, h.same⟩
  | write path buf len offset =>
    obtain ⟨w', hw', hserves⟩ := h.written
    exact ⟨w', congrArg (Option.map _) hw', hserves⟩
  | readdir path =>
    have hcount := h.room.dcount
    exact ⟨w, hT ▸ step_readdir hm allBytes (by omega), h.same⟩
  | mount => exact ⟨w, congrArg (Option.map _) (loadWad_of_onDisk hm.onDisk), h.same⟩

end Step

/-! ## Every run -/

end Cop4600
