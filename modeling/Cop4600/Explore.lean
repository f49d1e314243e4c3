import Cop4600.Preorder
import Cop4600.Listing
import Cop4600.Runs

/-!
# Exploring a WAD

`wad_dump` lists a directory, asks for every name in the list what it is, and goes on with
the path that the name makes. The recursion is over paths: each is put together from listed
names and taken apart again from the root. A name that shows nothing leaves the path as it
is, so the directory is found below itself, over and over (`exploreLevel_of_empty`). That,
and siblings that show the same name, is all that can go wrong (`explores_iff`).

The calls are given fuel for how deeply they are nested. Where it is enough, more of it
changes nothing (`Wad.exploreLevel_mono`).
-/

namespace Cop4600

open Outline

/-! ## The program -/

/-- A line of the output. The number in front is the level: how many blanks there are. -/
inductive DumpLine : Type where
  /-- `EXPLORING: path` -/
  | exploring (path : Bytes)
  /-- `[Objects at this level:count]` -/
  | objects (level : Nat) (count : Int)
  /-- `level. DIR: entry` -/
  | dir (level : Nat) (entry : Bytes)
  /-- `level. CONTENT: entry; Size: size` -/
  | content (level : Nat) (entry : Bytes) (size : Int)
  /-- `***WARNING: entry entry has invalid type!***` -/
  | warning (level : Nat) (entry : Bytes)
  deriving DecidableEq, Repr

/-- One turn of the loop in `exploreDirectory`, with the recursive call. `int level` begins
at 1 and is only counted up; the call is undefined where `level + 1` overflows. -/
def Wad.exploreEntry (w : Wad) (explore : Bytes → Nat → Option (List DumpLine)) (path : Bytes)
    (level : Nat) (entry : Bytes) : Option (List DumpLine) :=
  let entryPath := path ++ entry
  (w.isDirectory entryPath).bind fun isDirectory =>
    if isDirectory then
      (asInt (level + 1 : Nat)).bind fun _ =>
        (explore (entryPath ++ [slash]) (level + 1)).map fun lines => .dir level entry :: lines
    else
      (w.isContent entryPath).bind fun isContent =>
        if isContent then (w.getSize entryPath).map fun size => [.content level entry size]
        else some [.warning level entry]

/-- `exploreDirectory(data, path, level)`; `none` where the number of entries overflows, and
also when the calls are nested more deeply than there is fuel. -/
def Wad.exploreLevel (w : Wad) : Nat → Bytes → Nat → Option (List DumpLine)
  | 0, _, _ => none
  | fuel + 1, path, level =>
    (getDirectory w.descriptors path []).bind fun (count, entries) =>
      count.bind fun count =>
        (entries.mapM (w.exploreEntry (w.exploreLevel fuel) path level)).map fun pieces =>
          .objects level count :: pieces.flatten

/-- `exploreDirectory(data, path)`. -/
def Wad.exploreDirectory (w : Wad) (fuel : Nat) (path : Bytes) : Option (List DumpLine) :=
  (w.exploreLevel fuel path 1).map fun lines => .exploring path :: lines

/-- A turn goes on as it did where the recursive call does. -/
theorem Wad.exploreEntry_mono {w : Wad} {explore explore' : Bytes → Nat → Option (List DumpLine)}
    (h : ∀ path level lines, explore path level = some lines → explore' path level = some lines)
    {path entry : Bytes} {level : Nat} {piece : List DumpLine}
    (hpiece : w.exploreEntry explore path level entry = some piece) :
    w.exploreEntry explore' path level entry = some piece := by
  obtain ⟨isDirectory, hdir, hpiece⟩ := Option.bind_eq_some_iff.mp hpiece
  rw [Wad.exploreEntry, hdir, Option.bind_some]
  split at hpiece
  · next hyes =>
    obtain ⟨level', hlevel, hpiece⟩ := Option.bind_eq_some_iff.mp hpiece
    obtain ⟨lines, hlines, rfl⟩ := Option.map_eq_some_iff.mp hpiece
    rw [if_pos hyes, hlevel, Option.bind_some, h _ _ _ hlines, Option.map_some]
  · next hno =>
    rw [if_neg hno]
    exact hpiece

/-- **More fuel changes nothing**: what is printed is what the calls print that end. -/
theorem Wad.exploreLevel_mono {w : Wad} {fuel : Nat} : ∀ {path : Bytes} {level : Nat}
    {lines : List DumpLine}, w.exploreLevel fuel path level = some lines →
      w.exploreLevel (fuel + 1) path level = some lines := by
  induction fuel with
  | zero => intro path level lines h; cases h
  | succ fuel ih =>
    intro path level lines h
    obtain ⟨⟨_, entries⟩, hlist, h⟩ := Option.bind_eq_some_iff.mp h
    obtain ⟨count, rfl, h⟩ := Option.bind_eq_some_iff.mp h
    obtain ⟨pieces, hpieces, rfl⟩ := Option.map_eq_some_iff.mp h
    have hsame : entries.map (w.exploreEntry (w.exploreLevel (fuel + 1)) path level) =
        entries.map (w.exploreEntry (w.exploreLevel fuel) path level) := by
      refine List.map_congr_left fun entry hentry => ?_
      have hmem := List.mem_map_of_mem (f := w.exploreEntry (w.exploreLevel fuel) path level) hentry
      rw [mapM_eq_some_iff.mp hpieces] at hmem
      obtain ⟨piece, -, hpiece⟩ := List.mem_map.mp hmem
      rw [← hpiece]
      exact Wad.exploreEntry_mono (fun _ _ _ => ih) hpiece.symm
    rw [Wad.exploreLevel, hlist, Option.bind_some]
    have hpieces' := mapM_eq_some_iff.mpr (hsame.trans (mapM_eq_some_iff.mp hpieces))
    simp only [Option.bind_some, hpieces', Option.map_some]

/-! ## What is to be printed -/

/-- Lines that report an entry. -/
def DumpLine.isEntry : DumpLine → Bool
  | exploring _ => false
  | objects _ _ => false
  | _ => true

/-- The level in front of a line; the first line of all has none. -/
def DumpLine.level : DumpLine → Nat
  | exploring _ => 0
  | objects level _ => level
  | dir level _ => level
  | content level _ _ => level
  | warning level _ => level

/-- The line for a node. -/
def entryLine (level : Nat) (t : Outline WadDescriptor) : DumpLine :=
  match t.kids with
  | some _ => .dir level (shownAs t.label)
  | none => .content level (shownAs t.label) t.label.size.toInt32.toInt

/-- The line of a node reports an entry. -/
@[simp] theorem isEntry_entryLine (level : Nat) (t : Outline WadDescriptor) :
    (entryLine level t).isEntry = true := by
  rw [entryLine]
  split <;> rfl

/-- The line of a node is at the level that it is given. -/
@[simp] theorem level_entryLine (level : Nat) (t : Outline WadDescriptor) :
    (entryLine level t).level = level := by
  rw [entryLine]
  split <;> rfl

/-! ## Paths into directories -/

/-- A slash at its end does not change where a path leads. -/
theorem treeLookup_slash (F : WadForest) {path : Bytes} (h : path ≠ []) :
    treeLookup F (path ++ [slash]) = treeLookup F path := by
  rw [treeLookup, treeLookup, components_append, components_nil, List.append_nil,
    List.head?_append_of_ne_nil _ h]

/-- A path that `exploreDirectory` is called with. -/
structure LeadsInto (F : WadForest) (path : Bytes) (as : List Nat) : Prop where
  /-- the path leads there -/
  lookup : treeLookup F path = some as
  /-- a name can be put behind it -/
  ends : ∃ q, path = q ++ [slash]
  /-- it is all of the string -/
  noNul : 0 ∉ path

namespace LeadsInto

variable {F : WadForest} {path : Bytes} {as : List Nat}

/-- The exploration begins at the root. -/
theorem root (F : WadForest) : LeadsInto F [slash] [] where
  lookup := by
    rw [treeLookup, components_slash]
    rfl
  ends := ⟨[], rfl⟩
  noNul := by decide

/-- One more slash makes no difference. -/
theorem again (h : LeadsInto F path as) : LeadsInto F (path ++ [slash]) as where
  lookup := by
    obtain ⟨q, rfl⟩ := h.ends
    rw [treeLookup_slash F (by simp), h.lookup]
  ends := ⟨path, rfl⟩
  noNul := by
    rw [List.mem_append, not_or]
    exact ⟨h.noNul, by decide⟩

/-- The path of an entry. -/
theorem entry (h : LeadsInto F path as) {c : Bytes} (hc : IsComponent c) :
    treeLookup F (path ++ c) = (Outline.kidsAt F as).bind fun H =>
      (firstKid shownAs H c).map fun k => as ++ [k] := by
  have hlookup := h.lookup
  obtain ⟨q, rfl⟩ := h.ends
  rw [treeLookup] at hlookup
  split at hlookup
  · next hslash =>
    rw [components_append, components_nil, List.append_nil] at hlookup
    have hhead : (q ++ [slash] ++ c).head? = some slash := by
      rw [List.head?_append_of_ne_nil _ (by simp), hslash]
    rw [treeLookup, if_pos hhead, List.append_assoc, List.singleton_append, components_append,
      hc.components_eq, lookup_concat, hlookup, Option.bind_some]
  · cases hlookup

/-- No path that is put together has a NUL in it. -/
theorem noNul_entry (h : LeadsInto F path as) {c : Bytes} (hc : IsComponent c) :
    0 ∉ path ++ c := by
  rw [List.mem_append, not_or]
  exact ⟨h.noNul, hc.noNul⟩

/-- The path that is explored for an entry. -/
theorem down (h : LeadsInto F path as) {H : WadForest} (hH : Outline.kidsAt F as = some H)
    {c : Bytes} (hc : IsComponent c) {k : Nat} (hk : firstKid shownAs H c = some k) :
    LeadsInto F (path ++ c ++ [slash]) (as ++ [k]) where
  lookup := by
    obtain ⟨q, rfl⟩ := h.ends
    rw [treeLookup_slash F (by simp), h.entry hc, hH, Option.bind_some, hk, Option.map_some]
  ends := ⟨_, rfl⟩
  noNul := by
    rw [List.mem_append, not_or]
    exact ⟨h.noNul_entry hc, by decide⟩

end LeadsInto

/-! ## One directory -/

/-- The names are padded with zeros, and what they show is without slashes. -/
structure Named (F : WadForest) : Prop where
  padded : ∀ as t, Outline.nodeAt F as = some t → ZeroPadded t.label.name
  noSlash : ∀ as t, Outline.nodeAt F as = some t → slash ∉ shownAs t.label

/-- The nodes are named so if all descriptors of the table are. -/
theorem Named.of_table {F : WadForest} (hpad : ∀ d ∈ flattenAll F, ZeroPadded d.name)
    (hslash : ∀ d ∈ flattenAll F, slash ∉ shownAs d) : Named F where
  padded _ _ ht := hpad _ (List.mem_of_getElem? (getElem?_position ht))
  noSlash _ _ ht := hslash _ (List.mem_of_getElem? (getElem?_position ht))

section

variable {F H : WadForest} {w : Wad} {path : Bytes} {as : List Nat}
  (hF : WellFormed F) (hw : w.descriptors = flattenAll F) (hnames : Named F)
  (hinto : LeadsInto F path as) (hH : Outline.kidsAt F as = some H)

include hnames hH in
/-- A name that is shown can be put into a path. -/
theorem Named.isComponent {t : Outline WadDescriptor} (ht : t ∈ H) (hne : shownAs t.label ≠ []) :
    IsComponent (shownAs t.label) := by
  obtain ⟨k, hk⟩ := List.getElem?_of_mem ht
  have hnode := nodeAt_child hH hk
  exact ⟨hne, hnames.noSlash _ t hnode, zero_notMem_displayName (hnames.padded _ t hnode)⟩

include hF hw

/-- `isDirectory` says whether there are children where the path leads. -/
theorem isDirectory_of_treeLookup (h0 : 0 ∉ path) (hlook : treeLookup F path = some as) :
    w.isDirectory path = some (Outline.kidsAt F as).isSome := by
  have hres : resolve (flattenAll F) path none = some (pointerTo F as, none) := by
    rw [resolve_lookup hF h0, hlook]
  rw [Wad.isDirectory, hw, hres, Option.bind_some]
  exact isDir_pointerTo hF (reached_of_treeLookup hlook)

include hinto hH in
/-- **What an entry is taken for**: the first child with the same display name. -/
theorem exploreEntry_eq {c : Bytes} (hc : IsComponent c) {k : Nat}
    (hfirst : firstKid shownAs H c = some k) {t : Outline WadDescriptor} (ht : H[k]? = some t)
    (explore : Bytes → Nat → Option (List DumpLine)) (level : Nat) :
    w.exploreEntry explore path level c = match t.kids with
      | some _ => (asInt (level + 1 : Nat)).bind fun _ =>
          (explore (path ++ c ++ [slash]) (level + 1)).map fun lines => entryLine level t :: lines
      | none => some [entryLine level t] := by
  obtain ⟨t', ht', hshown⟩ := firstKid_eq_some hfirst
  obtain rfl := Option.some.inj (ht.symm.trans ht')
  have hlook : treeLookup F (path ++ c) = some (as ++ [k]) := by
    rw [hinto.entry hc, hH, Option.bind_some, hfirst, Option.map_some]
  have h0 := hinto.noNul_entry hc
  have hdir := isDirectory_of_treeLookup hF hw h0 hlook
  rw [kidsAt_child hH ht] at hdir
  rw [Wad.exploreEntry, hdir, Option.bind_some]
  cases t with
  | item d =>
    have hfile : w.resolveFile (path ++ c) = some (some (position F (as ++ [k]), d)) := by
      have hptr : pointerTo F (as ++ [k]) = .entry (position F (as ++ [k])) := if_neg (by simp)
      have hres : resolve (flattenAll F) (path ++ c) none =
          some (.entry (position F (as ++ [k])), none) := by
        rw [resolve_lookup hF h0, hlook, ← hptr]
      rw [Wad.resolveFile, hw, hres, Option.bind_some]
      exact isFile_entry hF (nodeAt_child hH ht)
    rw [Wad.isContent, Wad.getSize, hfile]
    simp [entryLine, ← hshown]
  | block m ls => simp [entryLine, ← hshown]
  | group o cs c' => simp [entryLine, ← hshown]

include hnames hinto hH in
/-- A call on the path of a directory: its names are listed, and each is looked at. -/
theorem exploreLevel_succ (fuel level : Nat) :
    w.exploreLevel (fuel + 1) path level = (asInt H.length).bind fun count =>
      ((keysOf shownAs H).mapM (w.exploreEntry (w.exploreLevel fuel) path level)).map fun pieces =>
        .objects level count :: pieces.flatten := by
  have hlisted : (H.map fun t => listedName t.label.name) = keysOf shownAs H := by
    refine List.map_congr_left fun t ht => ?_
    obtain ⟨k, hk⟩ := List.getElem?_of_mem ht
    exact listedName_eq (hnames.padded (as ++ [k]) t (nodeAt_child hH hk))
  have hlist := getDirectory_lookup hF hinto.noNul []
  rw [hinto.lookup, Option.bind_some, hH] at hlist
  rw [Wad.exploreLevel, hw, hlist, Option.bind_some]
  simp only [List.nil_append, hlisted]

include hnames hH in
/-- **A name that shows nothing** has the directory explored below itself, without end. -/
theorem exploreLevel_of_empty {t : Outline WadDescriptor} (ht : t ∈ H)
    (hempty : shownAs t.label = []) (fuel : Nat) :
    ∀ {path : Bytes} (level : Nat), LeadsInto F path as →
      w.exploreLevel fuel path level = none := by
  induction fuel with
  | zero => exact fun _ _ => rfl
  | succ fuel ih =>
    intro path level hinto
    rw [exploreLevel_succ hF hw hnames hinto hH]
    by_contra hsome
    obtain ⟨lines, hlines⟩ := Option.ne_none_iff_exists'.mp hsome
    obtain ⟨count, -, hlines⟩ := Option.bind_eq_some_iff.mp hlines
    obtain ⟨pieces, hpieces, -⟩ := Option.map_eq_some_iff.mp hlines
    have hkey : [] ∈ keysOf shownAs H := List.mem_map.mpr ⟨t, ht, hempty⟩
    have hmem : w.exploreEntry (w.exploreLevel fuel) path level [] ∈ pieces.map some := by
      rw [← mapM_eq_some_iff.mp hpieces]
      exact List.mem_map_of_mem hkey
    obtain ⟨piece, -, hpiece⟩ := List.mem_map.mp hmem
    have hdir := isDirectory_of_treeLookup hF hw hinto.noNul hinto.lookup
    rw [hH, Option.isSome_some] at hdir
    rw [Wad.exploreEntry, List.append_nil, hdir, Option.bind_some, if_pos rfl,
      ih (level + 1) hinto.again] at hpiece
    obtain ⟨_, -, hnone⟩ := Option.bind_eq_some_iff.mp hpiece.symm
    cases hnone

end

/-! ## Levels -/

/-- What one turn prints: a line for the entry, and what exploring it prints. -/
theorem exploreEntry_cases {w : Wad} {explore : Bytes → Nat → Option (List DumpLine)}
    {path entry : Bytes} {level : Nat} {piece : List DumpLine}
    (h : w.exploreEntry explore path level entry = some piece) :
    ∃ line below, piece = line :: below ∧ line.isEntry = true ∧ line.level = level ∧
      (below = [] ∨ explore (path ++ entry ++ [slash]) (level + 1) = some below) := by
  obtain ⟨isDirectory, -, h⟩ := Option.bind_eq_some_iff.mp h
  split at h
  · obtain ⟨_, -, h⟩ := Option.bind_eq_some_iff.mp h
    obtain ⟨below, hbelow, rfl⟩ := Option.map_eq_some_iff.mp h
    exact ⟨_, _, rfl, rfl, rfl, Or.inr hbelow⟩
  · obtain ⟨isContent, -, h⟩ := Option.bind_eq_some_iff.mp h
    split at h
    · obtain ⟨size, -, rfl⟩ := Option.map_eq_some_iff.mp h
      exact ⟨_, _, rfl, rfl, rfl, Or.inl rfl⟩
    · obtain rfl := Option.some.inj h
      exact ⟨_, _, rfl, rfl, rfl, Or.inl rfl⟩

/-- Inside a directory nothing is printed with a smaller level. -/
theorem level_of_mem_exploreLevel {w : Wad} (fuel : Nat) : ∀ {path : Bytes} {level : Nat}
    {lines : List DumpLine}, w.exploreLevel fuel path level = some lines →
      ∀ line ∈ lines, level ≤ line.level := by
  induction fuel with
  | zero => intro path level lines h; cases h
  | succ fuel ih =>
    intro path level lines h line hline
    obtain ⟨⟨_, entries⟩, -, h⟩ := Option.bind_eq_some_iff.mp h
    obtain ⟨count, -, h⟩ := Option.bind_eq_some_iff.mp h
    obtain ⟨pieces, hpieces, rfl⟩ := Option.map_eq_some_iff.mp h
    rcases List.mem_cons.mp hline with rfl | hline
    · exact Nat.le_refl level
    · obtain ⟨piece, hpiece, hline⟩ := List.mem_flatten.mp hline
      have hmem : some piece ∈ entries.map (w.exploreEntry (w.exploreLevel fuel) path level) := by
        rw [mapM_eq_some_iff.mp hpieces]
        exact List.mem_map_of_mem hpiece
      obtain ⟨entry, -, hturn⟩ := List.mem_map.mp hmem
      obtain ⟨first, below, rfl, -, hfirst, hbelow⟩ := exploreEntry_cases hturn
      rcases List.mem_cons.mp hline with rfl | hline
      · rw [hfirst]
      · rcases hbelow with rfl | hbelow
        · cases hline
        · exact Nat.le_of_succ_le (ih hbelow line hline)

/-- The entries of a turn begin with the entry itself. -/
theorem headed_piece {w : Wad} {fuel level : Nat} {path entry : Bytes} {piece : List DumpLine}
    (h : w.exploreEntry (w.exploreLevel fuel) path level entry = some piece) :
    Headed (fun line : DumpLine => line.level = level) (piece.filter DumpLine.isEntry) := by
  obtain ⟨line, below, rfl, hentry, hlevel, hbelow⟩ := exploreEntry_cases h
  refine ⟨line, _, List.filter_cons_of_pos hentry, hlevel, fun other hother heq => ?_⟩
  have hmem := List.mem_of_mem_filter hother
  rcases hbelow with rfl | hbelow
  · cases hmem
  · have := level_of_mem_exploreLevel fuel hbelow other hmem
    omega

/-- The lines for the nodes of a forest, of which the trees are at level `b + 1`. -/
def reports (b : Nat) (F : WadForest) : List DumpLine :=
  (preorder F).map fun n => entryLine (b + n.1.length) n.2

/-- What is to be reported of a forest, node by node. -/
theorem reports_eq (b : Nat) (F : WadForest) :
    reports b F =
      (F.map fun t => entryLine (b + 1) t :: reports (b + 1) (t.kids.getD [])).flatten :=
  map_nodesFrom entryLine b F 0

/-- Nothing below a forest is reported at its level or above it. -/
theorem level_of_mem_reports {b : Nat} {F : WadForest} {line : DumpLine}
    (h : line ∈ reports b F) : b < line.level := by
  obtain ⟨⟨as, t⟩, hmem, rfl⟩ := List.mem_map.mp h
  rw [level_entryLine]
  cases as with
  | nil =>
    rw [mem_preorder] at hmem
    simp at hmem
  | cons k as => simp only [List.length_cons]; omega

/-- The lines for a tree begin with the one for its root. -/
theorem headed_reports (b : Nat) (t : Outline WadDescriptor) :
    Headed (fun line : DumpLine => line.level = b + 1)
      (entryLine (b + 1) t :: reports (b + 1) (t.kids.getD [])) := by
  refine ⟨_, _, rfl, level_entryLine _ _, fun line hline heq => ?_⟩
  have := level_of_mem_reports hline
  omega

/-! ## Names that show the same -/

/-- Of names that show the same, one is a directory's and the other is not. -/
theorem displayName_injective_of_isStart {name name' : Name} (h : ZeroPadded name)
    (h' : ZeroPadded name') (hstart : isStart name = isStart name')
    (hshown : displayName name = displayName name') : name = name' := by
  obtain ⟨s, h0, h8, rfl⟩ := h.exists_bytes
  obtain ⟨s', h0', h8', rfl⟩ := h'.exists_bytes
  by_cases hs : isStart (Name.ofBytes s)
  · obtain ⟨t, htwo, rfl⟩ := exists_suffixStart h0 h8 hs
    obtain ⟨t', htwo', rfl⟩ := exists_suffixStart h0' h8' (hstart ▸ hs)
    rw [displayName_start (fun ht => h0 (List.mem_append_left _ ht)) htwo,
      displayName_start (fun ht => h0' (List.mem_append_left _ ht)) htwo'] at hshown
    rw [hshown]
  · have hs' := Bool.eq_false_iff.mpr hs
    rw [displayName_lump h0 h8 hs', displayName_lump h0' h8' (hstart ▸ hs')] at hshown
    rw [hshown]

/-- The name of a directory shows two bytes at most. -/
theorem length_displayName_of_isStart {name : Name} (h : ZeroPadded name) (hs : isStart name) :
    (displayName name).length ≤ 2 := by
  obtain ⟨s, h0, h8, rfl⟩ := h.exists_bytes
  obtain ⟨t, htwo, rfl⟩ := exists_suffixStart h0 h8 hs
  rwa [displayName_start (fun ht => h0 (List.mem_append_left _ ht)) htwo]

/-- The name of a map shows four bytes. -/
theorem length_displayName_of_isMap {name : Name} (h : ZeroPadded name) (hm : isMap name) :
    (displayName name).length = 4 := by
  have hfour := strnlen_of_isMap hm
  obtain ⟨s, h0, h8, rfl⟩ := h.exists_bytes
  rw [strnlen_ofBytes h0 h8] at hfour
  rwa [displayName_lump h0 h8 (isStart_of_isMap hm)]

/-- Nodes that are told apart by their names only are a directory or a map, and a file. -/
theorem name_eq_of_shownAs {t t' : Outline WadDescriptor} (ht : WellFormed [t])
    (ht' : WellFormed [t']) (hpad : ZeroPadded t.label.name) (hpad' : ZeroPadded t'.label.name)
    (hshown : shownAs t.label = shownAs t'.label) (hkids : t.kids.isSome = t'.kids.isSome) :
    t.label.name = t'.label.name := by
  have hmixed : ∀ {m o : Name}, ZeroPadded m → ZeroPadded o → isMap m → isStart o →
      displayName m ≠ displayName o := fun hm ho hmap hstart heq => by
    have hfour := length_displayName_of_isMap hm hmap
    have htwo := length_displayName_of_isStart ho hstart
    rw [heq] at hfour
    omega
  cases ht with
  | file hd _ =>
    cases ht' with
    | file hd' _ =>
      refine displayName_injective_of_isStart hpad hpad' ?_ hshown
      exact (isLump_iff.mp hd).1.trans (isLump_iff.mp hd').1.symm
    | map _ _ _ _ => cases hkids
    | dir _ _ _ _ => cases hkids
  | map hm _ _ _ =>
    cases ht' with
    | file _ _ => cases hkids
    | map hm' _ _ _ =>
      refine displayName_injective_of_isStart hpad hpad' ?_ hshown
      exact (isStart_of_isMap hm).trans (isStart_of_isMap hm').symm
    | dir ho _ _ _ => exact absurd hshown (hmixed hpad hpad' hm ho)
  | dir ho _ _ _ =>
    cases ht' with
    | file _ _ => cases hkids
    | map hm _ _ _ => exact absurd hshown.symm (hmixed hpad' hpad hm ho)
    | dir ho' _ _ _ =>
      refine displayName_injective_of_isStart hpad hpad' ?_ hshown
      exact Eq.trans ho ho'.symm

/-! ## Everything once, at its level -/

/-- The line of a node tells whether it has children. -/
theorem kids_of_entryLine {level : Nat} {t t' : Outline WadDescriptor}
    (h : entryLine level t = entryLine level t') : t.kids.isSome = t'.kids.isSome := by
  rw [entryLine, entryLine] at h
  split at h <;> split at h
  · next hkids _ _ hkids' => rw [hkids, hkids']; rfl
  · cases h
  · cases h
  · next hkids _ hkids' => rw [hkids, hkids']

/-- Every node shows something, and no two siblings show the same. -/
structure ShownApart (F : WadForest) : Prop where
  nonempty : ∀ as t, Outline.nodeAt F as = some t → shownAs t.label ≠ []
  distinct : Distinct shownAs F

/-- Names are apart in a forest if they are among its nodes and below each. -/
theorem ShownApart.of_kids {H : WadForest} (hne : ∀ t ∈ H, shownAs t.label ≠ [])
    (hnodup : (keysOf shownAs H).Nodup)
    (hkids : ∀ t ∈ H, ∀ G, t.kids = some G → ShownApart G) : ShownApart H where
  nonempty as u hu := by
    rcases as with _ | ⟨k, _ | ⟨j, bs⟩⟩
    · simp at hu
    · rw [nodeAt_singleton] at hu
      exact hne u (List.mem_of_getElem? hu)
    · rw [nodeAt_cons_cons] at hu
      obtain ⟨G, hG, hu⟩ := Option.bind_eq_some_iff.mp hu
      obtain ⟨t, ht, hG⟩ := Option.bind_eq_some_iff.mp hG
      exact (hkids t (List.mem_of_getElem? ht) G hG).nonempty _ u hu
  distinct := distinct_iff.mpr ⟨hnodup, fun t ht G hG => (hkids t ht G hG).distinct⟩

/-- A directory has its `_START` and its `_END`, and a map its lumps. -/
theorem two_le_of_kids {t : Outline WadDescriptor} (ht : WellFormed [t]) {G : WadForest}
    (hG : t.kids = some G) : 2 ≤ t.flatten.length := by
  cases ht with
  | file _ _ => cases hG
  | map _ hten _ _ =>
    rw [flatten_block, List.length_cons, hten]
    decide
  | dir _ _ _ _ =>
    rw [flatten_group, List.length_cons, List.length_append]
    exact Nat.succ_le_succ (Nat.le_add_left 1 _)

section

variable {F : WadForest} {w : Wad} (hF : WellFormed F) (hw : w.descriptors = flattenAll F)
  (hnames : Named F)

include hF hw hnames

/-- Exploring ends where the names are told apart, and reports every node. Neither the
entries nor the levels are too many for an `int` if the descriptors are not: a level deeper
there is one descriptor less. -/
theorem exploreLevel_reports (hshown : ShownApart F) (fuel : Nat) :
    ∀ {b : Nat} {path : Bytes} {as : List Nat} {H : WadForest}, LeadsInto F path as →
      Outline.kidsAt F as = some H → (flattenAll H).length < fuel →
      b + (flattenAll H).length < 2 ^ 31 →
      ∃ lines, w.exploreLevel fuel path (b + 1) = some lines ∧
        lines.filter DumpLine.isEntry = reports b H := by
  induction fuel with
  | zero => intro b path as H _ _ hfuel; omega
  | succ fuel ih =>
    intro b path as H hinto hH hfuel hroom
    have hturn : ∀ t ∈ H, ∃ piece,
        w.exploreEntry (w.exploreLevel fuel) path (b + 1) (shownAs t.label) = some piece ∧
          piece.filter DumpLine.isEntry =
            entryLine (b + 1) t :: reports (b + 1) (t.kids.getD []) := by
      intro t ht
      obtain ⟨k, hk⟩ := List.getElem?_of_mem ht
      have hc := hnames.isComponent hH ht (hshown.nonempty _ t (nodeAt_child hH hk))
      have hfirst : firstKid shownAs H (shownAs t.label) = some k := by
        rw [firstKid_iff_of_nodup (hshown.distinct as H hH), keysOf, List.getElem?_map, hk,
          Option.map_some]
      rw [exploreEntry_eq hF hw hinto hH hc hfirst hk]
      rcases hkids : t.kids with _ | G
      · exact ⟨_, rfl, List.filter_cons_of_pos (isEntry_entryLine _ t)⟩
      · have hG := (kidsAt_child hH hk).trans hkids
        have hsmaller := length_flattenAll_kids hkids
        have hle := length_flatten_le ht
        have htwo := two_le_of_kids (hF.nodeAt (nodeAt_child hH hk)) hkids
        obtain ⟨lines, hlines, hentries⟩ :=
          ih (b := b + 1) (hinto.down hH hc hfirst) hG (by omega) (by omega)
        have hlevel : asInt (b + 1 + 1 : Nat) = some ((b + 1 + 1 : Nat) : Int) :=
          asInt_natCast (by omega)
        refine ⟨entryLine (b + 1) t :: lines, ?_, ?_⟩
        · simp only [hlevel, Option.bind_some, hlines, Option.map_some]
        rw [List.filter_cons_of_pos (isEntry_entryLine _ t), hentries, Option.getD_some]
    obtain ⟨pieces, hpieces, hentries⟩ := exists_map_some hturn
    have hmap : (keysOf shownAs H).mapM (w.exploreEntry (w.exploreLevel fuel) path (b + 1)) =
        some pieces := by
      rw [mapM_eq_some_iff, ← hpieces, keysOf, List.map_map]
      rfl
    refine ⟨.objects (b + 1) H.length :: pieces.flatten, ?_, ?_⟩
    · have hcount : H.length < 2 ^ 31 := by
        have hle := length_le_flattenAll H
        omega
      rw [exploreLevel_succ hF hw hnames hinto hH, asInt_natCast hcount, Option.bind_some, hmap,
        Option.map_some]
    · rw [List.filter_cons_of_neg (by simp [DumpLine.isEntry]), List.filter_flatten, hentries,
        ← reports_eq]

omit hw in
/-- Siblings that show the same name are one node, if both are files or neither is. -/
theorem index_eq_of_shownAs (hnamed : Distinct WadDescriptor.name F) {H : WadForest}
    {as : List Nat} (hH : Outline.kidsAt F as = some H) {j k : Nat} {t t' : Outline WadDescriptor}
    (hj : H[j]? = some t') (hk : H[k]? = some t) (hshown : shownAs t'.label = shownAs t.label)
    (hkids : t'.kids.isSome = t.kids.isSome) : j = k := by
  have hnode := nodeAt_child hH hj
  have hnode' := nodeAt_child hH hk
  have hname := name_eq_of_shownAs (hF.nodeAt hnode) (hF.nodeAt hnode')
    (hnames.padded _ _ hnode) (hnames.padded _ _ hnode') hshown hkids
  have hjkey : (keysOf WadDescriptor.name H)[j]? = some t'.label.name := by
    rw [keysOf, List.getElem?_map, hj, Option.map_some]
  have hkkey : (keysOf WadDescriptor.name H)[k]? = some t'.label.name := by
    rw [keysOf, List.getElem?_map, hk, Option.map_some, hname]
  have hlt : j < (keysOf WadDescriptor.name H).length := (List.getElem?_eq_some_iff.mp hjkey).1
  exact (List.getElem?_inj hlt (hnamed as H hH)).mp (hjkey.trans hkkey.symm)

/-- A turn that reports an entry, and what is below it, for what it is. -/
theorem exploreEntry_reports (hnamed : Distinct WadDescriptor.name F) {H : WadForest}
    {path : Bytes} {as : List Nat} (hinto : LeadsInto F path as)
    (hH : Outline.kidsAt F as = some H) {k : Nat} {t : Outline WadDescriptor}
    (hk : H[k]? = some t) (hne : shownAs t.label ≠ []) {fuel b : Nat} {piece : List DumpLine}
    (hpiece : w.exploreEntry (w.exploreLevel fuel) path (b + 1) (shownAs t.label) = some piece)
    (hentries : piece.filter DumpLine.isEntry =
      entryLine (b + 1) t :: reports (b + 1) (t.kids.getD [])) :
    firstKid shownAs H (shownAs t.label) = some k ∧ ∀ G, t.kids = some G →
      ∃ lines, w.exploreLevel fuel (path ++ shownAs t.label ++ [slash]) (b + 1 + 1) = some lines ∧
        lines.filter DumpLine.isEntry = reports (b + 1) G := by
  have hc := hnames.isComponent hH (List.mem_of_getElem? hk) hne
  have hkey : shownAs t.label ∈ keysOf shownAs H :=
    List.mem_map_of_mem (List.mem_of_getElem? hk)
  rcases hfirst : firstKid shownAs H (shownAs t.label) with _ | j
  · exact absurd hkey (firstKid_eq_none_iff.mp hfirst)
  obtain ⟨t', hj, hshown⟩ := firstKid_eq_some hfirst
  rw [exploreEntry_eq hF hw hinto hH hc hfirst hj] at hpiece
  have hturn : ∃ below, piece = entryLine (b + 1) t' :: below ∧ ∀ G, t'.kids = some G →
      w.exploreLevel fuel (path ++ shownAs t.label ++ [slash]) (b + 1 + 1) = some below := by
    rcases hkids : t'.kids with _ | G
    · rw [hkids] at hpiece
      exact ⟨[], (Option.some.inj hpiece).symm, fun G hG => by cases hG⟩
    · rw [hkids] at hpiece
      obtain ⟨_, -, hpiece⟩ := Option.bind_eq_some_iff.mp hpiece
      obtain ⟨below, hbelow, rfl⟩ := Option.map_eq_some_iff.mp hpiece
      exact ⟨below, rfl, fun _ _ => hbelow⟩
  obtain ⟨below, rfl, hbelow⟩ := hturn
  rw [List.filter_cons_of_pos (isEntry_entryLine _ t')] at hentries
  obtain ⟨hline, hentries⟩ := List.cons.inj hentries
  -- the first child of that name is reported as the child itself is, so it is the child
  obtain rfl := index_eq_of_shownAs hF hnames hnamed hH hj hk hshown (kids_of_entryLine hline)
  obtain rfl := Option.some.inj (hj.symm.trans hk)
  refine ⟨rfl, fun G hG => ⟨below, hbelow G hG, ?_⟩⟩
  rw [hentries, hG, Option.getD_some]

/-- Where every node is reported, every turn reports its own part. -/
theorem turns_of_reports {H : WadForest} {path : Bytes} {as : List Nat}
    (hinto : LeadsInto F path as) (hH : Outline.kidsAt F as = some H) {fuel b : Nat}
    {lines : List DumpLine} (hlines : w.exploreLevel (fuel + 1) path (b + 1) = some lines)
    (hentries : lines.filter DumpLine.isEntry = reports b H) {k : Nat} {t : Outline WadDescriptor}
    (hk : H[k]? = some t) :
    ∃ piece, w.exploreEntry (w.exploreLevel fuel) path (b + 1) (shownAs t.label) = some piece ∧
      piece.filter DumpLine.isEntry =
        entryLine (b + 1) t :: reports (b + 1) (t.kids.getD []) := by
  rw [exploreLevel_succ hF hw hnames hinto hH] at hlines
  obtain ⟨count, -, hlines⟩ := Option.bind_eq_some_iff.mp hlines
  obtain ⟨pieces, hpieces, rfl⟩ := Option.map_eq_some_iff.mp hlines
  rw [mapM_eq_some_iff, keysOf, List.map_map] at hpieces
  have hheads : ∀ x ∈ pieces.map (List.filter DumpLine.isEntry),
      Headed (fun line : DumpLine => line.level = b + 1) x := by
    intro x hx
    obtain ⟨piece, hpiece, rfl⟩ := List.mem_map.mp hx
    have hmem := List.mem_map_of_mem (f := some) hpiece
    rw [← hpieces] at hmem
    obtain ⟨t, -, hturn⟩ := List.mem_map.mp hmem
    exact headed_piece hturn
  have hheads' : ∀ y ∈ H.map fun t => entryLine (b + 1) t :: reports (b + 1) (t.kids.getD []),
      Headed (fun line : DumpLine => line.level = b + 1) y := by
    intro y hy
    obtain ⟨t, -, rfl⟩ := List.mem_map.mp hy
    exact headed_reports b t
  rw [List.filter_cons_of_neg (by simp [DumpLine.isEntry]), List.filter_flatten,
    reports_eq] at hentries
  have hpiece := congrArg (·[k]?) hpieces
  have hpart := congrArg (·[k]?) (flatten_injective_of_heads _ hheads hheads' hentries)
  simp only [List.getElem?_map, hk, Option.map_some] at hpiece hpart
  obtain ⟨piece, hat, hturn⟩ := Option.map_eq_some_iff.mp hpiece.symm
  rw [hat, Option.map_some] at hpart
  exact ⟨piece, hturn.symm, Option.some.inj hpart⟩

/-- Where every node is reported, the names are told apart. -/
theorem shownApart_of_reports (hnamed : Distinct WadDescriptor.name F) (fuel : Nat) :
    ∀ {b : Nat} {path : Bytes} {as : List Nat} {H : WadForest} {lines : List DumpLine},
      LeadsInto F path as → Outline.kidsAt F as = some H →
      w.exploreLevel fuel path (b + 1) = some lines →
      lines.filter DumpLine.isEntry = reports b H → ShownApart H := by
  induction fuel with
  | zero => intro b path as H lines _ _ h; cases h
  | succ fuel ih =>
    intro b path as H lines hinto hH hlines hentries
    have hne : ∀ t ∈ H, shownAs t.label ≠ [] := fun t ht hempty => by
      rw [exploreLevel_of_empty hF hw hnames hH ht hempty (fuel + 1) (b + 1) hinto] at hlines
      cases hlines
    have hturns : ∀ k t, H[k]? = some t →
        firstKid shownAs H (shownAs t.label) = some k ∧ ∀ G, t.kids = some G →
          ∃ lines, w.exploreLevel fuel (path ++ shownAs t.label ++ [slash]) (b + 1 + 1) =
              some lines ∧ lines.filter DumpLine.isEntry = reports (b + 1) G := by
      intro k t hk
      obtain ⟨piece, hturn, hpart⟩ := turns_of_reports hF hw hnames hinto hH hlines hentries hk
      exact exploreEntry_reports hF hw hnames hnamed hinto hH hk
        (hne t (List.mem_of_getElem? hk)) hturn hpart
    refine .of_kids hne (nodup_of_firstKid fun k t hk => (hturns k t hk).1) fun t ht G hG => ?_
    obtain ⟨k, hk⟩ := List.getElem?_of_mem ht
    obtain ⟨hfirst, hbelow⟩ := hturns k t hk
    obtain ⟨below, hbelow, hentries⟩ := hbelow G hG
    exact ih (hinto.down hH (hnames.isComponent hH ht (hne t ht)) hfirst)
      ((kidsAt_child hH hk).trans hG) hbelow hentries

/-- The output lists the nodes: each of them once, in front of those below it, at its level
and with what it is. -/
structure Explored (F : WadForest) (lines : List DumpLine) : Prop where
  /-- the lines that report an entry, in their order -/
  listed : lines.filter DumpLine.isEntry =
    (preorder F).map fun n => entryLine n.1.length n.2
  /-- they are about all nodes -/
  nodes : ∀ as t, (as, t) ∈ preorder F ↔ Outline.nodeAt F as = some t
  /-- each of which is reported once -/
  once : ((preorder F).map Prod.fst).Nodup
  /-- and none has an invalid type -/
  noWarning : ∀ level entry, .warning level entry ∉ lines

omit hF hw hnames in
/-- An exploration has reported a forest if its lines are, but for the counts. -/
theorem explored_iff {lines : List DumpLine} :
    Explored F lines ↔ lines.filter DumpLine.isEntry = reports 0 F := by
  have hreports : reports 0 F = (preorder F).map fun n => entryLine n.1.length n.2 := by
    simp only [reports, Nat.zero_add]
  refine ⟨fun h => h.listed.trans hreports.symm, fun h => ⟨h.trans hreports,
    fun _ _ => mem_preorder, nodup_preorder F, fun level entry hmem => ?_⟩⟩
  have hentry : .warning level entry ∈ reports 0 F :=
    h ▸ List.mem_filter.mpr ⟨hmem, rfl⟩
  obtain ⟨n, -, hn⟩ := List.mem_map.mp hentry
  rw [entryLine] at hn
  split at hn <;> cases hn

/-- **`exploreDirectory` ends and reports every node once** exactly if every node shows a name,
and siblings show different ones, in a table short enough that an `int` counts its entries. -/
theorem explores_iff (hnamed : Distinct WadDescriptor.name F)
    (hcount : (flattenAll F).length < 2 ^ 31) :
    (∃ fuel lines, w.exploreDirectory fuel [slash] = some lines ∧ Explored F lines) ↔
      ShownApart F := by
  have hroot : Outline.kidsAt F [] = some F := kidsAt_nil F
  refine ⟨?_, fun hshown => ?_⟩
  · rintro ⟨fuel, lines, hlines, hexplored⟩
    obtain ⟨below, hbelow, rfl⟩ := Option.map_eq_some_iff.mp hlines
    have hentries := explored_iff.mp hexplored
    rw [List.filter_cons_of_neg (by simp [DumpLine.isEntry])] at hentries
    exact shownApart_of_reports hF hw hnames hnamed fuel (.root F) hroot hbelow hentries
  · obtain ⟨below, hbelow, hentries⟩ :=
      exploreLevel_reports hF hw hnames hshown _ (b := 0) (.root F) hroot (Nat.lt_succ_self _)
        (by omega)
    refine ⟨_, _, congrArg (Option.map _) hbelow, explored_iff.mpr ?_⟩
    rw [List.filter_cons_of_neg (by simp [DumpLine.isEntry]), hentries]

end

/-- Exploring the small WAD ends. -/
theorem explores_iff_sample :
    ∃ fuel lines, (tableOnly sampleForest).exploreDirectory fuel [slash] = some lines ∧
      Explored sampleForest lines :=
  have hne : ∀ d ∈ flattenAll sampleForest, shownAs d ≠ [] := by decide
  (explores_iff wellFormed_sampleForest rfl (.of_table (by decide) (by decide))
    (.of_map distinct_sampleForest) (by decide)).mpr
      ⟨fun _ _ ht => hne _ (List.mem_of_getElem? (getElem?_position ht)), distinct_sampleForest⟩

/-- A directory whose name is nothing but the suffix. -/
def suffixOnly : WadForest :=
  [group (emptyLump ['_', 'S', 'T', 'A', 'R', 'T']) [] (emptyLump ['_', 'E', 'N', 'D'])]

/-- The directory is listed without a name: what is explored next is the root again. -/
theorem explores_root_again :
    ¬ ∀ (F : WadForest) (w : Wad), WellFormed F → w.descriptors = flattenAll F → Named F →
      Distinct WadDescriptor.name F →
        ∃ fuel lines, w.exploreDirectory fuel [slash] = some lines ∧ Explored F lines := by
  intro hall
  have hF : WellFormed suffixOnly := .dir (by decide) .nil (by decide) .nil
  have hnames : Named suffixOnly := .of_table (by decide) (by decide)
  have hnamed : Distinct WadDescriptor.name suffixOnly := by
    refine distinct_cons.mpr ⟨by decide, fun G hG => ?_, distinct_nil⟩
    obtain rfl := Option.some.inj hG
    exact distinct_nil
  obtain ⟨fuel, lines, hlines, -⟩ := hall suffixOnly (tableOnly suffixOnly) hF rfl hnames hnamed
  obtain ⟨below, hbelow, -⟩ := Option.map_eq_some_iff.mp hlines
  rw [exploreLevel_of_empty hF rfl hnames (kidsAt_nil _) List.mem_cons_self (by decide) fuel 1
    (.root _)] at hbelow
  cases hbelow

end Cop4600
