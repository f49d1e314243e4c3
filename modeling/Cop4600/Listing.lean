import Cop4600.Bounds
import Cop4600.Siblings
import Cop4600.Wad
import Mathlib.Data.Nat.Digits.Lemmas

/-!
# Listing and lookup agree

`getDirectory` cuts a name off at its padding and takes six bytes from the length
of a `_START` name; `resolve` zeroes these six bytes and compares all eight. On
zero-padded names both see the same display name (`listedName_eq`). In a forest
whose siblings are told apart by theirs, the paths one component longer than that
of a directory resolve to its children, one for each name that is listed and in
the order of the list (`listing_agrees`).
-/

namespace Cop4600

open Outline

/-! ## Names as they are listed -/

/-- Behind the first zero of a name there are only zeros. -/
def ZeroPadded (name : Name) : Prop := name = Name.ofBytes (cstr name.toList)

instance (name : Name) : Decidable (ZeroPadded name) := inferInstanceAs (Decidable (_ = _))

/-- A name made of a string that fits is padded by zeros. -/
theorem zeroPadded_ofBytes {s : Bytes} (h0 : 0 ∉ s) (h : s.length ≤ 8) :
    ZeroPadded (Name.ofBytes s) := by
  have hall : ∀ b ∈ s, decide (b ≠ 0) = true := fun b hb => by
    simpa using fun hzero : b = 0 => h0 (hzero ▸ hb)
  rw [ZeroPadded, Name.toList_ofBytes_of_le h, cstr, List.takeWhile_append_of_pos hall,
    List.takeWhile_replicate]
  simp

/-- A `_START` name is some bytes and the suffix. -/
theorem exists_suffixStart {s : Bytes} (h0 : 0 ∉ s) (h : s.length ≤ 8)
    (hs : isStart (Name.ofBytes s)) : ∃ t, t.length ≤ 2 ∧ s = t ++ suffixStart := by
  rw [isStart, strnlen_ofBytes h0 h] at hs
  simp only [Bool.and_eq_true, decide_eq_true_eq, beq_iff_eq] at hs
  obtain ⟨hsix, hsuffix⟩ := hs
  refine ⟨s.take (s.length - 6), ?_, ?_⟩
  · rw [List.length_take]
    omega
  · have hlast : s.drop (s.length - 6) = suffixStart := by
      rw [← hsuffix, Name.toList_ofBytes_of_le h, List.drop_append_of_le_length (Nat.sub_le _ _),
        List.take_append_of_le_length (by rw [List.length_drop]; omega), List.take_of_length_le]
      rw [List.length_drop]
      omega
    rw [← hlast, List.take_append_drop]

/-- A zero-padded name is a copy of a string that fits into it. -/
theorem ZeroPadded.exists_bytes {name : Name} (h : ZeroPadded name) :
    ∃ s, 0 ∉ s ∧ s.length ≤ 8 ∧ name = Name.ofBytes s := by
  refine ⟨cstr name.toList, zero_notMem_cstr name.toList, ?_, h⟩
  have hle := (List.takeWhile_prefix (fun b : UInt8 => decide (b ≠ 0)) (l := name.toList)).length_le
  rwa [Vector.length_toList] at hle

/-- What is listed for it is the string, without its `_START`. -/
theorem listedName_ofBytes {s : Bytes} (h0 : 0 ∉ s) (h : s.length ≤ 8) :
    listedName (Name.ofBytes s) =
      s.take (s.length - if isStart (Name.ofBytes s) then 6 else 0) := by
  rw [listedName, strnlen_ofBytes h0 h, Name.toList_ofBytes_of_le h,
    List.take_append_of_le_length (Nat.sub_le _ _)]

/-- **Both ways to trim a name** give the display name. -/
theorem listedName_eq {name : Name} (h : ZeroPadded name) : listedName name = displayName name := by
  obtain ⟨s, h0, h8, rfl⟩ := h.exists_bytes
  rw [listedName_ofBytes h0 h8]
  by_cases hs : isStart (Name.ofBytes s)
  · obtain ⟨t, htwo, rfl⟩ := exists_suffixStart h0 h8 hs
    have ht0 : 0 ∉ t := fun ht => h0 (List.mem_append_left _ ht)
    have hlen : (t ++ suffixStart).length - 6 = t.length := by simp [suffixStart, chars]
    rw [if_pos hs, displayName_start ht0 htwo, hlen, List.take_left]
  · rw [if_neg hs, displayName_lump h0 h8 (by simpa using hs), Nat.sub_zero, List.take_length]

/-- A padded name shows no NUL. -/
theorem zero_notMem_displayName {name : Name} (h : ZeroPadded name) : 0 ∉ displayName name := by
  obtain ⟨s, h0, h8, hname⟩ := h.exists_bytes
  rw [← listedName_eq h, hname, listedName_ofBytes h0 h8]
  exact fun hmem => h0 (List.mem_of_mem_take hmem)

/-! ## What is listed -/

/-- **The walk over siblings in `getDirectory`** lists all of them, and counts them as far
as an `int` counts. -/
theorem iterKids_listBody (F : WadForest) : ∀ (i : Nat) (directory : List Bytes) (count : Nat),
    iterKids listBody i (directory, asInt count) F =
      .done (i + (flattenAll F).length)
        (directory ++ F.map fun t => listedName t.label.name, asInt (count + F.length : Nat)) := by
  induction F with
  | nil =>
    intro i directory count
    simp [iterKids]
  | cons t F ih =>
    intro i directory count
    have hcount : count + 1 + F.length = count + (t :: F).length := by
      rw [List.length_cons]
      omega
    rw [iterKids, listBody_asInt]
    refine (ih _ _ (count + 1)).trans ?_
    rw [hcount]
    simp [Nat.add_assoc, listedName]

/-- `is_dir` at a pointer of the tree: is there anything to list? -/
theorem isDir_pointerTo {F : WadForest} (hF : WellFormed F) {as : List Nat} (h : Reached F as) :
    isDir (flattenAll F) (pointerTo F as) = some (Outline.kidsAt F as).isSome := by
  rcases eq_or_ne as [] with rfl | has
  · rw [pointerTo, if_pos rfl, kidsAt_nil]
    rfl
  · obtain ⟨t, ht⟩ := h.resolve_left has
    rw [pointerTo, if_neg has, isDir, getElem?_position ht, kidsAt_eq_nodeAt F has, ht,
      Option.bind_some, Option.map_some]
    have hwf := hF.nodeAt ht
    cases hwf with
    | file hd _ =>
      obtain ⟨hs, hm, -⟩ := isLump_iff.mp hd
      simp [hs, hm]
    | map hm _ _ _ => simp [hm]
    | dir ho _ _ _ => simp [ho]

/-- **What `getDirectory` lists**: the children found at the path, if it leads to
something that can have any. -/
theorem getDirectory_lookup {F : WadForest} (hF : WellFormed F) {path : Bytes} (h0 : 0 ∉ path)
    (directory : List Bytes) :
    getDirectory (flattenAll F) path directory =
      some (match (treeLookup F path).bind (Outline.kidsAt F) with
        | some H => (asInt H.length, directory ++ H.map fun t => listedName t.label.name)
        | none => (some (-1), directory)) := by
  have hres := resolve_lookup hF h0
  rcases hlook : treeLookup F path with _ | as
  · rw [hlook] at hres
    rw [getDirectory, hres]
    rfl
  · rw [hlook] at hres
    have hptr : pointerTo F as ≠ .null := by
      rw [pointerTo]
      split <;> simp
    have hreach := reached_of_treeLookup hlook
    rw [getDirectory_of_resolve hres hptr, wadIter_pointerTo hF hreach, Option.map_some,
      Option.bind_some]
    rcases Outline.kidsAt F as with _ | H
    · rfl
    · have hzero : some (0 : Int) = asInt (0 : Nat) := rfl
      simp only [hzero, iterKids_listBody, Nat.zero_add]

/-! ## Paths one component longer -/

/-- The components of two paths with a slash between them are those of both. -/
theorem components_append (path s : Bytes) :
    components (path ++ slash :: s) = components path ++ components s := by
  rw [components, List.splitOn_append_cons_self, List.filter_append, ← components, ← components]

/-- A component is the one component of itself. -/
theorem IsComponent.components_eq {c : Bytes} (h : IsComponent c) : components c = [c] := by
  rw [components, List.splitOn_eq_singleton h.noSlash,
    List.filter_cons_of_pos (by simpa using h.nonempty), List.filter_nil]

/-- A path with a component behind it has no NUL in it. -/
theorem zero_notMem_append {path c : Bytes} (h0 : 0 ∉ path) (hc : IsComponent c) :
    0 ∉ path ++ slash :: c := by
  intro hmem
  rcases List.mem_append.mp hmem with hmem | hmem
  · exact h0 hmem
  · rcases List.mem_cons.mp hmem with hslash | hmem
    · exact absurd hslash (by decide)
    · exact hc.noNul hmem

/-- A path that leads somewhere, and one component more. -/
theorem treeLookup_append {F : WadForest} {path : Bytes} {as : List Nat}
    (h : treeLookup F path = some as) {c : Bytes} (hc : IsComponent c) :
    treeLookup F (path ++ slash :: c) = (Outline.kidsAt F as).bind fun H =>
      (firstKid shownAs H c).map fun k => as ++ [k] := by
  rw [treeLookup] at h
  split at h
  · next hslash =>
    have hslash' : (path ++ slash :: c).head? = some slash := by
      rw [List.head?_append, hslash]
      rfl
    rw [treeLookup, if_pos hslash', components_append, hc.components_eq, lookup_concat, h,
      Option.bind_some]
  · cases h

/-! ## Agreement -/

/-- Names that a path can spell: zero-padded, and shown as nonempty strings
without slashes, different among siblings. -/
structure Spelled (F : WadForest) : Prop where
  /-- behind the name there are zeros -/
  padded : ∀ as t, Outline.nodeAt F as = some t → ZeroPadded t.label.name
  /-- it shows something -/
  nonempty : ∀ as t, Outline.nodeAt F as = some t → shownAs t.label ≠ []
  /-- without a slash -/
  noSlash : ∀ as t, Outline.nodeAt F as = some t → slash ∉ shownAs t.label
  /-- and no sibling shows the same -/
  distinct : Distinct shownAs F

/-- The directory at a path: its children are listed, as long as an `int` can count them,
and below the path exactly their names resolve, each to its own child. -/
structure Lists (F : WadForest) (path : Bytes) (as : List Nat) (H : WadForest) : Prop where
  /-- the path leads to these children -/
  kids : Outline.kidsAt F as = some H
  /-- `getDirectory` gives their names, and how many there are -/
  listed : H.length < 2 ^ 31 → ∀ directory, getDirectory (flattenAll F) path directory =
    some (some (H.length : Int), directory ++ keysOf shownAs H)
  /-- each of them is found under its name -/
  found : ∀ c k, (keysOf shownAs H)[k]? = some c →
    resolve (flattenAll F) (path ++ slash :: c) none = some (pointerTo F (as ++ [k]), none)
  /-- and nothing is under any other -/
  missing : ∀ c, IsComponent c → c ∉ keysOf shownAs H →
    resolve (flattenAll F) (path ++ slash :: c) none = some (.null, none)

section

variable {F H : WadForest} {as : List Nat} (hF : WellFormed F) (hnames : Spelled F)
include hnames

/-- The children of a node are spelled out. -/
theorem Spelled.child (hH : Outline.kidsAt F as = some H) {t : Outline WadDescriptor}
    (ht : t ∈ H) : ZeroPadded t.label.name ∧ IsComponent (shownAs t.label) := by
  obtain ⟨k, hk⟩ := List.getElem?_of_mem ht
  have hnode := nodeAt_child hH hk
  have hpad := hnames.padded _ t hnode
  exact ⟨hpad, hnames.nonempty _ t hnode, hnames.noSlash _ t hnode, zero_notMem_displayName hpad⟩

/-- What is listed for them are their display names. -/
theorem Spelled.map_listedName (hH : Outline.kidsAt F as = some H) :
    (H.map fun t => listedName t.label.name) = keysOf shownAs H :=
  List.map_congr_left fun _ ht => listedName_eq (hnames.child hH ht).1

include hF

/-- At a path that leads to children, listing and lookup agree. -/
theorem lists_of_treeLookup {path : Bytes} (h0 : 0 ∉ path) (hlook : treeLookup F path = some as)
    (hH : Outline.kidsAt F as = some H) : Lists F path as H where
  kids := hH
  listed := by
    intro hcount directory
    rw [getDirectory_lookup hF h0, hlook, Option.bind_some, hH, ← hnames.map_listedName hH,
      ← asInt_natCast hcount]
  found := by
    intro c k hk
    obtain ⟨t, ht, rfl⟩ := List.mem_map.mp (List.mem_of_getElem? hk)
    have hc := (hnames.child hH ht).2
    have hfirst : firstKid shownAs H (shownAs t.label) = some k := by
      apply (firstKid_iff_of_nodup (hnames.distinct as H hH)).mpr
      exact hk
    rw [resolve_lookup hF, treeLookup_append hlook hc, hH, Option.bind_some, hfirst]
    · rfl
    · exact zero_notMem_append h0 hc
  missing := by
    intro c hc hmem
    rw [resolve_lookup hF, treeLookup_append hlook hc, hH, Option.bind_some,
      firstKid_eq_none_iff.mpr hmem]
    · rfl
    · exact zero_notMem_append h0 hc

/-- **Listing and lookup agree.** At a path that `resolve` takes to the root, to a
map or to a `_START` directory, `getDirectory` appends the display names of the
children in their order and returns how many there are, if these are fewer than
`2 ^ 31`, and a path one component longer resolves exactly if the component is one of
these names, and then to the child at its position. At every other path it returns `-1`
and appends nothing. -/
theorem listing_agrees {path : Bytes} (h0 : 0 ∉ path) :
    (∃ as H, resolve (flattenAll F) path none = some (pointerTo F as, none) ∧
        isDir (flattenAll F) (pointerTo F as) = some true ∧ Lists F path as H) ∨
      ∃ desc, resolve (flattenAll F) path none = some (desc, none) ∧
        isDir (flattenAll F) desc = some false ∧
        ∀ directory, getDirectory (flattenAll F) path directory = some (some (-1), directory) := by
  have hres := resolve_lookup hF h0
  have hlist := getDirectory_lookup hF h0
  rcases hlook : treeLookup F path with _ | as
  · rw [hlook] at hres hlist
    exact Or.inr ⟨.null, hres, rfl, hlist⟩
  · rw [hlook] at hres hlist
    have hreach := reached_of_treeLookup hlook
    have hdir := isDir_pointerTo hF hreach
    rcases hH : Outline.kidsAt F as with _ | H
    · rw [hH] at hdir
      refine Or.inr ⟨pointerTo F as, hres, hdir, fun directory => ?_⟩
      rw [hlist, Option.bind_some, hH]
    · rw [hH] at hdir
      exact Or.inl ⟨as, H, hres, hdir, lists_of_treeLookup hF hnames h0 hlook hH⟩

end

/-- Names that are spelled out all over the table are so in the tree. -/
theorem Spelled.of_table {F : WadForest} (hpad : ∀ d ∈ flattenAll F, ZeroPadded d.name)
    (hshown : ∀ d ∈ flattenAll F, shownAs d ≠ [] ∧ slash ∉ shownAs d)
    (hdistinct : Distinct shownAs F) : Spelled F where
  padded _ _ ht := hpad _ (List.mem_of_getElem? (getElem?_position ht))
  nonempty _ _ ht := (hshown _ (List.mem_of_getElem? (getElem?_position ht))).1
  noSlash _ _ ht := (hshown _ (List.mem_of_getElem? (getElem?_position ht))).2
  distinct := hdistinct

/-! ## More entries than an `int` counts -/

/-- `i + 1` in base 128, its digits as bytes that have the high bit set. -/
def highBytes (i : Nat) : Bytes := (Nat.digits 128 (i + 1)).map fun d => UInt8.ofNat (128 + d)

/-- All bytes of such a name are 128 or more, so that none is a letter, a slash or a NUL. -/
theorem high_of_mem {i : Nat} {b : UInt8} (hb : b ∈ highBytes i) : 128 ≤ b.toNat := by
  obtain ⟨d, hd, rfl⟩ := List.mem_map.mp hb
  have hlt := Nat.digits_lt_base (by decide) hd
  rw [UInt8.toNat_ofNat', Nat.mod_eq_of_lt (by omega)]
  exact Nat.le_add_right 128 d

/-- There are names enough of eight bytes. -/
theorem length_highBytes {i : Nat} (hi : i < 2 ^ 31) : (highBytes i).length ≤ 8 := by
  rw [highBytes, List.length_map, Nat.digits_length_le_iff (by decide)]
  omega

/-- No number has an empty name. -/
theorem highBytes_ne_nil (i : Nat) : highBytes i ≠ [] := fun h =>
  Nat.digits_ne_nil_iff_ne_zero.mpr (Nat.succ_ne_zero i) (List.map_eq_nil_iff.mp h)

/-- The digits can be read off the bytes. -/
theorem highBytes_injective {i j : Nat} (h : highBytes i = highBytes j) : i = j := by
  have hdigits : ∀ i, (highBytes i).map (fun b => b.toNat - 128) = Nat.digits 128 (i + 1) := by
    intro i
    have hread : ∀ d ∈ Nat.digits 128 (i + 1), (UInt8.ofNat (128 + d)).toNat - 128 = id d := by
      intro d hd
      have hlt := Nat.digits_lt_base (by decide) hd
      rw [UInt8.toNat_ofNat', Nat.mod_eq_of_lt (by omega)]
      exact Nat.add_sub_cancel_left 128 d
    rw [highBytes, List.map_map]
    exact (List.map_congr_left hread).trans (List.map_id _)
  have heq := hdigits i
  rw [h, hdigits j, Nat.digits_inj_iff] at heq
  omega

/-- A name of such bytes is no marker: these are spelled with letters. -/
theorem isLump_of_high {s : Bytes} (hs : ∀ b ∈ s, 128 ≤ b.toNat) (h8 : s.length ≤ 8) :
    isLump (Name.ofBytes s) := by
  have hletter : ∀ b : UInt8, b ≠ 0 → b.toNat < 128 → b ∉ (Name.ofBytes s).toList := by
    intro b h0 hlow hb
    rw [Name.toList_ofBytes_of_le h8] at hb
    rcases List.mem_append.mp hb with hb | hb
    · exact Nat.not_lt.mpr (hs b hb) hlow
    · exact h0 (List.eq_of_mem_replicate hb)
  refine isLump_iff.mpr ⟨Bool.eq_false_iff.mpr fun h => ?_, Bool.eq_false_iff.mpr fun h => ?_,
    Bool.eq_false_iff.mpr fun h => ?_⟩
  · simp only [isStart, Bool.and_eq_true, decide_eq_true_eq, beq_iff_eq] at h
    have hmem : '_'.toUInt8 ∈ suffixStart := by decide
    rw [← h.2] at hmem
    exact hletter _ (by decide) (by decide) (List.mem_of_mem_drop (List.mem_of_mem_take hmem))
  · simp only [isMap, Bool.and_eq_true, beq_iff_eq] at h
    have hE := h.1.1.1.1.1.1
    have hmem : (Name.ofBytes s)[0] ∈ (Name.ofBytes s).toList :=
      Vector.mem_toList_iff.mpr (Vector.getElem_mem _)
    rw [hE] at hmem
    exact hletter _ (by decide) (by decide) hmem
  · simp only [isEnd, Bool.and_eq_true, decide_eq_true_eq, beq_iff_eq] at h
    have hmem : '_'.toUInt8 ∈ suffixEnd := by decide
    rw [← h.2] at hmem
    exact hletter _ (by decide) (by decide) (List.mem_of_mem_drop (List.mem_of_mem_take hmem))

/-- An empty file, its name a number. -/
def numberedLump (i : Nat) : WadDescriptor := ⟨0, 0, Name.ofBytes (highBytes i)⟩

/-- A numbered lump shows the bytes of its number. -/
theorem numberedLump_named {i : Nat} (hi : i < 2 ^ 31) : isLump (numberedLump i).name ∧
    ZeroPadded (numberedLump i).name ∧ shownAs (numberedLump i) = highBytes i := by
  have h8 := length_highBytes hi
  have h0 : 0 ∉ highBytes i := fun hmem => absurd (high_of_mem hmem) (by decide)
  have hlump := isLump_of_high (fun _ => high_of_mem) h8
  exact ⟨hlump, zeroPadded_ofBytes h0 h8, displayName_lump h0 h8 (isLump_iff.mp hlump).1⟩

/-- `n` of them. -/
def crowd (n : Nat) : List WadDescriptor := (List.range n).map numberedLump

section

variable {n : Nat} (hn : n ≤ 2 ^ 31)
include hn

/-- All lumps of a crowd are numbered. -/
theorem exists_of_mem_crowd {d : WadDescriptor} (hd : d ∈ crowd n) :
    ∃ i, i < 2 ^ 31 ∧ numberedLump i = d := by
  obtain ⟨i, hi, hname⟩ := List.mem_map.mp hd
  exact ⟨i, Nat.lt_of_lt_of_le (List.mem_range.mp hi) hn, hname⟩

/-- Numbered lumps make a well-formed forest. -/
theorem wellFormed_crowd : WellFormed ((crowd n).map item) :=
  wellFormed_items fun _ hd => by
    obtain ⟨i, hi, rfl⟩ := exists_of_mem_crowd hn hd
    exact (numberedLump_named hi).1

/-- No two of them show the same. -/
theorem nodup_crowd : ((crowd n).map shownAs).Nodup := by
  rw [crowd, List.map_map]
  refine List.nodup_range.map_on fun i hi j hj heq => ?_
  rw [Function.comp, Function.comp,
    (numberedLump_named (Nat.lt_of_lt_of_le (List.mem_range.mp hi) hn)).2.2,
    (numberedLump_named (Nat.lt_of_lt_of_le (List.mem_range.mp hj) hn)).2.2] at heq
  exact highBytes_injective heq

/-- Its names can be spelled in a path and are different. -/
theorem spelled_crowd : Spelled ((crowd n).map item) := by
  refine .of_table (fun d hd => ?_) (fun d hd => ?_) (distinct_map_item (nodup_crowd hn))
  · rw [flattenAll_map_item] at hd
    obtain ⟨i, hi, rfl⟩ := exists_of_mem_crowd hn hd
    exact (numberedLump_named hi).2.1
  · rw [flattenAll_map_item] at hd
    obtain ⟨i, hi, rfl⟩ := exists_of_mem_crowd hn hd
    rw [(numberedLump_named hi).2.2]
    exact ⟨highBytes_ne_nil i, fun hmem => absurd (high_of_mem hmem) (by decide)⟩

/-- The root with these files is found and listed, and they are counted by an `int`. -/
theorem getDirectory_crowd (directory : List Bytes) :
    resolve (crowd n) [slash] none = some (.root, none) ∧
      getDirectory (crowd n) [slash] directory =
        some (asInt n, directory ++ (crowd n).map shownAs) := by
  have hF := wellFormed_crowd hn
  have hlook : treeLookup ((crowd n).map item) [slash] = some [] := by
    have hcomp : components [slash] = [] := by decide
    rw [treeLookup, hcomp, lookup_nil]
    rfl
  have hres := @resolve_lookup _ hF [slash] (by decide)
  have hlist := @getDirectory_lookup _ hF [slash] (by decide) directory
  have hshown := (spelled_crowd hn).map_listedName (kidsAt_nil _)
  have hkeys : keysOf shownAs ((crowd n).map item) = (crowd n).map shownAs := by
    rw [keysOf, List.map_map]
    rfl
  have hlength : ((crowd n).map item).length = n := by
    rw [List.length_map, crowd, List.length_map, List.length_range]
  rw [hlook, flattenAll_map_item] at hres hlist
  rw [Option.bind_some, kidsAt_nil] at hlist
  refine ⟨hres, ?_⟩
  rw [hlist]
  simp only [hshown, hkeys, hlength]

end

/-- **The number of entries overflows** an `int` in a directory with `2 ^ 31` of them. -/
theorem count_overflows :
    WellFormed ((crowd (2 ^ 31)).map item) ∧ Spelled ((crowd (2 ^ 31)).map item) ∧
      (crowd (2 ^ 31)).length = 2 ^ 31 ∧
      resolve (crowd (2 ^ 31)) [slash] none = some (.root, none) ∧
      ∀ directory, getDirectory (crowd (2 ^ 31)) [slash] directory =
        some (none, directory ++ (crowd (2 ^ 31)).map shownAs) := by
  have hn : 2 ^ 31 ≤ 2 ^ 31 := Nat.le_refl _
  have hnone : asInt (2 ^ 31 : Nat) = none := asInt_eq_none (by omega)
  refine ⟨wellFormed_crowd hn, spelled_crowd hn, by rw [crowd, List.length_map, List.length_range],
    (getDirectory_crowd hn []).1, fun directory => ?_⟩
  rw [(getDirectory_crowd hn directory).2, hnone]

/-- No siblings of the sample show the same name. -/
theorem distinct_sampleForest : Distinct shownAs sampleForest := by
  refine distinct_cons.mpr
    ⟨by decide, fun G hG => ?_, distinct_cons.mpr ⟨by decide, ?_, distinct_nil⟩⟩
  · obtain rfl := Option.some.inj hG
    refine distinct_cons.mpr ⟨by decide, nofun, distinct_cons.mpr ⟨by decide, ?_, distinct_nil⟩⟩
    intro G' hG'
    obtain rfl := Option.some.inj hG'
    exact distinct_nil
  · exact nofun

/-- `/Gl` is listed with its two entries, and `/Gl/ad` is the second of them. -/
theorem listing_agrees_sample :
    getDirectory (flattenAll sampleForest) (chars ['/', 'G', 'l']) [] =
        some (some 2, [chars ['c', 'a', 'k', 'e'], chars ['a', 'd']]) ∧
      resolve (flattenAll sampleForest) (chars ['/', 'G', 'l', '/', 'a', 'd']) none =
        some (pointerTo sampleForest [0, 1], none) ∧
      resolve (flattenAll sampleForest) (chars ['/', 'G', 'l', '/', 'm', 'p']) none =
        some (.null, none) := by
  have hGl : resolve (flattenAll sampleForest) (chars ['/', 'G', 'l']) none =
      some (.entry 0, none) := by decide +kernel
  rcases @listing_agrees sampleForest wellFormed_sampleForest
    (.of_table (by decide) (by decide) distinct_sampleForest) (chars ['/', 'G', 'l'])
    (by decide) with
    ⟨as, H, hres, -, hlists⟩ | ⟨desc, hres, hdir, -⟩
  · have hsame : pointerTo sampleForest as = pointerTo sampleForest [0] :=
      (Prod.mk.inj (Option.some.inj (hres.symm.trans hGl))).1
    obtain rfl := pointerTo_injective (reached_of_kidsAt hlists.kids) (Or.inr ⟨_, rfl⟩) hsame
    obtain rfl := Option.some.inj (hlists.kids.symm.trans rfl)
    exact ⟨hlists.listed (by decide) [], hlists.found _ 1 rfl,
      hlists.missing (chars ['m', 'p']) ⟨by decide, by decide, by decide⟩ (by decide)⟩
  · obtain ⟨rfl, -⟩ := Prod.mk.inj (Option.some.inj (hGl.symm.trans hres))
    cases hdir

end Cop4600
