import Cop4600.Lookup
import Cop4600.Wad

/-!
# Where a creation goes

`resolve` with a `create_name` looks for a missing last component and returns the
place where the iteration over the parent's children stopped — if that place is
the end of the vector or an `_END` name. For the root and for a `_START`
directory it always is. For a map it is exactly when the map is the last child of
its own directory, and then it is the end of *that* directory (`StopsAt`).
-/

namespace Cop4600

open Outline Storage

/-! ## The stop of an iteration -/

/-- The iteration over the children at the first address stops at the end of the
children at the second one, where something can be inserted. -/
inductive StopsAt (F : WadForest) : List Nat → List Nat → Prop where
  /-- the root and `_START` directories stop at their own end -/
  | own {as : List Nat} (h : Opens F as) : StopsAt F as as
  /-- a map that is the last child stops at the end of its directory -/
  | lastMap {as : List Nat} {k : Nat} {m : WadDescriptor} {ls : List WadDescriptor} {G : WadForest}
      (hm : Outline.nodeAt F (as ++ [k]) = some (block m ls)) (hG : Outline.kidsAt F as = some G)
      (hk : G.length = k + 1) : StopsAt F (as ++ [k]) as

/-- A block stands in the root or in a group. -/
theorem opens_of_block {F : WadForest} {as : List Nat} {k : Nat} {m : WadDescriptor}
    {ls : List WadDescriptor} (h : Outline.nodeAt F (as ++ [k]) = some (block m ls)) :
    Opens F as := by
  rcases eq_or_ne as [] with rfl | has
  · exact opens_nil F
  · rw [nodeAt_concat] at h
    obtain ⟨G, hG, hk⟩ := Option.bind_eq_some_iff.mp h
    rw [kidsAt_eq_nodeAt F has] at hG
    obtain ⟨u, hu, hkids⟩ := Option.bind_eq_some_iff.mp hG
    cases u with
    | item a => cases hkids
    | block a ls' =>
      obtain rfl := Option.some.inj hkids
      rw [List.getElem?_map] at hk
      obtain ⟨l, -, hl⟩ := Option.map_eq_some_iff.mp hk
      cases hl
    | group o cs c => exact opens_of_nodeAt hu

/-- Where an iteration stops, something can be put in. -/
theorem StopsAt.opens {F : WadForest} {as site : List Nat} (h : StopsAt F as site) :
    Opens F site := by
  cases h with
  | own h => exact h
  | lastMap hm _ _ => exact opens_of_block hm

/-- A map is not a place where a child can be added. -/
theorem not_opens_block {F : WadForest} {as : List Nat} {m : WadDescriptor}
    {ls : List WadDescriptor} (h : Outline.nodeAt F as = some (block m ls)) : ¬ Opens F as := by
  intro hopen
  rcases opens_iff.mp hopen with rfl | ⟨o, cs, c, hnode⟩
  · simp at h
  · rw [h] at hnode
    cases hnode

/-- In an open directory, the iteration stops at its own end. -/
theorem StopsAt.site_of_opens {F : WadForest} {as site : List Nat} (h : StopsAt F as site)
    (hopen : Opens F as) : site = as := by
  cases h with
  | own _ => rfl
  | lastMap hm _ _ => exact absurd hopen (not_opens_block hm)

/-- Below a map, it can stop at the end of one directory only. -/
theorem StopsAt.site_of_block {F : WadForest} {as bs site : List Nat} {k : Nat}
    {m : WadDescriptor} {ls : List WadDescriptor} (h : StopsAt F bs site) (hbs : bs = as ++ [k])
    (hm : Outline.nodeAt F (as ++ [k]) = some (block m ls)) : site = as := by
  cases h with
  | own hopen => exact absurd (hbs ▸ hopen) (not_opens_block hm)
  | lastMap _ _ _ => exact (List.append_inj' hbs rfl).1

/-- In the text of a forest, the end of an open address is the end of the list or
an `_END` name. -/
theorem atListEnd_endPosition {F : WadForest} (hF : WellFormed F) {as : List Nat}
    (h : Opens F as) : atListEnd (flattenAll F) (endPosition F as) = some true := by
  rw [atListEnd]
  rcases (drop_endPosition h).2 with ⟨-, hend⟩ | ⟨o, cs, c, rest, hnode, hrest⟩
  · rw [if_pos hend]
  · have hc : isEnd c.name := by
      cases hF.nodeAt hnode
      assumption
    split
    · rfl
    · rw [getElem?_of_drop hrest, Option.map_some, hc]

/-- The end of a directory is behind its children's text. -/
theorem endPosition_of_kidsAt {F H : WadForest} {as : List Nat}
    (hH : Outline.kidsAt F as = some H) :
    endPosition F as = kidsPosition F as + (flattenAll H).length := by
  rw [endPosition, hH, Option.getD_some]

/-- The end of a block, from its own and from its parent's point of view. -/
theorem endPosition_block {F G : WadForest} {as : List Nat} {k : Nat} {m : WadDescriptor}
    {ls : List WadDescriptor} (hm : Outline.nodeAt F (as ++ [k]) = some (block m ls))
    (hG : Outline.kidsAt F as = some G) :
    endPosition F (as ++ [k]) = kidsPosition F as + (flattenAll (G.take (k + 1))).length := by
  have hkids : Outline.kidsAt F (as ++ [k]) = some (ls.map item) := by
    rw [kidsAt_eq_nodeAt F (by simp), hm]
    rfl
  have hk : G[k]? = some (block m ls) := by
    rw [nodeAt_concat, hG] at hm
    exact hm
  rw [endPosition_of_kidsAt hkids, kidsPosition_of_ne_nil F (by simp), position_concat hG,
    List.take_add_one, hk, flattenAll_append]
  simp
  omega

/-- Where the iteration stops at an inserting place, that place is the end of the
site's children. -/
theorem StopsAt.endPosition_eq {F : WadForest} {as site : List Nat} (h : StopsAt F as site) :
    endPosition F as = endPosition F site := by
  cases h with
  | own _ => rfl
  | @lastMap _ k m ls G hm hG hk =>
    rw [endPosition_block hm hG, endPosition_of_kidsAt hG, ← hk, List.take_length]

/-- Where it does not, some other node follows. -/
theorem atListEnd_of_not_stopsAt {F H : WadForest} (hF : WellFormed F) {as : List Nat}
    (hH : Outline.kidsAt F as = some H) (h : ∀ site, ¬ StopsAt F as site) :
    atListEnd (flattenAll F) (endPosition F as) = some false := by
  have hopen : ¬ Opens F as := fun ho => h as (.own ho)
  obtain ⟨as', k, rfl⟩ : ∃ as' k, as = as' ++ [k] := by
    rcases List.eq_nil_or_concat as with rfl | ⟨as', k, rfl⟩
    · exact absurd (opens_nil F) hopen
    · exact ⟨as', k, List.concat_eq_append⟩
  rw [kidsAt_eq_nodeAt F (by simp)] at hH
  obtain ⟨u, hu, hkids⟩ := Option.bind_eq_some_iff.mp hH
  cases u with
  | item a => cases hkids
  | group o cs c => exact absurd (opens_of_nodeAt hu) hopen
  | block m ls =>
    have hu' := hu
    rw [nodeAt_concat] at hu'
    obtain ⟨G, hG, hk⟩ := Option.bind_eq_some_iff.mp hu'
    obtain ⟨hlt, -⟩ := List.getElem?_eq_some_iff.mp hk
    have hne : G.length ≠ k + 1 := fun hlen => h as' (.lastMap hu hG hlen)
    -- the next sibling begins where the map ends
    obtain ⟨t, ht⟩ : ∃ t, G[k + 1]? = some t := ⟨_, List.getElem?_eq_getElem (by omega)⟩
    have hnode := nodeAt_child hG ht
    have hpos : endPosition F (as' ++ [k]) = position F (as' ++ [k + 1]) := by
      rw [endPosition_block hu hG, position_concat hG]
    have hend := (hF.nodeAt hnode).label_not_end
    rw [atListEnd, hpos, if_neg (Nat.ne_of_lt (position_lt hnode)), getElem?_position hnode,
      Option.map_some, hend]

/-! ## `resolve` with a `create_name` -/

/-- A path asks for a new child `c` under the address `as`: the components before
the last lead there, and no child there answers to the last one. -/
structure AsksFor (F : WadForest) (path : Bytes) (as : List Nat) (c : Bytes) : Prop where
  /-- the path is absolute -/
  slashed : path.head? = some slash
  /-- it is all of the string -/
  noNul : 0 ∉ path
  /-- all components but the last lead to the directory -/
  parent : ∃ ps, components path = ps ++ [c] ∧ lookup shownAs F ps = some as
  /-- which has no child with the name of the last one -/
  missing : ∃ H, Outline.kidsAt F as = some H ∧ firstKid shownAs H c = none
  /-- a name that can be stored -/
  short : c.length ≤ 8

/-- A path asks for one name in one directory. -/
theorem AsksFor.unique {F : WadForest} {path : Bytes} {as as' : List Nat} {c c' : Bytes}
    (h : AsksFor F path as c) (h' : AsksFor F path as' c') : as = as' ∧ c = c' := by
  obtain ⟨ps, hps, has⟩ := h.parent
  obtain ⟨ps', hps', has'⟩ := h'.parent
  rw [hps] at hps'
  obtain ⟨rfl, hc⟩ := List.append_inj' hps' rfl
  rw [has] at has'
  exact ⟨Option.some.inj has', List.singleton_inj.mp hc⟩

/-- A path that asks for a child is answered from where the iteration stopped. -/
theorem resolve_asksFor {F : WadForest} (hF : WellFormed F) {path : Bytes} {as : List Nat}
    {c : Bytes} (h : AsksFor F path as c) (buf : Name) :
    resolve (flattenAll F) path (some buf) =
      (atListEnd (flattenAll F) (endPosition F as)).map fun stop =>
        if stop then (dataPtr (flattenAll F) (endPosition F as), some (Name.ofBytes c))
        else (.null, some buf) := by
  obtain ⟨ps, hps, hlook⟩ := h.parent
  obtain ⟨H, hH, hk⟩ := h.missing
  obtain ⟨s, hs, hcomp, heq⟩ := resolve_slash (flattenAll F) h.noNul h.slashed (some buf)
  obtain ⟨s', hs', hlast, hreach, hwalk⟩ :=
    resolveNext_walk hF (some buf) hs ps (hcomp.trans hps) hlook
  have hne : s' ≠ [] := by
    rintro rfl
    simp at hlast
  rw [hs'.components_eq hne, List.cons.injEq] at hlast
  obtain ⟨rfl, hnil⟩ := hlast
  have hend := hs'.nextComponent.components_eq_nil_iff.mp hnil
  rw [heq, hwalk, resolveNext_missing hF hreach hs' hne (some buf) hH hk,
    if_pos ⟨h.short, rfl, hend⟩, endPosition_of_kidsAt hH]

/-- A path that does not is refused. -/
theorem resolve_not_asksFor {F : WadForest} (hF : WellFormed F) {path : Bytes} (h0 : 0 ∉ path)
    (h : ∀ as c, ¬ AsksFor F path as c) (buf : Name) :
    resolve (flattenAll F) path (some buf) = some (.null, some buf) := by
  by_cases hslash : path.head? = some slash
  · obtain ⟨s, hs, hcomp, heq⟩ := resolve_slash (flattenAll F) h0 hslash (some buf)
    rw [heq]
    rcases List.eq_nil_or_concat (components s) with hnil | ⟨ps, c, hps⟩
    · obtain rfl := hs.components_eq_nil_iff.mp hnil
      rw [resolveNext, dif_pos rfl]
      rfl
    · rw [List.concat_eq_append] at hps
      rcases hlook : lookup shownAs F ps with _ | as
      · exact resolveNext_miss hF (some buf) hs ps (Or.inl (by simp)) hps hlook
      · obtain ⟨s', hs', hlast, hreach, hwalk⟩ := resolveNext_walk hF (some buf) hs ps hps hlook
        have hne : s' ≠ [] := by
          rintro rfl
          simp at hlast
        rw [hs'.components_eq hne, List.cons.injEq] at hlast
        obtain ⟨hc, hnil⟩ := hlast
        have hend := hs'.nextComponent.components_eq_nil_iff.mp hnil
        rw [hwalk]
        rcases hH : Outline.kidsAt F as with _ | H
        · exact resolveNext_notDir hF hreach hne (some buf) hH
        · rcases hk : firstKid shownAs H c with _ | k
          · rw [resolveNext_missing hF hreach hs' hne (some buf) hH (hc ▸ hk)]
            refine if_neg fun hshort => h as c ⟨hslash, h0, ⟨ps, ?_, hlook⟩, ⟨H, hH, hk⟩, ?_⟩
            · rw [← hcomp, hps]
            · rw [← hc]
              exact hshort.1
          · -- the last component exists already
            rw [resolveNext_found hF hreach hs' hne (some buf) hH (hc ▸ hk), hend, resolveNext,
              dif_pos rfl]
            rfl
  · exact resolve_noSlash _ h0 hslash _

/-- **`resolve` with a `create_name`**: it returns the end of the children of the
site where the iteration stopped, or refuses. -/
theorem resolve_create {F : WadForest} (hF : WellFormed F) {path : Bytes} (h0 : 0 ∉ path)
    (buf : Name) :
    (∃ as c site, AsksFor F path as c ∧ StopsAt F as site ∧
        resolve (flattenAll F) path (some buf) =
          some (dataPtr (flattenAll F) (endPosition F site), some (Name.ofBytes c))) ∨
      (∀ as c site, AsksFor F path as c → ¬ StopsAt F as site) ∧
        resolve (flattenAll F) path (some buf) = some (.null, some buf) := by
  by_cases hask : ∃ as c, AsksFor F path as c
  · obtain ⟨as, c, h⟩ := hask
    by_cases hstop : ∃ site, StopsAt F as site
    · obtain ⟨site, hsite⟩ := hstop
      refine Or.inl ⟨as, c, site, h, hsite, ?_⟩
      rw [resolve_asksFor hF h, hsite.endPosition_eq, atListEnd_endPosition hF hsite.opens]
      rfl
    · obtain ⟨H, hH, -⟩ := h.missing
      refine Or.inr ⟨fun as' c' site h' hsite => hstop ⟨site, ?_⟩, ?_⟩
      · rwa [(h.unique h').1]
      · rw [resolve_asksFor hF h, atListEnd_of_not_stopsAt hF hH fun site hs => hstop ⟨site, hs⟩]
        rfl
  · exact Or.inr ⟨fun as c _ h => absurd ⟨as, c, h⟩ hask,
      resolve_not_asksFor hF h0 (fun as c h => hask ⟨as, c, h⟩) buf⟩

/-! ## The two creations -/

/-- What is being created. -/
inductive Creation : Type where
  | file
  | directory
  deriving DecidableEq

namespace Creation

/-- The node a creation adds: an empty file or an empty directory. -/
def node : Creation → Bytes → Outline WadDescriptor
  | file, c => item ⟨0, 0, Name.ofBytes c⟩
  | directory, c =>
    group ⟨0, 0, Name.ofBytes (c ++ suffixStart)⟩ [] ⟨0, 0, Name.ofBytes (c ++ suffixEnd)⟩

/-- The names a creation accepts: for a file no marker, for a directory at most
two bytes. -/
def accepts : Creation → Bytes → Bool
  | file, c => isLump (Name.ofBytes c)
  | directory, c => c.length ≤ 2

end Creation

/-- `createFile` or `createDirectory`. -/
def Wad.create (io : Pwrites) (w : Wad) : Creation → Bytes → Option Wad
  | .file, path => w.createFile io path
  | .directory, path => w.createDirectory io path

/-- The name a creation looks for is a component, free of NULs. -/
theorem AsksFor.name_noNul {F : WadForest} {path : Bytes} {as : List Nat} {c : Bytes}
    (h : AsksFor F path as c) : 0 ∉ c := by
  obtain ⟨ps, hps, -⟩ := h.parent
  exact (mem_components h.noNul (by rw [hps]; simp)).1

/-- What a creation puts in is a well-formed node. -/
theorem wellFormed_node {kind : Creation} {c : Bytes} (h0 : 0 ∉ c) (h : kind.accepts c) :
    WellFormed [kind.node c] := by
  cases kind with
  | file => exact .file h .nil
  | directory =>
    have h2 : c.length ≤ 2 := by simpa [Creation.accepts] using h
    exact .dir (isStart_ofBytes h0 h2) .nil (isEnd_ofBytes h0 h2) .nil

/-- The new node shows the name that was asked for. -/
theorem shownAs_node {kind : Creation} {c : Bytes} (h0 : 0 ∉ c) (h8 : c.length ≤ 8)
    (h : kind.accepts c) : shownAs (kind.node c).label = c := by
  cases kind with
  | file => exact displayName_lump h0 h8 (isLump_iff.mp h).1
  | directory => exact displayName_start h0 (by simpa [Creation.accepts] using h)

/-- The data pointer of an empty vector is null. -/
theorem dataPtr_nil (i : Nat) : dataPtr [] i = .null := by
  rw [dataPtr, if_pos rfl]

/-- The data pointer of any other vector points at its descriptors. -/
theorem dataPtr_of_ne_nil {ds : List WadDescriptor} (h : ds ≠ []) (i : Nat) :
    dataPtr ds i = .entry i := by
  rw [dataPtr, if_neg h]

/-- A forest that is not empty has descriptors. -/
theorem flattenAll_ne_nil {F : WadForest} (h : F ≠ []) : flattenAll F ≠ [] := by
  rcases F with _ | ⟨t, F⟩
  · exact absurd rfl h
  · have := t.flatten_length_pos
    intro hnil
    simp [List.append_eq_nil_iff.mp (by simpa using hnil)] at this

/-- A creation, once `resolve` has answered with a place and a name. -/
theorem create_of_resolve {io : Pwrites} {w : Wad} {path : Bytes} {desc : Nat} {c : Bytes}
    (h0 : 0 ∉ c) (h8 : c.length ≤ 8)
    (h : resolve w.descriptors path (some zeroName) =
      some (.entry desc, some (Name.ofBytes c))) (kind : Creation) :
    w.create io kind path =
      some (if kind.accepts c then w.insert io desc (kind.node c).flatten else w) := by
  cases kind with
  | file =>
    rw [Wad.create, Wad.createFile, h, Option.map_some]
    by_cases ha : isLump (Name.ofBytes c)
    · obtain ⟨hs, hm, he⟩ := isLump_iff.mp ha
      simp [Creation.accepts, Creation.node, ha, hs, hm, he]
    · have hmark : (isStart (Name.ofBytes c) || isMap (Name.ofBytes c) ||
          isEnd (Name.ofBytes c)) = true := by
        rcases hs : isStart (Name.ofBytes c) <;> rcases hm : isMap (Name.ofBytes c) <;>
          simp_all [isLump]
      simp [Creation.accepts, ha, hmark]
  | directory =>
    rw [Wad.create, Wad.createDirectory, h, Option.map_some]
    simp only [strnlen_ofBytes h0 h8]
    by_cases ha : c.length ≤ 2
    · have hS : c.length + suffixStart.length ≤ 8 := by simp [suffixStart, chars]; omega
      have hE : c.length + suffixEnd.length ≤ 8 := by simp [suffixEnd, chars]; omega
      rw [if_neg (by omega), Name.blit_suffix _ hS, Name.blit_suffix _ hE]
      simp [Creation.accepts, Creation.node, ha]
    · rw [if_pos (by omega)]
      simp [Creation.accepts, ha]

/-- A null pointer is taken for a refusal. -/
theorem create_of_null {io : Pwrites} {w : Wad} {path : Bytes} {name : Option Name}
    (h : resolve w.descriptors path (some zeroName) = some (.null, name)) (kind : Creation) :
    w.create io kind path = some w := by
  cases kind with
  | file => rw [Wad.create, Wad.createFile, h, Option.map_some]
  | directory => rw [Wad.create, Wad.createDirectory, h, Option.map_some]

/-- A path that a creation acts on: it asks for a child of an acceptable name,
the iteration stops where something can be inserted, and there is a vector to
insert into. -/
structure Creates (kind : Creation) (F : WadForest) (path : Bytes) (as : List Nat) (c : Bytes)
    (site : List Nat) : Prop where
  /-- something new is asked for -/
  asks : AsksFor F (cstr path) as c
  /-- and the search for it stops where it can be put in -/
  stops : StopsAt F as site
  /-- the name is one of those that are accepted -/
  accepted : kind.accepts c
  /-- the data pointer is not null -/
  nonempty : F ≠ []

/-- **What a creation does**: it inserts one node at the end of the site, or
nothing at all. -/
theorem create_cases {io : Pwrites} {w : Wad} {F : WadForest} (hF : WellFormed F)
    (hw : w.descriptors = flattenAll F) (kind : Creation) (path : Bytes) :
    (∃ as c site, Creates kind F path as c site ∧
        w.create io kind path = some (w.insert io (endPosition F site) (kind.node c).flatten)) ∨
      (∀ as c site, ¬ Creates kind F path as c site) ∧ w.create io kind path = some w := by
  rcases resolve_create hF (zero_notMem_cstr path) zeroName with
    ⟨as, c, site, hask, hstop, hres⟩ | ⟨hnot, hres⟩
  · rw [← resolve_cstr, ← hw] at hres
    rcases eq_or_ne F [] with rfl | hne
    · rw [hw, flattenAll_nil, dataPtr_nil, ← flattenAll_nil, ← hw] at hres
      exact Or.inr ⟨fun _ _ _ h => h.nonempty rfl, create_of_null hres kind⟩
    · rw [dataPtr_of_ne_nil (hw ▸ flattenAll_ne_nil hne)] at hres
      rw [create_of_resolve hask.name_noNul hask.short hres kind]
      by_cases ha : kind.accepts c
      · exact Or.inl ⟨as, c, site, ⟨hask, hstop, ha, hne⟩, by rw [if_pos ha]⟩
      · refine Or.inr ⟨fun as' c' site' h => ?_, by rw [if_neg ha]⟩
        rw [(hask.unique h.asks).2] at ha
        exact ha h.accepted
  · rw [← resolve_cstr, ← hw] at hres
    exact Or.inr ⟨fun as c site h => hnot as c site h.asks h.stops, create_of_null hres kind⟩

/-- An insertion puts the node where the index says, of which 32 bits are kept. -/
theorem insert_descriptors (io : Pwrites) (w : Wad) (desc : Nat) (new : List WadDescriptor) :
    (w.insert io desc new).descriptors =
      w.descriptors.take (desc % 2 ^ 32) ++ (new ++ w.descriptors.drop (desc % 2 ^ 32)) := by
  simp only [Wad.insert, UInt32.toNat_ofNat']

/-- While the insertion point fits `uint32_t index`, an insertion at the end of a
site is one new last child there. -/
theorem insert_endPosition {io : Pwrites} {w : Wad} {F : WadForest}
    (hw : w.descriptors = flattenAll F) {site : List Nat} (h : Opens F site)
    (hfit : endPosition F site < 2 ^ 32) (n : Outline WadDescriptor) :
    (w.insert io (endPosition F site) n.flatten).descriptors = flattenAll (appendAt F site n) := by
  rw [insert_descriptors, Nat.mod_eq_of_lt hfit, hw, flattenAll_appendAt n h]

/-- Descriptors put between two parts of a table add to its length. -/
theorem length_spliced (ds new : List WadDescriptor) (desc : Nat) :
    (ds.take desc ++ (new ++ ds.drop desc)).length = ds.length + new.length := by
  simp only [List.length_append, List.length_take, List.length_drop]
  omega

/-- An insertion makes the table longer by the node. -/
theorem insert_length {io : Pwrites} {w : Wad} {desc : Nat} {new : List WadDescriptor} :
    (w.insert io desc new).descriptors.length = w.descriptors.length + new.length := by
  rw [insert_descriptors, length_spliced]

end Cop4600
