import Cop4600.Forest

/-!
# `resolve` is lookup in the tree

On the flat text of a well-formed forest, `Wad::resolve` finds exactly what a
descent through the tree finds (`resolve_lookup`). The path enters only
through its slash-separated nonempty components, and each component is compared
with the display names of the children of one directory.
-/

namespace Cop4600

open Outline

/-! ## Paths -/

/-- The slash-separated nonempty components of a path. -/
def components (path : Bytes) : List Bytes := (path.splitOn slash).filter (· ≠ [])

@[simp] theorem components_nil : components [] = [] := rfl

/-- A slash in front adds no component. -/
@[simp] theorem components_slash (s : Bytes) : components (slash :: s) = components s := by
  simp [components, List.splitOn_cons_eq_if_modifyHead]

/-- Leading slashes do not matter. -/
theorem components_dropWhile (s : Bytes) : components (s.dropWhile (· = slash)) = components s := by
  induction s with
  | nil => rfl
  | cons b s ih =>
    by_cases hb : b = slash
    · subst hb
      rw [List.dropWhile_cons_of_pos (by simp), ih, components_slash]
    · rw [List.dropWhile_cons_of_neg (by simpa using hb)]

/-- What `s` looks like at the label `next`: it does not start with a slash, and
has no NUL in it. -/
structure AtNext (s : Bytes) : Prop where
  noSlash : s.head? ≠ some slash
  noNul : 0 ∉ s

/-- Behind its slashes a path is at a component or at its end. -/
theorem atNext_dropWhile {s : Bytes} (h : 0 ∉ s) : AtNext (s.dropWhile (· = slash)) where
  noSlash := by
    intro hhead
    rcases hd : s.dropWhile (· = slash) with _ | ⟨b, t⟩
    · simp [hd] at hhead
    · have := List.head?_dropWhile_not (fun b : UInt8 => decide (b = slash)) s
      rw [hd] at hhead this
      simp at hhead
      simp [hhead] at this
  noNul := fun h0 => h ((List.dropWhile_sublist _).subset h0)

/-- Behind a component a path is at the next one, or at its end. -/
theorem AtNext.nextComponent {s : Bytes} (h : AtNext s) : AtNext (nextComponent s) :=
  atNext_dropWhile fun h0 => h.noNul ((List.dropWhile_sublist _).subset h0)

/-- `resolve` cuts a path into its components, one turn at a time. -/
theorem AtNext.components_eq {s : Bytes} (h : AtNext s) (hs : s ≠ []) :
    components s = s.takeWhile (· ≠ slash) :: components (Cop4600.nextComponent s) := by
  have hmem : slash ∉ s.takeWhile (· ≠ slash) := fun hb => by
    simpa using List.mem_takeWhile_imp hb
  have hne : s.takeWhile (· ≠ slash) ≠ [] := by
    rcases s with _ | ⟨b, t⟩
    · exact absurd rfl hs
    · have hb : b ≠ slash := fun hb => h.noSlash (by rw [hb]; rfl)
      simp [hb]
  rw [Cop4600.nextComponent, components_dropWhile]
  conv_lhs => rw [← List.takeWhile_append_dropWhile (p := (· ≠ slash)) (l := s)]
  generalize s.takeWhile (· ≠ slash) = w at hmem hne
  rcases hd : s.dropWhile (· ≠ slash) with _ | ⟨b, t⟩
  · rw [List.append_nil, components, List.splitOn_eq_singleton hmem,
      List.filter_cons_of_pos (by simpa using hne)]
    rfl
  · have hb : b = slash := by
      have := List.head?_dropWhile_not (fun b : UInt8 => decide (b ≠ slash)) s
      rw [hd] at this
      simpa using this
    subst hb
    rw [components_slash, components, List.splitOn_append_cons_self_of_not_mem hmem,
      List.filter_cons_of_pos (by simpa using hne), ← components]

/-- There is no NUL in a component. -/
theorem AtNext.noNul_takeWhile {s : Bytes} (h : AtNext s) : 0 ∉ s.takeWhile (· ≠ slash) :=
  fun h0 => h.noNul ((List.takeWhile_sublist _).subset h0)

/-- A path has no component only at its end. -/
theorem AtNext.components_eq_nil_iff {s : Bytes} (h : AtNext s) : components s = [] ↔ s = [] := by
  refine ⟨?_, ?_⟩
  · intro hnil
    by_contra hs
    rw [h.components_eq hs] at hnil
    cases hnil
  · rintro rfl
    rfl

/-- Components have neither slashes nor NULs in them. -/
theorem AtNext.mem_components {s : Bytes} (h : AtNext s) {c : Bytes} (hc : c ∈ components s) :
    0 ∉ c ∧ slash ∉ c := by
  by_cases hs : s = []
  · subst hs
    simp at hc
  · have := nextComponent_length hs
    rw [h.components_eq hs, List.mem_cons] at hc
    rcases hc with rfl | hc
    · exact ⟨h.noNul_takeWhile, fun hb => by simpa using List.mem_takeWhile_imp hb⟩
    · exact h.nextComponent.mem_components hc
termination_by s.length

/-- A component of a path without a NUL has neither a NUL nor a slash. -/
theorem mem_components {path : Bytes} (h0 : 0 ∉ path) {c : Bytes} (hc : c ∈ components path) :
    0 ∉ c ∧ slash ∉ c := by
  rw [← components_dropWhile] at hc
  exact (atNext_dropWhile h0).mem_components hc

/-! ## Lookup in the tree -/

/-- What a path component is compared with. -/
def shownAs (d : WadDescriptor) : Bytes := displayName d.name

/-- Tree lookup: nothing for a path that does not begin with a slash, otherwise
the descent along its components. -/
def treeLookup (F : WadForest) (path : Bytes) : Option (List Nat) :=
  if path.head? = some slash then lookup shownAs F (components path) else none

/-- What a path leads to in a forest, it leads to in every extension of it. -/
theorem treeLookup_of_extends {F F' : WadForest} (h : Extends shownAs F F') {path : Bytes}
    {as : List Nat} (hlook : treeLookup F path = some as) : treeLookup F' path = some as := by
  rw [treeLookup] at hlook ⊢
  split at hlook
  · next hslash =>
    rw [if_pos hslash]
    exact lookup_of_extends h hlook
  · cases hlook

/-- The pointer to the node at an address: `WAD_ROOT` for the forest itself,
otherwise a pointer to the first descriptor of the node's text. -/
def pointerTo (F : WadForest) (as : List Nat) : DescPtr :=
  if as = [] then .root else .entry (position F as)

/-- The walk over siblings in `resolve` stops at the first child with the
component's display name. -/
theorem iterKids_matchBody {c : Bytes} (h0 : 0 ∉ c) (h8 : c.length ≤ 8) (F : WadForest) :
    ∀ i, iterKids (matchBody (Name.ofBytes c)) i () F =
      match firstKid shownAs F c with
      | some k => .goto (i + (flattenAll (F.take k)).length)
      | none => .done (i + (flattenAll F).length) () := by
  induction F with
  | nil => intro i; simp [iterKids]
  | cons t F ih =>
    intro i
    rw [iterKids, matchBody, firstKid_cons]
    by_cases ht : shownAs t.label = c
    · rw [if_pos ((ofBytes_eq_componentName_iff h0 h8 _).mpr ht), if_pos ht]
      simp
    · rw [if_neg fun h => ht ((ofBytes_eq_componentName_iff h0 h8 _).mp h), if_neg ht]
      simp only [ih]
      rcases firstKid shownAs F c with _ | k <;> simp [Nat.add_assoc]

/-- A component longer than a name is nobody's display name. -/
theorem firstKid_of_long {c : Bytes} (h : 8 < c.length) (F : WadForest) :
    firstKid shownAs F c = none := by
  rw [firstKid, List.findIdx?_eq_none_iff]
  intro t _
  have := displayName_length_le t.label.name
  rw [decide_eq_false_iff_not, shownAs]
  rintro rfl
  omega

/-- What is below a node is well-formed. -/
theorem WellFormed.kidsAt {F H : WadForest} (hF : WellFormed F) : ∀ {as : List Nat},
    Outline.kidsAt F as = some H → WellFormed H := by
  intro as
  induction as generalizing F with
  | nil =>
    intro h
    obtain rfl := Option.some.inj ((kidsAt_nil F).symm.trans h)
    exact hF
  | cons k as ih =>
    intro h
    rw [kidsAt_cons] at h
    obtain ⟨G, hG, hH⟩ := Option.bind_eq_some_iff.mp h
    obtain ⟨t, ht, hkids⟩ := Option.bind_eq_some_iff.mp hG
    exact ih ((hF.getElem? ht).kids hkids) hH

/-- The node at an address of a well-formed forest is well formed. -/
theorem WellFormed.nodeAt {F : WadForest} (hF : WellFormed F) {as : List Nat}
    {t : Outline WadDescriptor} (h : Outline.nodeAt F as = some t) : WellFormed [t] := by
  rcases List.eq_nil_or_concat as with rfl | ⟨as, k, rfl⟩
  · simp at h
  · rw [List.concat_eq_append, nodeAt_concat] at h
    obtain ⟨H, hH, ht⟩ := Option.bind_eq_some_iff.mp h
    exact (hF.kidsAt hH).getElem? ht

/-- The addresses a lookup can reach: the forest itself and its nodes. -/
def Reached (F : WadForest) (as : List Nat) : Prop := as = [] ∨ ∃ t, Outline.nodeAt F as = some t

/-- An address that has children can be reached. -/
theorem reached_of_kidsAt {F H : WadForest} {as : List Nat} (hH : Outline.kidsAt F as = some H) :
    Reached F as := by
  rcases eq_or_ne as [] with rfl | has
  · exact Or.inl rfl
  · rw [kidsAt_eq_nodeAt F has] at hH
    obtain ⟨t, ht, -⟩ := Option.bind_eq_some_iff.mp hH
    exact Or.inr ⟨t, ht⟩

/-- Different addresses have different pointers. -/
theorem pointerTo_injective {F : WadForest} {as bs : List Nat} (has : Reached F as)
    (hbs : Reached F bs) (h : pointerTo F as = pointerTo F bs) : as = bs := by
  rw [pointerTo, pointerTo] at h
  rcases eq_or_ne as [] with rfl | hne <;> rcases eq_or_ne bs [] with rfl | hne'
  · rfl
  · rw [if_pos rfl, if_neg hne'] at h
    cases h
  · rw [if_neg hne, if_pos rfl] at h
    cases h
  · obtain ⟨t, ht⟩ := has.resolve_left hne
    obtain ⟨u, hu⟩ := hbs.resolve_left hne'
    rw [if_neg hne, if_neg hne'] at h
    exact position_injective ht hu (DescPtr.entry.inj h)

/-- `WAD_ITER` at a pointer of the tree visits the children found there. -/
theorem wadIter_pointerTo {F : WadForest} (hF : WellFormed F) {as : List Nat} (h : Reached F as)
    {σ : Type} (body : σ → WadDescriptor → Option σ) (s : σ) :
    wadIter (flattenAll F) body (pointerTo F as) s =
      some (match Outline.kidsAt F as with
        | none => .notDir
        | some H => iterKids body (kidsPosition F as) s H) := by
  rcases eq_or_ne as [] with rfl | has
  · rw [pointerTo, if_pos rfl, wadIter_root hF, kidsAt_nil, kidsPosition_nil]
  · obtain ⟨t, ht⟩ := h.resolve_left has
    obtain ⟨rest, hrest⟩ := drop_position ht
    rw [pointerTo, if_neg has, kidsAt_eq_nodeAt F has, ht, kidsPosition_of_ne_nil F has]
    exact wadIter_entry (hF.nodeAt ht) hrest s

/-! ## One component of the path -/

section Resolve

variable {F : WadForest} {as : List Nat} {s : Bytes} (hF : WellFormed F) (has : Reached F as)
  (hs : AtNext s) (hne : s ≠ []) (cr : Option Name)

include hF has hne

/-- A file has nothing to look into. -/
theorem resolveNext_notDir (hH : Outline.kidsAt F as = none) :
    resolveNext (flattenAll F) cr s (pointerTo F as) = some (.null, cr) := by
  rw [resolveNext, dif_neg hne]
  by_cases h8 : 8 < (s.takeWhile (· ≠ slash)).length
  · rw [if_pos h8]
  · rw [if_neg h8]
    simp only [wadIter_pointerTo hF has, hH]

include hs

/-- At a child with the component's name, `resolve` goes on from that child. -/
theorem resolveNext_found {H : WadForest} {k : Nat} (hH : Outline.kidsAt F as = some H)
    (hk : firstKid shownAs H (s.takeWhile (· ≠ slash)) = some k) :
    resolveNext (flattenAll F) cr s (pointerTo F as) =
      resolveNext (flattenAll F) cr (nextComponent s) (pointerTo F (as ++ [k])) := by
  have h8 : ¬ 8 < (s.takeWhile (· ≠ slash)).length := fun h => by
    rw [firstKid_of_long h] at hk
    cases hk
  rw [resolveNext, dif_neg hne, if_neg h8]
  simp only [wadIter_pointerTo hF has, hH,
    iterKids_matchBody hs.noNul_takeWhile (Nat.le_of_not_lt h8), hk]
  rw [← position_concat hH k, pointerTo, if_neg (by simp)]

/-- At a component no child answers to, `resolve` fails, unless it was asked to
create just this component. -/
theorem resolveNext_missing {H : WadForest} (hH : Outline.kidsAt F as = some H)
    (hk : firstKid shownAs H (s.takeWhile (· ≠ slash)) = none) :
    resolveNext (flattenAll F) cr s (pointerTo F as) =
      if (s.takeWhile (· ≠ slash)).length ≤ 8 ∧ cr.isSome ∧ nextComponent s = [] then
        (atListEnd (flattenAll F) (kidsPosition F as + (flattenAll H).length)).map fun stop =>
          if stop then
            (dataPtr (flattenAll F) (kidsPosition F as + (flattenAll H).length),
              some (Name.ofBytes (s.takeWhile (· ≠ slash))))
          else (.null, cr)
      else some (.null, cr) := by
  rw [resolveNext, dif_neg hne]
  by_cases h8 : 8 < (s.takeWhile (· ≠ slash)).length
  · rw [if_pos h8, if_neg fun h => absurd h.1 (by omega)]
  · have hle := Nat.le_of_not_lt h8
    rw [if_neg h8]
    simp only [wadIter_pointerTo hF has, hH, iterKids_matchBody hs.noNul_takeWhile hle, hk]
    by_cases hcr : cr.isSome ∧ nextComponent s = []
    · rw [if_pos (by simpa using hcr), if_pos ⟨hle, hcr⟩]
    · rw [if_neg (by simpa using hcr), if_neg fun h => hcr h.2]

end Resolve

/-! ## The whole path -/

/-- **Walking**: components that the tree lookup can follow are consumed one by
one, and lead the pointer to the address that the lookup finds. -/
theorem resolveNext_walk {F : WadForest} (hF : WellFormed F) (cr : Option Name) {s : Bytes}
    (hs : AtNext s) : ∀ (ps : List Bytes) {cs : List Bytes} {as : List Nat},
    components s = ps ++ cs → lookup shownAs F ps = some as →
    ∃ s', AtNext s' ∧ components s' = cs ∧ Reached F as ∧
      resolveNext (flattenAll F) cr s .root =
        resolveNext (flattenAll F) cr s' (pointerTo F as) := by
  intro ps
  induction ps using List.reverseRecOn with
  | nil =>
    intro cs as hcs hlook
    obtain rfl := Option.some.inj ((lookup_nil shownAs F).symm.trans hlook)
    exact ⟨s, hs, hcs, Or.inl rfl, by rw [pointerTo, if_pos rfl]⟩
  | append_singleton ps c ih =>
    intro cs as hcs hlook
    rw [lookup_concat] at hlook
    obtain ⟨as', has', hlook⟩ := Option.bind_eq_some_iff.mp hlook
    obtain ⟨H, hH, hlook⟩ := Option.bind_eq_some_iff.mp hlook
    obtain ⟨k, hk, rfl⟩ := Option.map_eq_some_iff.mp hlook
    obtain ⟨s', hs', hcomp, hreach, heq⟩ :=
      ih (by simpa using hcs : components s = ps ++ (c :: cs)) has'
    have hne : s' ≠ [] := by
      rintro rfl
      simp at hcomp
    rw [hs'.components_eq hne, List.cons.injEq] at hcomp
    obtain ⟨rfl, hrest⟩ := hcomp
    obtain ⟨t, ht, -⟩ := firstKid_eq_some hk
    refine ⟨nextComponent s', hs'.nextComponent, hrest, Or.inr ⟨t, nodeAt_child hH ht⟩, ?_⟩
    rw [heq, resolveNext_found hF hreach hs' hne cr hH hk]

/-- **Missing**: when the tree lookup cannot follow some components, neither can
`resolve`, and nothing can be created behind them. -/
theorem resolveNext_miss {F : WadForest} (hF : WellFormed F) (cr : Option Name) {s : Bytes}
    (hs : AtNext s) : ∀ (ps : List Bytes) {cs : List Bytes}, cs ≠ [] ∨ cr = none →
    components s = ps ++ cs → lookup shownAs F ps = none →
    resolveNext (flattenAll F) cr s .root = some (.null, cr) := by
  intro ps
  induction ps using List.reverseRecOn with
  | nil => intro cs _ _ hlook; simp at hlook
  | append_singleton ps c ih =>
    intro cs hcs hcomp hlook
    have hcomp' : components s = ps ++ (c :: cs) := by simpa using hcomp
    rcases hps : lookup shownAs F ps with _ | as
    · exact ih (Or.inl (by simp)) hcomp' hps
    · obtain ⟨s', hs', hrest, hreach, heq⟩ := resolveNext_walk hF cr hs ps hcomp' hps
      have hne : s' ≠ [] := by
        rintro rfl
        simp at hrest
      rw [hs'.components_eq hne, List.cons.injEq] at hrest
      obtain ⟨rfl, hnext⟩ := hrest
      have hmore : ¬ (cr.isSome ∧ nextComponent s' = []) := by
        rintro ⟨hcr, h⟩
        rcases hcs with hcs | hcs
        · exact hcs (by rw [← hnext, h, components_nil])
        · simp [hcs] at hcr
      rw [lookup_concat, hps, Option.bind_some] at hlook
      rcases hH : Outline.kidsAt F as with _ | H
      · rw [heq, resolveNext_notDir hF hreach hne cr hH]
      · rw [hH, Option.bind_some, Option.map_eq_none_iff] at hlook
        rw [heq, resolveNext_missing hF hreach hs' hne cr hH hlook, if_neg fun h => hmore h.2]

/-- Only the path in front of a NUL counts. -/
theorem resolve_cstr (ds : List WadDescriptor) (path : Bytes) (cr : Option Name) :
    resolve ds path cr = resolve ds (cstr path) cr := by
  rw [resolve, resolve, cstr_eq_self (zero_notMem_cstr path)]

/-- What `resolve` makes of a path that begins with a slash. -/
theorem resolve_slash (ds : List WadDescriptor) {path : Bytes} (h0 : 0 ∉ path)
    (hslash : path.head? = some slash) (cr : Option Name) :
    ∃ s, AtNext s ∧ components s = components path ∧
      resolve ds path cr = resolveNext ds cr s .root := by
  rcases path with _ | ⟨b, p⟩
  · cases hslash
  · obtain rfl : b = slash := by simpa using hslash
    have hp : 0 ∉ p := fun h => h0 (List.mem_cons_of_mem _ h)
    refine ⟨_, atNext_dropWhile hp, ?_, ?_⟩
    · rw [components_dropWhile, components_slash]
    · rw [resolve, cstr_eq_self h0]
      simp

/-- A path that does not begin with a slash leads nowhere. -/
theorem resolve_noSlash (ds : List WadDescriptor) {path : Bytes} (h0 : 0 ∉ path)
    (hslash : path.head? ≠ some slash) (cr : Option Name) :
    resolve ds path cr = some (.null, cr) := by
  rw [resolve, cstr_eq_self h0]
  rcases path with _ | ⟨b, p⟩
  · rfl
  · have hb : b ≠ slash := fun h => hslash (by rw [h]; rfl)
    simp [hb]

/-- Without `create_name`, `resolve` on the text of a well-formed forest returns
what tree lookup finds. -/
theorem resolve_lookup {F : WadForest} (hF : WellFormed F) {path : Bytes} (h0 : 0 ∉ path) :
    resolve (flattenAll F) path none =
      some (match treeLookup F path with
        | none => .null
        | some as => pointerTo F as, none) := by
  rw [treeLookup]
  by_cases hslash : path.head? = some slash
  · rw [if_pos hslash]
    obtain ⟨s, hs, hcomp, heq⟩ := resolve_slash (flattenAll F) h0 hslash none
    rw [heq, ← hcomp]
    rcases hlook : lookup shownAs F (components s) with _ | as
    · rw [resolveNext_miss hF none hs (components s) (Or.inr rfl) (List.append_nil _).symm hlook]
    · obtain ⟨s', hs', hnil, -, hwalk⟩ :=
        resolveNext_walk hF none hs (components s) (List.append_nil _).symm hlook
      obtain rfl := hs'.components_eq_nil_iff.mp hnil
      rw [hwalk, resolveNext, dif_pos rfl]
      rfl
  · rw [if_neg hslash, resolve_noSlash _ h0 hslash]

/-- An address found by a lookup is the forest itself or a node of it. -/
theorem reached_of_lookup {F : WadForest} {cs : List Bytes} {as : List Nat}
    (h : lookup shownAs F cs = some as) : Reached F as := by
  rcases eq_or_ne cs [] with rfl | hcs
  · exact Or.inl (Option.some.inj ((lookup_nil shownAs F).symm.trans h)).symm
  · exact Or.inr (lookup_nodeAt h hcs).2

/-- A lookup ends at a node that can be reached. -/
theorem reached_of_treeLookup {F : WadForest} {path : Bytes} {as : List Nat}
    (h : treeLookup F path = some as) : Reached F as := by
  rw [treeLookup] at h
  split at h
  · exact reached_of_lookup h
  · cases h

/-- The pointer to a node points at the node's label. -/
theorem getElem?_position {F : WadForest} {as : List Nat} {t : Outline WadDescriptor}
    (h : Outline.nodeAt F as = some t) : (flattenAll F)[position F as]? = some t.label := by
  obtain ⟨rest, hrest⟩ := drop_position h
  exact getElem?_of_drop_cons hrest

/-- No component of a path that can be looked up is longer than a name. -/
theorem lookup_of_long {F : WadForest} {cs : List Bytes} (h : ∃ c ∈ cs, 8 < c.length) :
    lookup shownAs F cs = none := by
  induction cs using List.reverseRecOn with
  | nil => simp at h
  | append_singleton cs c ih =>
    rw [lookup_concat]
    obtain ⟨c', hc', hlong⟩ := h
    rcases List.mem_append.mp hc' with hc' | hc'
    · rw [ih ⟨c', hc', hlong⟩, Option.bind_none]
    · obtain rfl := List.mem_singleton.mp hc'
      rcases lookup shownAs F cs with _ | as
      · rfl
      · rcases hH : Outline.kidsAt F as with _ | H <;> simp [firstKid_of_long hlong]

/-- **The flat list refines the tree.** On the text of a well-formed forest,
`resolve` without `create_name` returns what tree lookup finds: the root, the
first descriptor of the node at the address found, or null — in particular null
for a component longer than a name, and the same for any two rooted paths with
the same components. -/
theorem resolve_refines_tree {F : WadForest} (hF : WellFormed F) {path : Bytes} (h0 : 0 ∉ path) :
    resolve (flattenAll F) path none =
        some (match treeLookup F path with
          | none => .null
          | some as => pointerTo F as, none) ∧
      (∀ as, treeLookup F path = some as → as ≠ [] → ∃ t, Outline.nodeAt F as = some t ∧
        (flattenAll F)[position F as]? = some t.label) ∧
      ((∃ c ∈ components path, 8 < c.length) →
        resolve (flattenAll F) path none = some (.null, none)) ∧
      ∀ path', 0 ∉ path' → path'.head? = path.head? → components path' = components path →
        resolve (flattenAll F) path' none = resolve (flattenAll F) path none := by
  refine ⟨resolve_lookup hF h0, fun as has hne => ?_, fun hlong => ?_,
    fun path' h0' hhead hcomp => ?_⟩
  · rw [treeLookup] at has
    split at has
    · obtain ⟨t, ht⟩ := (reached_of_lookup has).resolve_left hne
      exact ⟨t, ht, getElem?_position ht⟩
    · cases has
  · rw [resolve_lookup hF h0, treeLookup, lookup_of_long hlong]
    simp
  · rw [resolve_lookup hF h0, resolve_lookup hF h0', treeLookup, treeLookup, hhead, hcomp]

/-! ### A sample WAD -/

/-- A descriptor with this name and no data. -/
def emptyLump (name : List Char) : WadDescriptor := ⟨0, 0, Name.ofBytes (chars name)⟩

/-- A directory `Gl` that holds a directory `ad`, and a file beside it. -/
def sampleForest : WadForest :=
  [group (emptyLump ['G', 'l', '_', 'S', 'T', 'A', 'R', 'T'])
      [item (emptyLump ['c', 'a', 'k', 'e']),
        group (emptyLump ['a', 'd', '_', 'S', 'T', 'A', 'R', 'T']) []
          (emptyLump ['a', 'd', '_', 'E', 'N', 'D'])]
      (emptyLump ['G', 'l', '_', 'E', 'N', 'D']),
    item (emptyLump ['m', 'p'])]

/-- Each directory of the sample has its own `_END`. -/
theorem wellFormed_sampleForest : WellFormed sampleForest :=
  .dir (by decide) (.file (by decide) (.dir (by decide) .nil (by decide) .nil)) (by decide)
    (.file (by decide) .nil)

/-- Slashes may be doubled, and stand at the end. -/
theorem resolve_refines_tree_sample :
    resolve (flattenAll sampleForest) (chars ['/', 'G', 'l', '/', '/', 'a', 'd', '/']) none =
      some (.entry 2, none) :=
  (resolve_refines_tree wellFormed_sampleForest (by decide)).1.trans (by decide)

end Cop4600
