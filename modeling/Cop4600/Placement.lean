import Cop4600.Create

/-!
# Does a creation stay in the directory its path names?

It does, except below a map that is the last child of its directory: there the
new node becomes a sibling of the map (`keepsToPath_iff`). (A second exception
needs a table of `2 ^ 32` descriptors and more, where `uint32_t index` cannot
hold the insertion point.)
-/

namespace Cop4600

open Outline Storage

/-- A new child named `c`: an empty file or an empty directory. -/
structure NewChild (c : Bytes) (n : Outline WadDescriptor) : Prop where
  /-- a well-formed node -/
  wellFormed : WellFormed [n]
  /-- under the name that was asked for -/
  named : shownAs n.label = c
  /-- with nothing in it -/
  empty : (∃ d, n = item d ∧ d.size = 0) ∨ ∃ o e, n = group o [] e

theorem newChild_node {kind : Creation} {c : Bytes} (h0 : 0 ∉ c) (h8 : c.length ≤ 8)
    (h : kind.accepts c) : NewChild c (kind.node c) where
  wellFormed := wellFormed_node h0 h
  named := shownAs_node h0 h8 h
  empty := by
    cases kind with
    | file => exact Or.inl ⟨_, rfl, rfl⟩
    | directory => exact Or.inr ⟨_, _, rfl⟩

/-- What a creation at `path` may do to the state: nothing, or add one child,
named by the last component, at the end of the directory that the other
components lead to, which is the root or a `_START` directory. -/
def KeepsToPath (F : WadForest) (path : Bytes) (w w' : Wad) : Prop :=
  w'.descriptors = w.descriptors ∧ w'.file = w.file ∨
    ∃ ps c as n, path.head? = some slash ∧ components path = ps ++ [c] ∧
      lookup shownAs F ps = some as ∧ Opens F as ∧ NewChild c n ∧
      w'.descriptors = flattenAll (appendAt F as n)

/-- The path asks for an acceptable new name below a map that is the last child
of its directory. -/
def UnderLastMap (kind : Creation) (F : WadForest) (path : Bytes) : Prop :=
  ∃ as k c m ls G, AsksFor F path (as ++ [k]) c ∧ kind.accepts c ∧
    Outline.nodeAt F (as ++ [k]) = some (block m ls) ∧ Outline.kidsAt F as = some G ∧
    G.length = k + 1

/-- Where the path asks for an acceptable new name in a directory, the place to
insert it fits a `uint32_t`. -/
def IndexFits (kind : Creation) (F : WadForest) (path : Bytes) : Prop :=
  ∀ as c, AsksFor F path as c → Opens F as → kind.accepts c → endPosition F as < 2 ^ 32

/-! ## Insertions at a truncated index -/

/-- A word that can be pushed through itself is a power. -/
theorem eq_power_of_append_comm {α : Type} {u v : List α} : ∀ {q : Nat} {X : List α},
    u ++ X = X ++ v → X.length = q * u.length → X = (List.replicate q u).flatten := by
  intro q
  induction q with
  | zero =>
    intro X _ hlen
    rw [Nat.zero_mul] at hlen
    rw [List.eq_nil_of_length_eq_zero hlen]
    rfl
  | succ q ih =>
    intro X h hlen
    rw [Nat.succ_mul] at hlen
    have htake : X.take u.length = u := by
      have := congrArg (List.take u.length) h
      rw [List.take_left, List.take_append_of_le_length (by omega)] at this
      exact this.symm
    have hX : X = u ++ X.drop u.length := by
      conv_lhs => rw [← List.take_append_drop u.length X, htake]
    have hrest : u ++ X.drop u.length = X.drop u.length ++ v := by
      rw [hX, List.append_assoc] at h
      simpa using h
    rw [List.replicate_succ, List.flatten_cons,
      ← ih hrest (by rw [List.length_drop]; omega), ← hX]

/-- If inserting a word at `j` is inserting some word at a later place `e`, then
what stands between the two places repeats the inserted word. -/
theorem between_insertions {α : Type} {ds u v : List α} {j e : Nat} (hj : j ≤ e)
    (he : e ≤ ds.length) (hdvd : u.length ∣ e - j)
    (h : ds.take j ++ (u ++ ds.drop j) = ds.take e ++ (v ++ ds.drop e)) :
    ∃ q, e - j = q * u.length ∧ ds.take e = ds.take j ++ (List.replicate q u).flatten := by
  obtain ⟨X, hX⟩ : ∃ X, X = (ds.drop j).take (e - j) := ⟨_, rfl⟩
  have hlen : X.length = e - j := by
    rw [hX, List.length_take, List.length_drop]
    omega
  have htake : ds.take e = ds.take j ++ X := by
    rw [hX, ← List.take_add, Nat.add_sub_cancel' hj]
  have hdrop : ds.drop j = X ++ ds.drop e := by
    have : (ds.drop j).drop (e - j) = ds.drop e := by
      rw [List.drop_drop, Nat.add_sub_cancel' hj]
    rw [hX, ← this, List.take_append_drop]
  have hpush : u ++ X = X ++ v := by
    rw [htake, hdrop, List.append_assoc, List.append_cancel_left_eq, ← List.append_assoc,
      ← List.append_assoc, List.append_cancel_right_eq] at h
    exact h
  obtain ⟨q, hq⟩ := hdvd
  rw [Nat.mul_comm] at hq
  exact ⟨q, hq, by rw [htake, eq_power_of_append_comm hpush (hlen.trans hq)]⟩

/-- How the text of a well-formed node ends. -/
theorem WellFormed.node_ending {t : Outline WadDescriptor} (h : WellFormed [t]) :
    (∃ d, t = item d ∧ isLump d.name) ∨
      (∃ m ls l, t = block m (ls ++ [l]) ∧ isMap m.name ∧ ls.length = 9 ∧ isLump l.name) ∨
      ∃ o G c, t = group o G c ∧ WellFormed G ∧ isEnd c.name := by
  cases h with
  | @file d _ hd _ => exact Or.inl ⟨d, rfl, hd⟩
  | @map m ls _ hm hten hls _ =>
    rcases List.eq_nil_or_concat ls with rfl | ⟨ls', l, rfl⟩
    · cases hten
    · rw [List.concat_eq_append] at hten hls ⊢
      rw [List.length_append, List.length_singleton] at hten
      exact Or.inr (Or.inl ⟨m, ls', l, rfl, hm, by omega, hls l (by simp)⟩)
  | @dir o c G _ ho hG hc _ => exact Or.inr (Or.inr ⟨o, G, c, rfl, hG, hc⟩)

/-- Where a forest has a last node, its text ends with that node's text. -/
theorem flattenAll_concat (F : WadForest) (t : Outline WadDescriptor) :
    flattenAll (F ++ [t]) = flattenAll F ++ t.flatten := by
  rw [flattenAll_append, flattenAll_cons, flattenAll_nil, List.append_nil]

/-- A well-formed text never ends with a `_START` name. -/
theorem WellFormed.last_not_start {F : WadForest} (hF : WellFormed F) {A : List WadDescriptor}
    {d : WadDescriptor} (h : flattenAll F = A ++ [d]) : isStart d.name = false := by
  rcases List.eq_nil_or_concat F with rfl | ⟨F', t, rfl⟩
  · simp at h
  · rw [List.concat_eq_append] at hF h
    rw [flattenAll_concat] at h
    rcases (wellFormed_append.mp hF).2.node_ending with
      ⟨d', rfl, hd⟩ | ⟨m, ls, l, rfl, -, -, hl⟩ | ⟨o, G, c, rfl, -, hc⟩
    · obtain ⟨-, hlast⟩ := List.append_inj' h rfl
      obtain rfl := List.singleton_inj.mp hlast
      exact (isLump_iff.mp hd).1
    · rw [flatten_block, ← List.cons_append, ← List.append_assoc] at h
      obtain ⟨-, hlast⟩ := List.append_inj' h rfl
      obtain rfl := List.singleton_inj.mp hlast
      exact (isLump_iff.mp hl).1
    · rw [flatten_group, ← List.cons_append, ← List.append_assoc] at h
      obtain ⟨-, hlast⟩ := List.append_inj' h rfl
      obtain rfl := List.singleton_inj.mp hlast
      by_contra hs
      rw [isEnd_of_isStart (by simpa using hs)] at hc
      cases hc

/-- What a directory's children follow is its own `_START` name, if anything. -/
theorem take_kidsPosition_last {F : WadForest} (hF : WellFormed F) {as : List Nat}
    (h : Opens F as) {A : List WadDescriptor} {d : WadDescriptor}
    (hd : (flattenAll F).take (kidsPosition F as) = A ++ [d]) : isStart d.name := by
  rcases opens_iff.mp h with rfl | ⟨o, cs, c, hnode⟩
  · simp at hd
  · have hne : as ≠ [] := by
      rintro rfl
      simp at hnode
    rw [kidsPosition_of_ne_nil F hne, List.take_add_one, getElem?_position hnode] at hd
    obtain ⟨-, hlast⟩ := List.append_inj' hd rfl
    obtain rfl := List.singleton_inj.mp hlast
    cases hF.nodeAt hnode
    assumption

section Ending

variable {A B : List WadDescriptor} {H : WadForest} {c : Bytes}
  (hB : ∀ A' d, B = A' ++ [d] → isStart d.name) (hH : WellFormed H)
  (hk : firstKid shownAs H c = none)
include hB hH hk

/-- The text of a directory does not end in eleven copies of a lump that none of
its children answers to: eleven is one more than a map holds. -/
theorem not_file_ending {x : WadDescriptor} (hx : isLump x.name) (hc : shownAs x = c) :
    B ++ flattenAll H ≠ A ++ List.replicate 11 x := by
  intro h
  have hlast : A ++ List.replicate 11 x = (A ++ List.replicate 10 x) ++ [x] := by
    rw [List.append_assoc]
    rfl
  rcases List.eq_nil_or_concat H with rfl | ⟨H', t, rfl⟩
  · rw [flattenAll_nil, List.append_nil, hlast] at h
    simp [isLump, hB _ _ h] at hx
  · rw [List.concat_eq_append] at hH hk h
    rw [flattenAll_concat, ← List.append_assoc] at h
    rcases (wellFormed_append.mp hH).2.node_ending with
      ⟨d, rfl, -⟩ | ⟨m, ls, l, rfl, hm, hnine, -⟩ | ⟨o, G, e, rfl, -, he⟩
    · rw [hlast] at h
      obtain ⟨-, hd⟩ := List.append_inj' h rfl
      obtain rfl := List.singleton_inj.mp hd
      exact firstKid_eq_none hk (List.mem_concat_self ..) hc
    · -- the map's own name would be one of the copies
      obtain ⟨-, hmap⟩ := List.append_inj' h (by simp [hnine])
      have hmx : m = x := (List.cons.inj hmap).1
      simp [isLump, ← hmx, hm] at hx
    · -- a directory ends in a marker
      rw [hlast, flatten_group, ← List.cons_append, ← List.append_assoc] at h
      obtain ⟨-, hd⟩ := List.append_inj' h rfl
      obtain rfl := List.singleton_inj.mp hd
      simp [isLump, he] at hx

/-- Nor does it end in an empty directory that none of its children answers to. -/
theorem not_directory_ending {S E : WadDescriptor} (hS : isStart S.name) (hE : isEnd E.name)
    (hc : shownAs S = c) : B ++ flattenAll H ≠ A ++ [S, E] := by
  intro h
  rw [List.append_cons] at h
  rcases List.eq_nil_or_concat H with rfl | ⟨H', t, rfl⟩
  · rw [flattenAll_nil, List.append_nil] at h
    simp [isEnd_of_isStart (hB _ _ h)] at hE
  · rw [List.concat_eq_append] at hH hk h
    rw [flattenAll_concat, ← List.append_assoc] at h
    rcases (wellFormed_append.mp hH).2.node_ending with
      ⟨d, rfl, hd⟩ | ⟨m, ls, l, rfl, -, -, hl⟩ | ⟨o, G, e, rfl, hG, -⟩
    · obtain ⟨-, hlast⟩ := List.append_inj' h rfl
      obtain rfl := List.singleton_inj.mp hlast
      simp [isLump, hE] at hd
    · rw [flatten_block, ← List.cons_append, ← List.append_assoc] at h
      obtain ⟨-, hlast⟩ := List.append_inj' h rfl
      obtain rfl := List.singleton_inj.mp hlast
      simp [isLump, hE] at hl
    · rw [flatten_group, ← List.cons_append, ← List.append_assoc] at h
      obtain ⟨hrest, -⟩ := List.append_inj' h rfl
      rcases List.eq_nil_or_concat (flattenAll G) with hnil | ⟨A', d, hd⟩
      · -- the last child is that empty directory
        rw [hnil] at hrest
        obtain ⟨-, hlast⟩ := List.append_inj' hrest rfl
        obtain rfl := List.singleton_inj.mp hlast
        exact firstKid_eq_none hk (List.mem_concat_self ..) hc
      · rw [List.concat_eq_append] at hd
        rw [hd, ← List.cons_append, ← List.append_assoc] at hrest
        obtain ⟨-, hlast⟩ := List.append_inj' hrest rfl
        obtain rfl := List.singleton_inj.mp hlast
        simp [hG.last_not_start hd] at hS

end Ending

/-- **A truncated index is noticed**: an insertion `2 ^ 32` places and more too
early is not a new last child of the directory. -/
theorem insert_truncated {io : Pwrites} {w : Wad} {F : WadForest} (hF : WellFormed F)
    (hw : w.descriptors = flattenAll F) {as : List Nat} {H : WadForest} {kind : Creation}
    {c : Bytes} (hopen : Opens F as) (hH : Outline.kidsAt F as = some H)
    (hk : firstKid shownAs H c = none) (h0 : 0 ∉ c) (h8 : c.length ≤ 8) (ha : kind.accepts c)
    (hbig : 2 ^ 32 ≤ endPosition F as) (n : Outline WadDescriptor) :
    (w.insert io (endPosition F as) (kind.node c).flatten).descriptors ≠
      flattenAll (appendAt F as n) := by
  intro heq
  rw [insert_descriptors, hw, flattenAll_appendAt n hopen] at heq
  -- both texts agree, so the new node repeats all the way between the two places
  obtain ⟨A, hA⟩ : ∃ A, (flattenAll F).take (endPosition F as) =
      A ++ (List.replicate 11 (kind.node c).flatten).flatten := by
    have htwo : (kind.node c).flatten.length ∣ 2 := by
      cases kind <;> simp [Creation.node]
    obtain ⟨q, hq, htake⟩ := between_insertions (Nat.mod_le _ _) (drop_endPosition hopen).1
      (htwo.trans (by omega)) heq
    have hmany : 11 ≤ q := by
      have hshort := Nat.mul_le_mul_left q (Nat.le_of_dvd (by decide) htwo)
      omega
    refine ⟨(flattenAll F).take (endPosition F as % 2 ^ 32) ++
      (List.replicate (q - 11) (kind.node c).flatten).flatten, htake.trans ?_⟩
    rw [List.append_assoc, ← List.flatten_append, ← List.replicate_add, Nat.sub_add_cancel hmany]
  rw [take_endPosition hH] at hA
  have hB := fun A' d => take_kidsPosition_last (A := A') (d := d) hF hopen
  clear heq hbig
  cases kind with
  | file =>
    have hc := shownAs_node h0 h8 ha
    have hcopies : (List.replicate 11 (Creation.node .file c).flatten).flatten =
        List.replicate 11 ⟨0, 0, Name.ofBytes c⟩ := by
      rw [Creation.node, flatten_item, List.flatten_replicate_singleton]
    rw [hcopies] at hA
    exact not_file_ending (x := ⟨0, 0, Name.ofBytes c⟩) hB (hF.kidsAt hH) hk ha hc hA
  | directory =>
    have h2 : c.length ≤ 2 := by simpa [Creation.accepts] using ha
    have hc := shownAs_node h0 h8 ha
    have hcopies : (List.replicate 11 (Creation.node .directory c).flatten).flatten =
        (List.replicate 10 (Creation.node .directory c).flatten).flatten ++
          [⟨0, 0, Name.ofBytes (c ++ suffixStart)⟩, ⟨0, 0, Name.ofBytes (c ++ suffixEnd)⟩] := by
      rw [List.replicate_succ', List.flatten_concat, Creation.node, flatten_group, flattenAll_nil,
        List.nil_append]
    rw [hcopies, ← List.append_assoc] at hA
    exact not_directory_ending (S := ⟨0, 0, Name.ofBytes (c ++ suffixStart)⟩) hB (hF.kidsAt hH) hk
      (isStart_ofBytes h0 h2) (isEnd_ofBytes h0 h2) hc hA

/-! ## The three cases -/

/-- An insertion makes the vector longer. -/
theorem insert_ne {io : Pwrites} {w : Wad} {desc : Nat} (n : Outline WadDescriptor) :
    (w.insert io desc n.flatten).descriptors ≠ w.descriptors := by
  intro heq
  have hlen := congrArg List.length heq
  have := n.flatten_length_pos
  rw [insert_length] at hlen
  omega

/-- After an insertion, the path has been kept to only if its parent opens and
the new child stands at the end there. -/
theorem keepsToPath_insert {io : Pwrites} {w : Wad} {F : WadForest} {path : Bytes}
    {as : List Nat} {c : Bytes} (hask : AsksFor F path as c) {desc : Nat}
    {new : Outline WadDescriptor} (h : KeepsToPath F path w (w.insert io desc new.flatten)) :
    Opens F as ∧
      ∃ n, (w.insert io desc new.flatten).descriptors = flattenAll (appendAt F as n) := by
  rcases h with ⟨hsame, -⟩ | ⟨ps, c', as', n, -, hps, has, hopen, -, hds⟩
  · exact absurd hsame (insert_ne new)
  · obtain ⟨qs, hqs, hqas⟩ := hask.parent
    rw [hqs] at hps
    obtain ⟨rfl, -⟩ := List.append_inj' hps rfl
    rw [hqas] at has
    obtain rfl := Option.some.inj has
    exact ⟨hopen, n, hds⟩

/-- A creation in a directory keeps to its path exactly when the index fits. -/
theorem keepsToPath_own {io : Pwrites} {w : Wad} {F : WadForest} (hF : WellFormed F)
    (hw : w.descriptors = flattenAll F) {kind : Creation} {path : Bytes} {as : List Nat}
    {c : Bytes} (hask : AsksFor F path as c) (hopen : Opens F as) (ha : kind.accepts c) :
    KeepsToPath F path w (w.insert io (endPosition F as) (kind.node c).flatten) ↔
      endPosition F as < 2 ^ 32 := by
  refine ⟨?_, ?_⟩
  · intro h
    obtain ⟨-, n, hn⟩ := keepsToPath_insert hask h
    obtain ⟨H, hH, hk⟩ := hask.missing
    by_contra hbig
    exact insert_truncated hF hw hopen hH hk hask.name_noNul hask.short ha (by omega) n hn
  · intro hfit
    obtain ⟨ps, hps, has⟩ := hask.parent
    exact Or.inr ⟨ps, c, as, kind.node c, hask.slashed, hps, has, hopen,
      newChild_node hask.name_noNul hask.short ha, insert_endPosition hw hopen hfit _⟩

/-- **Where a creation lands.** It stays in the directory its path names exactly
when that directory is not a map standing last among its siblings (and the place
to insert can be told in 32 bits). -/
theorem keepsToPath_iff {io : Pwrites} {w : Wad} {F : WadForest} (hF : WellFormed F)
    (hw : w.descriptors = flattenAll F) (kind : Creation) {path : Bytes} (h0 : 0 ∉ path) :
    ∃ w', w.create io kind path = some w' ∧
      (KeepsToPath F path w w' ↔ ¬ UnderLastMap kind F path ∧ IndexFits kind F path) := by
  rcases create_cases hF hw kind path with ⟨as, c, site, hc, hw'⟩ | ⟨hnot, hw'⟩
  · refine ⟨_, hw', ?_⟩
    have hask := hc.asks
    rw [cstr_eq_self h0] at hask
    cases hc.stops with
    | own hopen =>
      rw [keepsToPath_own hF hw hask hopen hc.accepted]
      refine ⟨?_, ?_⟩
      · intro hfit
        refine ⟨?_, fun as' c' h _ _ => by rwa [← (hask.unique h).1]⟩
        rintro ⟨as', k, c', m, ls, G, h, -, hm, -, -⟩
        rw [← (hask.unique h).1] at hm
        exact not_opens_block hm hopen
      · rintro ⟨-, hfits⟩
        exact hfits as c hask hopen hc.accepted
    | @lastMap site k m ls G hm hG hk =>
      -- the new node goes behind the map, into the directory that holds it
      refine ⟨?_, ?_⟩
      · intro h
        exact absurd (keepsToPath_insert hask h).1 (not_opens_block hm)
      · rintro ⟨hmap, -⟩
        exact absurd ⟨_, k, c, m, ls, G, hask, hc.accepted, hm, hG, hk⟩ hmap
  · refine ⟨w, hw', iff_of_true (Or.inl ⟨rfl, rfl⟩) ⟨?_, ?_⟩⟩
    · rintro ⟨as, k, c, m, ls, G, hask, ha, hm, hG, hk⟩
      refine hnot _ c as ⟨by rwa [cstr_eq_self h0], .lastMap hm hG hk, ha, ?_⟩
      rintro rfl
      exact absurd (position_lt hm) (by simp)
    · intro as c hask hopen ha
      rcases eq_or_ne F [] with rfl | hne
      · rcases opens_iff.mp hopen with rfl | ⟨o, cs, c, hnode⟩
        · rw [endPosition_of_kidsAt (kidsAt_nil _)]
          simp
        · exact absurd (position_lt hnode) (by simp)
      · exact absurd ⟨by rwa [cstr_eq_self h0], .own hopen, ha, hne⟩ (hnot as c as)

/-! ### A map that stands last -/

/-- A WAD that holds the map `E1M1`, and nothing behind it. -/
def lastMapForest : WadForest :=
  [block (emptyLump ['E', '1', 'M', '1'])
    (List.replicate 10 (emptyLump ['T', 'H', 'I', 'N', 'G', 'S']))]

theorem wellFormed_lastMapForest : WellFormed lastMapForest :=
  .map (by decide) rfl (by decide) .nil

/-- A WAD without data whose table is the text of a forest. -/
def tableOnly (F : WadForest) : Wad := withoutData (flattenAll F)

example : Wad.loadWad (tableOnly lastMapForest).file = some (tableOnly lastMapForest) := by
  decide +kernel

/-- The path `/E1M1/A`. -/
def belowLastMap : Bytes := chars ['/', 'E', '1', 'M', '1', '/', 'A']

theorem asksFor_belowLastMap : AsksFor lastMapForest belowLastMap [0] (chars ['A']) :=
  ⟨by decide, by decide, ⟨[chars ['E', '1', 'M', '1']], by decide, by decide⟩,
    ⟨_, rfl, by decide⟩, by decide⟩

/-- `createFile("/Gl/b")` keeps to its path, in a WAD where `Gl` is a directory, -/
theorem keepsToPath_iff_sample :
    ∃ w', (tableOnly sampleForest).create allBytes .file (chars ['/', 'G', 'l', '/', 'b']) =
        some w' ∧
      KeepsToPath sampleForest (chars ['/', 'G', 'l', '/', 'b']) (tableOnly sampleForest) w' := by
  have hask : AsksFor sampleForest (chars ['/', 'G', 'l', '/', 'b']) ([] ++ [0]) (chars ['b']) :=
    ⟨by decide, by decide, ⟨[chars ['G', 'l']], by decide, by decide⟩, ⟨_, rfl, by decide⟩,
      by decide⟩
  obtain ⟨w', hcreate, hiff⟩ := @keepsToPath_iff allBytes (tableOnly sampleForest) sampleForest
    wellFormed_sampleForest rfl .file (chars ['/', 'G', 'l', '/', 'b']) (by decide)
  refine ⟨w', hcreate, hiff.mpr ⟨?_, fun as c h hopen _ => ?_⟩⟩
  · rintro ⟨as, k, c, m, ls, G, h, -, hm, -, -⟩
    obtain ⟨has, -⟩ := h.unique hask
    rw [has] at hm
    cases hm
  · exact Nat.lt_of_le_of_lt (drop_endPosition hopen).1 (by decide)

/-- and `createFile("/E1M1/A")` puts `A` beside the map. -/
theorem createFile_beside_lastMap :
    ¬ ∀ (io : Pwrites) (w : Wad) (F : WadForest), WellFormed F → w.descriptors = flattenAll F →
      ∀ (kind : Creation) (path : Bytes), 0 ∉ path →
        ∃ w', w.create io kind path = some w' ∧ KeepsToPath F path w w' := by
  intro hall
  obtain ⟨w', hw', hkeeps⟩ :=
    hall allBytes (tableOnly lastMapForest) lastMapForest wellFormed_lastMapForest rfl .file
      belowLastMap (by decide)
  have hcreate : (tableOnly lastMapForest).create allBytes .file belowLastMap =
      some ((tableOnly lastMapForest).insert allBytes 11 (item (emptyLump ['A'])).flatten) := by
    decide +kernel
  rw [hcreate] at hw'
  obtain rfl := Option.some.inj hw'
  exact not_opens_block rfl (keepsToPath_insert asksFor_belowLastMap hkeeps).1

end Cop4600
