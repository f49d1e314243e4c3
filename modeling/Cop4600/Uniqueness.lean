import Cop4600.Growth
import Cop4600.Listing

/-!
# Do sibling names stay unique?

`resolve` looks for a name among the children of the directory that the path
leads to, and a creation there adds a name that no sibling has. Below a map that
is the last child of its directory, though, the new node is put into that
directory, and nobody has looked for its name there: siblings stay distinct in
one creation exactly if that name is not taken (`distinct_create_iff`), and over
a run as long as no call asks for such a name (`siblings_stay_distinct`).
-/

namespace Cop4600

open Outline PartialRuns

/-- The path asks for an acceptable new name below a map that is the last child of
a directory, and a child of that directory has the name. -/
def TakenBeside (kind : Creation) (F : WadForest) (path : Bytes) : Prop :=
  ∃ as k c m ls G, AsksFor F (cstr path) (as ++ [k]) c ∧ kind.accepts c ∧
    Outline.nodeAt F (as ++ [k]) = some (block m ls) ∧ Outline.kidsAt F as = some G ∧
    G.length = k + 1 ∧ c ∈ keysOf shownAs G

/-- Where the call inserts something, the place fits a `uint32_t`. -/
def PlaceFits (kind : Creation) (F : WadForest) (path : Bytes) : Prop :=
  ∀ as c site, Creates kind F path as c site → endPosition F site < 2 ^ 32

/-! ## One creation -/

theorem distinct_node (kind : Creation) (c : Bytes) :
    ∀ G, (kind.node c).kids = some G → Distinct shownAs G := by
  intro G hG
  cases kind with
  | file => cases hG
  | directory =>
    obtain rfl := Option.some.inj hG
    exact distinct_nil

/-- The name a creation puts into a directory is taken there only below a last map. -/
theorem Creates.taken_iff {kind : Creation} {F : WadForest} {path : Bytes} {as site : List Nat}
    {c : Bytes} {H : WadForest} (h : Creates kind F path as c site)
    (hH : Outline.kidsAt F site = some H) : c ∈ keysOf shownAs H ↔ TakenBeside kind F path := by
  refine ⟨fun hmem => ?_, ?_⟩
  · cases h.stops with
    | own hopen =>
      obtain ⟨H', hH', hnone⟩ := h.asks.missing
      obtain rfl := Option.some.inj (hH.symm.trans hH')
      exact absurd hmem (firstKid_eq_none_iff.mp hnone)
    | @lastMap _ k m ls G hm hG hk =>
      obtain rfl := Option.some.inj (hH.symm.trans hG)
      exact ⟨site, k, c, m, ls, H, h.asks, h.accepted, hm, hH, hk, hmem⟩
  · rintro ⟨as', k, c', m, ls, G, hask, -, hm, hG, hk, hmem⟩
    obtain ⟨has, rfl⟩ := h.asks.unique hask
    obtain rfl := h.stops.site_of_block has hm
    obtain rfl := Option.some.inj (hH.symm.trans hG)
    exact hmem

theorem TakenBeside.creates {kind : Creation} {F : WadForest} {path : Bytes}
    (h : TakenBeside kind F path) : ∃ as c site, Creates kind F path as c site := by
  obtain ⟨as, k, c, m, ls, G, hask, ha, hm, hG, hk, -⟩ := h
  refine ⟨as ++ [k], c, as, hask, .lastMap hm hG hk, ha, ?_⟩
  rintro rfl
  exact absurd (position_lt hm) (by simp)

/-- **One creation** in a forest of distinct siblings leaves them distinct exactly if
it does not put a name beside a last map that is taken there. -/
theorem distinct_create_iff {io : Pwrites} {w : Wad} {F : WadForest} (hF : WellFormed F)
    (hw : w.descriptors = flattenAll F) (hdistinct : Distinct shownAs F) {kind : Creation}
    {path : Bytes} (hfits : PlaceFits kind F path) :
    ∃ w' F', w.create io kind path = some w' ∧ WellFormed F' ∧ w'.descriptors = flattenAll F' ∧
      (Distinct shownAs F' ↔ ¬ TakenBeside kind F path) := by
  rcases create_cases hF hw kind path with ⟨as, c, site, hc, hw'⟩ | ⟨hnot, hw'⟩
  · have hopen := hc.stops.opens
    have h0 := hc.asks.name_noNul
    obtain ⟨H, hH⟩ := hopen.exists_kids
    refine ⟨_, Outline.appendAt F site (kind.node c), hw',
      .appendAt (wellFormed_node h0 hc.accepted) hF,
      insert_endPosition hw hopen (hfits as c site hc) _, ?_⟩
    rw [distinct_appendAt_iff hdistinct hopen hH (distinct_node kind c),
      shownAs_node h0 hc.asks.short hc.accepted, hc.taken_iff hH]
  · refine ⟨w, F, hw', hF, hw, iff_of_true hdistinct fun htaken => ?_⟩
    obtain ⟨as, c, site, hc⟩ := htaken.creates
    exact hnot as c site hc

/-! ## Runs of creations -/

/-- A call of `createFile` or `createDirectory`, with its `Pwrites`. -/
abbrev CreateCall : Type := Pwrites × Creation × Bytes

/-- The state after one creation. -/
def Wad.creation (w : Wad) (call : CreateCall) : Option Wad := w.create call.1 call.2.1 call.2.2

/-- The call does not ask for a name below a last map that is taken beside the map
(and what it inserts has a place that 32 bits can tell). -/
def LandsUntaken (w : Wad) (call : CreateCall) : Prop :=
  ∀ F, WellFormed F → w.descriptors = flattenAll F →
    ¬ TakenBeside call.2.1 F call.2.2 ∧ PlaceFits call.2.1 F call.2.2

/-- **Sibling names stay unique** in every run of creations that put no name beside
a last map that is taken there. -/
theorem siblings_stay_distinct {w : Wad} {F : WadForest} (hF : WellFormed F)
    (hw : w.descriptors = flattenAll F) (hdistinct : Distinct shownAs F)
    {calls : List CreateCall} (hcalls : Throughout Wad.creation LandsUntaken w calls) :
    ∃ w' F', run Wad.creation w calls = some w' ∧ WellFormed F' ∧
      w'.descriptors = flattenAll F' ∧ Distinct shownAs F' := by
  have hstep : ∀ (w : Wad) (call : CreateCall),
      (∃ F, WellFormed F ∧ w.descriptors = flattenAll F ∧ Distinct shownAs F) →
      LandsUntaken w call → ∃ w', w.creation call = some w' ∧
        ∃ F', WellFormed F' ∧ w'.descriptors = flattenAll F' ∧ Distinct shownAs F' := by
    rintro w call ⟨F, hF, hw, hdistinct⟩ hcall
    obtain ⟨htaken, hfits⟩ := hcall F hF hw
    obtain ⟨w', F', hcreate, hF', hw', hiff⟩ := distinct_create_iff hF hw hdistinct hfits
    exact ⟨w', hcreate, F', hF', hw', hiff.mpr htaken⟩
  obtain ⟨w', hrun, F', hF', hw', hdistinct'⟩ :=
    run_of_invariant hstep calls ⟨F, hF, hw, hdistinct⟩ hcalls
  exact ⟨w', F', hrun, hF', hw', hdistinct'⟩

/-! ### Beside a map that stands last -/

/-- A file `A`, and behind it the map `E1M1` with its lumps. -/
def besideMap : WadForest :=
  [item (emptyLump ['A']),
    block (emptyLump ['E', '1', 'M', '1'])
      [emptyLump ['T', 'H', 'I', 'N', 'G', 'S'],
        emptyLump ['L', 'I', 'N', 'E', 'D', 'E', 'F', 'S'],
        emptyLump ['S', 'I', 'D', 'E', 'D', 'E', 'F', 'S'],
        emptyLump ['V', 'E', 'R', 'T', 'E', 'X', 'E', 'S'],
        emptyLump ['S', 'E', 'G', 'S'],
        emptyLump ['S', 'S', 'E', 'C', 'T', 'O', 'R', 'S'],
        emptyLump ['N', 'O', 'D', 'E', 'S'],
        emptyLump ['S', 'E', 'C', 'T', 'O', 'R', 'S'],
        emptyLump ['R', 'E', 'J', 'E', 'C', 'T'],
        emptyLump ['B', 'L', 'O', 'C', 'K', 'M', 'A', 'P']]]

theorem wellFormed_besideMap : WellFormed besideMap :=
  .file (by decide) (.map (by decide) rfl (by decide) .nil)

theorem distinct_besideMap : Distinct shownAs besideMap := by
  refine distinct_cons.mpr ⟨by decide, nofun, distinct_cons.mpr ⟨by decide, ?_, distinct_nil⟩⟩
  intro G hG
  obtain rfl := Option.some.inj hG
  exact distinct_map_item (by decide)

/-- `createFile("/E1M1/B")` puts `B` beside the map, where there is none yet. -/
theorem siblings_stay_distinct_besideMap :
    ∃ w' F', run Wad.creation (tableOnly besideMap)
        [(allBytes, .file, chars ['/', 'E', '1', 'M', '1', '/', 'B'])] = some w' ∧
      WellFormed F' ∧ w'.descriptors = flattenAll F' ∧ Distinct shownAs F' := by
  refine siblings_stay_distinct wellFormed_besideMap rfl distinct_besideMap
    ⟨fun F hF hw => ?_, fun _ _ => trivial⟩
  obtain rfl := wellFormed_besideMap.flattenAll_inj hF hw
  refine ⟨?_, fun as c site hc => ?_⟩
  · rintro ⟨as, k, c, m, ls, G, hask, -, -, hG, -, hmem⟩
    have hB : AsksFor besideMap (cstr (chars ['/', 'E', '1', 'M', '1', '/', 'B'])) ([] ++ [1])
        (chars ['B']) :=
      ⟨by decide, by decide, ⟨[chars ['E', '1', 'M', '1']], by decide, by decide⟩,
        ⟨_, rfl, by decide⟩, by decide⟩
    obtain ⟨has, rfl⟩ := hB.unique hask
    obtain ⟨rfl, -⟩ := List.append_inj' has rfl
    obtain rfl := Option.some.inj hG
    revert hmem
    decide
  · exact Nat.lt_of_le_of_lt (drop_endPosition hc.stops.opens).1 (by decide)

/-- `createFile("/E1M1/A")` puts a second `A` beside the map. -/
theorem createFile_twin :
    ¬ ∀ (w : Wad) (F : WadForest), WellFormed F → w.descriptors = flattenAll F →
      (∀ d ∈ w.descriptors, ZeroPadded d.name) → Distinct shownAs F → ∀ calls : List CreateCall,
        ∃ w' F', run Wad.creation w calls = some w' ∧ WellFormed F' ∧
          w'.descriptors = flattenAll F' ∧ Distinct shownAs F' := by
  intro hall
  obtain ⟨w', F', hrun, hF', hw', hdistinct⟩ :=
    hall (tableOnly besideMap) besideMap wellFormed_besideMap rfl (by decide)
      distinct_besideMap [(allBytes, .file, belowLastMap)]
  have htwin : (run Wad.creation (tableOnly besideMap) [(allBytes, .file, belowLastMap)]).map
      Wad.descriptors = some (flattenAll (besideMap ++ [item (emptyLump ['A'])])) := by
    decide +kernel
  rw [hrun, Option.map_some, Option.some.injEq, hw'] at htwin
  have hwf : WellFormed (besideMap ++ [item (emptyLump ['A'])]) :=
    wellFormed_append.mpr ⟨wellFormed_besideMap, .file (by decide) .nil⟩
  obtain rfl := hF'.flattenAll_inj hwf htwin
  have hroots := hdistinct [] _ (kidsAt_nil _)
  revert hroots
  decide

end Cop4600
