import Cop4600.Runs
import Cop4600.PartialRuns

/-!
# The forest only grows

Over a run of mutator calls the table stays the text of a well-formed forest. A
creation adds one empty node at the end of the children of the root or of one
directory; an accepted write changes the offset and size of one file and nothing
else. Every node that was there stays where it was, so a map keeps its ten lumps
and a directory its two markers (`exists_treeRun`).

This needs every insertion point to fit `uint32_t index`, which it does as long
as the table holds fewer than `2 ^ 32` descriptors.
-/

namespace Cop4600

open Outline PartialRuns

/-! ## Well-formedness -/

/-- A change of one node that keeps it well-formed keeps the forest so. -/
theorem WellFormed.modify {F : WadForest} (hF : WellFormed F)
    {f : Outline WadDescriptor → Outline WadDescriptor} {k : Nat}
    (hf : ∀ t, F[k]? = some t → WellFormed [t] → WellFormed [f t]) : WellFormed (F.modify k f) := by
  rcases Nat.lt_or_ge k F.length with hk | hk
  · have ht : F[k]? = some F[k] := List.getElem?_eq_getElem hk
    rw [List.modify_eq_take_cons_drop hk]
    rw [← List.take_append_drop k F, List.drop_eq_getElem_cons hk] at hF
    obtain ⟨hbefore, hfrom⟩ := wellFormed_append.mp hF
    exact wellFormed_append.mpr ⟨hbefore, (hf _ ht hfrom.head).cons hfrom.tail⟩
  · rwa [List.modify_eq_self hk]

/-- A new last child does, if it is well-formed itself. -/
theorem WellFormed.appendAt {n : Outline WadDescriptor} (hn : WellFormed [n]) :
    ∀ {as : List Nat} {F : WadForest}, WellFormed F → WellFormed (Outline.appendAt F as n) := by
  intro as
  induction as with
  | nil =>
    intro F hF
    rw [appendAt_nil]
    exact wellFormed_append.mpr ⟨hF, hn⟩
  | cons k as ih =>
    intro F hF
    rw [appendAt_cons]
    refine hF.modify fun t _ ht => ?_
    cases ht with
    | file hd _ => exact .file hd .nil
    | map hm hten hls _ => exact .map hm hten hls .nil
    | dir ho hG hc _ => exact .dir ho (ih hG) hc .nil

/-- A change of a descriptor does if the name stays. -/
theorem WellFormed.updateAt {f : WadDescriptor → WadDescriptor} (hf : ∀ d, (f d).name = d.name) :
    ∀ {as : List Nat} {F : WadForest}, WellFormed F → WellFormed (Outline.updateAt F as f) := by
  intro as
  induction as with
  | nil =>
    intro F hF
    rwa [updateAt_nil]
  | cons k as ih =>
    intro F hF
    rw [updateAt_cons]
    refine hF.modify fun t _ ht => ?_
    cases ht with
    | @file d _ hd _ =>
      rw [updateNode]
      split
      · exact .file (by rwa [hf]) .nil
      · exact .file hd .nil
    | @map m ls _ hm hten hls _ =>
      rw [updateNode]
      refine .map hm (by rwa [length_updateItems]) (fun l hl => ?_) .nil
      obtain ⟨j, hj⟩ := List.getElem?_of_mem hl
      rw [updateItems_getElem?] at hj
      split at hj
      · obtain ⟨l', hl', rfl⟩ := Option.map_eq_some_iff.mp hj
        rw [hf]
        exact hls l' (List.mem_of_getElem? hl')
      · exact hls l (List.mem_of_getElem? hj)
    | dir ho hG hc _ => exact .dir ho (ih hG) hc .nil

/-! ## One call -/

/-- What a call makes of the forest. -/
inductive ForestStep (F : WadForest) : WadOp → WadForest → Prop where
  | unchanged {op : WadOp} : ForestStep F op F
  /-- one empty file or directory, last below the root or below one directory -/
  | added {kind : Creation} {path c : Bytes} {as : List Nat} {n : Outline WadDescriptor}
      (hopen : Opens F as) (hn : NewChild c n) : ForestStep F (kind.op path) (appendAt F as n)
  /-- another offset and size for one file -/
  | rewritten {path buffer : Bytes} {length offset : Int32} {as : List Nat} {d : WadDescriptor}
      {f : WadDescriptor → WadDescriptor} (hfile : Outline.nodeAt F as = some (item d))
      (hname : ∀ d, (f d).name = d.name) :
      ForestStep F (.writeToFile path buffer length offset) (updateAt F as f)

/-- Every step leaves a well-formed forest. -/
theorem ForestStep.wellFormed {F F' : WadForest} {op : WadOp} (h : ForestStep F op F')
    (hF : WellFormed F) : WellFormed F' := by
  cases h with
  | unchanged => exact hF
  | added _ hn => exact hn.wellFormed.appendAt hF
  | rewritten _ hname => exact .updateAt hname hF

/-- Every node stays at its address and keeps its name and its children. -/
theorem ForestStep.extends {F F' : WadForest} {op : WadOp} (h : ForestStep F op F') :
    Extends WadDescriptor.name F F' := by
  cases h with
  | unchanged => exact extends_refl F
  | added _ _ => exact extends_appendAt _ _ F
  | rewritten _ hname => exact extends_updateAt hname _ F

/-- The descriptors behind the old nodes keep their names and their order. -/
theorem ForestStep.sublist {F F' : WadForest} {op : WadOp} (h : ForestStep F op F') :
    ((flattenAll F).map WadDescriptor.name).Sublist ((flattenAll F').map WadDescriptor.name) := by
  cases h with
  | unchanged => exact List.Sublist.refl _
  | @added kind path c as n hopen hn =>
    rw [flattenAll_appendAt n hopen]
    conv_lhs => rw [← List.take_append_drop (endPosition F as) (flattenAll F)]
    refine List.Sublist.map _ (List.Sublist.append_left ?_ _)
    exact List.sublist_append_right _ _
  | @rewritten path buffer length offset as d f hfile hname =>
    have hsame : ((flattenAll F).modify (position F as) f).map WadDescriptor.name =
        (flattenAll F).map WadDescriptor.name := by
      refine List.ext_getElem? fun i => ?_
      rw [List.getElem?_map, List.getElem?_map, List.getElem?_modify]
      rcases (flattenAll F)[i]? with _ | d
      · rfl
      · by_cases hi : position F as = i <;> simp [hi, hname]
    rw [flattenAll_updateAt f hfile, hsame]

/-- The descriptor an append leaves for its file. -/
def appended (start : UInt32) (length : Int32) (d : WadDescriptor) : WadDescriptor :=
  { d with offset := start, size := d.size + length.toUInt32 }

/-- The table after an append is the text of the forest with the file's new descriptor. -/
theorem append_position {io : Pwrites} {w : Wad} {F : WadForest}
    (hw : w.descriptors = flattenAll F) {as : List Nat} {d : WadDescriptor}
    (hfile : Outline.nodeAt F as = some (item d)) (start : UInt32) (buffer : Bytes)
    (length : Int32) :
    (w.append io (position F as) start buffer length).descriptors =
      flattenAll (updateAt F as (appended start length)) := by
  rw [flattenAll_updateAt _ hfile, ← hw]
  rfl

/-- **One call, in the forest.** -/
theorem Stepped.forestStep {F : WadForest} {w w' : Wad}
    (hw : w.descriptors = flattenAll F) {io : Pwrites} {op : WadOp} {r : Int}
    (h : Stepped F w io op w' r) (hfit : w.descriptors.length < 2 ^ 32) :
    ∃ F', ForestStep F op F' ∧ w'.descriptors = flattenAll F' := by
  cases h with
  | refused _ => exact ⟨F, .unchanged, hw⟩
  | @created kind path as c site hc =>
    have hopen := hc.stops.opens
    have hle := (drop_endPosition hopen).1
    rw [← hw] at hle
    exact ⟨_, .added hopen (newChild_node hc.asks.name_noNul hc.asks.short hc.accepted),
      insert_endPosition hw hopen (by omega) _⟩
  | @written path buffer length offset as d hfile _ _ =>
    exact ⟨updateAt F as (appended (startOf w d) length), .rewritten hfile.file fun _ => rfl,
      append_position hw hfile.file _ _ _⟩

/-! ## Runs -/

/-- A sequence of calls, each with its own `Pwrites`. -/
abbrev Calls : Type := List (Pwrites × WadOp)

/-- The state after one call. -/
def Wad.call (w : Wad) (call : Pwrites × WadOp) : Option Wad := (w.step call.1 call.2).map Prod.fst

/-- A call without what it returns. -/
theorem Wad.call_eq {w w' : Wad} {io : Pwrites} {op : WadOp} {r : Int}
    (h : w.step io op = some (w', r)) : w.call (io, op) = some w' := by
  rw [Wad.call, h, Option.map_some]

/-- The calls, one after the other. -/
abbrev Wad.run (w : Wad) (calls : Calls) : Option Wad := PartialRuns.run Wad.call w calls

/-- Every call of the run is made in a state that satisfies `P`. -/
abbrev Wad.Throughout (P : Wad → WadOp → Prop) (w : Wad) (calls : Calls) : Prop :=
  PartialRuns.Throughout Wad.call (fun w call => P w call.2) w calls

/-- A run of calls together with the forests behind the tables. -/
inductive TreeRun : Wad → WadForest → Calls → Wad → WadForest → Prop where
  | nil {w : Wad} {F : WadForest} (hw : w.descriptors = flattenAll F) : TreeRun w F [] w F
  | cons {w w₁ w' : Wad} {F F₁ F' : WadForest} {io : Pwrites} {op : WadOp} {r : Int}
      {calls : Calls} (hw : w.descriptors = flattenAll F) (hstep : w.step io op = some (w₁, r))
      (hforest : ForestStep F op F₁) (hrest : TreeRun w₁ F₁ calls w' F') :
      TreeRun w F ((io, op) :: calls) w' F'

/-- The forest is well-formed after every run. -/
theorem TreeRun.wellFormed {w w' : Wad} {F F' : WadForest} {calls : Calls}
    (h : TreeRun w F calls w' F') (hF : WellFormed F) : WellFormed F' := by
  induction h with
  | nil _ => exact hF
  | cons _ _ hforest _ ih => exact ih (hforest.wellFormed hF)

/-- After every run the forest extends the one before. -/
theorem TreeRun.extends {w w' : Wad} {F F' : WadForest} {calls : Calls}
    (h : TreeRun w F calls w' F') : Extends WadDescriptor.name F F' := by
  induction h with
  | nil _ => exact extends_refl _
  | cons _ _ hforest _ ih => exact extends_trans hforest.extends ih

/-- All names stand in the table in their order, with new ones between them. -/
theorem TreeRun.sublist {w w' : Wad} {F F' : WadForest} {calls : Calls}
    (h : TreeRun w F calls w' F') :
    ((flattenAll F).map WadDescriptor.name).Sublist ((flattenAll F').map WadDescriptor.name) := by
  induction h with
  | nil _ => exact List.Sublist.refl _
  | cons _ _ hforest _ ih => exact hforest.sublist.trans ih

/-- A run of the forest is a run of the WAD. -/
theorem TreeRun.run_eq {w w' : Wad} {F F' : WadForest} {calls : Calls}
    (h : TreeRun w F calls w' F') : w.run calls = some w' ∧ w'.descriptors = flattenAll F' := by
  induction h with
  | nil hw => exact ⟨rfl, hw⟩
  | cons _ hstep _ _ ih => exact ⟨by rw [Wad.run, run, Wad.call_eq hstep]; exact ih.1, ih.2⟩

/-- A map that keeps its name in a well-formed forest keeps its lumps. -/
theorem map_of_extends {F F' : WadForest} (hF : WellFormed F) (hF' : WellFormed F')
    (h : Extends WadDescriptor.name F F') {as : List Nat} {m : WadDescriptor}
    {ls : List WadDescriptor} (hm : Outline.nodeAt F as = some (block m ls)) :
    ∃ m' ls', Outline.nodeAt F' as = some (block m' ls') ∧ m'.name = m.name ∧
      ls'.map WadDescriptor.name = ls.map WadDescriptor.name := by
  obtain ⟨t, ht, hname, hkids⟩ := h.nodeAt hm
  have hmap : isMap t.label.name ∧ ls.length = 10 := by
    rw [hname]
    cases hF.nodeAt hm
    exact ⟨by assumption, by assumption⟩
  obtain ⟨G', hG', hsame⟩ := hkids _ rfl
  have hwf := hF'.nodeAt ht
  cases hwf with
  | file hd _ => cases hG'
  | dir ho _ _ _ =>
    have hs := isStart_of_isMap hmap.1
    rw [label_group, ho] at hs
    cases hs
  | @map m' ls' _ hm' hten _ _ =>
    refine ⟨m', ls', ht, hname, ?_⟩
    obtain rfl := Option.some.inj hG'
    refine List.ext_getElem (by simp [hten, hmap.2]) fun i h₁ h₂ => ?_
    have hi : i < ls.length := by simpa using h₂
    obtain ⟨t', ht', hlab⟩ := hsame i (item ls[i]) (by simp [hi])
    rw [List.getElem?_map] at ht'
    obtain ⟨l, hl, rfl⟩ := Option.map_eq_some_iff.mp ht'
    obtain ⟨hi', rfl⟩ := List.getElem?_eq_some_iff.mp hl
    simpa using hlab

/-- The insertion points of the next call fit a `uint32_t`. -/
def TableFits (w : Wad) (_ : WadOp) : Prop := w.descriptors.length < 2 ^ 32

instance (w : Wad) (op : WadOp) : Decidable (TableFits w op) :=
  inferInstanceAs (Decidable (_ < _))

/-- Every run of calls is accompanied by a run of forests. -/
theorem exists_treeRun {calls : Calls} : ∀ {w : Wad} {F : WadForest}, WellFormed F →
    w.descriptors = flattenAll F → w.Throughout TableFits calls →
    ∃ w' F', TreeRun w F calls w' F' := by
  induction calls with
  | nil => intro w F _ hw _; exact ⟨w, F, .nil hw⟩
  | cons call calls ih =>
    obtain ⟨io, op⟩ := call
    intro w F hF hw hfits
    obtain ⟨hfit, hrest⟩ := hfits
    obtain ⟨w₁, r, hstep, hcase⟩ := step_cases hF hw io op
    obtain ⟨F₁, hforest, hw₁⟩ := hcase.forestStep hw hfit
    obtain ⟨w', F', hrun⟩ := ih (hforest.wellFormed hF) hw₁ (hrest _ (Wad.call_eq hstep))
    exact ⟨w', F', .cons hw hstep hforest hrun⟩

/-- **Well-formedness is an invariant of the mutators.** Every call of a run
returns; call by call the forest is unchanged, has one more empty node at the end
of the root's or of one directory's children, or has another offset and size for
one file. In the end it is well formed, every node is where it was, no map has
gained or lost a lump, and the old names stand in their old order. -/
theorem run_keeps_forest {w : Wad} {F : WadForest} (hF : WellFormed F)
    (hw : w.descriptors = flattenAll F) {calls : Calls} (hfits : w.Throughout TableFits calls) :
    ∃ w' F', TreeRun w F calls w' F' ∧ w.run calls = some w' ∧ WellFormed F' ∧
      w'.descriptors = flattenAll F' ∧ Extends WadDescriptor.name F F' ∧
      (∀ as m ls, Outline.nodeAt F as = some (block m ls) →
        ∃ m' ls', Outline.nodeAt F' as = some (block m' ls') ∧ m'.name = m.name ∧
          ls'.map WadDescriptor.name = ls.map WadDescriptor.name) ∧
      (w.descriptors.map WadDescriptor.name).Sublist (w'.descriptors.map WadDescriptor.name) := by
  obtain ⟨w', F', hrun⟩ := exists_treeRun hF hw hfits
  obtain ⟨hrun', hw'⟩ := hrun.run_eq
  have hF' := hrun.wellFormed hF
  refine ⟨w', F', hrun, hrun', hF', hw', hrun.extends, fun as m ls hm => ?_, ?_⟩
  · exact map_of_extends hF hF' hrun.extends hm
  · rw [hw, hw']
    exact hrun.sublist

/-! ### Calls that change the table otherwise -/

/-- The table becomes that of the same forest with one more empty node. -/
def GrowsByOne (F : WadForest) (w' : Wad) : Prop :=
  ∃ as c n, Opens F as ∧ NewChild c n ∧ w'.descriptors = flattenAll (appendAt F as n)

/-- A WAD of this many empty lumps `A`. -/
def lumps (n : Nat) : WadForest := List.replicate n (item (emptyLump ['A']))

/-- Files alone make a well-formed forest. -/
theorem wellFormed_lumps (n : Nat) : WellFormed (lumps n) := by
  induction n with
  | zero => exact .nil
  | succ n ih => exact .file (by decide) ih

/-- The table has a descriptor for each of them. -/
theorem flattenAll_lumps (n : Nat) : (flattenAll (lumps n)).length = n := by
  induction n with
  | zero => rfl
  | succ n ih => rw [lumps, List.replicate_succ, ← lumps]; simp [ih]

/-- In a forest of files only the root can take in a new one. -/
theorem opens_lumps {n : Nat} {as : List Nat} (h : Opens (lumps n) as) : as = [] := by
  rcases as with _ | ⟨k, as⟩
  · rfl
  · obtain ⟨o, cs, c, hk, -⟩ := opens_cons.mp h
    rw [lumps, List.getElem?_replicate] at hk
    split at hk <;> cases hk

/-- The path `/B`. -/
def besideLumps : Bytes := chars ['/', 'B']

/-- The path `/B` asks for a new file there. -/
theorem asksFor_besideLumps (n : Nat) : AsksFor (lumps n) besideLumps [] (chars ['B']) where
  slashed := by decide
  noNul := by decide
  parent := ⟨[], by decide, rfl⟩
  missing := by
    refine ⟨lumps n, kidsAt_nil _, List.findIdx?_eq_none_iff.mpr fun t ht => ?_⟩
    rw [List.eq_of_mem_replicate ht]
    decide
  short := by decide

/-- A new file belongs behind all the others. -/
theorem endPosition_lumps (n : Nat) : endPosition (lumps n) [] = n := by
  rw [endPosition_of_kidsAt (kidsAt_nil _), flattenAll_lumps, kidsPosition_nil, Nat.zero_add]

/-- `createFile("/B")` beside the lumps. -/
theorem createFile_lumps {n : Nat} (hn : n ≠ 0) :
    (tableOnly (lumps n)).step allBytes (.createFile besideLumps) =
      some ((tableOnly (lumps n)).insert allBytes n (Creation.file.node (chars ['B'])).flatten,
        0) := by
  have hask := asksFor_besideLumps n
  have hcstr : cstr besideLumps = besideLumps := by decide
  rcases create_cases (wellFormed_lumps n) (w := tableOnly (lumps n)) rfl .file besideLumps with
    ⟨as, c, site, hc, hw'⟩ | ⟨hnot, -⟩
  · obtain rfl := opens_lumps hc.stops.opens
    have hasks := hc.asks
    rw [hcstr] at hasks
    obtain ⟨-, rfl⟩ := hask.unique hasks
    rw [endPosition_lumps] at hw'
    rw [← Creation.op, step_create, hw', Option.map_some]
  · refine absurd ⟨by rwa [hcstr], .own (opens_nil _), by decide, fun h => hn ?_⟩
      (hnot [] (chars ['B']) [])
    rw [← flattenAll_lumps n, h]
    rfl

/-- In a table of `2 ^ 32` lumps or more, it does not put `B` at the end. -/
theorem createFile_truncated {n : Nat} (hn : 2 ^ 32 ≤ n) :
    ∃ w', (tableOnly (lumps n)).step allBytes (.createFile besideLumps) = some (w', 0) ∧
      w'.descriptors ≠ (tableOnly (lumps n)).descriptors ∧ ¬ GrowsByOne (lumps n) w' := by
  refine ⟨_, createFile_lumps (by omega), insert_ne _, ?_⟩
  rintro ⟨as, c, n', hopen, -, heq⟩
  obtain rfl := opens_lumps hopen
  obtain ⟨H, hH, hk⟩ := (asksFor_besideLumps n).missing
  have hinsert : ((tableOnly (lumps n)).insert allBytes (endPosition (lumps n) [])
      (Creation.file.node (chars ['B'])).flatten).descriptors =
        flattenAll (appendAt (lumps n) [] n') := by
    rw [endPosition_lumps]
    exact heq
  refine insert_truncated (wellFormed_lumps n) rfl (opens_nil _) hH hk (by decide) (by decide)
    (by decide) ?_ n' hinsert
  rwa [endPosition_lumps]

/-- A table that has grown is longer. -/
theorem GrowsByOne.length_lt {F : WadForest} {w' : Wad} (h : GrowsByOne F w') :
    (flattenAll F).length < w'.descriptors.length := by
  obtain ⟨as, c, n, hopen, -, hw'⟩ := h
  have hle := (drop_endPosition hopen).1
  have := n.flatten_length_pos
  rw [hw', flattenAll_appendAt n hopen]
  simp only [List.length_append, List.length_take, List.length_drop]
  omega

/-- A write of one byte to the file `/A` changes the table without a new node, and
so does a creation in a table of `2 ^ 32` lumps. -/
theorem changes_without_growth :
    (∃ w', (tableOnly (lumps 1)).step allBytes (.writeToFile (chars ['/', 'A']) [7] 1 0) =
        some (w', 1) ∧
      w'.descriptors ≠ (tableOnly (lumps 1)).descriptors ∧ ¬ GrowsByOne (lumps 1) w') ∧
    ∃ w', (tableOnly (lumps (2 ^ 32))).step allBytes (.createFile besideLumps) = some (w', 0) ∧
      w'.descriptors ≠ (tableOnly (lumps (2 ^ 32))).descriptors ∧
      ¬ GrowsByOne (lumps (2 ^ 32)) w' := by
  refine ⟨⟨(tableOnly (lumps 1)).append allBytes 0 12 [7] 1, by decide +kernel, by decide +kernel,
    fun h => ?_⟩, createFile_truncated (Nat.le_refl _)⟩
  exact absurd h.length_lt (by decide +kernel)

/-- A file is created and written, and the forest has it. -/
theorem run_keeps_forest_sample :
    ∃ w' F', TreeRun (tableOnly sampleForest) sampleForest
        [(allBytes, .createFile (chars ['/', 'G', 'l', '/', 'b'])),
          (allBytes, .writeToFile (chars ['/', 'G', 'l', '/', 'b']) [7] 1 0)] w' F' ∧
      w'.descriptors = flattenAll F' := by
  obtain ⟨w', F', hrun, -, -, hw', -⟩ :=
    run_keeps_forest wellFormed_sampleForest (w := tableOnly sampleForest) rfl
      (by decide +kernel : Wad.Throughout TableFits _
        [(allBytes, .createFile (chars ['/', 'G', 'l', '/', 'b'])),
          (allBytes, .writeToFile (chars ['/', 'G', 'l', '/', 'b']) [7] 1 0)])
  exact ⟨w', F', hrun, hw'⟩

end Cop4600
