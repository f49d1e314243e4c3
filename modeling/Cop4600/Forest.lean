import Cop4600.Outline
import Cop4600.Turns

/-!
# The forest inside a descriptor table

A well-nested table is the flat text of a forest of files (items), ten-lump maps
(blocks) and `_START`/`_END` directories (groups). On such a table the pointer
walks of `Wad.cpp` are walks over siblings: `skip` steps over exactly one node
(`skip_node`), and each of the three loops of `WAD_ITER` visits the children of
one directory in order (`wadIter_root`, `wadIter_entry`). The table determines the
forest (`WellFormed.flattenAll_inj`).
-/

namespace Cop4600

open Outline

universe u

/-- A forest of WAD nodes. -/
abbrev WadForest : Type := List (Outline WadDescriptor)

/-- The forest's markers are markers and its lumps are lumps: a file has none of
the marker names, a map owns exactly ten files, a directory opens with `_START`
and closes with `_END`. -/
inductive WellFormed : WadForest → Prop where
  | nil : WellFormed []
  | file {d : WadDescriptor} {F : WadForest} (hd : isLump d.name) (hF : WellFormed F) :
      WellFormed (item d :: F)
  | map {m : WadDescriptor} {ls : List WadDescriptor} {F : WadForest} (hm : isMap m.name)
      (hten : ls.length = 10) (hls : ∀ l ∈ ls, isLump l.name) (hF : WellFormed F) :
      WellFormed (block m ls :: F)
  | dir {o c : WadDescriptor} {G F : WadForest} (ho : isStart o.name) (hG : WellFormed G)
      (hc : isEnd c.name) (hF : WellFormed F) : WellFormed (group o G c :: F)

/-- Behind its first node a well-formed forest is one. -/
theorem WellFormed.tail {t : Outline WadDescriptor} {F : WadForest} (h : WellFormed (t :: F)) :
    WellFormed F := by
  cases h <;> assumption

/-- The first node is one alone. -/
theorem WellFormed.head {t : Outline WadDescriptor} {F : WadForest} (h : WellFormed (t :: F)) :
    WellFormed [t] := by
  cases h with
  | file hd _ => exact .file hd .nil
  | map hm hten hls _ => exact .map hm hten hls .nil
  | dir ho hG hc _ => exact .dir ho hG hc .nil

/-- A well-formed node in front of a well-formed forest makes one. -/
theorem WellFormed.cons {t : Outline WadDescriptor} {F : WadForest} (ht : WellFormed [t])
    (hF : WellFormed F) : WellFormed (t :: F) := by
  cases ht with
  | file hd _ => exact .file hd hF
  | map hm hten hls _ => exact .map hm hten hls hF
  | dir ho hG hc _ => exact .dir ho hG hc hF

/-- Two forests side by side are well-formed if both are. -/
theorem wellFormed_append {F G : WadForest} :
    WellFormed (F ++ G) ↔ WellFormed F ∧ WellFormed G := by
  induction F with
  | nil => simp [WellFormed.nil]
  | cons t F ih =>
    rw [List.cons_append]
    refine ⟨?_, ?_⟩
    · intro h
      obtain ⟨hF, hG⟩ := ih.mp h.tail
      exact ⟨h.head.cons hF, hG⟩
    · rintro ⟨hF, hG⟩
      exact hF.head.cons (ih.mpr ⟨hF.tail, hG⟩)

/-- Each node is well-formed by itself. -/
theorem WellFormed.getElem? {F : WadForest} (h : WellFormed F) {k : Nat}
    {t : Outline WadDescriptor} (ht : F[k]? = some t) : WellFormed [t] := by
  obtain ⟨A, B, rfl⟩ := List.append_of_mem (List.mem_of_getElem? ht)
  exact (wellFormed_append.mp h).2.head

/-- A run of lumps is a forest of files. -/
theorem wellFormed_items {ls : List WadDescriptor} (h : ∀ l ∈ ls, isLump l.name) :
    WellFormed (ls.map item) := by
  induction ls with
  | nil => exact .nil
  | cons l ls ih =>
    exact .file (h l (List.mem_cons_self ..)) (ih fun l' hl' => h l' (List.mem_cons_of_mem _ hl'))

/-- The children of a well-formed node are well-formed. -/
theorem WellFormed.kids {t : Outline WadDescriptor} {F G : WadForest} (h : WellFormed (t :: F))
    (hG : t.kids = some G) : WellFormed G := by
  cases h with
  | file _ _ => cases hG
  | map _ _ hls _ =>
    obtain rfl := Option.some.inj hG
    exact wellFormed_items hls
  | dir _ hG' _ _ =>
    obtain rfl := Option.some.inj hG
    exact hG'

/-- A node's label is never an `_END` marker. -/
theorem WellFormed.label_not_end {t : Outline WadDescriptor} {F : WadForest}
    (h : WellFormed (t :: F)) : isEnd t.label.name = false := by
  cases h with
  | file hd _ => exact (isLump_iff.mp hd).2.2
  | map hm _ _ _ => exact isEnd_of_isMap hm
  | dir ho _ _ _ => exact isEnd_of_isStart ho

/-! ## `skip` steps over one node -/

/-- The first of what is left at an index stands there. -/
theorem getElem?_of_drop {α : Type u} {ds : List α} {i : Nat} {d : α} {rest : List α}
    (h : ds.drop i = d :: rest) : ds[i]? = some d := by
  rw [← List.head?_drop, h, List.head?_cons]

/-- Behind what is left in front stands the rest. -/
theorem drop_add_of_drop {α : Type u} {ds : List α} {i : Nat} {xs rest : List α}
    (h : ds.drop i = xs ++ rest) : ds.drop (i + xs.length) = rest := by
  rw [← List.drop_drop, h, List.drop_left]

/-- Behind one element, too. -/
theorem drop_succ_of_drop {α : Type u} {ds : List α} {i : Nat} {x : α} {rest : List α}
    (h : ds.drop i = x :: rest) : ds.drop (i + 1) = rest := by
  rw [← List.drop_drop, h, List.drop_one, List.tail_cons]

/-- **Inside an open directory**, the turns over a well-formed forest stay within its
text. -/
theorem skipTurns_forest {ds : List WadDescriptor} {F : WadForest} (hF : WellFormed F) :
    ∀ {i : Nat} {depth : Int} {rest : List WadDescriptor}, 0 < depth →
      ds.drop i = flattenAll F ++ rest → PassesOver ds i (i + (flattenAll F).length) depth := by
  induction hF with
  | nil =>
    intro i depth rest _ _
    exact passesOver_refl ds i depth
  | @file d F hd hF ih =>
    intro i depth rest hpos h
    have h₀ : ds.drop i = d :: (flattenAll F ++ rest) := by simpa using h
    have hturn := passesOver_turn (getElem?_of_drop h₀) (skipTurn_lump hd) hpos
    have hlen : i + (flattenAll (item d :: F)).length = i + 0 + 1 + (flattenAll F).length := by
      simp
      omega
    rw [hlen]
    exact hturn.trans (ih hpos (drop_succ_of_drop h₀)) (by omega) (by omega)
  | @map m ls F hm hten hls hF ih =>
    -- one turn jumps over the whole map
    intro i depth rest hpos h
    have h₀ : ds.drop i = (m :: ls) ++ (flattenAll F ++ rest) := by simpa using h
    have h₁ := drop_add_of_drop h₀
    rw [List.length_cons, hten] at h₁
    have hturn := passesOver_turn (getElem?_of_drop h₀) (skipTurn_map hm) hpos
    have hlen : i + (flattenAll (block m ls :: F)).length =
        i + 10 + 1 + (flattenAll F).length := by
      simp [hten]
      omega
    rw [hlen]
    exact hturn.trans (ih hpos h₁) (by omega) (by omega)
  | @dir o c G F ho hG hc hF ihG ihF =>
    intro i depth rest hpos h
    have h₀ : ds.drop i = o :: (flattenAll G ++ (c :: (flattenAll F ++ rest))) := by simpa using h
    have h₁ := drop_succ_of_drop h₀
    have h₂ := drop_add_of_drop h₁
    have hgroup := passesOver_group (getElem?_of_drop h₀) ho (getElem?_of_drop h₂) hc (by omega)
      hpos (ihG (by omega) h₁)
    have hlen : i + (flattenAll (group o G c :: F)).length =
        i + 1 + (flattenAll G).length + 1 + (flattenAll F).length := by
      simp
      omega
    rw [hlen]
    exact hgroup.trans (ihF hpos (drop_succ_of_drop h₂)) (by omega) (by omega)

/-- **The turns of a skip** that starts at a node stay inside the node, whatever stands
behind it. -/
theorem skipTurns_node {ds : List WadDescriptor} {t : Outline WadDescriptor} {F : WadForest}
    (hF : WellFormed (t :: F)) {i : Nat} {rest : List WadDescriptor}
    (h : ds.drop i = t.flatten ++ rest) :
    ∃ turns, Within i (i + t.flatten.length) 0 turns ∧
      skipTurns ds i 0 = (turns, some (i + t.flatten.length)) := by
  cases hF with
  | @file d _ hd _ =>
    have h₀ : ds.drop i = d :: rest := by simpa using h
    refine ⟨[(i, 0)], within_singleton.mpr ⟨Nat.le_refl i, by simp, Int.le_refl 0⟩, ?_⟩
    rw [skipTurns_some (getElem?_of_drop h₀), skipTurn_lump hd, if_pos (by decide)]
    simp
  | @map m ls _ hm hten hls _ =>
    have h₀ : ds.drop i = m :: (ls ++ rest) := by simpa using h
    refine ⟨[(i, 0)], within_singleton.mpr ⟨Nat.le_refl i, by simp, Int.le_refl 0⟩, ?_⟩
    rw [skipTurns_some (getElem?_of_drop h₀), skipTurn_map hm, if_pos (by decide)]
    simp [hten]
  | @dir o c G _ ho hG hc _ =>
    have h₀ : ds.drop i = o :: (flattenAll G ++ (c :: rest)) := by simpa using h
    have h₁ := drop_succ_of_drop h₀
    have h₂ := drop_add_of_drop h₁
    have hpass : PassesOver ds (i + 1) (i + 1 + (flattenAll G).length) 1 :=
      skipTurns_forest hG (by decide) h₁
    obtain ⟨turns, hin, heq⟩ := hpass
    have hlen : i + (group o G c).flatten.length = i + 1 + (flattenAll G).length + 1 := by
      simp
      omega
    rw [hlen]
    refine ⟨(i, 1) :: (turns ++ [(i + 1 + (flattenAll G).length, 0)]), ?_, ?_⟩
    · rw [← List.singleton_append]
      refine (within_singleton.mpr ⟨Nat.le_refl i, by omega, by decide⟩).append
        ((hin.mono (by omega) (by omega) (by decide)).append ?_)
      exact within_singleton.mpr ⟨by omega, Nat.lt_succ_self _, by decide⟩
    · rw [skipTurns_some (getElem?_of_drop h₀), skipTurn_start ho, if_neg (by decide)]
      simp only [Nat.add_zero, Int.zero_add]
      rw [heq, skipTurns_some (getElem?_of_drop h₂), skipTurn_end hc, if_pos (by decide)]
      rfl

/-- **`skip` steps over exactly one node.** -/
theorem skip_node {ds : List WadDescriptor} {t : Outline WadDescriptor} {F : WadForest}
    (hF : WellFormed (t :: F)) {i : Nat} {rest : List WadDescriptor}
    (h : ds.drop i = t.flatten ++ rest) : skip ds i = some (i + t.flatten.length) := by
  obtain ⟨turns, -, heq⟩ := skipTurns_node hF h
  rw [skip, ← skipTurns_snd, heq]

/-! ## The table determines the forest -/

/-- What can stand behind the text of a forest: nothing, or an `_END` name. -/
def Closing (rest : List WadDescriptor) : Prop := ∀ d ∈ rest.head?, isEnd d.name

/-- An `_END` name closes whatever is in front of it. -/
theorem closing_cons {c : WadDescriptor} {rest : List WadDescriptor} (hc : isEnd c.name) :
    Closing (c :: rest) := by
  intro d hd
  obtain rfl := Option.some.inj hd
  exact hc

/-- Nothing that begins a node closes the forest in front of it. -/
theorem WellFormed.ne_closing {t : Outline WadDescriptor} {F : WadForest}
    (h : WellFormed (t :: F)) {R R' : List WadDescriptor} (hR' : Closing R') :
    flattenAll (t :: F) ++ R ≠ R' := by
  rintro rfl
  obtain ⟨rest, hrest⟩ := t.flatten_eq_cons
  have hend := hR' t.label (by rw [flattenAll_cons, hrest]; rfl)
  rw [h.label_not_end] at hend
  cases hend

/-- Two forests whose texts agree up to where something closes them are the same. -/
theorem WellFormed.split_unique {F : WadForest} (hF : WellFormed F) :
    ∀ {F' : WadForest} {R R' : List WadDescriptor}, WellFormed F' → Closing R → Closing R' →
      flattenAll F ++ R = flattenAll F' ++ R' → F = F' ∧ R = R' := by
  induction hF with
  | nil =>
    intro F' R R' hF' hR _ heq
    cases F' with
    | nil => exact ⟨rfl, heq⟩
    | cons t F' => exact absurd heq.symm (hF'.ne_closing hR)
  | @file d F hd hF ih =>
    intro F' R R' hF' hR hR' heq
    cases hF' with
    | nil => exact absurd heq ((WellFormed.file hd hF).ne_closing hR')
    | file hd' hF' =>
      obtain ⟨rfl, hrest⟩ := List.cons.inj (by simpa using heq)
      obtain ⟨rfl, rfl⟩ := ih hF' hR hR' hrest
      exact ⟨rfl, rfl⟩
    | map hm _ _ _ =>
      obtain ⟨rfl, -⟩ := List.cons.inj (by simpa using heq)
      simp [isLump, hm] at hd
    | dir ho _ _ _ =>
      obtain ⟨rfl, -⟩ := List.cons.inj (by simpa using heq)
      simp [isLump, ho] at hd
  | @map m ls F hm hten hls hF ih =>
    intro F' R R' hF' hR hR' heq
    cases hF' with
    | nil => exact absurd heq ((WellFormed.map hm hten hls hF).ne_closing hR')
    | file hd' _ =>
      obtain ⟨rfl, -⟩ := List.cons.inj (by simpa using heq)
      simp [isLump, hm] at hd'
    | map _ hten' _ hF' =>
      obtain ⟨rfl, hrest⟩ := List.cons.inj (by simpa using heq)
      obtain ⟨rfl, hbehind⟩ := List.append_inj hrest (hten.trans hten'.symm)
      obtain ⟨rfl, rfl⟩ := ih hF' hR hR' hbehind
      exact ⟨rfl, rfl⟩
    | dir ho _ _ _ =>
      obtain ⟨rfl, -⟩ := List.cons.inj (by simpa using heq)
      simp [isStart_of_isMap hm] at ho
  | @dir o c G F ho hG hc hF ihG ihF =>
    intro F' R R' hF' hR hR' heq
    cases hF' with
    | nil => exact absurd heq ((WellFormed.dir ho hG hc hF).ne_closing hR')
    | file hd' _ =>
      obtain ⟨rfl, -⟩ := List.cons.inj (by simpa using heq)
      simp [isLump, ho] at hd'
    | map hm _ _ _ =>
      obtain ⟨rfl, -⟩ := List.cons.inj (by simpa using heq)
      simp [isStart_of_isMap hm] at ho
    | dir _ hG' hc' hF' =>
      obtain ⟨rfl, hrest⟩ := List.cons.inj (by simpa using heq)
      obtain ⟨rfl, hclosed⟩ := ihG hG' (closing_cons hc) (closing_cons hc') hrest
      obtain ⟨rfl, hbehind⟩ := List.cons.inj hclosed
      obtain ⟨rfl, rfl⟩ := ihF hF' hR hR' hbehind
      exact ⟨rfl, rfl⟩

/-- **A table has one forest.** -/
theorem WellFormed.flattenAll_inj {F F' : WadForest} (hF : WellFormed F) (hF' : WellFormed F')
    (h : flattenAll F = flattenAll F') : F = F' := by
  have hnil : Closing [] := fun _ hd => nomatch hd
  exact (hF.split_unique hF' hnil hnil (by rw [h])).1

/-! ## The loops of `WAD_ITER` visit the children in order -/

section Iter

variable {σ : Type u} (body : σ → WadDescriptor → Option σ)

/-- A walk over sibling nodes whose text begins at `i`: what every loop of
`WAD_ITER` amounts to on a well-nested table. -/
def iterKids (i : Nat) (s : σ) : WadForest → IterEnd σ
  | [] => .done i s
  | t :: F =>
    match body s t.label with
    | none => .goto i
    | some s' => iterKids (i + t.flatten.length) s' F

variable {body} {ds : List WadDescriptor}

/-- The text of a forest continues with the label of its first node. -/
theorem getElem?_of_drop_cons {t : Outline WadDescriptor} {i : Nat} {rest : List WadDescriptor}
    (h : ds.drop i = t.flatten ++ rest) : ds[i]? = some t.label := by
  obtain ⟨rest', hrest⟩ := t.flatten_eq_cons
  exact getElem?_of_drop (by rw [h, hrest, List.cons_append])

/-- The loop over the root goes through the nodes of a forest. -/
theorem rootIter_forest {F : WadForest} : ∀ {i : Nat} (s : σ), WellFormed F → i ≤ ds.length →
    ds.drop i = flattenAll F → rootIter ds body i s = some (iterKids body i s F) := by
  induction F with
  | nil =>
    intro i s _ hle h
    have hge : ds.length ≤ i := List.drop_eq_nil_iff.mp (by simpa using h)
    obtain rfl : i = ds.length := by omega
    rw [rootIter_end, iterKids]
  | cons t F ih =>
    intro i s hF hle h
    rw [flattenAll_cons] at h
    rw [rootIter_some (getElem?_of_drop_cons h), iterKids]
    rcases body s t.label with _ | s'
    · rfl
    · have hlen : i + t.flatten.length ≤ ds.length := by
        have := congrArg List.length h
        rw [List.length_drop, List.length_append] at this
        omega
      simp only [skip_node hF h, Option.bind_some]
      exact ih s' hF.tail hlen (drop_add_of_drop h)

/-- The loop over a directory goes through the nodes of a forest, up to the `_END` behind
them. -/
theorem dirIter_forest {F : WadForest} {c : WadDescriptor} {rest : List WadDescriptor}
    (hc : isEnd c.name) : ∀ {i : Nat} (s : σ), WellFormed F →
    ds.drop i = flattenAll F ++ (c :: rest) →
    dirIter ds body i s = some (iterKids body i s F) := by
  induction F with
  | nil =>
    intro i s _ h
    rw [dirIter_some (getElem?_of_drop (by simpa using h)), if_pos hc, iterKids]
  | cons t F ih =>
    intro i s hF h
    rw [flattenAll_cons, List.append_assoc] at h
    rw [dirIter_some (getElem?_of_drop_cons h), if_neg (by simp [hF.label_not_end]), iterKids]
    rcases body s t.label with _ | s'
    · rfl
    · simp only [skip_node hF h, Option.bind_some]
      exact ih s' hF.tail (drop_add_of_drop h)

/-- The loop over a map goes through its lumps. -/
theorem mapIter_items {ls rest : List WadDescriptor} : ∀ {i : Nat} (s : σ),
    ds.drop i = ls ++ rest →
    mapIter ds body ls.length i s = some (iterKids body i s (ls.map item)) := by
  induction ls with
  | nil => intro i s _; simp [mapIter, iterKids]
  | cons l ls ih =>
    intro i s h
    rw [List.length_cons, mapIter, getElem?_of_drop h, List.map_cons, iterKids, label_item]
    rcases hb : body s l with _ | s'
    · simp only [hb]
    · simp only [hb, ih s' (drop_succ_of_drop h), flatten_item, List.length_singleton]

/-- `WAD_ITER` at the root visits the top level of the forest. -/
theorem wadIter_root {F : WadForest} (hF : WellFormed F) (s : σ) :
    wadIter (flattenAll F) body .root s = some (iterKids body 0 s F) := by
  rw [wadIter]
  exact rootIter_forest s hF (Nat.zero_le _) (List.drop_zero ..)

/-- `WAD_ITER` at a node visits its children, and enters no loop at a file. -/
theorem wadIter_entry {t : Outline WadDescriptor} {F : WadForest} (ht : WellFormed (t :: F))
    {i : Nat} {rest : List WadDescriptor} (h : ds.drop i = t.flatten ++ rest) (s : σ) :
    wadIter ds body (.entry i) s =
      some (match t.kids with
        | none => .notDir
        | some G => iterKids body (i + 1) s G) := by
  rw [wadIter, getElem?_of_drop_cons h]
  cases ht with
  | file hd _ =>
    obtain ⟨hs, hm, -⟩ := isLump_iff.mp hd
    simp [hs, hm]
  | @map m ls _ hm hten _ _ =>
    have h₁ : ds.drop (i + 1) = ls ++ rest := drop_succ_of_drop (by simpa using h)
    have hwalk : mapIter ds body 10 (i + 1) s = _ := hten ▸ mapIter_items s h₁
    simp [isStart_of_isMap hm, hm, hwalk]
  | @dir o c G _ ho hG hc _ =>
    have h₁ : ds.drop (i + 1) = flattenAll G ++ (c :: rest) := drop_succ_of_drop (by simpa using h)
    simp [ho, dirIter_forest hc s hG h₁]

end Iter

end Cop4600
