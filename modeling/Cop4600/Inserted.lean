import Cop4600.Listing
import Cop4600.Placement

/-!
# Where a new node has been inserted

In a table of `2 ^ 32` descriptors and more, a creation inserts its node in front of the
place where it belongs. A caller can tell: a walk that has got as far as the node has read
nothing but what stood in front of it before, so the path leads to the node only if it
stands between two children of its directory, and the directory lists it last only if it
stands behind them all (`length_front_of_listed`).
-/

namespace Cop4600

open Outline

/-! ## Scanning the front of a table -/

/-- How far `closes` and `children` have got behind these descriptors: how many they are
still to jump, and at which depth. Nothing, if the children have ended. -/
def scanFront (inDir : Bool) : Nat → Int → List WadDescriptor → Option (Nat × Int)
  | jump, depth, [] => some (jump, depth)
  | jump + 1, depth, _ :: ds => scanFront inDir jump depth ds
  | 0, depth, d :: ds =>
    if inDir && decide (depth = 0) && isEnd d.name then none
    else scanFront inDir (skipTurn d.name).1 (depth + (skipTurn d.name).2) ds

/-- A scan of two parts scans the second from where it is behind the first. -/
theorem scanFront_append {inDir : Bool} (X : List WadDescriptor) : ∀ (P : List WadDescriptor)
    (jump : Nat) (depth : Int), scanFront inDir jump depth (P ++ X) =
      (scanFront inDir jump depth P).bind fun s => scanFront inDir s.1 s.2 X := by
  intro P
  induction P with
  | nil => intro jump depth; rw [scanFront, List.nil_append, Option.bind_some]
  | cons d P ih =>
    intro jump depth
    cases jump with
    | succ jump => exact ih jump depth
    | zero =>
      rw [List.cons_append, scanFront, scanFront]
      split
      · rfl
      · exact ih _ _

/-- **The children in two parts of a table**: those in the front, and those that the scan
finds from there on. -/
theorem children_append {inDir : Bool} (X : List WadDescriptor) : ∀ (P : List WadDescriptor)
    (i jump : Nat) (depth : Int), children inDir i jump depth (P ++ X) =
      children inDir i jump depth P ++
        match scanFront inDir jump depth P with
        | none => []
        | some (jump', depth') => children inDir (i + P.length) jump' depth' X := by
  intro P
  induction P with
  | nil => intro i jump depth; rw [children, scanFront]; rfl
  | cons d P ih =>
    intro i jump depth
    have hlen : i + (d :: P).length = i + 1 + P.length := by
      rw [List.length_cons]
      omega
    cases jump with
    | succ jump =>
      rw [List.cons_append, children, children, scanFront, hlen]
      exact ih (i + 1) jump depth
    | zero =>
      rw [List.cons_append, children, children, scanFront, hlen]
      split
      · rfl
      · rw [ih, List.append_assoc]

/-- The children stand in the descriptors that are scanned. -/
theorem bounds_of_mem_children {inDir : Bool} {P : List WadDescriptor} {i jump : Nat} {depth : Int}
    {d : WadDescriptor} {k : Nat} (h : (d, k) ∈ children inDir i jump depth P) :
    i ≤ k ∧ k < i + P.length := by
  obtain ⟨m, rfl, hm⟩ := mem_children h
  have hlt := lt_length_of_getElem? hm
  omega

/-- Only between two children the next descriptor is one. -/
theorem zero_of_mem_children {inDir : Bool} {X : List WadDescriptor} {i jump : Nat} {depth : Int}
    {d : WadDescriptor} (h : (d, i) ∈ children inDir i jump depth X) : jump = 0 ∧ depth = 0 := by
  rcases X with _ | ⟨e, X⟩
  · rw [children] at h
    cases h
  · cases jump with
    | succ jump =>
      have hmem : (d, i) ∈ children inDir (i + 1) jump depth X := h
      have hbounds := bounds_of_mem_children hmem
      omega
    | zero =>
      rw [children] at h
      split at h
      · cases h
      · rcases List.mem_append.mp h with hmem | hmem
        · split at hmem
          · next hzero => exact ⟨rfl, hzero⟩
          · cases hmem
        · have hbounds := bounds_of_mem_children hmem
          omega

/-- The descriptors of the children do not depend on where the table begins. -/
theorem map_fst_children {inDir : Bool} : ∀ (X : List WadDescriptor) (i k jump : Nat)
    (depth : Int), (children inDir i jump depth X).map Prod.fst =
      (children inDir k jump depth X).map Prod.fst := by
  intro X
  induction X with
  | nil => intro i k jump depth; rw [children, children]
  | cons d X ih =>
    intro i k jump depth
    cases jump with
    | succ jump => exact ih (i + 1) (k + 1) jump depth
    | zero =>
      rw [children, children]
      split
      · rfl
      · rw [List.map_append, List.map_append, ih (i + 1) (k + 1)]
        split <;> rfl

/-! ## Scanning a forest -/

/-- What is jumped is not looked at. -/
theorem scanFront_jump {inDir : Bool} {depth : Int} : ∀ (P X : List WadDescriptor),
    scanFront inDir P.length depth (P ++ X) = scanFront inDir 0 depth X := by
  intro P X
  induction P with
  | nil => rfl
  | cons d P ih => exact ih

/-- Between two nodes, a scan is where it was. -/
theorem scanFront_forest {inDir : Bool} {F : WadForest} (hF : WellFormed F) : ∀ {depth : Int},
    0 ≤ depth → scanFront inDir 0 depth (flattenAll F) = some (0, depth) := by
  induction hF with
  | nil => exact fun _ => rfl
  | @file d F hd _ ih =>
    intro depth hdepth
    have hend : isEnd d.name = false := (isLump_iff.mp hd).2.2
    rw [flattenAll_cons, flatten_item, List.singleton_append, scanFront, hend, Bool.and_false,
      skipTurn_lump hd]
    simpa using ih hdepth
  | @map m ls F hm hten _ _ ih =>
    intro depth hdepth
    rw [flattenAll_cons, flatten_block, List.cons_append, scanFront, isEnd_of_isMap hm,
      Bool.and_false, skipTurn_map hm, ← hten, scanFront_jump]
    simpa using ih hdepth
  | @dir o c G F ho _ hc _ ihG ihF =>
    intro depth hdepth
    have hinside : scanFront inDir 0 (depth + 1) (flattenAll G ++ (c :: flattenAll F)) =
        scanFront inDir 0 (depth + 1) (c :: flattenAll F) := by
      rw [scanFront_append, ihG (by omega), Option.bind_some]
    have hne : ¬ (depth + 1 = 0) := by omega
    rw [flattenAll_cons, flatten_group, List.cons_append, List.append_assoc, List.singleton_append,
      scanFront, isEnd_of_isStart ho, Bool.and_false, skipTurn_start ho]
    simp only [Bool.false_eq_true, if_false]
    rw [hinside, scanFront, decide_eq_false hne, Bool.and_false, Bool.false_and, skipTurn_end hc]
    simpa using ihF hdepth

/-- There are no children in what is jumped. -/
theorem children_jump_left {inDir : Bool} {depth : Int} : ∀ (P X : List WadDescriptor) (i : Nat),
    children inDir i P.length depth (P ++ X) = children inDir (i + P.length) 0 depth X := by
  intro P X i
  rw [children_jump, List.drop_left]

/-- **The children of a directory** are the nodes of the forest in it; inside a deeper one
there are none. -/
theorem children_forest {inDir : Bool} {F : WadForest} (hF : WellFormed F) :
    ∀ {depth : Int} (i : Nat), 0 ≤ depth → (children inDir i 0 depth (flattenAll F)).map Prod.fst =
      if depth = 0 then F.map Outline.label else [] := by
  induction hF with
  | nil =>
    intro depth i _
    rw [flattenAll_nil, children]
    split <;> rfl
  | @file d F hd _ ih =>
    intro depth i hdepth
    have hend : isEnd d.name = false := (isLump_iff.mp hd).2.2
    rw [flattenAll_cons, flatten_item, List.singleton_append, children, hend, Bool.and_false,
      skipTurn_lump hd]
    simp only [Bool.false_eq_true, if_false, Int.add_zero, List.map_append, ih (i + 1) hdepth]
    split <;> rfl
  | @map m ls F hm hten _ _ ih =>
    intro depth i hdepth
    rw [flattenAll_cons, flatten_block, List.cons_append, children, isEnd_of_isMap hm,
      Bool.and_false, skipTurn_map hm, ← hten]
    simp only [Bool.false_eq_true, if_false, Int.add_zero, children_jump_left, List.map_append,
      ih _ hdepth]
    split <;> rfl
  | @dir o c G F ho hG hc _ ihG ihF =>
    intro depth i hdepth
    have hne : ¬ (depth + 1 = 0) := by omega
    rw [flattenAll_cons, flatten_group, List.cons_append, List.append_assoc, List.singleton_append,
      children, isEnd_of_isStart ho, Bool.and_false, skipTurn_start ho]
    simp only [Bool.false_eq_true, if_false]
    rw [children_append, scanFront_forest hG (by omega)]
    simp only
    rw [children, decide_eq_false hne, Bool.and_false, Bool.false_and, skipTurn_end hc]
    simp only [Bool.false_eq_true, if_false, if_neg hne, List.nil_append, List.map_append,
      ihG (i + 1) (show 0 ≤ depth + 1 by omega), Int.add_neg_cancel_right, ihF _ hdepth]
    split <;> rfl

/-- A node in front of a text adds itself to the children there. -/
theorem map_fst_children_node {inDir : Bool} {t : Outline WadDescriptor} (ht : WellFormed [t])
    (X : List WadDescriptor) (i : Nat) :
    (children inDir i 0 0 (t.flatten ++ X)).map Prod.fst =
      t.label :: (children inDir i 0 0 X).map Prod.fst := by
  have hscan := @scanFront_forest inDir _ ht 0 (Int.le_refl 0)
  have hlabel := @children_forest inDir _ ht 0 i (Int.le_refl 0)
  rw [flattenAll_cons, flattenAll_nil, List.append_nil] at hscan hlabel
  rw [children_append, hscan, List.map_append, hlabel, if_pos rfl, map_fst_children X _ i]
  rfl

/-! ## A node between two children -/

/-- A child that begins behind the front is where the scan of the front has got to. -/
theorem scanFront_of_mem_children {inDir : Bool} {front X : List WadDescriptor} {i : Nat}
    {d : WadDescriptor} (h : (d, i + front.length) ∈ children inDir i 0 0 (front ++ X)) :
    scanFront inDir 0 0 front = some (0, 0) := by
  rw [children_append] at h
  rcases List.mem_append.mp h with hfront | hbehind
  · have hbounds := bounds_of_mem_children hfront
    omega
  · split at hbehind
    · cases hbehind
    · next jump depth hscan =>
      obtain ⟨rfl, rfl⟩ := zero_of_mem_children hbehind
      exact hscan

/-- What stands behind the children of a directory: nothing at the top level, otherwise an
`_END` name. -/
def Stops : (inDir : Bool) → List WadDescriptor → Prop
  | false, rest => rest = []
  | true, rest => ∃ e rest', rest = e :: rest' ∧ isEnd e.name

/-- Where the children end there are none. -/
theorem Stops.children_eq_nil {inDir : Bool} {rest : List WadDescriptor} (h : Stops inDir rest)
    (i : Nat) : children inDir i 0 0 rest = [] := by
  cases inDir with
  | false =>
    obtain rfl : rest = [] := h
    rw [children]
  | true =>
    obtain ⟨e, rest', rfl, he⟩ := h
    rw [children, he]
    rfl

/-- No child begins in front of these descriptors only if there are none, or the children
end there. -/
theorem scanFront_eq_none_of_children {inDir : Bool} {d : WadDescriptor} {X : List WadDescriptor}
    (Y : List WadDescriptor) {i : Nat} (h : children inDir i 0 0 (d :: Y) = []) :
    scanFront inDir 0 0 (d :: X) = none := by
  rw [children] at h
  rw [scanFront]
  split at h
  · next hend => rw [if_pos hend]
  · rw [if_pos rfl] at h
    cases h

section Between

variable {inDir : Bool} {H : WadForest} {node : Outline WadDescriptor}
  {front back rest : List WadDescriptor} (hH : WellFormed H) (hnode : WellFormed [node])
  (hsplit : front ++ back = flattenAll H ++ rest) (hstops : Stops inDir rest)
include hH hsplit hstops

/-- Where a scan stands between two children and none follows, all of them are behind it. -/
theorem front_eq_of_children (hscan : scanFront inDir 0 0 front = some (0, 0)) {i : Nat}
    (hnone : children inDir i 0 0 back = []) : front = flattenAll H := by
  have hforest : scanFront inDir 0 0 (flattenAll H) = some (0, 0) :=
    scanFront_forest hH (Int.le_refl 0)
  rcases List.append_eq_append_iff.mp hsplit with ⟨inner, hin, hback⟩ | ⟨outer, hout, hrest⟩
  · -- the scan stands inside the forest, and would have to go on there
    rcases inner with _ | ⟨d, inner⟩
    · rw [hin, List.append_nil]
    · rw [hback, List.cons_append] at hnone
      rw [hin, scanFront_append, hscan, Option.bind_some,
        scanFront_eq_none_of_children _ hnone] at hforest
      cases hforest
  · -- it stands behind the end of the directory, where it cannot get
    rcases outer with _ | ⟨e, outer⟩
    · rw [hout, List.append_nil]
    · rw [hrest, List.cons_append] at hstops
      rw [hout, scanFront_append, hforest, Option.bind_some,
        scanFront_eq_none_of_children _ (hstops.children_eq_nil 0)] at hscan
      cases hscan

include hnode

/-- **A new node that is found as a child** of a directory is its last child, or it is not
and the last one has been there before. -/
theorem inserted_between {i : Nat} {d : WadDescriptor}
    (hmem : (d, i + front.length) ∈ children inDir i 0 0 (front ++ (node.flatten ++ back))) :
    front = flattenAll H ∨ ∃ t ∈ H, ∃ L,
      (children inDir i 0 0 (front ++ (node.flatten ++ back))).map Prod.fst = L ++ [t.label] := by
  have hscan := scanFront_of_mem_children hmem
  have hchildren (X : List WadDescriptor) : children inDir i 0 0 (front ++ X) =
      children inDir i 0 0 front ++ children inDir (i + front.length) 0 0 X := by
    rw [children_append, hscan]
  have hold : (children inDir i 0 0 front).map Prod.fst ++
      (children inDir (i + front.length) 0 0 back).map Prod.fst = H.map Outline.label := by
    have hforest := @children_append inDir rest (flattenAll H) i 0 0
    rw [scanFront_forest hH (Int.le_refl 0)] at hforest
    simp only at hforest
    rw [← List.map_append, ← hchildren, hsplit, hforest, hstops.children_eq_nil, List.append_nil,
      children_forest hH i (Int.le_refl 0), if_pos rfl]
  rcases List.eq_nil_or_concat
    ((children inDir (i + front.length) 0 0 back).map Prod.fst) with hnil | ⟨L, x, hlast⟩
  · exact Or.inl (front_eq_of_children hH hsplit hstops hscan (List.map_eq_nil_iff.mp hnil))
  · rw [List.concat_eq_append] at hlast
    right
    have hx : x ∈ H.map Outline.label := by
      rw [← hold, hlast]
      simp
    obtain ⟨t, ht, rfl⟩ := List.mem_map.mp hx
    refine ⟨t, ht, (children inDir i 0 0 front).map Prod.fst ++ node.label :: L, ?_⟩
    rw [hchildren, List.map_append, map_fst_children_node hnode, hlast, List.append_assoc,
      List.cons_append]

end Between

/-! ## The directories in front of a node -/

/-- A directory that begins in front of the `n`-th descriptor. -/
def DescPtr.Below (n : Nat) : DescPtr → Prop
  | .entry i => i < n
  | _ => True

/-- A child stands behind its directory. -/
theorem below_of_mem_childrenOf {ds : List WadDescriptor} {D : DescPtr} {d : WadDescriptor}
    {i : Nat} (h : (d, i) ∈ childrenOf ds D) : D.Below i := by
  cases D with
  | null => exact trivial
  | root => exact trivial
  | entry j =>
    rw [childrenOf] at h
    split at h
    · cases h
    · split at h
      · exact (bounds_of_mem_children h).1
      · exact (List.mk_mem_zipIdx_iff_le_and_getElem?_sub.mp h).1

/-- Of the children in a table the first are those in its front, and the others stand behind
it. -/
theorem children_front {inDir : Bool} (P : List WadDescriptor) (i : Nat) (X : List WadDescriptor) :
    ∃ R, children inDir i 0 0 (P ++ X) = children inDir i 0 0 P ++ R ∧
      ∀ d k, (d, k) ∈ R → i + P.length ≤ k := by
  refine ⟨_, children_append X P i 0 0, fun d k h => ?_⟩
  split at h
  · cases h
  · exact (bounds_of_mem_children h).1

/-- **The children in the front of a table** do not depend on what stands behind it. -/
theorem childrenOf_front {front : List WadDescriptor} {D : DescPtr} (hD : D.Below front.length) :
    ∃ L, ∀ X, ∃ R, childrenOf (front ++ X) D = L ++ R ∧
      ∀ d i, (d, i) ∈ R → front.length ≤ i := by
  cases D with
  | null => exact ⟨[], fun X => ⟨[], rfl, fun d i h => nomatch h⟩⟩
  | root =>
    refine ⟨children false 0 0 0 front, fun X => ?_⟩
    have hfront := @children_front false front 0 X
    rwa [Nat.zero_add] at hfront
  | entry j =>
    have hj : j < front.length := hD
    have hlen : j + 1 + (front.drop (j + 1)).length = front.length := by
      rw [List.length_drop]
      omega
    have hchild (X : List WadDescriptor) : (front ++ X)[j]? = some front[j] := by
      rw [List.getElem?_append_left hj, List.getElem?_eq_getElem hj]
    have hdrop (X : List WadDescriptor) : (front ++ X).drop (j + 1) = front.drop (j + 1) ++ X :=
      List.drop_append_of_le_length hj
    by_cases hs : isStart front[j].name
    · refine ⟨children true (j + 1) 0 0 (front.drop (j + 1)), fun X => ?_⟩
      simp only [childrenOf, hchild, hs, if_true, hdrop]
      rw [← hlen]
      exact children_front _ _ X
    · refine ⟨((front.drop (j + 1)).take 10).zipIdx (j + 1), fun X =>
        ⟨(X.take (10 - (front.drop (j + 1)).length)).zipIdx
          (j + 1 + ((front.drop (j + 1)).take 10).length), ?_, fun d i h => ?_⟩⟩
      · simp only [childrenOf, hchild, hs, Bool.false_eq_true, if_false, hdrop]
        rw [List.take_append, List.zipIdx_append]
      · -- something of `X` is left only if the front has fewer than ten descriptors
        obtain ⟨hle, hd⟩ := List.mk_mem_zipIdx_iff_le_and_getElem?_sub.mp h
        have hlt := lt_length_of_getElem? hd
        have hroom := List.length_take_le (10 - (front.drop (j + 1)).length) X
        rw [List.length_take] at hle
        omega

/-- So a name that is found in the front is found there in any table with that front. -/
theorem firstNamed_front {front X : List WadDescriptor} (Y : List WadDescriptor) {D : DescPtr}
    {c : Bytes} {d : WadDescriptor} {i : Nat} (h : firstNamed (front ++ X) D c = some (d, i))
    (hi : i < front.length) : firstNamed (front ++ Y) D c = some (d, i) := by
  have hD : D.Below front.length := by
    have hbelow := below_of_mem_childrenOf (List.mem_of_find?_eq_some h)
    cases D with
    | entry j => exact Nat.lt_trans hbelow hi
    | _ => exact trivial
  obtain ⟨L, hL⟩ := childrenOf_front hD
  obtain ⟨R, hR, hbehind⟩ := hL X
  obtain ⟨R', hR', -⟩ := hL Y
  rw [firstNamed, hR, List.find?_append] at h
  rw [firstNamed, hR', List.find?_append]
  rcases hfound : L.find? (fun child => displayName child.1.name = c) with _ | found
  · rw [hfound, Option.none_or] at h
    have hle := hbehind d i (List.mem_of_find?_eq_some h)
    omega
  · rw [hfound, Option.some_or] at h
    rw [hfound, Option.some_or, h]

/-- In the text of a forest, the first child with a name is that of the tree. -/
theorem firstNamed_forest {F : WadForest} (hF : WellFormed F) {as : List Nat} (has : Reached F as)
    (hiter : Iterates (flattenAll F) (pointerTo F as)) {c : Bytes} (hc : IsComponent c)
    {d : WadDescriptor} {i : Nat} (h : firstNamed (flattenAll F) (pointerTo F as) c = some (d, i)) :
    ∃ H k, Outline.kidsAt F as = some H ∧ firstKid shownAs H c = some k ∧
      i = position F (as ++ [k]) := by
  have h8 : c.length ≤ 8 := by
    have hname := List.find?_some h
    rw [← of_decide_eq_true hname]
    exact displayName_length_le _
  obtain ⟨stop, -, heq⟩ := wadIter_eq (matchBody (Name.ofBytes c)) hiter ()
  rw [visit_matchBody hc.noNul h8, ← firstNamed, h, endsOf, wadIter_pointerTo hF has,
    Option.some.injEq] at heq
  rcases hH : Outline.kidsAt F as with _ | H
  · rw [hH] at heq
    cases heq
  · rw [hH] at heq
    simp only [iterKids_matchBody hc.noNul h8] at heq
    rcases hk : firstKid shownAs H c with _ | k
    · rw [hk] at heq
      cases heq
    · rw [hk, IterEnd.goto.injEq] at heq
      exact ⟨H, k, rfl, hk, by rw [position_concat hH, heq]⟩

/-- **A directory in front of the node** is the one that the tree has at these components. -/
theorem Opened.lookup_of_front {F : WadForest} (hF : WellFormed F)
    {front back X : List WadDescriptor} (hsplit : flattenAll F = front ++ back) {cs : List Bytes}
    {D : DescPtr} (h : Opened (front ++ X) cs D) (hD : D.Below front.length) :
    ∃ as, lookup shownAs F cs = some as ∧ D = pointerTo F as := by
  have hsame : ∀ {cs D}, Opened (front ++ X) cs D → D.Below front.length →
      Opened (flattenAll F) cs D := by
    intro cs D h
    induction h with
    | root => exact fun _ => .root
    | @child cs D c d i _ hc hfirst hdir ih =>
      intro hi
      have hparent := below_of_mem_childrenOf (List.mem_of_find?_eq_some hfirst)
      have hbelow : D.Below front.length := by
        cases D with
        | entry j => exact Nat.lt_trans hparent hi
        | _ => exact trivial
      rw [hsplit] at ih ⊢
      exact .child (ih hbelow) hc (firstNamed_front back hfirst hi) hdir
  have hopened := hsame h hD
  clear h hD
  induction hopened with
  | root => exact ⟨[], rfl, by rw [pointerTo, if_pos rfl]⟩
  | @child cs D c d i hD hc hfirst _ ih =>
    obtain ⟨as, hlook, rfl⟩ := ih
    obtain ⟨H, k, hH, hk, rfl⟩ :=
      firstNamed_forest hF (reached_of_lookup hlook) hD.iterates hc hfirst
    refine ⟨as ++ [k], ?_, ?_⟩
    · rw [lookup_concat, hlook, Option.bind_some, hH, Option.bind_some, hk, Option.map_some]
    · rw [pointerTo, if_neg (by simp)]

/-! ## What leads to an entry -/

/-- A component that names no child leads to no entry. -/
theorem resolveNext_ne_entry {ds : List WadDescriptor} {D : DescPtr} {s : Bytes}
    (hD : Iterates ds D) (hs : AtNext s) (hne : s ≠ [])
    (h : firstNamed ds D (s.takeWhile (· ≠ slash)) = none) (i : Nat) :
    resolveNext ds none s D ≠ some (.entry i, none) := by
  intro hres
  by_cases hcomplete : Complete ds D = true
  · obtain ⟨D', name', hres', hnull⟩ := resolveNext_unnamed none hD hs hne hcomplete h
    rw [hres, hnull rfl] at hres'
    cases hres'
  · by_cases h8 : (s.takeWhile (· ≠ slash)).length ≤ 8
    · rw [resolveNext_eq_none none hD hs hne hcomplete h h8] at hres
      cases hres
    · rw [resolveNext, dif_neg hne, if_pos (Nat.not_le.mp h8)] at hres
      cases hres

/-- A path leads to an entry through the directories that its components open. -/
theorem exists_opened {ds : List WadDescriptor} {c : Bytes} {i : Nat} (ps : List Bytes) :
    ∀ {as : List Bytes} {D : DescPtr} {s : Bytes}, Opened ds as D → AtNext s →
      components s = ps ++ [c] → resolveNext ds none s D = some (.entry i, none) →
      ∃ D' d, Opened ds (as ++ ps) D' ∧ firstNamed ds D' c = some (d, i) := by
  induction ps with
  | nil =>
    intro as D s hopen hs hcomp hres
    have hne : s ≠ [] := by
      rintro rfl
      cases hcomp
    rw [hs.components_eq hne, List.nil_append, List.cons.injEq] at hcomp
    obtain ⟨rfl, hrest⟩ := hcomp
    rcases hfirst : firstNamed ds D (s.takeWhile (· ≠ slash)) with _ | ⟨d, m⟩
    · exact absurd hres (resolveNext_ne_entry hopen.iterates hs hne hfirst i)
    · rw [resolveNext_named none hopen.iterates hs hne hfirst,
        hs.nextComponent.components_eq_nil_iff.mp hrest, resolveNext, dif_pos rfl] at hres
      cases hres
      exact ⟨D, d, by rwa [List.append_nil], hfirst⟩
  | cons p ps ih =>
    intro as D s hopen hs hcomp hres
    have hne : s ≠ [] := by
      rintro rfl
      cases hcomp
    rw [hs.components_eq hne, List.cons_append, List.cons.injEq] at hcomp
    obtain ⟨rfl, hrest⟩ := hcomp
    rcases hfirst : firstNamed ds D (s.takeWhile (· ≠ slash)) with _ | ⟨d, m⟩
    · exact absurd hres (resolveNext_ne_entry hopen.iterates hs hne hfirst i)
    · rw [resolveNext_named none hopen.iterates hs hne hfirst] at hres
      by_cases hdir : hasChildren d.name
      · obtain ⟨D', d', hopen', hfirst'⟩ := ih (.child hopen (hs.isComponent hne) hfirst hdir)
          hs.nextComponent hrest hres
        exact ⟨D', d', by rwa [List.append_assoc] at hopen', hfirst'⟩
      · -- a file has no children
        have hmem := getElem?_of_mem_childrenOf (List.mem_of_find?_eq_some hfirst)
        have hne' : nextComponent s ≠ [] := by
          intro hnil
          rw [hnil] at hrest
          cases ps <;> cases hrest
        rw [resolveNext, dif_neg hne'] at hres
        split at hres
        · cases hres
        · simp only [wadIter_file hmem (by simpa using hdir)] at hres
          cases hres

/-- What is listed for the directory that some components open. -/
theorem names_of_getDirectory {ds : List WadDescriptor} {cs : List Bytes} {D : DescPtr}
    (h : Opened ds cs D) {directory names : List Bytes} {count : Option Int}
    (hlist : getDirectory ds (pathTo cs) directory = some (count, names)) :
    names = directory ++ (childrenOf ds D).map fun child => listedName child.1.name := by
  have hcs := h.isComponent
  have h0 : 0 ∉ pathTo cs := cstr_pathTo hcs ▸ zero_notMem_cstr (pathTo cs)
  obtain ⟨s, hs, hcomp, heq⟩ := resolve_slash ds h0 rfl none
  rw [components_pathTo hcs] at hcomp
  obtain ⟨s', hs', hnil, hwalk⟩ := h.walk none hs (hcomp.trans (List.append_nil _).symm)
  obtain rfl := hs'.components_eq_nil_iff.mp hnil
  have hD : D ≠ .null := by
    rintro rfl
    cases h.iterates
  have hres : resolve ds (pathTo cs) none = some (D, none) := by
    rw [heq, hwalk, resolveNext, dif_pos rfl]
    rfl
  obtain ⟨stop, -, hiter⟩ := wadIter_eq listBody h.iterates (directory, some 0)
  have hvisit := visit_listBody stop (childrenOf ds D) directory 0
  rw [show asInt (0 : Nat) = some 0 from rfl] at hvisit
  rw [getDirectory_of_resolve hres hD, hiter, hvisit, endsOf] at hlist
  split at hlist
  · exact (Prod.mk.inj (Option.some.inj hlist)).2.symm
  · cases hlist

section Place

variable {F : WadForest} (hF : WellFormed F) {front back : List WadDescriptor}
  (hsplit : flattenAll F = front ++ back) {as : List Nat} {H : WadForest}
  (hH : Outline.kidsAt F as = some H)
include hF hsplit hH

/-- The children of a directory in front of the node, whatever stands behind the front. -/
theorem childrenOf_pointerTo (hopen : Opens F as) (hbelow : (pointerTo F as).Below front.length) :
    kidsPosition F as ≤ front.length ∧ ∃ inDir rest, Stops inDir rest ∧
      front.drop (kidsPosition F as) ++ back = flattenAll H ++ rest ∧
      ∀ X, childrenOf (front ++ X) (pointerTo F as) =
        children inDir (kidsPosition F as) 0 0 (front.drop (kidsPosition F as) ++ X) := by
  rcases opens_iff.mp hopen with rfl | ⟨o, cs, e, hnode⟩
  · obtain rfl := Option.some.inj ((kidsAt_nil F).symm.trans hH)
    refine ⟨Nat.zero_le _, false, [], rfl, ?_, fun X => ?_⟩
    · rw [kidsPosition_nil, List.drop_zero, List.append_nil, hsplit]
    · rw [pointerTo, if_pos rfl]
      rfl
  · have has : as ≠ [] := by
      rintro rfl
      simp at hnode
    rw [pointerTo, if_neg has] at hbelow ⊢
    have hlt : position F as < front.length := hbelow
    have hkids : H = cs := by
      rw [kidsAt_eq_nodeAt F has, hnode] at hH
      exact (Option.some.inj hH).symm
    obtain ⟨rest, hrest⟩ := drop_position hnode
    have hstart := hF.nodeAt hnode
    have hlabel := getElem?_position hnode
    rw [kidsPosition_of_ne_nil F has, hkids]
    refine ⟨hlt, true, e :: rest, ?_, ?_, fun X => ?_⟩
    · cases hstart with
      | dir _ _ he _ => exact ⟨e, rest, rfl, he⟩
    · rw [flatten_group, List.cons_append, hsplit] at hrest
      rw [← List.drop_append_of_le_length hlt, drop_succ_of_drop hrest, List.append_assoc]
      rfl
    · rw [hsplit, List.getElem?_append_left hlt] at hlabel
      have hs : isStart o.name := by
        cases hstart with
        | dir ho _ _ _ => exact ho
      simp only [childrenOf, List.getElem?_append_left hlt, hlabel, label_group, hs, if_true]
      rw [List.drop_append_of_le_length hlt]

/-- **A node that the path leads to and that is listed last** stands where it belongs. -/
theorem length_front_of_listed (hpadded : ∀ d ∈ flattenAll F, ZeroPadded d.name) {path c : Bytes}
    (hask : AsksFor F path as c) (hopen : Opens F as) {node : Outline WadDescriptor}
    (hnode : WellFormed [node])
    (hres : resolve (front ++ (node.flatten ++ back)) path none =
      some (.entry front.length, none))
    (hlisted : ∀ parent, 0 ∉ parent → treeLookup F parent = some as → ∃ count names,
      getDirectory (front ++ (node.flatten ++ back)) parent [] = some (count, names ++ [c])) :
    front.length = endPosition F as := by
  obtain ⟨ps, hps, hlook⟩ := hask.parent
  obtain ⟨s, hs, hcomp, heq⟩ := resolve_slash (front ++ (node.flatten ++ back)) hask.noNul
    hask.slashed none
  obtain ⟨D, d, hopened, hfirst⟩ :=
    exists_opened ps .root hs (hcomp.trans hps) (heq.symm.trans hres)
  rw [List.nil_append] at hopened
  have hmem := List.mem_of_find?_eq_some hfirst
  have hbelow := below_of_mem_childrenOf hmem
  obtain ⟨as', hlook', rfl⟩ := hopened.lookup_of_front hF hsplit hbelow
  obtain rfl := Option.some.inj (hlook'.symm.trans hlook)
  obtain ⟨hle, inDir, rest, hstops, htable, hchildren⟩ :=
    childrenOf_pointerTo hF hsplit hH hopen hbelow
  have hlen : kidsPosition F as' + (front.drop (kidsPosition F as')).length = front.length := by
    rw [List.length_drop]
    omega
  rw [hchildren, ← hlen] at hmem
  rcases inserted_between (hF.kidsAt hH) hnode htable hstops hmem with hfront | ⟨t, ht, L, hlast⟩
  · rw [endPosition_of_kidsAt hH, ← hfront, hlen]
  · -- the last name in the list is an old one, and the new one was missing
    have hcs := hopened.isComponent
    have h0 : 0 ∉ pathTo ps := cstr_pathTo hcs ▸ zero_notMem_cstr (pathTo ps)
    have hparent : treeLookup F (pathTo ps) = some as' := by
      have hslash : (pathTo ps).head? = some slash := rfl
      rw [treeLookup, if_pos hslash, components_pathTo hcs, hlook]
    obtain ⟨count, names, hlist⟩ := hlisted (pathTo ps) h0 hparent
    have hnames := names_of_getDirectory hopened hlist
    have hmap := congrArg (List.map fun d : WadDescriptor => listedName d.name) hlast
    rw [← hchildren, List.map_map, List.map_append] at hmap
    rw [List.nil_append] at hnames
    have hc : c = listedName t.label.name :=
      List.singleton_inj.mp (List.append_inj' (hnames.trans hmap) rfl).2
    obtain ⟨k, hk⟩ := List.getElem?_of_mem ht
    have hpad := hpadded _ (List.mem_of_getElem? (getElem?_position (nodeAt_child hH hk)))
    obtain ⟨H', hH', hmissing⟩ := hask.missing
    obtain rfl := Option.some.inj (hH.symm.trans hH')
    rw [listedName_eq hpad] at hc
    exact absurd hc.symm (firstKid_eq_none hmissing ht)

end Place

end Cop4600
