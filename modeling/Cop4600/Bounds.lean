import Cop4600.Lookup
import Cop4600.Wad

/-!
# Which tables are walked within bounds

`loadWad` checks nothing about names, so a table can be any sequence of them. A
walk over all the children of a directory stays inside the vector exactly when the
directory is *complete*: the top level ends between two children, a `_START` has
its `_END`, a map its ten lumps (`Complete`, read off the names alone). For a given
path, `resolve` and `getDirectory` stay inside the vector exactly when the
directories are complete that the path opens and reads to their end
(`StaysInside`); for all paths, when every directory is that some path opens
(`all_inBounds_iff`).
-/

namespace Cop4600

/-! ## Complete directories -/

/-- Do the children of a directory end before the descriptors do? At `depth` levels
below the directory, `jump` descriptors are still to be jumped. Inside a `_START`
directory the children end at an `_END` name that stands between two of them; at
the top level they end with the table. -/
def closes (inDir : Bool) : Nat → Int → List WadDescriptor → Bool
  | jump, depth, [] => !inDir && decide (jump = 0) && decide (depth = 0)
  | jump + 1, depth, _ :: ds => closes inDir jump depth ds
  | 0, depth, d :: ds =>
    if inDir && decide (depth = 0) && isEnd d.name then true
    else closes inDir (skipTurn d.name).1 (depth + (skipTurn d.name).2) ds

/-- The children themselves, each with its index in the table; the first descriptor
read has index `i`. -/
def children (inDir : Bool) : Nat → Nat → Int → List WadDescriptor → List (WadDescriptor × Nat)
  | _, _, _, [] => []
  | i, jump + 1, depth, _ :: ds => children inDir (i + 1) jump depth ds
  | i, 0, depth, d :: ds =>
    if inDir && decide (depth = 0) && isEnd d.name then []
    else (if depth = 0 then [(d, i)] else []) ++
      children inDir (i + 1) (skipTurn d.name).1 (depth + (skipTurn d.name).2) ds

/-- A jump leaves out so many descriptors, if there are as many. -/
theorem closes_jump {inDir : Bool} {depth : Int} : ∀ {ds : List WadDescriptor} (jump : Nat),
    closes inDir jump depth ds =
      (decide (jump ≤ ds.length) && closes inDir 0 depth (ds.drop jump)) := by
  intro ds
  induction ds with
  | nil => intro jump; cases jump <;> simp [closes]
  | cons d ds ih =>
    intro jump
    cases jump with
    | zero => simp
    | succ jump => rw [closes, ih, List.length_cons, List.drop_succ_cons]; simp

/-- No children are in what is left out. -/
theorem children_jump {inDir : Bool} {depth : Int} : ∀ {ds : List WadDescriptor} (i jump : Nat),
    children inDir i jump depth ds = children inDir (i + jump) 0 depth (ds.drop jump) := by
  intro ds
  induction ds with
  | nil => intro i jump; cases jump <;> simp [children]
  | cons d ds ih =>
    intro i jump
    cases jump with
    | zero => simp
    | succ jump =>
      rw [children, ih, List.drop_succ_cons]
      congr 1
      omega

section Turn

variable {ds : List WadDescriptor} {i : Nat} {d : WadDescriptor} {inDir : Bool} {depth : Int}
  (hd : ds[i]? = some d) (hgo : ¬ (inDir = true ∧ depth = 0 ∧ isEnd d.name = true))
include hd hgo

/-- One turn of the walk. -/
theorem closes_turn : closes inDir 0 depth (ds.drop i) =
    (decide (i + (skipTurn d.name).1 + 1 ≤ ds.length) &&
      closes inDir 0 (depth + (skipTurn d.name).2) (ds.drop (i + (skipTurn d.name).1 + 1))) := by
  obtain ⟨hi, rfl⟩ := List.getElem?_eq_some_iff.mp hd
  rw [List.drop_eq_getElem_cons hi, closes, if_neg (by simpa [and_assoc] using hgo), closes_jump,
    List.length_drop, List.drop_drop]
  congr 1
  · exact decide_eq_decide.mpr (by omega)
  · congr 2
    omega

/-- Between two children the descriptor is one itself; then the walk goes on. -/
theorem children_turn : children inDir i 0 depth (ds.drop i) =
    (if depth = 0 then [(d, i)] else []) ++
      children inDir (i + (skipTurn d.name).1 + 1) 0 (depth + (skipTurn d.name).2)
        (ds.drop (i + (skipTurn d.name).1 + 1)) := by
  obtain ⟨hi, rfl⟩ := List.getElem?_eq_some_iff.mp hd
  rw [List.drop_eq_getElem_cons hi, children, if_neg (by simpa [and_assoc] using hgo),
    children_jump, List.drop_drop]
  congr 2
  · omega
  · congr 1
    omega

end Turn

/-- A table that ends below the directory has not closed it. -/
theorem closes_nil_of_ne {inDir : Bool} {depth : Int} (h : depth ≠ 0) :
    closes inDir 0 depth [] = false := by
  simp [closes, h]

/-- A walk that stands between two children goes on unless it is in a directory and
has reached its `_END`. -/
def GoesOn (inDir : Bool) (ds : List WadDescriptor) (i : Nat) : Prop :=
  ∃ d, ds[i]? = some d ∧ ¬ (inDir = true ∧ isEnd d.name = true)

/-- A walk that goes on is not at its end, however deep it is. -/
theorem GoesOn.turn {inDir : Bool} {ds : List WadDescriptor} {i : Nat} {d : WadDescriptor}
    {depth : Int} (h : depth = 0 → GoesOn inDir ds i) (hd : ds[i]? = some d) :
    ¬ (inDir = true ∧ depth = 0 ∧ isEnd d.name = true) := by
  rintro ⟨hin, h0, he⟩
  obtain ⟨d', hd', hnot⟩ := h h0
  obtain rfl := Option.some.inj (hd.symm.trans hd')
  exact hnot ⟨hin, he⟩

/-- **`skip` and the scan agree**: the scan goes on where `skip` arrives, and where
`skip` runs out of the table the children do not end. -/
theorem closes_skipFrom {ds : List WadDescriptor} {inDir : Bool} (i : Nat) (depth : Int) :
    (depth = 0 → GoesOn inDir ds i) → closes inDir 0 depth (ds.drop i) =
      match skipFrom ds i depth with
      | none => false
      | some j => decide (j ≤ ds.length) && closes inDir 0 0 (ds.drop j) := by
  induction i, depth using skipFrom.induct ds with
  | case1 i depth hnone =>
    intro hgo
    -- at depth 0 the scan only starts on a child that is there
    have hdepth : depth ≠ 0 := fun h => by
      obtain ⟨d, hd, -⟩ := hgo h
      rw [hnone] at hd
      cases hd
    have hnil : ds.drop i = [] := List.drop_eq_nil_of_le (List.getElem?_eq_none_iff.mp hnone)
    rw [skipFrom_none hnone, hnil, closes_nil_of_ne hdepth]
  | case2 i depth d hd depth' hzero =>
    intro hgo
    have hzero' : depth + (skipTurn d.name).2 = 0 := hzero
    rw [skipFrom_some hd, if_pos hzero, closes_turn hd (GoesOn.turn hgo hd), hzero']
  | case3 i depth d hd desc' depth' hzero ih =>
    intro hgo
    rw [skipFrom_some hd, if_neg hzero, closes_turn hd (GoesOn.turn hgo hd)]
    by_cases hle : i + (skipTurn d.name).1 + 1 ≤ ds.length
    · rw [decide_eq_true hle, Bool.true_and]
      exact ih fun h0 => absurd h0 hzero
    · have hout : ds[i + (skipTurn d.name).1 + 1]? = none :=
        List.getElem?_eq_none_iff.mpr (by omega)
      rw [skipFrom_none hout, decide_eq_false hle, Bool.false_and]

/-- The children end if they do behind the first one. -/
theorem closes_skip {ds : List WadDescriptor} {inDir : Bool} {i : Nat} {d : WadDescriptor}
    (hd : ds[i]? = some d) (hgo : ¬ (inDir = true ∧ isEnd d.name = true)) :
    closes inDir 0 0 (ds.drop i) =
      match skip ds i with
      | none => false
      | some j => decide (j ≤ ds.length) && closes inDir 0 0 (ds.drop j) :=
  closes_skipFrom i 0 fun _ => ⟨d, hd, hgo⟩

/-- **What `skip` steps over are no children**, and there are none where it runs out
of the table. -/
theorem children_skipFrom {ds : List WadDescriptor} {inDir : Bool} (i : Nat) {depth : Int}
    (hdepth : depth ≠ 0) : children inDir i 0 depth (ds.drop i) =
      match skipFrom ds i depth with
      | none => []
      | some j => children inDir j 0 0 (ds.drop j) := by
  induction i, depth using skipFrom.induct ds with
  | case1 i depth hnone =>
    rw [skipFrom_none hnone, List.drop_eq_nil_of_le (List.getElem?_eq_none_iff.mp hnone), children]
  | case2 i depth d hd depth' hzero =>
    have hzero' : depth + (skipTurn d.name).2 = 0 := hzero
    rw [skipFrom_some hd, if_pos hzero, children_turn hd (fun hstop => hdepth hstop.2.1),
      if_neg hdepth, hzero', List.nil_append]
  | case3 i depth d hd desc' depth' hzero ih =>
    rw [skipFrom_some hd, if_neg hzero, children_turn hd (fun hstop => hdepth hstop.2.1),
      if_neg hdepth, List.nil_append]
    exact ih hzero

/-- One child, and the children behind it. -/
theorem children_skip {ds : List WadDescriptor} {inDir : Bool} {i : Nat} {d : WadDescriptor}
    (hd : ds[i]? = some d) (hgo : ¬ (inDir = true ∧ isEnd d.name = true)) :
    children inDir i 0 0 (ds.drop i) =
      (d, i) :: match skip ds i with
        | none => []
        | some j => children inDir j 0 0 (ds.drop j) := by
  rw [skip, skipFrom_some hd, children_turn hd fun h => hgo ⟨h.1, h.2.2⟩, if_pos rfl,
    List.singleton_append]
  by_cases hzero : (0 : Int) + (skipTurn d.name).2 = 0
  · rw [if_pos hzero, hzero]
  · rw [if_neg hzero, children_skipFrom _ hzero]

/-! ## The loops of `WAD_ITER` -/

section Iter

variable {σ : Type} (body : σ → WadDescriptor → Option σ)

/-- A loop over these children that ends, if it is not left, at `stop`. -/
def visit (stop : Nat) : σ → List (WadDescriptor × Nat) → IterEnd σ
  | s, [] => .done stop s
  | s, (d, i) :: rest =>
    match body s d with
    | none => .goto i
    | some s' => visit stop s' rest

/-- A loop that is not left reads on until the children end, which they have to. -/
def endsOf (complete : Bool) : IterEnd σ → Option (IterEnd σ)
  | .goto i => some (.goto i)
  | .done stop s => if complete then some (.done stop s) else none
  | .notDir => some .notDir

variable {body} {ds : List WadDescriptor}

/-- Behind the end of the table the loop over the root has lost it. -/
theorem rootIter_none {i : Nat} (hi : ds.length < i) (s : σ) : rootIter ds body i s = none := by
  have hnone : ds[i]? = none := List.getElem?_eq_none_iff.mpr (Nat.le_of_lt hi)
  rw [rootIter, if_neg (Nat.ne_of_gt hi)]
  split
  · rfl
  · next d hd =>
    rw [hnone] at hd
    cases hd

/-- The loop over a directory has lost it where there is no descriptor. -/
theorem dirIter_none {i : Nat} (hi : ds[i]? = none) (s : σ) : dirIter ds body i s = none := by
  rw [dirIter]
  split
  · rfl
  · next d hd =>
    rw [hi] at hd
    cases hd

/-- **The top level**: the loop visits the children, and gets to their end if they end
with the table. -/
theorem rootIter_eq {i : Nat} {s : σ} (hi : i ≤ ds.length) :
    rootIter ds body i s = endsOf (closes false 0 0 (ds.drop i))
      (visit body ds.length s (children false i 0 0 (ds.drop i))) := by
  induction i, s using rootIter.induct ds body with
  | case1 s =>
    rw [rootIter_end, List.drop_length, children, visit]
    rfl
  | case2 i s hne hnone =>
    have := List.getElem?_eq_none_iff.mp hnone
    omega
  | case3 i s hne d hd hleave =>
    rw [rootIter_some hd, hleave, children_skip hd (by simp), visit, hleave]
    rfl
  | case4 i s hne d hd s' hs' hnone =>
    rw [rootIter_some hd, hs', children_skip hd (by simp), closes_skip hd (by simp), visit, hs']
    simp only [hnone, Option.bind_none]
    rfl
  | case5 i s hne d hd s' hs' j hj ih =>
    rw [rootIter_some hd, hs', children_skip hd (by simp), closes_skip hd (by simp), visit, hs']
    simp only [hj, Option.bind_some]
    by_cases hle : j ≤ ds.length
    · rw [ih hle, decide_eq_true hle, Bool.true_and]
    · -- the last child was a map that the table is too short for
      rw [rootIter_none (Nat.not_le.mp hle), decide_eq_false hle, Bool.false_and,
        List.drop_eq_nil_of_le (by omega), children, visit]
      rfl

/-- **Inside a directory**, in the same way: the children end at the `_END` name. -/
theorem dirIter_eq {i : Nat} {s : σ} :
    ∃ stop, (closes true 0 0 (ds.drop i) = true → stop ≤ ds.length) ∧
      dirIter ds body i s = endsOf (closes true 0 0 (ds.drop i))
        (visit body stop s (children true i 0 0 (ds.drop i))) := by
  induction i, s using dirIter.induct ds body with
  | case1 i s hnone =>
    refine ⟨0, fun _ => Nat.zero_le _, ?_⟩
    rw [dirIter_none hnone, List.drop_eq_nil_of_le (List.getElem?_eq_none_iff.mp hnone), children,
      visit]
    rfl
  | case2 i s d hd he =>
    obtain ⟨hi, rfl⟩ := List.getElem?_eq_some_iff.mp hd
    refine ⟨i, fun _ => Nat.le_of_lt hi, ?_⟩
    rw [dirIter_some hd, if_pos he, List.drop_eq_getElem_cons hi, children, closes]
    simp [he, visit, endsOf]
  | case3 i s d hd he hleave =>
    refine ⟨i, fun _ => Nat.le_of_lt (lt_length_of_getElem? hd), ?_⟩
    rw [dirIter_some hd, if_neg he, hleave, children_skip hd (by simpa using he), visit, hleave]
    rfl
  | case4 i s d hd he s' hs' hnone =>
    -- the body goes on, but `skip` does not come back
    have hgo : ¬ (true = true ∧ isEnd d.name = true) := by simpa using he
    refine ⟨0, fun _ => Nat.zero_le _, ?_⟩
    rw [dirIter_some hd, if_neg he, hs', children_skip hd hgo, closes_skip hd hgo, visit, hs']
    simp only [hnone, Option.bind_none]
    rfl
  | case5 i s d hd he s' hs' j hj ih =>
    have hgo : ¬ (true = true ∧ isEnd d.name = true) := by simpa using he
    obtain ⟨stop, hstop, hrun⟩ := ih
    have hclosed : closes true 0 0 (ds.drop i) = closes true 0 0 (ds.drop j) := by
      simp only [closes_skip hd hgo, hj]
      by_cases hle : j ≤ ds.length
      · rw [decide_eq_true hle, Bool.true_and]
      · rw [decide_eq_false hle, Bool.false_and, List.drop_eq_nil_of_le (by omega)]
        rfl
    refine ⟨stop, by rwa [hclosed], ?_⟩
    rw [dirIter_some hd, if_neg he, hs', children_skip hd hgo, hclosed, visit, hs']
    simp only [hj, Option.bind_some]
    exact hrun

/-- **Inside a map**: ten descriptors, whatever their names. -/
theorem mapIter_eq (n : Nat) : ∀ {i : Nat} {s : σ}, i ≤ ds.length →
    mapIter ds body n i s = endsOf (decide (i + n ≤ ds.length))
      (visit body (i + n) s (((ds.drop i).take n).zipIdx i)) := by
  induction n with
  | zero =>
    intro i s hi
    rw [mapIter, List.take_zero, List.zipIdx_nil, visit, decide_eq_true (by omega)]
    rfl
  | succ n ih =>
    intro i s hi
    rcases Nat.lt_or_eq_of_le hi with hlt | rfl
    · rw [mapIter, List.getElem?_eq_getElem hlt, List.drop_eq_getElem_cons hlt, List.take_succ_cons,
        List.zipIdx_cons, visit]
      rcases hb : body s ds[i] with _ | s'
      · simp only [hb]
        rfl
      · simp only [hb]
        rw [ih (Nat.succ_le_of_lt hlt), Nat.succ_eq_add_one, Nat.add_right_comm, Nat.add_assoc]
    · rw [mapIter, List.getElem?_eq_none_iff.mpr (Nat.le_refl _), List.drop_length, List.take_nil,
        List.zipIdx_nil, visit, decide_eq_false (by omega)]
      rfl

end Iter

/-! ## Directories -/

/-- The names of directories: those `WAD_ITER` has a loop for. -/
def hasChildren (name : Name) : Bool := isStart name || isMap name

/-- A directory's children end where they should: before the table does. -/
def Complete (ds : List WadDescriptor) : DescPtr → Bool
  | .null => false
  | .root => closes false 0 0 ds
  | .entry i =>
    match ds[i]? with
    | none => false
    | some d => if isStart d.name then closes true 0 0 (ds.drop (i + 1)) else i + 11 ≤ ds.length

/-- The children of a directory, in order, with their indices. -/
def childrenOf (ds : List WadDescriptor) : DescPtr → List (WadDescriptor × Nat)
  | .null => []
  | .root => children false 0 0 0 ds
  | .entry i =>
    match ds[i]? with
    | none => []
    | some d =>
      if isStart d.name then children true (i + 1) 0 0 (ds.drop (i + 1))
      else ((ds.drop (i + 1)).take 10).zipIdx (i + 1)

/-- The pointers `WAD_ITER` has a loop for. -/
inductive Iterates (ds : List WadDescriptor) : DescPtr → Prop where
  | root : Iterates ds .root
  | entry {i : Nat} {d : WadDescriptor} (hd : ds[i]? = some d) (hdir : hasChildren d.name) :
      Iterates ds (.entry i)

/-- **`WAD_ITER` on a directory** visits its children, and gets to their end if the
directory is complete. -/
theorem wadIter_eq {σ : Type} (body : σ → WadDescriptor → Option σ) {ds : List WadDescriptor}
    {D : DescPtr} (hD : Iterates ds D) (s : σ) :
    ∃ stop, (Complete ds D = true → stop ≤ ds.length) ∧
      wadIter ds body D s = endsOf (Complete ds D) (visit body stop s (childrenOf ds D)) := by
  cases hD with
  | root => exact ⟨ds.length, fun _ => Nat.le_refl _, rootIter_eq (Nat.zero_le _)⟩
  | @entry i d hd hdir =>
    rw [wadIter, childrenOf, Complete, hd]
    by_cases hs : isStart d.name
    · simp only [hs, if_true]
      exact dirIter_eq
    · have hm : isMap d.name := by simpa [hasChildren, hs] using hdir
      simp only [hs, hm, Bool.false_eq_true, if_false, if_true, decide_eq_true_eq]
      exact ⟨i + 1 + 10, fun hle => by omega, mapIter_eq 10 (lt_length_of_getElem? hd)⟩

/-! ## The directories a path can open -/

/-- What a path can name: a nonempty string without slashes. -/
structure IsComponent (c : Bytes) : Prop where
  nonempty : c ≠ []
  noSlash : slash ∉ c
  noNul : 0 ∉ c

/-- The first child with this display name. -/
def firstNamed (ds : List WadDescriptor) (D : DescPtr) (c : Bytes) : Option (WadDescriptor × Nat) :=
  (childrenOf ds D).find? fun child => displayName child.1.name = c

/-- The directories that paths open, with the components that lead there. -/
inductive Opened (ds : List WadDescriptor) : List Bytes → DescPtr → Prop where
  | root : Opened ds [] .root
  | child {cs : List Bytes} {D : DescPtr} {c : Bytes} {d : WadDescriptor} {i : Nat}
      (hD : Opened ds cs D) (hc : IsComponent c) (hfirst : firstNamed ds D c = some (d, i))
      (hdir : hasChildren d.name) : Opened ds (cs ++ [c]) (.entry i)

/-- A child is one of the descriptors that the walk has read. -/
theorem mem_children {inDir : Bool} : ∀ {ds : List WadDescriptor} {i jump : Nat} {depth : Int}
    {d : WadDescriptor} {k : Nat}, (d, k) ∈ children inDir i jump depth ds →
    ∃ m, k = i + m ∧ ds[m]? = some d := by
  intro ds
  induction ds with
  | nil => intro i jump depth d k h; cases jump <;> simp [children] at h
  | cons e ds ih =>
    intro i jump depth d k h
    have hlater : ∀ {jump' depth'}, (d, k) ∈ children inDir (i + 1) jump' depth' ds →
        ∃ m, k = i + m ∧ (e :: ds)[m]? = some d := by
      intro jump' depth' hmem
      obtain ⟨m, rfl, hm⟩ := ih hmem
      exact ⟨m + 1, by omega, by rw [List.getElem?_cons_succ, hm]⟩
    cases jump with
    | succ jump => exact hlater h
    | zero =>
      rw [children] at h
      split at h
      · cases h
      · rcases List.mem_append.mp h with hmem | hmem
        · split at hmem
          · obtain ⟨rfl, rfl⟩ := Prod.mk.inj (List.mem_singleton.mp hmem)
            exact ⟨0, rfl, rfl⟩
          · cases hmem
        · exact hlater hmem

/-- A child stands in the table under its index. -/
theorem getElem?_of_mem_childrenOf {ds : List WadDescriptor} {D : DescPtr} {d : WadDescriptor}
    {i : Nat} (h : (d, i) ∈ childrenOf ds D) : ds[i]? = some d := by
  cases D with
  | null => cases h
  | root =>
    obtain ⟨m, rfl, hm⟩ := mem_children h
    rwa [Nat.zero_add]
  | entry j =>
    rw [childrenOf] at h
    split at h
    · cases h
    · split at h
      · obtain ⟨m, rfl, hm⟩ := mem_children h
        rwa [List.getElem?_drop] at hm
      · obtain ⟨hle, hm⟩ := List.mk_mem_zipIdx_iff_le_and_getElem?_sub.mp h
        rw [List.getElem?_take] at hm
        split at hm
        · rw [List.getElem?_drop] at hm
          rwa [show j + 1 + (i - (j + 1)) = i by omega] at hm
        · cases hm

/-- What paths open is what `WAD_ITER` has a loop for. -/
theorem Opened.iterates {ds : List WadDescriptor} {cs : List Bytes} {D : DescPtr}
    (h : Opened ds cs D) : Iterates ds D := by
  cases h with
  | root => exact .root
  | child _ _ hfirst hdir =>
    exact .entry (getElem?_of_mem_childrenOf (List.mem_of_find?_eq_some hfirst)) hdir

/-- The search in `resolve` stops at the first child named by the component. -/
theorem visit_matchBody {c : Bytes} (h0 : 0 ∉ c) (h8 : c.length ≤ 8) (stop : Nat) :
    ∀ L : List (WadDescriptor × Nat), visit (matchBody (Name.ofBytes c)) stop () L =
      match L.find? fun child => displayName child.1.name = c with
      | some (_, i) => .goto i
      | none => .done stop () := by
  intro L
  induction L with
  | nil => rfl
  | cons child L ih =>
    obtain ⟨d, i⟩ := child
    by_cases hname : displayName d.name = c
    · rw [visit, matchBody, if_pos ((ofBytes_eq_componentName_iff h0 h8 _).mpr hname),
        List.find?_cons_of_pos (by simpa using hname)]
    · rw [visit, matchBody, if_neg (mt (ofBytes_eq_componentName_iff h0 h8 _).mp hname),
        List.find?_cons_of_neg (by simpa using hname)]
      exact ih

/-- What `getDirectory` puts into the list for a name. -/
def listedName (name : Name) : Bytes :=
  name.toList.take (strnlen name.toList 8 - if isStart name then 6 else 0)

/-- The listing in `getDirectory` is never left: it gets the name of each child, and counts
one. -/
theorem visit_listBody (stop : Nat) (L : List (WadDescriptor × Nat)) :
    ∀ (directory : List Bytes) (count : Nat), visit listBody stop (directory, asInt count) L =
      .done stop (directory ++ L.map fun child => listedName child.1.name,
        asInt (count + L.length : Nat)) := by
  induction L with
  | nil =>
    intro directory count
    rw [visit, List.map_nil, List.append_nil]
    rfl
  | cons child L ih =>
    intro directory count
    have hrest := ih (directory ++ [listedName child.1.name]) (count + 1)
    rw [List.append_assoc, List.singleton_append, Nat.add_right_comm, Nat.add_assoc] at hrest
    rw [visit, listBody_asInt]
    exact hrest

/-- On a lump or an `_END` it reads nothing but the name. -/
theorem wadIter_file {σ : Type} {body : σ → WadDescriptor → Option σ} {ds : List WadDescriptor}
    {i : Nat} {d : WadDescriptor} (hd : ds[i]? = some d) (hfile : hasChildren d.name = false)
    (s : σ) : wadIter ds body (.entry i) s = some .notDir := by
  rw [hasChildren, Bool.or_eq_false_iff] at hfile
  rw [wadIter, hd]
  simp [hfile.1, hfile.2]

/-- A place in the table or at its end can be compared with the end. -/
theorem atListEnd_of_le {ds : List WadDescriptor} {i : Nat} (h : i ≤ ds.length) :
    ∃ stop, atListEnd ds i = some stop := by
  rw [atListEnd]
  split
  · exact ⟨true, rfl⟩
  · rw [List.getElem?_eq_getElem (by omega)]
    exact ⟨_, rfl⟩

/-! ## One component -/

/-- Up to the next slash there is a component. -/
theorem AtNext.isComponent {s : Bytes} (h : AtNext s) (hs : s ≠ []) :
    IsComponent (s.takeWhile (· ≠ slash)) where
  nonempty := by
    rcases s with _ | ⟨b, t⟩
    · exact absurd rfl hs
    · have hb : b ≠ slash := fun hb => h.noSlash (by rw [List.head?_cons, hb])
      simp [hb]
  noSlash := fun hb => by simpa using List.mem_takeWhile_imp hb
  noNul := h.noNul_takeWhile

section Component

variable {ds : List WadDescriptor} {D : DescPtr} (cr : Option Name) {s : Bytes}
  (hD : Iterates ds D) (hs : AtNext s) (hne : s ≠ [])
include hD hs hne

/-- A component that names a child leads to the first one, whatever stands behind it. -/
theorem resolveNext_named {d : WadDescriptor} {i : Nat}
    (h : firstNamed ds D (s.takeWhile (· ≠ slash)) = some (d, i)) :
    resolveNext ds cr s D = resolveNext ds cr (nextComponent s) (.entry i) := by
  have h8 : ¬ 8 < (s.takeWhile (· ≠ slash)).length := by
    have hname := List.find?_some h
    rw [← of_decide_eq_true hname]
    exact Nat.not_lt.mpr (displayName_length_le _)
  obtain ⟨stop, -, hiter⟩ := wadIter_eq (matchBody (Name.ofBytes (s.takeWhile (· ≠ slash)))) hD ()
  rw [visit_matchBody hs.noNul_takeWhile (Nat.not_lt.mp h8), ← firstNamed, h, endsOf] at hiter
  rw [resolveNext, dif_neg hne, if_neg h8]
  simp only [hiter]

/-- One that does not leads nowhere, or to where something can be created. -/
theorem resolveNext_unnamed (hcomplete : Complete ds D = true)
    (h : firstNamed ds D (s.takeWhile (· ≠ slash)) = none) :
    ∃ D' name', resolveNext ds cr s D = some (D', name') ∧ (cr = none → D' = .null) := by
  rw [resolveNext, dif_neg hne]
  by_cases h8 : 8 < (s.takeWhile (· ≠ slash)).length
  · rw [if_pos h8]
    exact ⟨_, _, rfl, fun _ => rfl⟩
  · obtain ⟨stop, hstop, hiter⟩ :=
      wadIter_eq (matchBody (Name.ofBytes (s.takeWhile (· ≠ slash)))) hD ()
    rw [visit_matchBody hs.noNul_takeWhile (Nat.not_lt.mp h8), ← firstNamed, h, endsOf, hcomplete,
      if_pos rfl] at hiter
    rw [if_neg h8]
    simp only [hiter]
    obtain ⟨b, hb⟩ := atListEnd_of_le (hstop hcomplete)
    cases cr with
    | none => exact ⟨_, _, rfl, fun _ => rfl⟩
    | some buf =>
      split
      · rw [hb]
        exact ⟨_, _, rfl, fun h => by cases h⟩
      · exact ⟨_, _, rfl, fun _ => rfl⟩

/-- Where the directory is not complete either, the search runs out of the table. -/
theorem resolveNext_eq_none (hcomplete : Complete ds D ≠ true)
    (h : firstNamed ds D (s.takeWhile (· ≠ slash)) = none)
    (h8 : (s.takeWhile (· ≠ slash)).length ≤ 8) : resolveNext ds cr s D = none := by
  obtain ⟨stop, -, hiter⟩ := wadIter_eq (matchBody (Name.ofBytes (s.takeWhile (· ≠ slash)))) hD ()
  rw [visit_matchBody hs.noNul_takeWhile h8, ← firstNamed, h, endsOf, if_neg hcomplete] at hiter
  rw [resolveNext, dif_neg hne, if_neg (Nat.not_lt.mpr h8)]
  simp only [hiter]

end Component

/-- What `getDirectory` makes of a pointer that `resolve` found. -/
theorem getDirectory_of_resolve {ds : List WadDescriptor} {path : Bytes} {D : DescPtr}
    {name : Option Name} (hres : resolve ds path none = some (D, name)) (hD : D ≠ .null)
    (directory : List Bytes) :
    getDirectory ds path directory = (wadIter ds listBody D (directory, some 0)).map fun
      | .done _ (directory', count) => (count, directory')
      | _ => (some (-1), directory) := by
  rw [getDirectory, hres]
  cases D with
  | null => exact absurd rfl hD
  | root =>
    rcases h : wadIter ds listBody .root (directory, some 0) with _ | (_ | _ | _) <;> simp [h]
  | entry i =>
    rcases h : wadIter ds listBody (.entry i) (directory, some 0) with _ | (_ | _ | _) <;> simp [h]

/-- `getDirectory` stays in the table when its loop does. -/
theorem getDirectory_eq_none_iff {ds : List WadDescriptor} {path : Bytes} {D : DescPtr}
    {name : Option Name} (hres : resolve ds path none = some (D, name)) (hD : D ≠ .null)
    (directory : List Bytes) :
    getDirectory ds path directory = none ↔ wadIter ds listBody D (directory, some 0) = none := by
  rw [getDirectory_of_resolve hres hD, Option.map_eq_none_iff]

/-- That loop does when the directory is complete. -/
theorem wadIter_listBody_ne_none {ds : List WadDescriptor} {D : DescPtr} (hD : Iterates ds D)
    (directory : List Bytes) :
    wadIter ds listBody D (directory, some 0) ≠ none ↔ Complete ds D = true := by
  obtain ⟨stop, -, hiter⟩ := wadIter_eq listBody hD (directory, some 0)
  have hvisit := visit_listBody stop (childrenOf ds D) directory 0
  rw [show asInt (0 : Nat) = some 0 from rfl] at hvisit
  rw [hiter, hvisit, endsOf]
  split
  · next hcomplete => exact iff_of_true (by simp) hcomplete
  · next hcomplete => exact iff_of_false (by simp) hcomplete

/-! ### `count` as an `int` -/

/-- No descriptor is a child twice. -/
theorem length_children_le {inDir : Bool} {ds : List WadDescriptor} :
    ∀ (i jump : Nat) (depth : Int), (children inDir i jump depth ds).length ≤ ds.length := by
  induction ds with
  | nil => exact fun _ _ _ => Nat.zero_le _
  | cons d ds ih =>
    intro i jump depth
    cases jump with
    | succ jump => exact Nat.le_succ_of_le (ih _ _ _)
    | zero =>
      rw [children]
      split
      · exact Nat.zero_le _
      · have hrest := ih (i + 1) (skipTurn d.name).1 (depth + (skipTurn d.name).2)
        rw [List.length_append, List.length_cons]
        split
        · rw [List.length_singleton]
          omega
        · rw [List.length_nil]
          omega

/-- A directory has no more children than the table has descriptors. -/
theorem length_childrenOf_le (ds : List WadDescriptor) (D : DescPtr) :
    (childrenOf ds D).length ≤ ds.length := by
  cases D with
  | null => exact Nat.zero_le _
  | root => exact length_children_le 0 0 0
  | entry i =>
    rw [childrenOf]
    split
    · exact Nat.zero_le _
    · split
      · refine (length_children_le _ _ _).trans ?_
        rw [List.length_drop]
        exact Nat.sub_le _ _
      · rw [List.length_zipIdx, List.length_take, List.length_drop]
        omega

/-- **`count` does not overflow** in a table of fewer than `2 ^ 31` descriptors. -/
theorem getDirectory_counts {ds : List WadDescriptor} (hcount : ds.length < 2 ^ 31) (path : Bytes)
    (directory directory' : List Bytes) :
    getDirectory ds path directory ≠ some (none, directory') := by
  intro hnone
  rcases hres : resolve ds path none with _ | ⟨D, name⟩
  · rw [getDirectory, hres] at hnone
    cases hnone
  by_cases hD : D = .null
  · rw [getDirectory, hres, hD] at hnone
    cases hnone
  rw [getDirectory_of_resolve hres hD] at hnone
  by_cases hIter : Iterates ds D
  · obtain ⟨stop, -, hiter⟩ := wadIter_eq listBody hIter (directory, some 0)
    have hvisit := visit_listBody stop (childrenOf ds D) directory 0
    have hle := length_childrenOf_le ds D
    rw [show asInt (0 : Nat) = some 0 from rfl, asInt_natCast (by omega)] at hvisit
    rw [hiter, hvisit, endsOf] at hnone
    split at hnone <;> cases hnone
  · cases D with
    | null => exact hD rfl
    | root => exact hIter .root
    | entry i =>
      rcases hd : ds[i]? with _ | d
      · rw [wadIter, hd] at hnone
        cases hnone
      · have hfile : hasChildren d.name = false :=
          Bool.eq_false_iff.mpr fun hdir => hIter (.entry hd hdir)
        rw [wadIter_file hd hfile] at hnone
        cases hnone

/-! ## The whole path -/

/-- What it takes to stay inside the table along these components. A directory on the
way is complete, or the next component names a child in front of the place where the
table breaks off, or is too long to be looked for; and the last directory, which
`getDirectory` lists, is complete. -/
structure StaysInside (ds : List WadDescriptor) (cs : List Bytes) : Prop where
  way : ∀ as c bs D, cs = as ++ c :: bs → Opened ds as D →
    Complete ds D = true ∨ (firstNamed ds D c).isSome = true ∨ 8 < c.length
  last : ∀ D, Opened ds cs D → Complete ds D = true

/-- What a search without `create_name` can find along these components: nothing, the
directory they open, or a file in the table. -/
inductive Found (ds : List WadDescriptor) (cs : List Bytes) : DescPtr → Prop where
  | nothing : Found ds cs .null
  | directory {D : DescPtr} (h : Opened ds cs D) : Found ds cs D
  | file {i : Nat} {d : WadDescriptor} (hd : ds[i]? = some d) (hfile : hasChildren d.name = false) :
      Found ds cs (.entry i)

section Sound

variable {ds : List WadDescriptor}

/-- `resolve`, from an open directory or a file on, reads inside the table. -/
theorem resolveNext_inBounds {cs : List Bytes} (hinside : StaysInside ds cs) (cr : Option Name) :
    ∀ (n : Nat) {s : Bytes} {as : List Bytes} {D : DescPtr}, s.length ≤ n → AtNext s →
    cs = as ++ components s → Found ds as D → D ≠ .null →
    ∃ D' name', resolveNext ds cr s D = some (D', name') ∧ (cr = none → Found ds cs D') := by
  intro n
  induction n with
  | zero =>
    intro s as D hlen hs hcs hD hne
    obtain rfl := List.eq_nil_of_length_eq_zero (Nat.le_zero.mp hlen)
    rw [components_nil, List.append_nil] at hcs
    rw [resolveNext, dif_pos rfl]
    cases cr with
    | none => exact ⟨_, _, rfl, fun _ => hcs ▸ hD⟩
    | some buf => exact ⟨_, _, rfl, fun h => by cases h⟩
  | succ n ih =>
    intro s as D hlen hs hcs hD hne
    by_cases hnil : s = []
    · subst hnil
      exact ih (Nat.zero_le n) hs hcs hD hne
    · rw [hs.components_eq hnil] at hcs
      cases hD with
      | nothing => exact absurd rfl hne
      | file hd hfile =>
        -- a file has no children: the component behind it is missing
        rw [resolveNext, dif_neg hnil]
        by_cases h8 : 8 < (s.takeWhile (· ≠ slash)).length
        · rw [if_pos h8]
          exact ⟨_, _, rfl, fun _ => .nothing⟩
        · rw [if_neg h8]
          simp only [wadIter_file hd hfile]
          exact ⟨_, _, rfl, fun _ => .nothing⟩
      | directory hopen =>
        rcases hfirst : firstNamed ds D (s.takeWhile (· ≠ slash)) with _ | ⟨d, i⟩
        · rcases hinside.way as _ _ D hcs hopen with hcomplete | hnamed | h8
          · obtain ⟨D', name', hres, hnull⟩ :=
              resolveNext_unnamed cr hopen.iterates hs hnil hcomplete hfirst
            exact ⟨D', name', hres, fun h => hnull h ▸ .nothing⟩
          · rw [hfirst] at hnamed
            cases hnamed
          · rw [resolveNext, dif_neg hnil, if_pos h8]
            exact ⟨_, _, rfl, fun _ => .nothing⟩
        · have hmem := getElem?_of_mem_childrenOf (List.mem_of_find?_eq_some hfirst)
          have hchild : Found ds (as ++ [s.takeWhile (· ≠ slash)]) (.entry i) := by
            by_cases hdir : hasChildren d.name
            · exact .directory (.child hopen (hs.isComponent hnil) hfirst hdir)
            · exact .file hmem (by simpa using hdir)
          have hshort := nextComponent_length hnil
          rw [resolveNext_named cr hopen.iterates hs hnil hfirst]
          exact ih (by omega) hs.nextComponent (by rw [hcs]; simp) hchild (by simp)

variable {path : Bytes}
  (hinside : (cstr path).head? = some slash → StaysInside ds (components (cstr path)))
include hinside

/-- `resolve` stays inside, and finds what the components open. -/
theorem resolve_inBounds (cr : Option Name) : ∃ D name, resolve ds path cr = some (D, name) ∧
    (cr = none → D = .null ∨ (cstr path).head? = some slash ∧
      Found ds (components (cstr path)) D) := by
  have h0 := zero_notMem_cstr path
  rw [resolve_cstr]
  by_cases hslash : (cstr path).head? = some slash
  · obtain ⟨s, hs, hcomp, heq⟩ := resolve_slash ds h0 hslash cr
    have hcs : components (cstr path) = [] ++ components s := hcomp.symm
    obtain ⟨D, name, hres, hfound⟩ := resolveNext_inBounds (hinside hslash) cr s.length
      (Nat.le_refl _) hs hcs (.directory .root) (by simp)
    exact ⟨D, name, heq.trans hres, fun h => Or.inr ⟨hslash, hfound h⟩⟩
  · exact ⟨_, _, resolve_noSlash ds h0 hslash cr, fun _ => Or.inl rfl⟩

/-- `getDirectory` does, too: it lists the last of them. -/
theorem getDirectory_inBounds (directory : List Bytes) : getDirectory ds path directory ≠ none := by
  obtain ⟨D, name, hres, hcases⟩ := resolve_inBounds hinside none
  by_cases hD : D = .null
  · subst hD
    rw [getDirectory, hres]
    simp
  · obtain ⟨hslash, hfound⟩ := (hcases rfl).resolve_left hD
    rw [Ne, getDirectory_eq_none_iff hres hD]
    cases hfound with
    | nothing => exact absurd rfl hD
    | file hd hfile =>
      rw [wadIter_file hd hfile]
      simp
    | directory hopen =>
      exact (wadIter_listBody_ne_none hopen.iterates directory).mpr ((hinside hslash).last D hopen)

end Sound

/-- Components that open a directory lead `resolve` there. -/
theorem Opened.walk {ds : List WadDescriptor} {as : List Bytes} {D : DescPtr}
    (h : Opened ds as D) (cr : Option Name) {s : Bytes} (hs : AtNext s) :
    ∀ {bs : List Bytes}, components s = as ++ bs → ∃ s', AtNext s' ∧ components s' = bs ∧
      resolveNext ds cr s .root = resolveNext ds cr s' D := by
  induction h with
  | root => exact fun hbs => ⟨s, hs, hbs, rfl⟩
  | @child as D c d i hD hc hfirst hdir ih =>
    intro bs hbs
    rw [List.append_assoc, List.singleton_append] at hbs
    obtain ⟨s', hs', hcomp, hwalk⟩ := ih hbs
    have hne : s' ≠ [] := by
      rintro rfl
      cases hcomp
    rw [hs'.components_eq hne, List.cons.injEq] at hcomp
    obtain ⟨rfl, hrest⟩ := hcomp
    exact ⟨_, hs'.nextComponent, hrest,
      hwalk.trans (resolveNext_named cr hD.iterates hs' hne hfirst)⟩

/-- A search and a listing that stay inside the table show what they need. -/
theorem staysInside_of_inBounds {ds : List WadDescriptor} {path : Bytes}
    (hres : resolve ds path none ≠ none) (hlist : getDirectory ds path [] ≠ none)
    (hslash : (cstr path).head? = some slash) : StaysInside ds (components (cstr path)) := by
  obtain ⟨s, hs, hcomp, heq⟩ := resolve_slash ds (zero_notMem_cstr path) hslash none
  rw [← resolve_cstr] at heq
  refine ⟨?_, ?_⟩
  · intro as c bs D hcs hopen
    obtain ⟨s', hs', hcomp', hwalk⟩ := hopen.walk none hs (hcomp.trans hcs)
    have hne : s' ≠ [] := by
      rintro rfl
      cases hcomp'
    rw [hs'.components_eq hne, List.cons.injEq] at hcomp'
    obtain ⟨rfl, -⟩ := hcomp'
    -- a directory that is left nowhere makes `resolve` run out of the table
    by_contra hstuck
    rw [not_or, not_or, Option.not_isSome_iff_eq_none, Nat.not_lt] at hstuck
    obtain ⟨hcomplete, hunnamed, h8⟩ := hstuck
    refine hres ?_
    rw [heq, hwalk, resolveNext_eq_none none hopen.iterates hs' hne hcomplete hunnamed h8]
  · intro D hopen
    obtain ⟨s', hs', hnil, hwalk⟩ := hopen.walk none hs (hcomp.trans (List.append_nil _).symm)
    obtain rfl := hs'.components_eq_nil_iff.mp hnil
    have hD : D ≠ .null := by
      rintro rfl
      cases hopen.iterates
    have hfound : resolve ds path none = some (D, none) := by
      rw [heq, hwalk, resolveNext, dif_pos rfl]
      rfl
    exact (wadIter_listBody_ne_none hopen.iterates []).mp
      (mt (getDirectory_eq_none_iff hfound hD []).mpr hlist)

/-- And they need no more. -/
theorem inBounds_of_staysInside {ds : List WadDescriptor} {path : Bytes}
    (hinside : (cstr path).head? = some slash → StaysInside ds (components (cstr path))) :
    (∀ create_name, resolve ds path create_name ≠ none) ∧
      ∀ directory, getDirectory ds path directory ≠ none := by
  refine ⟨fun create_name => ?_, getDirectory_inBounds hinside⟩
  obtain ⟨D, name, hres, -⟩ := resolve_inBounds hinside create_name
  rw [hres]
  simp

/-- **When traversal stays inside the table.** `resolve` in both modes and
`getDirectory` read only descriptors of the table exactly when the directories that
the path opens are complete, as far as they are read to their end. -/
theorem inBounds_iff (ds : List WadDescriptor) (path : Bytes) :
    ((∀ create_name, resolve ds path create_name ≠ none) ∧
        ∀ directory, getDirectory ds path directory ≠ none) ↔
      ((cstr path).head? = some slash → StaysInside ds (components (cstr path))) := by
  refine ⟨?_, inBounds_of_staysInside⟩
  rintro ⟨hres, hlist⟩
  exact staysInside_of_inBounds (hres none) (hlist [])

/-- A WAD whose table is one unterminated `_START` name. -/
def unterminated : Wad := withoutData [emptyLump ['X', '_', 'S', 'T', 'A', 'R', 'T']]

/-- `loadWad` takes that WAD as it is, and the path `/X/Y` runs out of its table. -/
theorem unterminated_directory :
    ¬ ∀ (file : Bytes) (w : Wad) (path : Bytes), Wad.loadWad file = some w →
      (∀ create_name, resolve w.descriptors path create_name ≠ none) ∧
        ∀ directory, getDirectory w.descriptors path directory ≠ none := by
  intro hall
  have hload : Wad.loadWad unterminated.file = some unterminated := by
    decide +kernel
  have hres : resolve unterminated.descriptors (chars ['/', 'X', '/', 'Y']) none = none := by
    decide +kernel
  exact (hall _ _ _ hload).1 none hres

/-! ## All paths -/

/-- A path with these components. -/
def pathTo (cs : List Bytes) : Bytes := slash :: cs.flatMap fun c => c ++ [slash]

/-- The path has these components. -/
theorem components_pathTo {cs : List Bytes} (hcs : ∀ c ∈ cs, IsComponent c) :
    components (pathTo cs) = cs := by
  rw [pathTo, components_slash]
  induction cs with
  | nil => rfl
  | cons c cs ih =>
    have hc := hcs c List.mem_cons_self
    rw [List.flatMap_cons, List.append_assoc, List.singleton_append, components,
      List.splitOn_append_cons_self_of_not_mem hc.noSlash,
      List.filter_cons_of_pos (by simpa using hc.nonempty), ← components,
      ih fun c' hc' => hcs c' (List.mem_cons_of_mem _ hc')]

/-- The path has no NUL in it. -/
theorem cstr_pathTo {cs : List Bytes} (hcs : ∀ c ∈ cs, IsComponent c) :
    cstr (pathTo cs) = pathTo cs := by
  refine cstr_eq_self fun h0 => ?_
  rw [pathTo, List.mem_cons, List.mem_flatMap] at h0
  rcases h0 with h0 | ⟨c, hc, h0⟩
  · exact absurd h0 (by decide)
  · rcases List.mem_append.mp h0 with h0 | h0
    · exact (hcs c hc).noNul h0
    · exact absurd (List.mem_singleton.mp h0) (by decide)

/-- What opens a directory are components. -/
theorem Opened.isComponent {ds : List WadDescriptor} {cs : List Bytes} {D : DescPtr}
    (h : Opened ds cs D) : ∀ c ∈ cs, IsComponent c := by
  induction h with
  | root => simp
  | child _ hc _ _ ih =>
    intro c' hc'
    rcases List.mem_append.mp hc' with hmem | hmem
    · exact ih c' hmem
    · rw [List.mem_singleton.mp hmem]
      exact hc

/-- **The tables on which every path stays inside** are those whose directories, as far
as paths open them, are complete. -/
theorem all_inBounds_iff (ds : List WadDescriptor) :
    (∀ path, (∀ create_name, resolve ds path create_name ≠ none) ∧
        ∀ directory, getDirectory ds path directory ≠ none) ↔
      ∀ cs D, Opened ds cs D → Complete ds D = true := by
  refine ⟨?_, ?_⟩
  · intro h cs D hopen
    have hcs := hopen.isComponent
    obtain ⟨hres, hlist⟩ := h (pathTo cs)
    have hinside := staysInside_of_inBounds (hres none) (hlist []) (by rw [cstr_pathTo hcs]; rfl)
    rw [cstr_pathTo hcs, components_pathTo hcs] at hinside
    exact hinside.last D hopen
  · intro hcomplete path
    exact inBounds_of_staysInside fun _ =>
      ⟨fun as _ _ D _ hopen => Or.inl (hcomplete as D hopen), fun D => hcomplete _ D⟩

end Cop4600
