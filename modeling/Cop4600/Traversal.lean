import Cop4600.Descriptor

/-!
# Walking the descriptor table

`Wad::skip`, the `WAD_ITER` macro, `Wad::resolve` and `Wad::getDirectory`, as
`Wad.cpp` computes them over the descriptor vector. Nothing here assumes that
the table is well nested.

A pointer into the vector is an index. Reading through an index outside the
vector is undefined behaviour in the source; here the computation stops with
`none`, and `some` means that every descriptor it dereferenced was in range.
All loops only move forward, so each of them either finishes or runs into such
a read. `int depth` is taken as an integer: in a table of fewer than `2 ^ 32`
entries, the most a header can announce, a skip that terminates does not leave
the `int` range (`skip_eq_skipInt`). `int count` can leave it in such a table, and
is an `int` here.
-/

namespace Cop4600

universe u

/-- A `WadDescriptor *`: the null pointer, `WAD_ROOT`, or a pointer to an entry
of the vector (or one past its end). -/
inductive DescPtr : Type where
  | null
  | root
  | entry (i : Nat)
  deriving DecidableEq

/-- `descriptors.data() + i`. An empty vector never held an element, so its
`data()` is null. -/
def dataPtr (ds : List WadDescriptor) (i : Nat) : DescPtr :=
  if ds = [] then .null else .entry i

/-! ## `skip` -/

/-- What one turn of the loop in `skip` does besides `++desc`: how many further
descriptors it jumps, and by how much `depth` changes. -/
def skipTurn (name : Name) : Nat × Int :=
  if isStart name then (0, 1)
  else if isEnd name then (0, -1)
  else if isMap name then (10, 0)
  else (0, 0)

theorem lt_length_of_getElem? {α : Type u} {l : List α} {i : Nat} {a : α} (h : l[i]? = some a) :
    i < l.length := (List.getElem?_eq_some_iff.mp h).1

/-- The loop of `Wad::skip`, entered with a given `depth`. -/
def skipFrom (ds : List WadDescriptor) (desc : Nat) (depth : Int) : Option Nat :=
  match _h : ds[desc]? with
  | none => none
  | some d =>
    let desc' := desc + (skipTurn d.name).1 + 1
    let depth' := depth + (skipTurn d.name).2
    if depth' = 0 then some desc' else skipFrom ds desc' depth'
termination_by ds.length - desc
decreasing_by
  have := lt_length_of_getElem? _h
  omega

/-- `Wad::skip`. -/
def skip (ds : List WadDescriptor) (desc : Nat) : Option Nat := skipFrom ds desc 0

/-- Outside the table nothing can be skipped. -/
theorem skipFrom_none {ds : List WadDescriptor} {desc : Nat} (h : ds[desc]? = none) (depth : Int) :
    skipFrom ds desc depth = none := by
  rw [skipFrom]
  split
  · rfl
  · rename_i h'
    rw [h] at h'
    cases h'

/-- One turn of the loop. -/
theorem skipFrom_some {ds : List WadDescriptor} {desc : Nat} {d : WadDescriptor}
    (h : ds[desc]? = some d) (depth : Int) :
    skipFrom ds desc depth =
      if depth + (skipTurn d.name).2 = 0 then some (desc + (skipTurn d.name).1 + 1)
      else skipFrom ds (desc + (skipTurn d.name).1 + 1) (depth + (skipTurn d.name).2) := by
  rw [skipFrom]
  split
  · rename_i h'
    rw [h] at h'
    cases h'
  · rename_i d' h'
    obtain rfl := Option.some.inj (h'.symm.trans h)
    rfl

/-- `skip` moves forward, from a descriptor that is in range. -/
theorem skipFrom_gt {ds : List WadDescriptor} {desc : Nat} {depth : Int} {j : Nat}
    (h : skipFrom ds desc depth = some j) : desc < j := by
  induction desc, depth using skipFrom.induct ds with
  | case1 desc depth hnone => rw [skipFrom_none hnone] at h; cases h
  | case2 desc depth d hd desc' hzero =>
    rw [skipFrom_some hd, if_pos hzero] at h
    obtain rfl := Option.some.inj h
    omega
  | case3 desc depth d hd desc' depth' hzero ih =>
    rw [skipFrom_some hd, if_neg hzero] at h
    have := ih h
    omega

/-- `skip` goes forward. -/
theorem skip_gt {ds : List WadDescriptor} {desc j : Nat} (h : skip ds desc = some j) :
    desc < j := skipFrom_gt h

/-! ### `depth` as an `int` -/

/-- The loop of `skip` with the `int` that `depth` is: it also stops with `none`
where `++depth` or `--depth` overflows. -/
def skipInt (ds : List WadDescriptor) (desc : Nat) (depth : Int) : Option Nat :=
  match _h : ds[desc]? with
  | none => none
  | some d =>
    let desc' := desc + (skipTurn d.name).1 + 1
    let depth' := depth + (skipTurn d.name).2
    if depth' < -2 ^ 31 ∨ 2 ^ 31 ≤ depth' then none
    else if depth' = 0 then some desc'
    else skipInt ds desc' depth'
termination_by ds.length - desc
decreasing_by
  have := lt_length_of_getElem? _h
  omega

/-- One name changes the depth by one at most. -/
theorem skipTurn_natAbs (name : Name) : (skipTurn name).2.natAbs ≤ 1 := by
  rw [skipTurn]
  split
  · exact Nat.le_refl 1
  · split
    · exact Nat.le_refl 1
    · split <;> exact Nat.zero_le 1

/-- A skip that terminates has as many descriptors left as it has levels to leave. -/
theorem skipFrom_room {ds : List WadDescriptor} {desc : Nat} {depth : Int} {j : Nat}
    (h : skipFrom ds desc depth = some j) : desc + depth.natAbs ≤ ds.length := by
  induction desc, depth using skipFrom.induct ds with
  | case1 desc depth hnone => rw [skipFrom_none hnone] at h; cases h
  | case2 desc depth d hd desc' hzero =>
    have hlt := lt_length_of_getElem? hd
    have hturn := skipTurn_natAbs d.name
    have hzero : depth + (skipTurn d.name).2 = 0 := hzero
    omega
  | case3 desc depth d hd desc' depth' hzero ih =>
    rw [skipFrom_some hd, if_neg hzero] at h
    have hturn := skipTurn_natAbs d.name
    have hroom : desc + (skipTurn d.name).1 + 1 + (depth + (skipTurn d.name).2).natAbs ≤
        ds.length := ih h
    omega

/-- Outside the table nothing can be skipped with an `int` either. -/
theorem skipInt_none {ds : List WadDescriptor} {desc : Nat} (h : ds[desc]? = none) (depth : Int) :
    skipInt ds desc depth = none := by
  rw [skipInt]
  split
  · rfl
  · next d hd =>
    rw [h] at hd
    cases hd

/-- One turn of `skip` with an `int`, which ends where the depth overflows. -/
theorem skipInt_some {ds : List WadDescriptor} {desc : Nat} {d : WadDescriptor}
    (h : ds[desc]? = some d) (depth : Int) :
    skipInt ds desc depth =
      if depth + (skipTurn d.name).2 < -2 ^ 31 ∨ 2 ^ 31 ≤ depth + (skipTurn d.name).2 then none
      else if depth + (skipTurn d.name).2 = 0 then some (desc + (skipTurn d.name).1 + 1)
      else skipInt ds (desc + (skipTurn d.name).1 + 1) (depth + (skipTurn d.name).2) := by
  rw [skipInt]
  split
  · next hnone =>
    rw [h] at hnone
    cases hnone
  · next d' hd =>
    obtain rfl := Option.some.inj (hd.symm.trans h)
    rfl

/-- The depth is never further from zero than there are descriptors behind, so it does not
overflow in a table that a header can announce. -/
theorem skipInt_eq_skipFrom {ds : List WadDescriptor} (hcount : ds.length < 2 ^ 32) {desc : Nat}
    {depth : Int} (hdepth : depth.natAbs ≤ desc) :
    skipInt ds desc depth = skipFrom ds desc depth := by
  induction desc, depth using skipFrom.induct ds with
  | case1 desc depth hnone => rw [skipInt_none hnone, skipFrom_none hnone]
  | case2 desc depth d hd desc' hzero =>
    have hzero : depth + (skipTurn d.name).2 = 0 := hzero
    rw [skipInt_some hd, skipFrom_some hd, if_neg (by omega)]
    simp only [if_pos hzero]
  | case3 desc depth d hd desc' depth' hzero ih =>
    have hzero : ¬ depth + (skipTurn d.name).2 = 0 := hzero
    have hturn := skipTurn_natAbs d.name
    have hdepth' : (depth + (skipTurn d.name).2).natAbs ≤ desc + (skipTurn d.name).1 + 1 := by
      omega
    rw [skipFrom_some hd, if_neg hzero, skipInt_some hd]
    by_cases hover : depth + (skipTurn d.name).2 < -2 ^ 31 ∨ 2 ^ 31 ≤ depth + (skipTurn d.name).2
    · -- 2 ^ 31 descriptors lie behind, and as many would have to follow
      rw [if_pos hover, eq_comm, Option.eq_none_iff_forall_ne_some]
      intro j hj
      have hroom := skipFrom_room hj
      omega
    · rw [if_neg hover, if_neg hzero]
      exact ih hdepth'

/-- **`depth` does not overflow** in a table that a header can announce, unless the
skip runs out of the table anyway: it takes one descriptor for every level. -/
theorem skip_eq_skipInt {ds : List WadDescriptor} (hcount : ds.length < 2 ^ 32) (desc : Nat) :
    skip ds desc = skipInt ds desc 0 := (skipInt_eq_skipFrom hcount (Nat.zero_le desc)).symm

/-! ## `WAD_ITER` -/

/-- How an expansion of `WAD_ITER(d, body)` ends. -/
inductive IterEnd (σ : Type u) : Type u where
  /-- `body` jumped out of the loop, leaving `d` at this entry -/
  | goto (desc : Nat)
  /-- a loop ran to its end, leaving `d` here -/
  | done (desc : Nat) (s : σ)
  /-- no loop was entered: the `else` branch after the macro -/
  | notDir

section Iter

variable {σ : Type u} (ds : List WadDescriptor) (body : σ → WadDescriptor → Option σ)

/-- The loop over the top level. `body` updates the caller's locals, or answers
`none` for a jump out of the loop. -/
def rootIter (desc : Nat) (s : σ) : Option (IterEnd σ) :=
  if desc = ds.length then some (.done desc s)
  else
    match _hd : ds[desc]? with
    | none => none
    | some d =>
      match body s d with
      | none => some (.goto desc)
      | some s' =>
        match _hj : skip ds desc with
        | none => none
        | some j => rootIter j s'
termination_by ds.length - desc
decreasing_by
  have := lt_length_of_getElem? _hd
  have := skip_gt _hj
  omega

/-- The loop over the inside of a `_START`/`_END` directory. -/
def dirIter (desc : Nat) (s : σ) : Option (IterEnd σ) :=
  match _hd : ds[desc]? with
  | none => none
  | some d =>
    if isEnd d.name then some (.done desc s)
    else
      match body s d with
      | none => some (.goto desc)
      | some s' =>
        match _hj : skip ds desc with
        | none => none
        | some j => dirIter j s'
termination_by ds.length - desc
decreasing_by
  have := lt_length_of_getElem? _hd
  have := skip_gt _hj
  omega

/-- The loop over the lumps of a map, with this many turns left. -/
def mapIter : Nat → Nat → σ → Option (IterEnd σ)
  | 0, desc, s => some (.done desc s)
  | n + 1, desc, s =>
    match ds[desc]? with
    | none => none
    | some d =>
      match body s d with
      | none => some (.goto desc)
      | some s' => mapIter n (desc + 1) s'

/-- `WAD_ITER(d, body)`. -/
def wadIter (d : DescPtr) (s : σ) : Option (IterEnd σ) :=
  match d with
  | .null => none
  | .root => rootIter ds body 0 s
  | .entry i =>
    match ds[i]? with
    | none => none
    | some desc =>
      if isStart desc.name then dirIter ds body (i + 1) s
      else if isMap desc.name then mapIter ds body 10 (i + 1) s
      else some .notDir

variable {ds body}

/-- At the end of the vector the loop over the root is over. -/
theorem rootIter_end (s : σ) : rootIter ds body ds.length s = some (.done ds.length s) := by
  rw [rootIter, if_pos rfl]

/-- One turn of the loop over the root: the body, and `skip`. -/
theorem rootIter_some {desc : Nat} {d : WadDescriptor} (hd : ds[desc]? = some d) (s : σ) :
    rootIter ds body desc s =
      match body s d with
      | none => some (.goto desc)
      | some s' => (skip ds desc).bind fun j => rootIter ds body j s' := by
  have hlt := lt_length_of_getElem? hd
  rw [rootIter, if_neg (by omega)]
  split
  · rename_i h'
    rw [hd] at h'
    cases h'
  · rename_i d' h'
    obtain rfl := Option.some.inj (h'.symm.trans hd)
    rcases body s d' with _ | s'
    · rfl
    · rcases skip ds desc with _ | j <;> rfl

/-- One turn of the loop over a directory, which ends at an `_END` name. -/
theorem dirIter_some {desc : Nat} {d : WadDescriptor} (hd : ds[desc]? = some d) (s : σ) :
    dirIter ds body desc s =
      if isEnd d.name then some (.done desc s)
      else
        match body s d with
        | none => some (.goto desc)
        | some s' => (skip ds desc).bind fun j => dirIter ds body j s' := by
  rw [dirIter]
  split
  · rename_i h'
    rw [hd] at h'
    cases h'
  · rename_i d' h'
    obtain rfl := Option.some.inj (h'.symm.trans hd)
    by_cases he : isEnd d'.name
    · rw [if_pos he, if_pos he]
    · rw [if_neg he, if_neg he]
      rcases body s d' with _ | s'
      · rfl
      · rcases skip ds desc with _ | j <;> rfl

end Iter

/-! ## `resolve` -/

/-- The byte between the components of a path. -/
def slash : UInt8 := '/'.toUInt8

/-- What is left of a path after its first component and the slashes behind it. -/
def nextComponent (s : Bytes) : Bytes := (s.dropWhile (· ≠ slash)).dropWhile (· = slash)

/-- Behind a component there is less of the path left. -/
theorem nextComponent_length {s : Bytes} (h : s ≠ []) : (nextComponent s).length < s.length := by
  rcases s with _ | ⟨b, t⟩
  · exact absurd rfl h
  · rw [nextComponent, List.length_cons, Nat.lt_succ_iff]
    by_cases hb : b = slash
    · rw [List.dropWhile_cons_of_neg (by simpa using hb),
        List.dropWhile_cons_of_pos (by simpa using hb)]
      exact (List.dropWhile_sublist _).length_le
    · rw [List.dropWhile_cons_of_pos (by simpa using hb)]
      exact ((List.dropWhile_sublist _).trans (List.dropWhile_sublist _)).length_le

/-- The loop body in `resolve`: `goto next` at a child with the component's name. -/
def matchBody (component : Name) : Unit → WadDescriptor → Option Unit :=
  fun _ desc => if component = componentName desc.name then none else some ()

/-- The test behind the loops of `resolve`: did the iteration stop at the end of
the vector, or at an `_END` name? -/
def atListEnd (ds : List WadDescriptor) (desc : Nat) : Option Bool :=
  if desc = ds.length then some true else ds[desc]?.map fun d => isEnd d.name

/-- `resolve` from the label `next` on, `s` pointing at the rest of the path. The
result is the returned pointer and what `create_name` (null: `none`) holds then. -/
def resolveNext (ds : List WadDescriptor) (create_name : Option Name) (s : Bytes) (desc : DescPtr) :
    Option (DescPtr × Option Name) :=
  if _hs : s = [] then
    some (if create_name.isSome then (.null, create_name) else (desc, create_name))
  else if 8 < (s.takeWhile (· ≠ slash)).length then some (.null, create_name)
  else
    let component := Name.ofBytes (s.takeWhile (· ≠ slash))
    match wadIter ds (matchBody component) desc () with
    | none => none
    | some (.goto i) => resolveNext ds create_name (nextComponent s) (.entry i)
    | some .notDir => some (.null, create_name)
    | some (.done i _) =>
      if create_name.isSome && nextComponent s = [] then
        (atListEnd ds i).map fun stop =>
          if stop then (dataPtr ds i, some component) else (.null, create_name)
      else some (.null, create_name)
termination_by s.length
decreasing_by exact nextComponent_length _hs

/-- `Wad::resolve`. -/
def resolve (ds : List WadDescriptor) (path : Bytes) (create_name : Option Name) :
    Option (DescPtr × Option Name) :=
  match cstr path with
  | [] => some (.null, create_name)
  | c :: s =>
    if c = slash then resolveNext ds create_name (s.dropWhile (· = slash)) .root
    else some (.null, create_name)

/-! ## `getDirectory` -/

/-- The loop body in `getDirectory`, over `directory` and `count`. There is no `count`
any more once `++count` has overflowed; which descriptors are read does not depend on it. -/
def listBody : List Bytes × Option Int → WadDescriptor → Option (List Bytes × Option Int) :=
  fun (directory, count) desc =>
    let namelen := strnlen desc.name.toList 8 - (if isStart desc.name then 6 else 0)
    some (directory ++ [desc.name.toList.take namelen], count.bind fun count => asInt (count + 1))

/-- One turn, with `count` at a number of entries. -/
theorem listBody_asInt (directory : List Bytes) (count : Nat) (desc : WadDescriptor) :
    listBody (directory, asInt count) desc =
      some (directory ++ [desc.name.toList.take
        (strnlen desc.name.toList 8 - if isStart desc.name then 6 else 0)],
        asInt (count + 1 : Nat)) := by
  rw [Int.natCast_add, Int.natCast_one, ← asInt_bind_succ (Int.natCast_nonneg count)]
  rfl

/-- `Wad::getDirectory`: the return value and the caller's vector. As everywhere, `none`
is a read outside the vector; where the return value is `none`, its `int` has overflowed,
and the call is undefined for that reason. -/
def getDirectory (ds : List WadDescriptor) (path : Bytes) (directory : List Bytes) :
    Option (Option Int × List Bytes) :=
  match resolve ds path none with
  | none => none
  | some (.null, _) => some (some (-1), directory)
  | some (desc, _) =>
    match wadIter ds listBody desc (directory, some 0) with
    | none => none
    | some (.done _ (directory', count)) => some (count, directory')
    | some _ => some (some (-1), directory)

end Cop4600
