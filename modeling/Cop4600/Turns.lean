import Cop4600.Traversal

/-!
# The turns of `skip`

`skipFrom` says where the loop of `Wad::skip` ends. `skipTurns` runs the same loop and
writes down, for each of its turns, which descriptor it examines and which `depth` it
leaves. Turns that stay within a part of the table can be put together (`PassesOver.trans`),
and a directory puts one turn in front of those over its inside and one behind them
(`passesOver_group`).
-/

namespace Cop4600

/-! ## One turn on each kind of name -/

/-- A `_START` name leads one level down. -/
theorem skipTurn_start {name : Name} (h : isStart name) : skipTurn name = (0, 1) := by
  rw [skipTurn, if_pos h]

/-- An `_END` name leads one up. -/
theorem skipTurn_end {name : Name} (h : isEnd name) : skipTurn name = (0, -1) := by
  have hs : ¬ isStart name := fun hs => by simp [isEnd_of_isStart hs] at h
  rw [skipTurn, if_neg hs, if_pos h]

/-- A map has ten descriptors behind it that are not looked at. -/
theorem skipTurn_map {name : Name} (h : isMap name) : skipTurn name = (10, 0) := by
  rw [skipTurn, if_neg (by simp [isStart_of_isMap h]), if_neg (by simp [isEnd_of_isMap h]),
    if_pos h]

/-- A lump is passed by. -/
theorem skipTurn_lump {name : Name} (h : isLump name) : skipTurn name = (0, 0) := by
  obtain ⟨hs, hm, he⟩ := isLump_iff.mp h
  simp [skipTurn, hs, hm, he]

/-! ## The recorded loop -/

/-- The loop of `skip` with a record of its turns: the descriptor examined, in range or
not, and `depth` behind the turn. -/
def skipTurns (ds : List WadDescriptor) (desc : Nat) (depth : Int) :
    List (Nat × Int) × Option Nat :=
  match _h : ds[desc]? with
  | none => ([(desc, depth)], none)
  | some d =>
    let desc' := desc + (skipTurn d.name).1 + 1
    let depth' := depth + (skipTurn d.name).2
    if depth' = 0 then ([(desc, depth')], some desc')
    else
      let behind := skipTurns ds desc' depth'
      ((desc, depth') :: behind.1, behind.2)
termination_by ds.length - desc
decreasing_by
  have := lt_length_of_getElem? _h
  omega

/-- Outside the table there is one turn, which reads what is not there. -/
theorem skipTurns_none {ds : List WadDescriptor} {desc : Nat} (h : ds[desc]? = none)
    (depth : Int) : skipTurns ds desc depth = ([(desc, depth)], none) := by
  rw [skipTurns]
  split
  · rfl
  · next d hd =>
    rw [h] at hd
    cases hd

/-- One turn of the loop. -/
theorem skipTurns_some {ds : List WadDescriptor} {desc : Nat} {d : WadDescriptor}
    (h : ds[desc]? = some d) (depth : Int) :
    skipTurns ds desc depth =
      if depth + (skipTurn d.name).2 = 0 then
        ([(desc, depth + (skipTurn d.name).2)], some (desc + (skipTurn d.name).1 + 1))
      else
        ((desc, depth + (skipTurn d.name).2) ::
          (skipTurns ds (desc + (skipTurn d.name).1 + 1) (depth + (skipTurn d.name).2)).1,
        (skipTurns ds (desc + (skipTurn d.name).1 + 1) (depth + (skipTurn d.name).2)).2) := by
  rw [skipTurns]
  split
  · next hnone =>
    rw [h] at hnone
    cases hnone
  · next d' hd =>
    obtain rfl := Option.some.inj (hd.symm.trans h)
    rfl

/-- **The record changes nothing**: the loop ends where `skipFrom` says. -/
theorem skipTurns_snd (ds : List WadDescriptor) (desc : Nat) (depth : Int) :
    (skipTurns ds desc depth).2 = skipFrom ds desc depth := by
  induction desc, depth using skipFrom.induct ds with
  | case1 desc depth hnone => rw [skipTurns_none hnone, skipFrom_none hnone]
  | case2 desc depth d hd desc' hzero =>
    rw [skipTurns_some hd, skipFrom_some hd, if_pos hzero, if_pos hzero]
  | case3 desc depth d hd desc' depth' hzero ih =>
    rw [skipTurns_some hd, skipFrom_some hd, if_neg hzero, if_neg hzero]
    exact ih

/-! ## Turns that stay inside a text -/

/-- These turns examine descriptors from `i` on and in front of `j`, and leave no depth
below `depth`. -/
def Within (i j : Nat) (depth : Int) (turns : List (Nat × Int)) : Prop :=
  ∀ turn ∈ turns, i ≤ turn.1 ∧ turn.1 < j ∧ depth ≤ turn.2

/-- Turns in a range are in every larger one. -/
theorem Within.mono {i j i' j' : Nat} {depth depth' : Int} {turns : List (Nat × Int)}
    (h : Within i j depth turns) (hi : i' ≤ i) (hj : j ≤ j') (hdepth : depth' ≤ depth) :
    Within i' j' depth' turns := by
  intro turn hturn
  obtain ⟨hlow, hhigh, hle⟩ := h turn hturn
  exact ⟨by omega, by omega, by omega⟩

/-- Turns one after the other stay in a range in which both parts do. -/
theorem Within.append {i j : Nat} {depth : Int} {turns turns' : List (Nat × Int)}
    (h : Within i j depth turns) (h' : Within i j depth turns') :
    Within i j depth (turns ++ turns') := by
  intro turn hturn
  rcases List.mem_append.mp hturn with hturn | hturn
  · exact h turn hturn
  · exact h' turn hturn

/-- A single turn in its range. -/
theorem within_singleton {i j k : Nat} {depth depth' : Int} :
    Within i j depth [(k, depth')] ↔ i ≤ k ∧ k < j ∧ depth ≤ depth' := by
  rw [Within, List.forall_mem_singleton]

/-- The turns from `i` on begin with some that stay inside `[i, j)` and not below
`depth`, and then the loop is at `j`, at that depth again. -/
def PassesOver (ds : List WadDescriptor) (i j : Nat) (depth : Int) : Prop :=
  ∃ turns, Within i j depth turns ∧
    skipTurns ds i depth =
      (turns ++ (skipTurns ds j depth).1, (skipTurns ds j depth).2)

/-- The loop is where it is without a turn. -/
theorem passesOver_refl (ds : List WadDescriptor) (i : Nat) (depth : Int) :
    PassesOver ds i i depth := by
  refine ⟨[], fun turn hturn => ?_, rfl⟩
  cases hturn

/-- What is passed over in two parts is passed over. -/
theorem PassesOver.trans {ds : List WadDescriptor} {i j k : Nat} {depth : Int}
    (h : PassesOver ds i j depth) (h' : PassesOver ds j k depth) (hij : i ≤ j) (hjk : j ≤ k) :
    PassesOver ds i k depth := by
  obtain ⟨turns, hin, heq⟩ := h
  obtain ⟨turns', hin', heq'⟩ := h'
  refine ⟨turns ++ turns', ?_, ?_⟩
  · exact (hin.mono (Nat.le_refl i) hjk (Int.le_refl depth)).append
      (hin'.mono hij (Nat.le_refl k) (Int.le_refl depth))
  · rw [heq, heq', List.append_assoc]

/-- One turn that leaves the depth as it is. -/
theorem passesOver_turn {ds : List WadDescriptor} {i jump : Nat} {d : WadDescriptor} {depth : Int}
    (hd : ds[i]? = some d) (hturn : skipTurn d.name = (jump, 0)) (hpos : 0 < depth) :
    PassesOver ds i (i + jump + 1) depth := by
  refine ⟨[(i, depth)], within_singleton.mpr ⟨Nat.le_refl i, by omega, Int.le_refl depth⟩, ?_⟩
  rw [skipTurns_some hd, hturn, if_neg (by omega), Int.add_zero]
  rfl

/-- A turn into a directory, turns over its inside, and the turn at its end. -/
theorem passesOver_group {ds : List WadDescriptor} {i j : Nat} {o c : WadDescriptor} {depth : Int}
    (ho : ds[i]? = some o) (hstart : isStart o.name) (hc : ds[j]? = some c)
    (hend : isEnd c.name) (hij : i < j) (hpos : 0 < depth)
    (hinside : PassesOver ds (i + 1) j (depth + 1)) : PassesOver ds i (j + 1) depth := by
  obtain ⟨turns, hin, heq⟩ := hinside
  have hback : depth + 1 + -1 = depth := by omega
  refine ⟨(i, depth + 1) :: (turns ++ [(j, depth)]), ?_, ?_⟩
  · rw [← List.singleton_append]
    refine (within_singleton.mpr ⟨Nat.le_refl i, by omega, by omega⟩).append
      ((hin.mono (by omega) (by omega) (by omega)).append ?_)
    exact within_singleton.mpr ⟨by omega, Nat.lt_succ_self j, Int.le_refl depth⟩
  · rw [skipTurns_some ho, skipTurn_start hstart, if_neg (by omega)]
    simp only [Nat.add_zero]
    rw [heq, skipTurns_some hc, skipTurn_end hend, hback, if_neg (by omega)]
    simp

end Cop4600
