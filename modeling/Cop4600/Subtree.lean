import Cop4600.Lookup

/-!
# Skipping a subtree

Where the loop of `Wad::skip` ends when it starts at a node, what it examines on the way and
which values its `depth` takes (`skip_subtree`).
-/

namespace Cop4600

open Outline

/-- One past the last descriptor of a node that begins at `i`. -/
def pastNode (i : Nat) : Outline WadDescriptor → Nat
  | item _ => i + 1
  | block _ _ => i + 11
  | group _ G _ => i + 1 + (flattenAll G).length + 1

theorem pastNode_eq {t : Outline WadDescriptor} (ht : WellFormed [t]) (i : Nat) :
    pastNode i t = i + t.flatten.length := by
  cases ht with
  | file _ _ => simp [pastNode]
  | map _ hten _ _ => simp [pastNode, hten]
  | dir _ _ _ _ =>
    simp [pastNode]
    omega

/-- **`skip` steps over exactly one subtree.** Started at the first descriptor of a node,
the loop ends one past the node's last one: one past a file, eleven past a map's name, one
past the `_END` that closes a directory. Its turns examine descriptors of the node only,
and `depth` is never negative; as an `int` it does not overflow in a table that a header
can announce. -/
theorem skip_subtree {F : WadForest} (hF : WellFormed F) {as : List Nat}
    {t : Outline WadDescriptor} (ht : Outline.nodeAt F as = some t) :
    skip (flattenAll F) (position F as) = some (pastNode (position F as) t) ∧
      ((flattenAll F).length < 2 ^ 32 →
        skipInt (flattenAll F) (position F as) 0 = some (pastNode (position F as) t)) ∧
      (∃ turns, skipTurns (flattenAll F) (position F as) 0 =
          (turns, some (pastNode (position F as) t)) ∧
        ∀ turn ∈ turns, position F as ≤ turn.1 ∧ turn.1 < pastNode (position F as) t ∧
          0 ≤ turn.2) ∧
      ∀ o G c, t = group o G c →
        (flattenAll F)[pastNode (position F as) t - 1]? = some c ∧ isEnd c.name = true := by
  have hnode := hF.nodeAt ht
  obtain ⟨rest, hrest⟩ := drop_position ht
  have hskip := skip_node hnode hrest
  obtain ⟨turns, hin, hturns⟩ := skipTurns_node hnode hrest
  rw [← pastNode_eq hnode] at hskip hin hturns
  refine ⟨hskip, fun hcount => ?_, ⟨turns, hturns, hin⟩, ?_⟩
  · rw [← skip_eq_skipInt hcount, hskip]
  · rintro o G c rfl
    have h₁ : (flattenAll F).drop (position F as) = o :: (flattenAll G ++ (c :: rest)) := by
      simpa using hrest
    refine ⟨getElem?_of_drop (drop_add_of_drop (drop_succ_of_drop h₁)), ?_⟩
    cases hnode with
    | dir _ _ hc _ => exact hc

/-- The directory `Gl`, with the directory `ad` inside. -/
theorem skip_subtree_sample :
    skip (flattenAll sampleForest) 0 = some 5 :=
  (@skip_subtree sampleForest wellFormed_sampleForest [0] _ rfl).1.trans (by decide)

end Cop4600
