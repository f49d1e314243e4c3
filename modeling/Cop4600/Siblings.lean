import Cop4600.Outline
import Mathlib.Data.List.Nodup

/-!
# Siblings that are told apart

Forests in which no two siblings have the same key, the roots among themselves
and the children of every node. There a child is found under its own key and
under no other, so that the index and the key of a child determine each other
(`firstKid_iff_of_nodup`). Adding a child keeps a forest like this exactly if no
child answers to its key yet (`distinct_appendAt_iff`).
-/

namespace Outline

universe u v

variable {α : Type u} {κ : Type v} (key : α → κ)

/-- The keys of the children of a node, in their order. -/
def keysOf (F : List (Outline α)) : List κ := F.map fun t => key t.label

/-- One more sibling has one more key. -/
theorem keysOf_concat (F : List (Outline α)) (n : Outline α) :
    keysOf key (F ++ [n]) = keysOf key F ++ [key n.label] := List.map_append

/-- No node has two children of the same key, and no two roots have the same. -/
def Distinct (F : List (Outline α)) : Prop :=
  ∀ as H, kidsAt F as = some H → (keysOf key H).Nodup

variable {key}

/-- The roots, and below them. -/
theorem distinct_iff {F : List (Outline α)} :
    Distinct key F ↔
      (keysOf key F).Nodup ∧ ∀ t ∈ F, ∀ G, t.kids = some G → Distinct key G := by
  refine ⟨fun h => ⟨h [] F (kidsAt_nil F), fun t ht G hG as H hH => ?_⟩, ?_⟩
  · obtain ⟨k, hk⟩ := List.getElem?_of_mem ht
    refine h (k :: as) H ?_
    rw [kidsAt_cons, hk, Option.bind_some, hG, Option.bind_some, hH]
  · rintro ⟨hroots, hbelow⟩ as H hH
    cases as with
    | nil =>
      obtain rfl := Option.some.inj ((kidsAt_nil F).symm.trans hH)
      exact hroots
    | cons k as =>
      rw [kidsAt_cons] at hH
      obtain ⟨G, hG, hH⟩ := Option.bind_eq_some_iff.mp hH
      obtain ⟨t, ht, hkids⟩ := Option.bind_eq_some_iff.mp hG
      exact hbelow t (List.mem_of_getElem? ht) G hkids as H hH

theorem distinct_nil : Distinct key ([] : List (Outline α)) :=
  distinct_iff.mpr ⟨List.nodup_nil, fun _ ht => absurd ht List.not_mem_nil⟩

/-- Keys are distinct if the first is not among the others, and they are below each node. -/
theorem distinct_cons {t : Outline α} {F : List (Outline α)} :
    Distinct key (t :: F) ↔ key t.label ∉ keysOf key F ∧
      (∀ G, t.kids = some G → Distinct key G) ∧ Distinct key F := by
  rw [distinct_iff, distinct_iff, List.forall_mem_cons, keysOf, List.map_cons, List.nodup_cons,
    ← keysOf]
  exact ⟨fun ⟨⟨hnew, hroots⟩, ht, hF⟩ => ⟨hnew, ht, hroots, hF⟩,
    fun ⟨hnew, ht, hroots, hF⟩ => ⟨⟨hnew, hroots⟩, ht, hF⟩⟩

/-- Siblings that something told from the key tells apart have different keys. -/
theorem Distinct.of_map {μ : Type*} {f : κ → μ} {F : List (Outline α)}
    (h : Distinct (fun a => f (key a)) F) : Distinct key F := fun as H hH => by
  refine List.Nodup.of_map f ?_
  rw [keysOf, List.map_map]
  exact h as H hH

/-- Items are, if their keys are. -/
theorem distinct_map_item {ls : List α} (h : (ls.map key).Nodup) :
    Distinct key (ls.map item) := by
  refine distinct_iff.mpr ⟨?_, fun t ht G hG => ?_⟩
  · rwa [keysOf, List.map_map]
  · obtain ⟨a, -, rfl⟩ := List.mem_map.mp ht
    cases hG

/-! ## Finding a child -/

section Find

variable [DecidableEq κ]

/-- No child answers to a key that is not among the keys. -/
theorem firstKid_eq_none_iff {H : List (Outline α)} {c : κ} :
    firstKid key H c = none ↔ c ∉ keysOf key H := by
  refine ⟨fun h hmem => ?_, fun h => ?_⟩
  · obtain ⟨t, ht, hc⟩ := List.mem_map.mp hmem
    exact firstKid_eq_none h ht hc
  · refine List.findIdx?_eq_none_iff.mpr fun t ht => ?_
    rw [decide_eq_false_iff_not]
    rintro rfl
    exact h (List.mem_map.mpr ⟨t, ht, rfl⟩)

/-- Among distinct keys, the first child under a key is the one that has it. -/
theorem firstKid_iff_of_nodup {H : List (Outline α)} (h : (keysOf key H).Nodup) {c : κ} {k : Nat} :
    firstKid key H c = some k ↔ (keysOf key H)[k]? = some c := by
  refine ⟨fun hk => ?_, fun hk => ?_⟩
  · obtain ⟨t, ht, hc⟩ := firstKid_eq_some hk
    rw [keysOf, List.getElem?_map, ht, Option.map_some, hc]
  · rcases hfirst : firstKid key H c with _ | j
    · exact absurd (List.mem_of_getElem? hk) (firstKid_eq_none_iff.mp hfirst)
    · obtain ⟨t, ht, hc⟩ := firstKid_eq_some hfirst
      have hj : (keysOf key H)[j]? = some c := by
        rw [keysOf, List.getElem?_map, ht, Option.map_some, hc]
      have hlt : k < (keysOf key H).length := (List.getElem?_eq_some_iff.mp hk).1
      rw [(List.getElem?_inj hlt h).mp (hk.trans hj.symm)]

/-- Where every child is the first under its key, the keys are distinct. -/
theorem nodup_of_firstKid {H : List (Outline α)}
    (h : ∀ k t, H[k]? = some t → firstKid key H (key t.label) = some k) :
    (keysOf key H).Nodup := by
  refine List.nodup_iff_getElem?_ne_getElem?.mpr fun i j hij hj heq => ?_
  rw [keysOf, List.length_map] at hj
  have hi : H[i]? = some H[i] := List.getElem?_eq_getElem (Nat.lt_trans hij hj)
  have hj : H[j]? = some H[j] := List.getElem?_eq_getElem hj
  rw [keysOf, List.getElem?_map, List.getElem?_map, hi, hj, Option.map_some, Option.map_some] at heq
  have hfirst := h i _ hi
  rw [Option.some.inj heq, h j _ hj] at hfirst
  exact absurd (Option.some.inj hfirst).symm (Nat.ne_of_lt hij)

end Find

/-! ## Adding a child -/

/-- A change that keeps the key of its node keeps the keys. -/
theorem keysOf_modify {F : List (Outline α)} {f : Outline α → Outline α}
    (hf : ∀ t, key (f t).label = key t.label) (k : Nat) :
    keysOf key (F.modify k f) = keysOf key F := by
  refine List.ext_getElem? fun i => ?_
  rw [keysOf, keysOf, List.getElem?_map, List.getElem?_map, List.getElem?_modify]
  rcases F[i]? with _ | t
  · rfl
  · by_cases hk : k = i
    · simp [hk, hf]
    · simp [hk]

/-- A new sibling with a new key keeps them distinct. -/
theorem Distinct.append {F : List (Outline α)} (h : Distinct key F) {n : Outline α}
    (hn : ∀ G, n.kids = some G → Distinct key G) (hfresh : key n.label ∉ keysOf key F) :
    Distinct key (F ++ [n]) := by
  obtain ⟨hroots, hbelow⟩ := distinct_iff.mp h
  refine distinct_iff.mpr ⟨?_, fun t ht => ?_⟩
  · rw [keysOf_concat]
    refine List.nodup_append.mpr ⟨hroots, List.pairwise_singleton _ _, fun a ha b hb => ?_⟩
    obtain rfl := List.mem_singleton.mp hb
    rintro rfl
    exact hfresh ha
  · rcases List.mem_append.mp ht with ht | ht
    · exact hbelow t ht
    · obtain rfl := List.mem_singleton.mp ht
      exact hn

/-- A new child with a new key. -/
theorem Distinct.appendAt {n : Outline α} (hn : ∀ G, n.kids = some G → Distinct key G) :
    ∀ {as : List Nat} {F : List (Outline α)}, Distinct key F →
      (∀ H, Outline.kidsAt F as = some H → key n.label ∉ keysOf key H) →
      Distinct key (Outline.appendAt F as n) := by
  intro as
  induction as with
  | nil =>
    intro F h hfresh
    rw [appendAt_nil]
    exact h.append hn (hfresh F (kidsAt_nil F))
  | cons k as ih =>
    intro F h hfresh
    obtain ⟨hroots, hbelow⟩ := distinct_iff.mp h
    rw [appendAt_cons]
    refine distinct_iff.mpr ⟨?_, fun t' ht' G hG => ?_⟩
    · rwa [keysOf_modify fun t => by rw [label_mapKids]]
    · obtain ⟨j, hj⟩ := List.getElem?_of_mem ht'
      rw [List.getElem?_modify] at hj
      obtain ⟨t, ht, rfl⟩ := Option.map_eq_some_iff.mp hj
      have hmem := List.mem_of_getElem? ht
      by_cases hk : k = j
      · subst hk
        rw [if_pos rfl] at hG
        cases t with
        | item a => cases hG
        | block a ls => exact hbelow _ hmem G hG
        | group o cs c =>
          obtain rfl := Option.some.inj hG
          refine ih (hbelow _ hmem cs rfl) fun H hH => hfresh H ?_
          rw [kidsAt_cons, ht, Option.bind_some, kids_group, Option.bind_some, hH]
      · rw [if_neg hk] at hG
        exact hbelow t hmem G hG

/-- **One more child** keeps the siblings distinct exactly if its key is new. -/
theorem distinct_appendAt_iff {F H : List (Outline α)} (h : Distinct key F) {as : List Nat}
    (hopen : Opens F as) (hH : Outline.kidsAt F as = some H) {n : Outline α}
    (hn : ∀ G, n.kids = some G → Distinct key G) :
    Distinct key (Outline.appendAt F as n) ↔ key n.label ∉ keysOf key H := by
  refine ⟨fun h' hmem => ?_, fun hfresh => h.appendAt hn fun H' hH' => ?_⟩
  · have hnodup := h' as _ (kidsAt_appendAt hopen hH n)
    rw [keysOf_concat] at hnodup
    exact (List.nodup_append.mp hnodup).2.2 _ hmem _ List.mem_cons_self rfl
  · obtain rfl := Option.some.inj (hH.symm.trans hH')
    exact hfresh

end Outline
