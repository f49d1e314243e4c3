import Cop4600.Outline
import Mathlib.Data.List.Nodup

/-!
# The nodes of an outline, one after the other

A forest is explored by visiting a node, then what is below it, then its next sibling.
`preorder` lists the nodes in this order, each with its address: every node is listed,
and only once (`mem_preorder`, `nodup_preorder`).

What a node contributes begins with its own entry, and everything behind that is deeper.
A list that is made of such pieces can be taken apart again in one way only
(`flatten_injective_of_heads`).
-/

universe u

namespace Outline

variable {α : Type u}

/-! ## Induction over nodes and what is below them -/

/-- The children's text is shorter than that of their node. -/
theorem length_flattenAll_kids {t : Outline α} {G : List (Outline α)} (h : t.kids = some G) :
    (flattenAll G).length < t.flatten.length := by
  obtain ⟨rest, hrest⟩ := drop_one_flatten h
  rw [hrest, List.length_cons, List.length_append]
  omega

/-- A node is no longer than its forest. -/
theorem length_flatten_le {t : Outline α} {F : List (Outline α)} (h : t ∈ F) :
    t.flatten.length ≤ (flattenAll F).length := by
  obtain ⟨k, hk⟩ := List.getElem?_of_mem h
  rw [flattenAll_split hk, List.length_append, List.length_append]
  omega

/-- Each tree has a label of its own. -/
theorem length_le_flattenAll (F : List (Outline α)) : F.length ≤ (flattenAll F).length := by
  induction F with
  | nil => exact Nat.zero_le _
  | cons t F ih =>
    have hpos := t.flatten_length_pos
    rw [flattenAll_cons, List.length_append, List.length_cons]
    omega

/-- No node has more children than there are labels. -/
theorem length_le_of_kidsAt : ∀ {as : List Nat} {F H : List (Outline α)}, kidsAt F as = some H →
    H.length ≤ (flattenAll F).length := by
  intro as
  induction as with
  | nil =>
    intro F H hH
    rw [kidsAt_nil] at hH
    exact Option.some.inj hH ▸ length_le_flattenAll F
  | cons k as ih =>
    intro F H hH
    rw [kidsAt_cons] at hH
    obtain ⟨G, hG, hH⟩ := Option.bind_eq_some_iff.mp hH
    obtain ⟨t, ht, hkids⟩ := Option.bind_eq_some_iff.mp hG
    have hbelow := length_flattenAll_kids hkids
    have hle := length_flatten_le (List.mem_of_getElem? ht)
    have hrest := ih hH
    omega

/-- For a node at the front of a forest, the node's children and the rest of the forest are
smaller. -/
theorem forest_induction {P : List (Outline α) → Prop} (nil : P [])
    (cons : ∀ t F, P (t.kids.getD []) → P F → P (t :: F)) (F : List (Outline α)) : P F := by
  induction hn : (flattenAll F).length using Nat.strongRecOn generalizing F with
  | ind n ih =>
    cases F with
    | nil => exact nil
    | cons t F =>
      have hpos := t.flatten_length_pos
      rw [flattenAll_cons, List.length_append] at hn
      refine cons t F (ih _ ?_ _ rfl) (ih _ (by omega) _ rfl)
      rcases hkids : t.kids with _ | G
      · simp
        omega
      · have := length_flattenAll_kids hkids
        rw [Option.getD_some]
        omega

/-! ## The nodes in order -/

mutual

/-- A node at index `k` among its siblings, and the nodes below it, with their addresses. -/
def nodesOf (k : Nat) : Outline α → List (List Nat × Outline α)
  | item a => [([k], item a)]
  | block a ls => ([k], block a ls) :: ls.zipIdx.map fun (l, j) => ([k, j], item l)
  | group o cs c => ([k], group o cs c) :: (nodesFrom 0 cs).map fun n => (k :: n.1, n.2)

/-- The nodes of a forest whose first tree is at index `k`. -/
def nodesFrom (k : Nat) : List (Outline α) → List (List Nat × Outline α)
  | [] => []
  | t :: F => nodesOf k t ++ nodesFrom (k + 1) F

end

/-- The nodes of a forest with their addresses, every node in front of those below it. -/
def preorder (F : List (Outline α)) : List (List Nat × Outline α) := nodesFrom 0 F

@[simp] theorem nodesFrom_nil (k : Nat) : nodesFrom k ([] : List (Outline α)) = [] := by
  rw [nodesFrom]

/-- The first node comes first, with all below it. -/
@[simp] theorem nodesFrom_cons (k : Nat) (t : Outline α) (F : List (Outline α)) :
    nodesFrom k (t :: F) = nodesOf k t ++ nodesFrom (k + 1) F := by
  rw [nodesFrom]

/-- Items have nothing below them. -/
theorem nodesFrom_map_item (ls : List α) : ∀ k : Nat,
    nodesFrom k (ls.map item) = (ls.zipIdx k).map fun (l, j) => ([j], item l) := by
  induction ls with
  | nil => simp
  | cons l ls ih =>
    intro k
    rw [List.map_cons, nodesFrom_cons, ih, nodesOf, List.zipIdx_cons, List.map_cons]
    rfl

/-- A node, and what is below it. -/
theorem nodesOf_eq (k : Nat) (t : Outline α) :
    nodesOf k t = ([k], t) :: (preorder (t.kids.getD [])).map fun n => (k :: n.1, n.2) := by
  cases t with
  | item a => rw [nodesOf, kids_item, Option.getD_none, preorder, nodesFrom_nil, List.map_nil]
  | block a ls =>
    rw [nodesOf, kids_block, Option.getD_some, preorder, nodesFrom_map_item, List.map_map]
    rfl
  | group o cs c => rw [nodesOf, kids_group, Option.getD_some, preorder]

@[simp] theorem nodeAt_empty (as : List Nat) : nodeAt ([] : List (Outline α)) as = none := by
  rcases as with _ | ⟨k, _ | ⟨j, as⟩⟩ <;> simp

/-- An address names the first node, one below it, or one behind it. -/
theorem nodeAt_cons_iff {t u : Outline α} {F : List (Outline α)} {j : Nat} {bs : List Nat} :
    nodeAt (t :: F) (j :: bs) = some u ↔
      j = 0 ∧ bs = [] ∧ t = u ∨ j = 0 ∧ nodeAt (t.kids.getD []) bs = some u ∨
        ∃ i, j = i + 1 ∧ nodeAt F (i :: bs) = some u := by
  cases bs with
  | nil => cases j <;> simp
  | cons b bs =>
    cases j with
    | zero => rcases hkids : t.kids with _ | G <;> simp [hkids]
    | succ i => simp

/-- What is listed: the nodes, each at its address. -/
theorem mem_nodesFrom {as : List Nat} {u : Outline α} (F : List (Outline α)) : ∀ k : Nat,
    (as, u) ∈ nodesFrom k F ↔ ∃ j bs, as = (k + j) :: bs ∧ nodeAt F (j :: bs) = some u := by
  induction F using forest_induction generalizing as with
  | nil => simp
  | cons t F ihKids ih =>
    intro k
    rw [nodesFrom_cons, List.mem_append, nodesOf_eq, List.mem_cons, Prod.mk.injEq, ih (k + 1),
      List.mem_map]
    refine ⟨?_, ?_⟩
    · rintro ((⟨rfl, rfl⟩ | ⟨⟨bs, v⟩, hmem, heq⟩) | ⟨j, bs, rfl, hnode⟩)
      · exact ⟨0, [], rfl, nodeAt_cons_iff.mpr (Or.inl ⟨rfl, rfl, rfl⟩)⟩
      · obtain ⟨rfl, rfl⟩ := Prod.mk.inj heq
        obtain ⟨i, cs, rfl, hnode⟩ := (ihKids 0).mp hmem
        rw [Nat.zero_add]
        exact ⟨0, _, rfl, nodeAt_cons_iff.mpr (Or.inr (Or.inl ⟨rfl, hnode⟩))⟩
      · refine ⟨j + 1, bs, by rw [Nat.add_right_comm, Nat.add_assoc], ?_⟩
        exact nodeAt_cons_iff.mpr (Or.inr (Or.inr ⟨j, rfl, hnode⟩))
    · rintro ⟨j, bs, rfl, hnode⟩
      rcases nodeAt_cons_iff.mp hnode with ⟨rfl, rfl, rfl⟩ | ⟨rfl, hkid⟩ | ⟨i, rfl, hrest⟩
      · exact Or.inl (Or.inl ⟨rfl, rfl⟩)
      · refine Or.inl (Or.inr ⟨(bs, u), ?_, rfl⟩)
        cases bs with
        | nil => simp at hkid
        | cons i cs => exact (ihKids 0).mpr ⟨i, cs, by rw [Nat.zero_add], hkid⟩
      · exact Or.inr ⟨i, bs, by rw [Nat.add_right_comm, Nat.add_assoc], hrest⟩

/-- **Every node is listed**, with its address. -/
theorem mem_preorder {F : List (Outline α)} {as : List Nat} {t : Outline α} :
    (as, t) ∈ preorder F ↔ nodeAt F as = some t := by
  rw [preorder, mem_nodesFrom]
  refine ⟨?_, fun h => ?_⟩
  · rintro ⟨j, bs, rfl, h⟩
    rwa [Nat.zero_add]
  · cases as with
    | nil => simp at h
    | cons j bs => exact ⟨j, bs, by rw [Nat.zero_add], h⟩

/-- No address comes twice. -/
theorem nodup_nodesFrom (F : List (Outline α)) : ∀ k : Nat,
    ((nodesFrom k F).map Prod.fst).Nodup := by
  induction F using forest_induction with
  | nil => simp
  | cons t F ihKids ih =>
    intro k
    have hbelow : ((preorder (t.kids.getD [])).map fun n => k :: n.1) =
        ((preorder (t.kids.getD [])).map Prod.fst).map (k :: ·) := by
      rw [List.map_map]
      rfl
    rw [nodesFrom_cons, nodesOf_eq, List.map_append, List.map_cons, List.map_map, List.nodup_append]
    refine ⟨?_, ih (k + 1), ?_⟩
    · refine List.nodup_cons.mpr ⟨fun hmem => ?_, ?_⟩
      · -- below a node, addresses are longer
        obtain ⟨⟨bs, u⟩, hmem, heq⟩ := List.mem_map.mp hmem
        have hnil : bs = [] := (List.cons.inj heq).2
        rw [mem_preorder, hnil] at hmem
        simp at hmem
      · have hinj : Function.Injective (k :: ·) := fun as bs h => (List.cons.inj h).2
        exact hbelow ▸ List.Nodup.map hinj (ihKids 0)
    · -- the rest of the forest stands at greater indices
      intro as hleft bs hright heq
      subst heq
      obtain ⟨⟨_, u⟩, hmem, rfl⟩ := List.mem_map.mp hright
      obtain ⟨j, bs, has, -⟩ := (mem_nodesFrom F (k + 1)).mp hmem
      simp only at has hleft
      rw [has] at hleft
      rcases List.mem_cons.mp hleft with heq | hleft
      · have := (List.cons.inj heq).1
        omega
      · obtain ⟨n, -, heq⟩ := List.mem_map.mp hleft
        have : k = k + 1 + j := (List.cons.inj heq).1
        omega

/-- **No node is listed twice.** -/
theorem nodup_preorder (F : List (Outline α)) : ((preorder F).map Prod.fst).Nodup :=
  nodup_nodesFrom F 0

/-! ## Entries with their depths -/

/-- What is said about the nodes of a forest when each is given a number, its depth: piece by
piece, one for each tree. -/
theorem map_nodesFrom {β : Type*} (f : Nat → Outline α → β) (d : Nat) (F : List (Outline α)) :
    ∀ k : Nat, (nodesFrom k F).map (fun n => f (d + n.1.length) n.2) =
      (F.map fun t => f (d + 1) t ::
        (preorder (t.kids.getD [])).map fun n => f (d + 1 + n.1.length) n.2).flatten := by
  induction F with
  | nil => simp
  | cons t F ih =>
    intro k
    rw [nodesFrom_cons, List.map_append, ih, List.map_cons, List.flatten_cons, nodesOf_eq,
      List.map_cons, List.map_map]
    congr 2
    apply List.map_congr_left
    intro n _
    simp only [Function.comp, List.length_cons]
    rw [Nat.add_assoc, Nat.add_comm 1]

/-! ## Taking a list of pieces apart -/

/-- A partial function is applied to a list element by element. -/
theorem mapM_eq_some_iff {β γ : Type*} {f : β → Option γ} {l : List β} : ∀ {r : List γ},
    l.mapM f = some r ↔ l.map f = r.map some := by
  induction l with
  | nil =>
    intro r
    rw [List.mapM_nil, List.map_nil, eq_comm (a := []), List.map_eq_nil_iff]
    exact Option.some_inj.trans eq_comm
  | cons b l ih =>
    intro r
    rw [List.mapM_cons, List.map_cons]
    refine ⟨fun h => ?_, fun h => ?_⟩
    · obtain ⟨c, hc, h⟩ := Option.bind_eq_some_iff.mp h
      obtain ⟨cs, hcs, h⟩ := Option.bind_eq_some_iff.mp h
      obtain rfl := Option.some.inj h
      rw [hc, ih.mp hcs, List.map_cons]
    · obtain ⟨c, cs, rfl, hc, hcs⟩ := List.map_eq_cons_iff.mp h.symm
      refine Option.bind_eq_some_iff.mpr ⟨c, hc.symm, ?_⟩
      exact Option.bind_eq_some_iff.mpr ⟨cs, ih.mpr hcs.symm, rfl⟩

/-- Where a function has a value for every element, it has a list of them. -/
theorem exists_map_some {β γ δ : Type*} {f : β → Option γ} {q : γ → δ} {r : β → δ} {l : List β}
    (h : ∀ b ∈ l, ∃ c, f b = some c ∧ q c = r b) :
    ∃ cs : List γ, l.map f = cs.map some ∧ cs.map q = l.map r := by
  induction l with
  | nil => exact ⟨[], rfl, rfl⟩
  | cons b l ih =>
    obtain ⟨c, hc, hq⟩ := h b List.mem_cons_self
    obtain ⟨cs, hcs, hqs⟩ := ih fun b hb => h b (List.mem_cons_of_mem _ hb)
    refine ⟨c :: cs, ?_, ?_⟩
    · rw [List.map_cons, hc, hcs, List.map_cons]
    · rw [List.map_cons, hq, hqs, List.map_cons]

/-- A piece: an element with the property, and elements without it behind. -/
def Headed {β : Type*} (P : β → Prop) (piece : List β) : Prop :=
  ∃ b rest, piece = b :: rest ∧ P b ∧ ∀ c ∈ rest, ¬ P c

/-- Pieces one after the other begin with the head of the first. -/
theorem head_flatten {β : Type*} {P : β → Prop} {xs : List (List β)}
    (h : ∀ x ∈ xs, Headed P x) : ∀ b ∈ xs.flatten.head?, P b := by
  cases xs with
  | nil => simp
  | cons x xs =>
    obtain ⟨b, rest, rfl, hb, -⟩ := h x List.mem_cons_self
    intro c hc
    obtain rfl := Option.some.inj hc
    exact hb

/-- Where the elements without the property end, a piece ends. -/
theorem append_injective_of_heads {β : Type*} {P : β → Prop} {x y : List β}
    (hx : ∀ b ∈ x.head?, P b) (hy : ∀ b ∈ y.head?, P b) (r : List β) :
    ∀ {s : List β}, (∀ b ∈ r, ¬ P b) → (∀ b ∈ s, ¬ P b) → r ++ x = s ++ y → r = s ∧ x = y := by
  induction r with
  | nil =>
    intro s _ hs heq
    cases s with
    | nil => exact ⟨rfl, heq⟩
    | cons c s =>
      rw [List.nil_append] at heq
      rw [heq] at hx
      exact absurd (hx c rfl) (hs c List.mem_cons_self)
  | cons b r ih =>
    intro s hr hs heq
    cases s with
    | nil =>
      rw [List.nil_append] at heq
      rw [← heq] at hy
      exact absurd (hy b rfl) (hr b List.mem_cons_self)
    | cons c s =>
      obtain ⟨rfl, hrest⟩ := List.cons.inj heq
      obtain ⟨rfl, hxy⟩ := ih (fun b hb => hr b (List.mem_cons_of_mem _ hb))
        (fun b hb => hs b (List.mem_cons_of_mem _ hb)) hrest
      exact ⟨rfl, hxy⟩

/-- **A list of pieces** is known by its elements. -/
theorem flatten_injective_of_heads {β : Type*} {P : β → Prop} (xs : List (List β)) :
    ∀ {ys : List (List β)}, (∀ x ∈ xs, Headed P x) → (∀ y ∈ ys, Headed P y) →
      xs.flatten = ys.flatten → xs = ys := by
  induction xs with
  | nil =>
    intro ys _ hys heq
    cases ys with
    | nil => rfl
    | cons y ys =>
      obtain ⟨b, rest, rfl, -⟩ := hys y List.mem_cons_self
      cases heq
  | cons x xs ih =>
    intro ys hxs hys heq
    obtain ⟨b, r, rfl, -, hr⟩ := hxs x List.mem_cons_self
    have hxs' := fun x hx => hxs x (List.mem_cons_of_mem _ hx)
    cases ys with
    | nil => cases heq
    | cons y ys =>
      obtain ⟨c, s, rfl, -, hs⟩ := hys y List.mem_cons_self
      have hys' := fun y hy => hys y (List.mem_cons_of_mem _ hy)
      obtain ⟨rfl, hrest⟩ := List.cons.inj heq
      obtain ⟨rfl, hxy⟩ :=
        append_injective_of_heads (head_flatten hxs') (head_flatten hys') r hr hs hrest
      rw [ih hxs' hys' hxy]

end Outline
