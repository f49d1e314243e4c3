import Cop4600.Outline

/-!
# Other labels on the same forest

A `Relabel` replaces every label of an outline and leaves its shape as it is: items
and markers get labels of a new type, and all groups the same closing label, for a
reader who does not care how a group is closed. Addresses, lookups and the two ways
to change a forest commute with it, so a forest can be studied through the labels
that matter.
-/

universe u v

/-- How the labels of an outline are replaced. -/
structure Relabel (α : Type u) (β : Type v) : Type (max u v) where
  /-- the label of an item -/
  item : α → β
  /-- the first label of a block or a group -/
  marker : α → β
  /-- the last label of a group -/
  closing : β

/-- Two replacements in one. -/
def Relabel.comp {α β γ : Type*} (s : Relabel β γ) (r : Relabel α β) : Relabel α γ where
  item a := s.item (r.item a)
  marker a := s.marker (r.marker a)
  closing := s.closing

namespace Outline

variable {α β γ κ : Type*}

mutual

/-- The node with its labels replaced. -/
def relabel (r : Relabel α β) : Outline α → Outline β
  | item a => item (r.item a)
  | block a ls => block (r.marker a) (ls.map r.item)
  | group o cs _ => group (r.marker o) (relabelAll r cs) r.closing

def relabelAll (r : Relabel α β) : List (Outline α) → List (Outline β)
  | [] => []
  | t :: F => relabel r t :: relabelAll r F

end

@[simp] theorem relabel_item (r : Relabel α β) (a : α) : relabel r (item a) = item (r.item a) := by
  rw [relabel]

@[simp] theorem relabel_block (r : Relabel α β) (a : α) (ls : List α) :
    relabel r (block a ls) = block (r.marker a) (ls.map r.item) := by
  rw [relabel]

/-- The closing label of a group says nothing and becomes always the same. -/
@[simp] theorem relabel_group (r : Relabel α β) (o c : α) (cs : List (Outline α)) :
    relabel r (group o cs c) = group (r.marker o) (relabelAll r cs) r.closing := by
  rw [relabel]

@[simp] theorem relabelAll_nil (r : Relabel α β) : relabelAll r [] = [] := by
  rw [relabelAll]

@[simp] theorem relabelAll_cons (r : Relabel α β) (t : Outline α) (F : List (Outline α)) :
    relabelAll r (t :: F) = relabel r t :: relabelAll r F := by
  rw [relabelAll]

/-- The nodes of a forest are relabelled each for itself. -/
theorem relabelAll_eq_map (r : Relabel α β) (F : List (Outline α)) :
    relabelAll r F = F.map (relabel r) := by
  induction F with
  | nil => rw [relabelAll_nil, List.map_nil]
  | cons t F ih => rw [relabelAll_cons, List.map_cons, ih]

/-- There are as many of them as before. -/
@[simp] theorem length_relabelAll (r : Relabel α β) (F : List (Outline α)) :
    (relabelAll r F).length = F.length := by
  rw [relabelAll_eq_map, List.length_map]

@[simp] theorem getElem?_relabelAll (r : Relabel α β) (F : List (Outline α)) (k : Nat) :
    (relabelAll r F)[k]? = F[k]?.map (relabel r) := by
  rw [relabelAll_eq_map, List.getElem?_map]

/-- A forest of items stays one. -/
theorem relabelAll_map_item (r : Relabel α β) (ls : List α) :
    relabelAll r (ls.map item) = (ls.map r.item).map item := by
  rw [relabelAll_eq_map, List.map_map, List.map_map]
  apply List.map_congr_left
  intro a _
  exact relabel_item r a

/-! ## Addresses -/

/-- The children of a relabelled node are its children, relabelled. -/
theorem kids_relabel (r : Relabel α β) (t : Outline α) :
    (relabel r t).kids = t.kids.map (relabelAll r) := by
  cases t with
  | item a => rw [relabel_item, kids_item, kids_item, Option.map_none]
  | block a ls =>
    rw [relabel_block, kids_block, kids_block, Option.map_some, relabelAll_map_item]
  | group o cs c => rw [relabel_group, kids_group, kids_group, Option.map_some]

/-- The children of a child, with their labels replaced. -/
theorem kids_getElem?_relabelAll (r : Relabel α β) (F : List (Outline α)) (k : Nat) :
    (relabelAll r F)[k]?.bind kids = (F[k]?.bind kids).map (relabelAll r) := by
  rw [getElem?_relabelAll]
  rcases F[k]? with _ | t
  · rfl
  · exact kids_relabel r t

/-- At every address there are the children that were there. -/
theorem kidsAt_relabelAll (r : Relabel α β) : ∀ (as : List Nat) (F : List (Outline α)),
    kidsAt (relabelAll r F) as = (kidsAt F as).map (relabelAll r) := by
  intro as
  induction as with
  | nil =>
    intro F
    rw [kidsAt_nil, kidsAt_nil, Option.map_some]
  | cons k as ih =>
    intro F
    rw [kidsAt_cons, kidsAt_cons, kids_getElem?_relabelAll]
    rcases F[k]?.bind kids with _ | cs
    · rfl
    · exact ih cs

/-- At every address there is the node that was there. -/
theorem nodeAt_relabelAll (r : Relabel α β) (F : List (Outline α)) (as : List Nat) :
    nodeAt (relabelAll r F) as = (nodeAt F as).map (relabel r) := by
  induction as using List.reverseRecOn with
  | nil => rw [nodeAt_nil, nodeAt_nil, Option.map_none]
  | append_singleton bs k _ =>
    rw [nodeAt_concat, nodeAt_concat, kidsAt_relabelAll]
    rcases kidsAt F bs with _ | cs
    · rfl
    · exact getElem?_relabelAll r cs k

/-! ## Lookups -/

/-- The new labels answer to the same keys as the old ones. -/
structure KeepsKey (r : Relabel α β) (key : α → κ) (key' : β → κ) : Prop where
  item : ∀ a, key' (r.item a) = key a
  marker : ∀ a, key' (r.marker a) = key a

section Lookup

variable {r : Relabel α β} {key : α → κ} {key' : β → κ}

/-- The label of a node answers to the key that it answered to. -/
theorem KeepsKey.label (h : KeepsKey r key key') (t : Outline α) :
    key' (relabel r t).label = key t.label := by
  cases t with
  | item a => rw [relabel_item, label_item, label_item, h.item]
  | block a ls => rw [relabel_block, label_block, label_block, h.marker]
  | group o cs c => rw [relabel_group, label_group, label_group, h.marker]

variable [DecidableEq κ]

/-- The same node is found for a key. -/
theorem firstKid_relabelAll (h : KeepsKey r key key') (F : List (Outline α)) (c : κ) :
    firstKid key' (relabelAll r F) c = firstKid key F c := by
  induction F with
  | nil => rw [relabelAll_nil, firstKid_nil, firstKid_nil]
  | cons t F ih => rw [relabelAll_cons, firstKid_cons, firstKid_cons, h.label, ih]

/-- **Lookups are the same**: the first child that answers to a key stands where it stood. -/
theorem lookup_relabelAll (h : KeepsKey r key key') : ∀ (cs : List κ) (F : List (Outline α)),
    lookup key' (relabelAll r F) cs = lookup key F cs := by
  intro cs
  induction cs using List.reverseRecOn with
  | nil =>
    intro F
    rw [lookup_nil, lookup_nil]
  | append_singleton cs c ih =>
    intro F
    rw [lookup_concat, lookup_concat, ih]
    congr 1
    funext as
    rw [kidsAt_relabelAll]
    rcases kidsAt F as with _ | G
    · rfl
    · exact congrArg (Option.map fun k => as ++ [k]) (firstKid_relabelAll h G c)

end Lookup

/-! ## Changes -/

/-- Two forests side by side can be relabelled one after the other. -/
theorem relabelAll_append (r : Relabel α β) (F G : List (Outline α)) :
    relabelAll r (F ++ G) = relabelAll r F ++ relabelAll r G := by
  rw [relabelAll_eq_map, relabelAll_eq_map, relabelAll_eq_map, List.map_append]

/-- A change of one node and the corresponding change of the node with new labels. -/
theorem relabelAll_modify {r : Relabel α β} {F : List (Outline α)} {k : Nat}
    {f : Outline α → Outline α} {g : Outline β → Outline β}
    (h : ∀ t, F[k]? = some t → relabel r (f t) = g (relabel r t)) :
    relabelAll r (F.modify k f) = (relabelAll r F).modify k g := by
  apply List.ext_getElem?
  intro j
  rw [getElem?_relabelAll]
  by_cases hj : k = j
  · subst hj
    rw [List.getElem?_modify_eq, List.getElem?_modify_eq, getElem?_relabelAll]
    rcases ht : F[k]? with _ | t
    · rfl
    · exact congrArg some (h t ht)
  · rw [List.getElem?_modify_ne _ _ hj, List.getElem?_modify_ne _ _ hj, getElem?_relabelAll]

theorem mapKids_item (f : List (Outline α) → List (Outline α)) (a : α) :
    (item a).mapKids f = item a := rfl

theorem mapKids_block (f : List (Outline α) → List (Outline α)) (a : α) (ls : List α) :
    (block a ls).mapKids f = block a ls := rfl

/-- **A new last child** is a new last child under the new labels. -/
theorem relabelAll_appendAt (r : Relabel α β) (n : Outline α) :
    ∀ (as : List Nat) (F : List (Outline α)),
      relabelAll r (appendAt F as n) = appendAt (relabelAll r F) as (relabel r n) := by
  intro as
  induction as with
  | nil =>
    intro F
    rw [appendAt_nil, appendAt_nil, relabelAll_append, relabelAll_cons, relabelAll_nil]
  | cons k as ih =>
    intro F
    rw [appendAt_cons, appendAt_cons]
    apply relabelAll_modify
    intro t _
    cases t with
    | item a => rw [relabel_item, mapKids_item, mapKids_item, relabel_item]
    | block a ls => rw [relabel_block, mapKids_block, mapKids_block, relabel_block]
    | group o cs c => rw [mapKids_group, relabel_group, relabel_group, mapKids_group, ih]

/-- A new label for one of the items of a block. -/
theorem map_updateItems {r : α → β} {f : α → α} {g : β → β} {as : List Nat} {ls : List α}
    (h : ∀ j a, as = [j] → ls[j]? = some a → r (f a) = g (r a)) :
    (updateItems f as ls).map r = updateItems g as (ls.map r) := by
  apply List.ext_getElem?
  intro k
  rw [List.getElem?_map, updateItems_getElem?, updateItems_getElem?, List.getElem?_map]
  by_cases hk : as = [k]
  · rw [if_pos hk, if_pos hk]
    rcases ha : ls[k]? with _ | a
    · rfl
    · exact congrArg some (h k a hk ha)
  · rw [if_neg hk, if_neg hk]

/-- **A new label for one item** is a new label for the item under the new labels. -/
theorem relabelAll_updateAt {r : Relabel α β} {f : α → α} {g : β → β} {a : α}
    (h : r.item (f a) = g (r.item a)) : ∀ {as : List Nat} {F : List (Outline α)},
    nodeAt F as = some (item a) →
      relabelAll r (updateAt F as f) = updateAt (relabelAll r F) as g := by
  intro as
  induction as with
  | nil =>
    intro F hnode
    rw [nodeAt_nil] at hnode
    cases hnode
  | cons k as ih =>
    intro F hnode
    rw [updateAt_cons, updateAt_cons]
    apply relabelAll_modify
    intro t ht
    rcases as with _ | ⟨j, as⟩
    · rw [nodeAt_singleton, ht] at hnode
      obtain rfl := Option.some.inj hnode
      rw [updateNode, if_pos rfl, relabel_item, relabel_item, updateNode, if_pos rfl, h]
    · rw [nodeAt_cons_cons, ht, Option.bind_some] at hnode
      cases t with
      | item b =>
        rw [kids_item, Option.bind_none] at hnode
        cases hnode
      | block m ls =>
        rw [updateNode, relabel_block, relabel_block, updateNode, map_updateItems]
        intro i b hi hb
        rw [hi, kids_block, Option.bind_some, nodeAt_singleton, List.getElem?_map, hb] at hnode
        cases hnode
        exact h
      | group o cs c =>
        rw [updateNode, relabel_group, relabel_group, updateNode, ih hnode]

/-- To put in place of an item what it is already changes nothing. -/
theorem updateItems_id (as : List Nat) (ls : List α) : updateItems id as ls = ls := by
  apply List.ext_getElem?
  intro k
  rw [updateItems_getElem?, Option.map_id, id, ite_self]

/-- Items with their old labels. -/
theorem updateAt_id : ∀ (as : List Nat) (F : List (Outline α)), updateAt F as id = F := by
  intro as
  induction as with
  | nil => exact fun F => updateAt_nil F id
  | cons k as ih =>
    intro F
    have hnode : (updateNode id as fun cs => updateAt cs as id) = (id : Outline α → Outline α) := by
      funext t
      cases t with
      | item a => rw [updateNode, id, ite_self, id]
      | block m ls => rw [updateNode, updateItems_id, id]
      | group o cs c => rw [updateNode, ih, id]
    rw [updateAt_cons, hnode, List.modify_id]

/-! ## One after the other, and agreement -/

/-- **Induction over a forest**, one case for each kind of first node. -/
theorem kinds_induction {P : List (Outline α) → Prop} (nil : P [])
    (item : ∀ a F, P F → P (item a :: F)) (block : ∀ a ls F, P F → P (block a ls :: F))
    (group : ∀ o G c F, P G → P F → P (group o G c :: F)) (F : List (Outline α)) : P F :=
  @Outline.rec_1 α (fun t => ∀ F, P F → P (t :: F)) P item block
    (fun o G c hG F hF => group o G c F hG hF) nil (fun _ F ht hF => ht F hF) F

/-- To relabel twice is to relabel once by both. -/
theorem relabelAll_comp (s : Relabel β γ) (r : Relabel α β) (F : List (Outline α)) :
    relabelAll s (relabelAll r F) = relabelAll (s.comp r) F := by
  induction F using kinds_induction with
  | nil => simp
  | item a F ih => simp [ih, Relabel.comp]
  | block a ls F ih => simp [ih, Relabel.comp]
  | group o G c F ihG ihF => simp [ihG, ihF, Relabel.comp]

/-- Labels that are not in the text of a forest do not matter. -/
theorem relabelAll_congr {r s : Relabel α β} (hclosing : r.closing = s.closing)
    (F : List (Outline α)) (hitem : ∀ a ∈ flattenAll F, r.item a = s.item a)
    (hmarker : ∀ a ∈ flattenAll F, r.marker a = s.marker a) :
    relabelAll r F = relabelAll s F := by
  induction F using kinds_induction with
  | nil => simp
  | item a F ih =>
    rw [flattenAll_cons, flatten_item, List.forall_mem_append] at hitem hmarker
    rw [relabelAll_cons, relabelAll_cons, ih hitem.2 hmarker.2, relabel_item, relabel_item,
      hitem.1 a (List.mem_singleton_self a)]
  | block a ls F ih =>
    rw [flattenAll_cons, flatten_block, List.forall_mem_append, List.forall_mem_cons]
      at hitem hmarker
    rw [relabelAll_cons, relabelAll_cons, ih hitem.2 hmarker.2, relabel_block, relabel_block,
      hmarker.1.1, List.map_congr_left hitem.1.2]
  | group o G c F ihG ihF =>
    rw [flattenAll_cons, flatten_group, List.forall_mem_append, List.forall_mem_cons,
      List.forall_mem_append] at hitem hmarker
    rw [relabelAll_cons, relabelAll_cons, ihF hitem.2 hmarker.2, relabel_group, relabel_group,
      hmarker.1.1, ihG hitem.1.2.1 hmarker.1.2.1, hclosing]

end Outline
