import Mathlib.Data.List.Induction

/-!
# Outlines: forests written as flat lists

A list of labels can carry a tree without any pointer: an *item* is one label,
a *block* is a label followed by a run of items, and a *group* is an opening
label, the text of a forest, and a closing label. This file develops such
forests on their own, over any type of labels:

* `Outline.flatten` / `Outline.flattenAll` — the flat text of a node and of a
  forest;
* addresses — a node is named by the list of child indices leading to it
  (`nodeAt`), and `position` says where its text begins;
* `lookup` — descent along a list of keys, taking the first child that answers
  to each key;
* `appendAt` / `updateAt` — a new last child for one group, a new label for one
  item — and what they do to the text, to addresses and to lookups.
-/

universe u v

/-- A node of a forest that is stored as a flat list of labels. -/
inductive Outline (α : Type u) : Type u where
  /-- one label standing for itself -/
  | item : α → Outline α
  /-- a label followed by the items it owns -/
  | block : α → List α → Outline α
  /-- an opening label, the children, a closing label -/
  | group : α → List (Outline α) → α → Outline α

namespace Outline

variable {α : Type u} {κ : Type v}

/-! ## The flat text -/

mutual

/-- The text of a node. -/
def flatten : Outline α → List α
  | item a => [a]
  | block a ls => a :: ls
  | group o cs c => o :: (flattenAll cs ++ [c])

/-- The text of a forest: the texts of its nodes, one after the other. -/
def flattenAll : List (Outline α) → List α
  | [] => []
  | t :: F => flatten t ++ flattenAll F

end

/-- An item is its own text. -/
@[simp] theorem flatten_item (a : α) : flatten (item a) = [a] := by
  rw [flatten]

/-- The text of a block is its label and its items. -/
@[simp] theorem flatten_block (a : α) (ls : List α) : flatten (block a ls) = a :: ls := by
  rw [flatten]

/-- The text of a group is that of its children between its two labels. -/
@[simp] theorem flatten_group (o c : α) (cs : List (Outline α)) :
    flatten (group o cs c) = o :: (flattenAll cs ++ [c]) := by
  rw [flatten]

@[simp] theorem flattenAll_nil : flattenAll ([] : List (Outline α)) = [] := by
  rw [flattenAll]

/-- The first node of a forest comes first in the text. -/
@[simp] theorem flattenAll_cons (t : Outline α) (F : List (Outline α)) :
    flattenAll (t :: F) = flatten t ++ flattenAll F := by
  rw [flattenAll]

/-- The text of two forests side by side is the one followed by the other. -/
@[simp] theorem flattenAll_append (F G : List (Outline α)) :
    flattenAll (F ++ G) = flattenAll F ++ flattenAll G := by
  induction F with
  | nil => simp
  | cons t F ih => simp [ih]

/-- A forest of items is written as their labels, with nothing in between. -/
@[simp] theorem flattenAll_map_item (ls : List α) : flattenAll (ls.map item) = ls := by
  induction ls with
  | nil => simp
  | cons a ls ih => simp [ih]

/-- The first label of a node's text: the item itself, or the marker that
introduces the block or the group. -/
def label : Outline α → α
  | item a => a
  | block a _ => a
  | group o _ _ => o

/-- The label of each kind of node. -/
@[simp] theorem label_item (a : α) : (item a).label = a := rfl
@[simp] theorem label_block (a : α) (ls : List α) : (block a ls).label = a := rfl
@[simp] theorem label_group (o c : α) (cs : List (Outline α)) : (group o cs c).label = o := rfl

/-- A node's text starts with its label. -/
theorem flatten_eq_cons (t : Outline α) : ∃ rest, t.flatten = t.label :: rest := by
  cases t with
  | item a => exact ⟨[], by simp⟩
  | block a ls => exact ⟨ls, by simp⟩
  | group o cs c => exact ⟨flattenAll cs ++ [c], by simp⟩

/-- No node has an empty text. -/
theorem flatten_length_pos (t : Outline α) : 0 < t.flatten.length := by
  obtain ⟨rest, hrest⟩ := t.flatten_eq_cons
  rw [hrest, List.length_cons]
  omega

/-! ## Children and addresses -/

/-- The children of a node: an item has none to look into, the children of a
block are its items. -/
def kids : Outline α → Option (List (Outline α))
  | item _ => none
  | block _ ls => some (ls.map item)
  | group _ cs _ => some cs

@[simp] theorem kids_item (a : α) : (item a).kids = none := rfl
@[simp] theorem kids_block (a : α) (ls : List α) : (block a ls).kids = some (ls.map item) := rfl
@[simp] theorem kids_group (o c : α) (cs : List (Outline α)) : (group o cs c).kids = some cs := rfl

/-- The node at an address: a nonempty list of child indices, outermost first.
The empty address names the forest as a whole and no node of it. -/
def nodeAt : List (Outline α) → List Nat → Option (Outline α)
  | _, [] => none
  | F, [k] => F[k]?
  | F, k :: as => (F[k]?.bind kids).bind fun cs => nodeAt cs as

@[simp] theorem nodeAt_nil (F : List (Outline α)) : nodeAt F [] = none := by
  rw [nodeAt]

@[simp] theorem nodeAt_singleton (F : List (Outline α)) (k : Nat) : nodeAt F [k] = F[k]? := by
  rw [nodeAt]

/-- A node further down is looked for among the children of the node that the first index
names. -/
@[simp] theorem nodeAt_cons_cons (F : List (Outline α)) (k j : Nat) (as : List Nat) :
    nodeAt F (k :: j :: as) = (F[k]?.bind kids).bind fun cs => nodeAt cs (j :: as) := by
  rw [nodeAt]
  simp

/-- Where the text of the node at an address begins. -/
def position : List (Outline α) → List Nat → Nat
  | _, [] => 0
  | F, [k] => (flattenAll (F.take k)).length
  | F, k :: as =>
    (flattenAll (F.take k)).length + 1 + position ((F[k]?.bind kids).getD []) as

@[simp] theorem position_singleton (F : List (Outline α)) (k : Nat) :
    position F [k] = (flattenAll (F.take k)).length := by
  rw [position]

/-- Its text stands behind those of the nodes in front, the label of the node around it, and
whatever is in front of it in there. -/
@[simp] theorem position_cons_cons (F : List (Outline α)) (k j : Nat) (as : List Nat) :
    position F (k :: j :: as) =
      (flattenAll (F.take k)).length + 1 + position ((F[k]?.bind kids).getD []) (j :: as) := by
  rw [position]
  simp

/-- Splitting a forest's text at its `k`-th node. -/
theorem flattenAll_split {F : List (Outline α)} {k : Nat} {t : Outline α} (h : F[k]? = some t) :
    flattenAll F = flattenAll (F.take k) ++ (t.flatten ++ flattenAll (F.drop (k + 1))) := by
  obtain ⟨hk, ht⟩ := List.getElem?_eq_some_iff.mp h
  conv_lhs => rw [← List.take_append_drop k F, List.drop_eq_getElem_cons hk, ht]
  rw [flattenAll_append, flattenAll_cons]

/-- Inside a node's text, the text of its children stands right after the label. -/
theorem drop_one_flatten {t : Outline α} {cs : List (Outline α)} (h : t.kids = some cs) :
    ∃ rest, t.flatten = t.label :: (flattenAll cs ++ rest) := by
  cases t with
  | item a => simp at h
  | block a ls =>
    obtain rfl := Option.some.inj h
    exact ⟨[], by simp⟩
  | group o cs' c =>
    obtain rfl := Option.some.inj h
    exact ⟨[c], by simp⟩

/-- A node's text does not begin behind the end. -/
theorem lt_of_drop_eq {ls rest : List α} {n : Nat} {t : Outline α}
    (h : ls.drop n = t.flatten ++ rest) : n < ls.length := by
  have hlen := congrArg List.length h
  rw [List.length_drop, List.length_append] at hlen
  have := t.flatten_length_pos
  omega

/-- **Positions are right**: from `position` on, the flat text continues with
the text of the node at that address. -/
theorem drop_position : ∀ {as : List Nat} {F : List (Outline α)} {t : Outline α},
    nodeAt F as = some t → ∃ rest, (flattenAll F).drop (position F as) = t.flatten ++ rest := by
  intro as
  induction as with
  | nil => intro F t h; simp at h
  | cons k as ih =>
    intro F t h
    cases as with
    | nil =>
      rw [nodeAt_singleton] at h
      rw [position_singleton, flattenAll_split h]
      exact ⟨_, by rw [List.drop_left]⟩
    | cons j as =>
      rw [nodeAt_cons_cons] at h
      rcases hu : F[k]? with _ | u
      · simp [hu] at h
      · rcases hcs : u.kids with _ | cs
        · simp [hu, hcs] at h
        · have hnode : nodeAt cs (j :: as) = some t := by simpa [hu, hcs] using h
          obtain ⟨rest, hrest⟩ := ih hnode
          obtain ⟨tail, htail⟩ := drop_one_flatten hcs
          have hpos : position F (k :: j :: as) =
              (flattenAll (F.take k)).length + (1 + position cs (j :: as)) := by
            rw [position_cons_cons, hu]
            simp only [Option.bind_some, hcs, Option.getD_some]
            omega
          have hle : position cs (j :: as) ≤ (flattenAll cs).length :=
            Nat.le_of_lt (lt_of_drop_eq hrest)
          refine ⟨rest ++ (tail ++ flattenAll (F.drop (k + 1))), ?_⟩
          rw [hpos, flattenAll_split hu, ← List.drop_drop, List.drop_left, htail,
            ← List.drop_drop, List.cons_append, List.drop_one, List.tail_cons,
            List.append_assoc, List.drop_append_of_le_length hle, hrest]
          simp

/-- The children found at an address; at the empty address, the forest itself. -/
def kidsAt : List (Outline α) → List Nat → Option (List (Outline α))
  | F, [] => some F
  | F, k :: as => (F[k]?.bind kids).bind fun cs => kidsAt cs as

@[simp] theorem kidsAt_nil (F : List (Outline α)) : kidsAt F [] = some F := by
  rw [kidsAt]

/-- The children at an address are those at the rest of it, below the node that its first
index names. -/
@[simp] theorem kidsAt_cons (F : List (Outline α)) (k : Nat) (as : List Nat) :
    kidsAt F (k :: as) = (F[k]?.bind kids).bind fun cs => kidsAt cs as := by
  rw [kidsAt]

/-- A node's children by address are the children of the node at that address. -/
theorem kidsAt_eq_nodeAt : ∀ {as : List Nat} (F : List (Outline α)), as ≠ [] →
    kidsAt F as = (nodeAt F as).bind kids := by
  intro as
  induction as with
  | nil => intro F h; exact absurd rfl h
  | cons k as ih =>
    intro F _
    cases as with
    | nil => simp
    | cons j as =>
      rw [kidsAt_cons, nodeAt_cons_cons]
      rcases F[k]?.bind kids with _ | cs
      · rfl
      · exact ih cs (by simp)

/-- The node one step further down an address. -/
theorem nodeAt_concat : ∀ (as : List Nat) (F : List (Outline α)) (k : Nat),
    nodeAt F (as ++ [k]) = (kidsAt F as).bind fun cs => cs[k]? := by
  intro as
  induction as with
  | nil => intro F k; simp
  | cons j as ih =>
    intro F k
    rw [kidsAt_cons]
    cases as with
    | nil => rcases hcs : F[j]?.bind kids with _ | cs <;> simp [hcs]
    | cons i as =>
      rw [List.cons_append, List.cons_append, nodeAt_cons_cons]
      rcases F[j]?.bind kids with _ | cs
      · rfl
      · exact ih cs k

/-- A child of the node at an address. -/
theorem nodeAt_child {F H : List (Outline α)} {as : List Nat} (hH : kidsAt F as = some H) {k : Nat}
    {t : Outline α} (hk : H[k]? = some t) : nodeAt F (as ++ [k]) = some t := by
  rw [nodeAt_concat, hH, Option.bind_some, hk]

/-- The children of a child are those of its node. -/
theorem kidsAt_child {F H : List (Outline α)} {as : List Nat} (hH : kidsAt F as = some H) {k : Nat}
    {t : Outline α} (hk : H[k]? = some t) : kidsAt F (as ++ [k]) = t.kids := by
  rw [kidsAt_eq_nodeAt F (by simp), nodeAt_child hH hk, Option.bind_some]

/-- Where the text of the children found at an address begins. -/
def kidsPosition (F : List (Outline α)) : List Nat → Nat
  | [] => 0
  | k :: as => position F (k :: as) + 1

@[simp] theorem kidsPosition_nil (F : List (Outline α)) : kidsPosition F [] = 0 := rfl

/-- Below the top level the children's text begins behind the label of their node. -/
theorem kidsPosition_of_ne_nil (F : List (Outline α)) {as : List Nat} (h : as ≠ []) :
    kidsPosition F as = position F as + 1 := by
  cases as with
  | nil => exact absurd rfl h
  | cons k as => rfl

/-- The position of a child: behind the text of the siblings before it. -/
theorem position_concat : ∀ {as : List Nat} {F H : List (Outline α)}, kidsAt F as = some H →
    ∀ k, position F (as ++ [k]) = kidsPosition F as + (flattenAll (H.take k)).length := by
  intro as
  induction as with
  | nil =>
    intro F H h k
    obtain rfl := Option.some.inj ((kidsAt_nil F).symm.trans h)
    simp
  | cons j as ih =>
    intro F H h k
    rw [kidsAt_cons] at h
    obtain ⟨G, hG, hH⟩ := Option.bind_eq_some_iff.mp h
    cases as with
    | nil =>
      obtain rfl := Option.some.inj ((kidsAt_nil G).symm.trans hH)
      rw [kidsPosition_of_ne_nil F (by simp)]
      simp [hG]
    | cons i as =>
      rw [kidsPosition_of_ne_nil F (by simp), List.cons_append, List.cons_append,
        position_cons_cons, position_cons_cons, hG, Option.getD_some, ← List.cons_append, ih hH k,
        kidsPosition_of_ne_nil G (by simp)]
      omega

/-- From `kidsPosition` on, the flat text continues with the text of the children. -/
theorem drop_kidsPosition {as : List Nat} {F H : List (Outline α)} (h : kidsAt F as = some H) :
    ∃ rest, (flattenAll F).drop (kidsPosition F as) = flattenAll H ++ rest := by
  rcases eq_or_ne as [] with rfl | has
  · obtain rfl := Option.some.inj ((kidsAt_nil F).symm.trans h)
    exact ⟨[], by simp⟩
  · rw [kidsAt_eq_nodeAt F has] at h
    obtain ⟨t, ht, hH⟩ := Option.bind_eq_some_iff.mp h
    obtain ⟨rest, hrest⟩ := drop_position ht
    obtain ⟨tail, htail⟩ := drop_one_flatten hH
    refine ⟨tail ++ rest, ?_⟩
    rw [kidsPosition_of_ne_nil F has, ← List.drop_drop, hrest, htail, List.cons_append,
      List.drop_one, List.tail_cons, List.append_assoc]

/-! ## Lookup by keys -/

section Lookup

variable [DecidableEq κ] (key : α → κ)

/-- The index of the first child whose label answers to `c`. -/
def firstKid (F : List (Outline α)) (c : κ) : Option Nat :=
  F.findIdx? fun t => key t.label = c

/-- Descend along a list of keys, at each level into the first child that
answers to the key. The result is an address; no key at all leads to the empty
one. -/
def lookup : List (Outline α) → List κ → Option (List Nat)
  | _, [] => some []
  | F, c :: cs =>
    (firstKid key F c).bind fun k =>
      match cs with
      | [] => some [k]
      | c' :: cs' => ((F[k]?.bind kids).bind fun G => lookup G (c' :: cs')).map (k :: ·)

@[simp] theorem lookup_nil (F : List (Outline α)) : lookup key F [] = some [] := by
  rw [lookup]

@[simp] theorem lookup_singleton (F : List (Outline α)) (c : κ) :
    lookup key F [c] = (firstKid key F c).map fun k => [k] := by
  rw [lookup]
  rcases firstKid key F c with _ | k <;> rfl

/-- A lookup goes on among the children of the first node that answers to the first key. -/
theorem lookup_cons (F : List (Outline α)) (c : κ) {cs : List κ} (h : cs ≠ []) :
    lookup key F (c :: cs) = (firstKid key F c).bind fun k =>
      ((F[k]?.bind kids).bind fun G => lookup key G cs).map (k :: ·) := by
  cases cs with
  | nil => exact absurd rfl h
  | cons c' cs => rw [lookup]

variable {key}

/-- The first child is there, and its label answers to the key. -/
theorem firstKid_eq_some {F : List (Outline α)} {c : κ} {k : Nat}
    (h : firstKid key F c = some k) : ∃ t, F[k]? = some t ∧ key t.label = c := by
  obtain ⟨hk, hkey, -⟩ := List.findIdx?_eq_some_iff_getElem.mp h
  exact ⟨F[k], List.getElem?_eq_getElem hk, by simpa using hkey⟩

@[simp] theorem firstKid_nil (c : κ) : firstKid key [] c = none := rfl

/-- The first node answers, or what is found behind it has one more in front. -/
theorem firstKid_cons (t : Outline α) (F : List (Outline α)) (c : κ) :
    firstKid key (t :: F) c =
      if key t.label = c then some 0 else (firstKid key F c).map fun k => k + 1 := by
  rw [firstKid, List.findIdx?_cons, firstKid]
  by_cases h : key t.label = c <;> simp [h]

/-- Where none is found, no label answers to the key. -/
theorem firstKid_eq_none {F : List (Outline α)} {c : κ} (h : firstKid key F c = none)
    {t : Outline α} (ht : t ∈ F) : key t.label ≠ c := by
  simpa using List.findIdx?_eq_none_iff.mp h t ht

/-- A new last child is found under a key that no other child answers to. -/
theorem firstKid_concat {F : List (Outline α)} {c : κ} (h : firstKid key F c = none)
    {n : Outline α} (hn : key n.label = c) : firstKid key (F ++ [n]) c = some F.length := by
  rw [firstKid] at h ⊢
  rw [List.findIdx?_append, h]
  simp [hn]

/-- **Lookup, from the other end**: the last key is looked for among the
children of what the keys before it lead to. -/
theorem lookup_concat : ∀ (cs : List κ) (F : List (Outline α)) (c : κ),
    lookup key F (cs ++ [c]) = (lookup key F cs).bind fun as =>
      (kidsAt F as).bind fun G => (firstKid key G c).map fun k => as ++ [k] := by
  intro cs
  induction cs with
  | nil => intro F c; simp
  | cons c₀ cs ih =>
    intro F c
    rw [List.cons_append, lookup_cons key F c₀ (by simp)]
    rcases hk : firstKid key F c₀ with _ | k
    · cases cs with
      | nil => simp [hk]
      | cons c₁ cs => simp [lookup_cons key F c₀ (List.cons_ne_nil c₁ cs), hk]
    · obtain ⟨t, ht, -⟩ := firstKid_eq_some hk
      cases cs with
      | nil =>
        rcases hG : t.kids with _ | G
        · simp [hk, ht, hG]
        · rcases hj : firstKid key G c with _ | j <;> simp [hk, ht, hG, hj]
      | cons c₁ cs =>
        rw [lookup_cons key F c₀ (List.cons_ne_nil c₁ cs), hk]
        rcases hG : t.kids with _ | G
        · simp [ht, hG]
        · simp only [Option.bind_some, ht, hG, ih]
          rcases lookup key G (c₁ :: cs) with _ | as
          · simp
          · simp only [Option.bind_some, Option.map_some, kidsAt_cons, ht, hG]
            rcases kidsAt G as with _ | H
            · simp
            · rcases hj : firstKid key H c with _ | j <;> simp [hj]

/-- A lookup by at least one key names a node. -/
theorem lookup_nodeAt {cs : List κ} {F : List (Outline α)} {as : List Nat}
    (h : lookup key F cs = some as) (hcs : cs ≠ []) :
    as ≠ [] ∧ ∃ t, nodeAt F as = some t := by
  obtain ⟨cs', c, rfl⟩ : ∃ cs' c, cs = cs' ++ [c] :=
    ⟨cs.dropLast, cs.getLast hcs, (List.dropLast_concat_getLast hcs).symm⟩
  rw [lookup_concat] at h
  obtain ⟨as', -, h⟩ := Option.bind_eq_some_iff.mp h
  obtain ⟨G, hG, h⟩ := Option.bind_eq_some_iff.mp h
  obtain ⟨k, hk, rfl⟩ := Option.map_eq_some_iff.mp h
  obtain ⟨t, ht, -⟩ := firstKid_eq_some hk
  exact ⟨by simp, t, nodeAt_child hG ht⟩

end Lookup

/-! ## Adding a child -/

/-- Change the children of a group; other nodes stay as they are. -/
def mapKids (f : List (Outline α) → List (Outline α)) : Outline α → Outline α
  | group o cs c => group o (f cs) c
  | t => t

@[simp] theorem mapKids_group (f : List (Outline α) → List (Outline α)) (o c : α)
    (cs : List (Outline α)) : (group o cs c).mapKids f = group o (f cs) c := rfl

/-- What happens to the children of a node leaves its label alone. -/
@[simp] theorem label_mapKids (f : List (Outline α) → List (Outline α)) (t : Outline α) :
    (t.mapKids f).label = t.label := by
  cases t <;> rfl

/-- Add `n` as the last child of the group at an address, or at the end of the
forest. -/
def appendAt : List (Outline α) → List Nat → Outline α → List (Outline α)
  | F, [], n => F ++ [n]
  | F, k :: as, n => F.modify k (mapKids fun cs => appendAt cs as n)

@[simp] theorem appendAt_nil (F : List (Outline α)) (n : Outline α) :
    appendAt F [] n = F ++ [n] := by
  rw [appendAt]

/-- Further down, it is the children of the node at the first index that get a new last one. -/
@[simp] theorem appendAt_cons (F : List (Outline α)) (k : Nat) (as : List Nat) (n : Outline α) :
    appendAt F (k :: as) n = F.modify k (mapKids fun cs => appendAt cs as n) := by
  rw [appendAt]

/-- The addresses where a child can be added: the forest itself, and groups. -/
def Opens : List (Outline α) → List Nat → Prop
  | _, [] => True
  | F, k :: as => ∃ o cs c, F[k]? = some (group o cs c) ∧ Opens cs as

@[simp] theorem opens_nil (F : List (Outline α)) : Opens F [] := by
  rw [Opens]
  trivial

/-- An address opens if its first index names a group in which the rest of it opens. -/
@[simp] theorem opens_cons {F : List (Outline α)} {k : Nat} {as : List Nat} :
    Opens F (k :: as) ↔ ∃ o cs c, F[k]? = some (group o cs c) ∧ Opens cs as := by
  rw [Opens]

/-- Where the text of a new last child goes: right behind the children. -/
def endPosition (F : List (Outline α)) (as : List Nat) : Nat :=
  kidsPosition F as + (flattenAll ((kidsAt F as).getD [])).length

/-- The children's text begins behind the nodes in front and the label around, as many
deeper as the address goes on. -/
theorem kidsPosition_cons {F cs : List (Outline α)} {k : Nat} (as : List Nat)
    (h : F[k]?.bind kids = some cs) :
    kidsPosition F (k :: as) = (flattenAll (F.take k)).length + 1 + kidsPosition cs as := by
  rw [kidsPosition_of_ne_nil F (by simp)]
  cases as with
  | nil => simp
  | cons j as =>
    rw [position_cons_cons, h, Option.getD_some, kidsPosition_of_ne_nil cs (by simp)]
    omega

/-- The text up to the end of a child list ends with the children. -/
theorem take_endPosition {F H : List (Outline α)} {as : List Nat} (h : kidsAt F as = some H) :
    (flattenAll F).take (endPosition F as) =
      (flattenAll F).take (kidsPosition F as) ++ flattenAll H := by
  obtain ⟨rest, hrest⟩ := drop_kidsPosition h
  rw [endPosition, h, Option.getD_some, List.take_add, hrest, List.take_left]

/-- The text around one node of a forest. -/
theorem flattenAll_modify {F : List (Outline α)} {k : Nat} {t : Outline α}
    (f : Outline α → Outline α) (h : F[k]? = some t) :
    flattenAll (F.modify k f) =
      flattenAll (F.take k) ++ ((f t).flatten ++ flattenAll (F.drop (k + 1))) := by
  obtain ⟨hk, ht⟩ := List.getElem?_eq_some_iff.mp h
  rw [List.modify_eq_take_cons_drop hk, ht, flattenAll_append, flattenAll_cons]

/-- What `endPosition` splits off in the text of a forest, one step down. -/
theorem endPosition_cons {F cs : List (Outline α)} {k : Nat} {o c : α}
    (h : F[k]? = some (group o cs c)) (as : List Nat) :
    endPosition F (k :: as) = (flattenAll (F.take k)).length + (endPosition cs as + 1) := by
  have hkids : F[k]?.bind kids = some cs := by rw [h]; rfl
  rw [endPosition, endPosition, kidsPosition_cons as hkids, kidsAt_cons, hkids, Option.bind_some]
  omega

/-- The text of a forest around one of its groups: the nodes in front, the opening label,
the children, the closing label, and the nodes behind. -/
theorem flattenAll_split_group {F cs : List (Outline α)} {k : Nat} {o c : α}
    (h : F[k]? = some (group o cs c)) :
    flattenAll F = flattenAll (F.take k) ++
      (o :: (flattenAll cs ++ (c :: flattenAll (F.drop (k + 1))))) := by
  rw [flattenAll_split h, flatten_group, List.cons_append, List.append_assoc]
  rfl

/-- Behind the children of a group stands its closing label; the end of the
forest is the end of the text. -/
theorem drop_endPosition : ∀ {as : List Nat} {F : List (Outline α)}, Opens F as →
    endPosition F as ≤ (flattenAll F).length ∧
      (as = [] ∧ endPosition F as = (flattenAll F).length ∨
        ∃ o cs c rest, nodeAt F as = some (group o cs c) ∧
          (flattenAll F).drop (endPosition F as) = c :: rest) := by
  intro as
  induction as with
  | nil => intro F _; simp [endPosition]
  | cons k as ih =>
    intro F h
    obtain ⟨o, cs, c, hk, hopen⟩ := opens_cons.mp h
    obtain ⟨hle, hcase⟩ := ih hopen
    have hsplit := flattenAll_split_group hk
    rw [endPosition_cons hk, hsplit]
    refine ⟨?_, ?_⟩
    · simp only [List.length_append, List.length_cons]
      omega
    · refine Or.inr ?_
      rw [List.drop_length_add_append, List.drop_succ_cons]
      rcases hcase with ⟨rfl, hend⟩ | ⟨o', cs', c', rest, hnode, hrest⟩
      · exact ⟨o, cs, c, _, by rw [nodeAt_singleton, hk], by rw [hend, List.drop_left]⟩
      · refine ⟨o', cs', c', _, ?_,
            by rw [List.drop_append_of_le_length hle, hrest, List.cons_append]⟩
        cases as with
        | nil => simp at hnode
        | cons j as =>
            rw [nodeAt_cons_cons, hk, Option.bind_some, kids_group, Option.bind_some, hnode]

/-- **Adding a child inserts its text** right behind the children that are there. -/
theorem flattenAll_appendAt (n : Outline α) : ∀ {as : List Nat} {F : List (Outline α)},
    Opens F as → flattenAll (appendAt F as n) =
      (flattenAll F).take (endPosition F as) ++
        (n.flatten ++ (flattenAll F).drop (endPosition F as)) := by
  intro as
  induction as with
  | nil => intro F _; simp [endPosition]
  | cons k as ih =>
    intro F h
    obtain ⟨o, cs, c, hk, hopen⟩ := opens_cons.mp h
    have hle := (drop_endPosition hopen).1
    rw [appendAt_cons, flattenAll_modify _ hk, mapKids_group, flatten_group, ih hopen,
      endPosition_cons hk, flattenAll_split_group hk, List.take_length_add_append,
      List.drop_length_add_append, List.take_succ_cons, List.drop_succ_cons,
      List.take_append_of_le_length hle, List.drop_append_of_le_length hle]
    simp

/-- The children of the node that has got a new child. -/
theorem kidsAt_appendAt : ∀ {as : List Nat} {F H : List (Outline α)}, Opens F as →
    kidsAt F as = some H → ∀ n, kidsAt (appendAt F as n) as = some (H ++ [n]) := by
  intro as
  induction as with
  | nil =>
    intro F H _ hH n
    obtain rfl := Option.some.inj ((kidsAt_nil F).symm.trans hH)
    rw [appendAt_nil, kidsAt_nil]
  | cons k as ih =>
    intro F H hopen hH n
    obtain ⟨o, cs, c, hk, hopen⟩ := opens_cons.mp hopen
    rw [kidsAt_cons, hk, Option.bind_some, kids_group, Option.bind_some] at hH
    rw [appendAt_cons, kidsAt_cons, List.getElem?_modify_eq, hk]
    exact ih hopen hH n

/-- They begin where they began. -/
theorem kidsPosition_appendAt : ∀ {as : List Nat} {F : List (Outline α)}, Opens F as →
    ∀ n, kidsPosition (appendAt F as n) as = kidsPosition F as := by
  intro as
  induction as with
  | nil => exact fun _ _ => rfl
  | cons k as ih =>
    intro F hopen n
    obtain ⟨o, cs, c, hk, hopen⟩ := opens_cons.mp hopen
    have hkids : F[k]?.bind kids = some cs := by rw [hk]; rfl
    have hkids' : (F.modify k (mapKids fun cs => appendAt cs as n))[k]?.bind kids =
        some (appendAt cs as n) := by
      rw [List.getElem?_modify_eq, hk]
      rfl
    rw [appendAt_cons, kidsPosition_cons as hkids', kidsPosition_cons as hkids, ih hopen,
      List.take_modify, List.modify_eq_self (List.length_take_le k F)]

/-- The new child stands where the children ended. -/
theorem position_appendAt {as : List Nat} {F H : List (Outline α)} (hopen : Opens F as)
    (hH : kidsAt F as = some H) (n : Outline α) :
    position (appendAt F as n) (as ++ [H.length]) = endPosition F as := by
  rw [position_concat (kidsAt_appendAt hopen hH n), kidsPosition_appendAt hopen, List.take_left,
    endPosition, hH, Option.getD_some]

/-- A group's address can be opened, and so can the empty one. -/
theorem opens_of_nodeAt : ∀ {as : List Nat} {F : List (Outline α)} {o c : α}
    {cs : List (Outline α)}, nodeAt F as = some (group o cs c) → Opens F as := by
  intro as
  induction as with
  | nil => intro F o c cs _; exact opens_nil F
  | cons k as ih =>
    intro F o c cs h
    cases as with
    | nil => exact opens_cons.mpr ⟨o, cs, c, by rwa [nodeAt_singleton] at h, opens_nil cs⟩
    | cons j as =>
      rw [nodeAt_cons_cons] at h
      obtain ⟨G, hG, hnode⟩ := Option.bind_eq_some_iff.mp h
      obtain ⟨t, ht, hkids⟩ := Option.bind_eq_some_iff.mp hG
      cases t with
      | item a => simp at hkids
      | block a ls =>
        -- below a block there are only items
        obtain rfl := Option.some.inj hkids
        cases as with
        | nil => simp [Option.map_eq_some_iff] at hnode
        | cons i as =>
          rw [nodeAt_cons_cons] at hnode
          rcases hj : ls[j]? with _ | l <;> simp [hj] at hnode
      | group o' cs' c' =>
        obtain rfl := Option.some.inj hkids
        exact opens_cons.mpr ⟨o', cs', c', ht, ih hnode⟩

/-- An address that can be opened is the forest or a group of it. -/
theorem opens_iff {F : List (Outline α)} {as : List Nat} :
    Opens F as ↔ as = [] ∨ ∃ o cs c, nodeAt F as = some (group o cs c) := by
  refine ⟨?_, ?_⟩
  · intro h
    rcases (drop_endPosition h).2 with ⟨has, -⟩ | ⟨o, cs, c, -, hnode, -⟩
    · exact Or.inl has
    · exact Or.inr ⟨o, cs, c, hnode⟩
  · rintro (rfl | ⟨o, cs, c, hnode⟩)
    · exact opens_nil F
    · exact opens_of_nodeAt hnode

/-- What opens has children, if only none. -/
theorem Opens.exists_kids {F : List (Outline α)} {as : List Nat} (h : Opens F as) :
    ∃ H, kidsAt F as = some H := by
  rcases opens_iff.mp h with rfl | ⟨o, cs, c, hnode⟩
  · exact ⟨F, kidsAt_nil F⟩
  · have has : as ≠ [] := by
      rintro rfl
      simp at hnode
    exact ⟨cs, by rw [kidsAt_eq_nodeAt F has, hnode]; rfl⟩

/-! ## Changing a label -/

/-- Change the `j`-th label of a block's items, for the address `[j]` below the
block. -/
def updateItems (f : α → α) (as : List Nat) (ls : List α) : List α :=
  match as with
  | [j] => ls.modify j f
  | _ => ls

/-- An address of one index changes the item that it names. -/
theorem updateItems_singleton (f : α → α) (j : Nat) (ls : List α) :
    updateItems f [j] ls = ls.modify j f := rfl

/-- A changed item is still one item. -/
@[simp] theorem length_updateItems (f : α → α) (as : List Nat) (ls : List α) :
    (updateItems f as ls).length = ls.length := by
  rcases as with _ | ⟨j, _ | ⟨i, as⟩⟩ <;> simp [updateItems]

/-- Only the item at the address has changed. -/
theorem updateItems_getElem? (f : α → α) (as : List Nat) (ls : List α) (k : Nat) :
    (updateItems f as ls)[k]? = if as = [k] then ls[k]?.map f else ls[k]? := by
  rcases as with _ | ⟨j, _ | ⟨i, as⟩⟩
  · rfl
  · rw [updateItems_singleton, List.getElem?_modify]
    by_cases hjk : j = k
    · rcases ls[k]? with _ | a <;> simp [hjk]
    · rcases ls[k]? with _ | a <;> simp [hjk]
  · rw [if_neg (by simp)]
    rfl

/-- Change a label at, or below, a node: `as` leads on from the node, `below`
does the change in the children of a group. -/
def updateNode (f : α → α) (as : List Nat) (below : List (Outline α) → List (Outline α)) :
    Outline α → Outline α
  | item a => if as = [] then item (f a) else item a
  | block a ls => block a (updateItems f as ls)
  | group o cs c => group o (below cs) c

/-- Change the label of the item at an address; any other address is ignored. -/
def updateAt : List (Outline α) → List Nat → (α → α) → List (Outline α)
  | F, [], _ => F
  | F, k :: as, f => F.modify k (updateNode f as fun cs => updateAt cs as f)

@[simp] theorem updateAt_nil (F : List (Outline α)) (f : α → α) : updateAt F [] f = F := by
  rw [updateAt]

/-- An update further down changes the node at the first index, itself or below it. -/
@[simp] theorem updateAt_cons (F : List (Outline α)) (k : Nat) (as : List Nat) (f : α → α) :
    updateAt F (k :: as) f = F.modify k (updateNode f as fun cs => updateAt cs as f) := by
  rw [updateAt]

/-! ## What stays where it was -/

section Stable

variable (key : α → κ)

/-- The siblings `H` begin like the siblings `H'`, judged by their keys. -/
def SiblingsExtend (H H' : List (Outline α)) : Prop :=
  ∀ (k : Nat) (t : Outline α), H[k]? = some t →
    ∃ t' : Outline α, H'[k]? = some t' ∧ key t'.label = key t.label

/-- `F'` still has every child that `F` has, at the same address and under the
same key; there may be further children behind them. -/
def Extends (F F' : List (Outline α)) : Prop :=
  ∀ as H, kidsAt F as = some H → ∃ H', kidsAt F' as = some H' ∧ SiblingsExtend key H H'

variable {key}

/-- More siblings behind them do not hide the ones that a key finds. -/
theorem firstKid_of_extends [DecidableEq κ] {H H' : List (Outline α)} (h : SiblingsExtend key H H')
    {c : κ} {k : Nat} (hk : firstKid key H c = some k) : firstKid key H' c = some k := by
  rw [firstKid, List.findIdx?_eq_some_iff_getElem] at hk ⊢
  obtain ⟨hlt, hkey, hbefore⟩ := hk
  have hsame : ∀ j (hj : j < H.length), ∃ hj' : j < H'.length,
      key H'[j].label = key H[j].label := by
    intro j hj
    obtain ⟨t', ht', hlab⟩ := h j H[j] (List.getElem?_eq_getElem hj)
    obtain ⟨hj', rfl⟩ := List.getElem?_eq_some_iff.mp ht'
    exact ⟨hj', hlab⟩
  obtain ⟨hlt', hlab⟩ := hsame k hlt
  refine ⟨hlt', by rw [hlab]; exact hkey, fun j hji => ?_⟩
  obtain ⟨_, hlab'⟩ := hsame j (by omega)
  rw [hlab']
  exact hbefore j hji

/-- **Old lookups survive**: the first child that answers to a key is still the
first. -/
theorem lookup_of_extends [DecidableEq κ] {F F' : List (Outline α)} (h : Extends key F F') :
    ∀ {cs : List κ} {as : List Nat}, lookup key F cs = some as → lookup key F' cs = some as := by
  intro cs
  induction cs using List.reverseRecOn with
  | nil => intro as hlook; simpa using hlook
  | append_singleton cs c ih =>
    intro as hlook
    rw [lookup_concat] at hlook ⊢
    obtain ⟨as', has', hlook⟩ := Option.bind_eq_some_iff.mp hlook
    obtain ⟨H, hH, hlook⟩ := Option.bind_eq_some_iff.mp hlook
    obtain ⟨k, hk, rfl⟩ := Option.map_eq_some_iff.mp hlook
    obtain ⟨H', hH', hsame⟩ := h as' H hH
    rw [ih has', Option.bind_some, hH', Option.bind_some, firstKid_of_extends hsame hk,
      Option.map_some]

/-- Changing the node at an index, to one with the same key and with extended
children, extends the forest. -/
theorem extends_modify {F : List (Outline α)} {f : Outline α → Outline α} {k : Nat}
    (hkey : ∀ t, key (f t).label = key t.label)
    (hkids : ∀ t G, F[k]? = some t → t.kids = some G →
      ∃ G', (f t).kids = some G' ∧ Extends key G G') : Extends key F (F.modify k f) := by
  intro as H hH
  cases as with
  | nil =>
    obtain rfl := Option.some.inj ((kidsAt_nil F).symm.trans hH)
    refine ⟨_, kidsAt_nil _, fun j t ht => ?_⟩
    by_cases hkj : k = j
    · subst hkj
      exact ⟨f t, by rw [List.getElem?_modify_eq, ht]; rfl, hkey t⟩
    · exact ⟨t, by rw [List.getElem?_modify_ne _ _ hkj, ht], rfl⟩
  | cons j as =>
    rw [kidsAt_cons] at hH ⊢
    obtain ⟨G, hG, hbelow⟩ := Option.bind_eq_some_iff.mp hH
    obtain ⟨t, ht, hkidsG⟩ := Option.bind_eq_some_iff.mp hG
    by_cases hkj : k = j
    · subst hkj
      obtain ⟨G', hG', hext⟩ := hkids t G ht hkidsG
      obtain ⟨H', hH', hsame⟩ := hext as H hbelow
      refine ⟨H', ?_, hsame⟩
      rw [List.getElem?_modify_eq, ht, Option.map_eq_map, Option.map_some, Option.bind_some, hG',
        Option.bind_some, hH']
    · refine ⟨H, ?_, fun i t ht => ⟨t, ht, rfl⟩⟩
      rw [List.getElem?_modify_ne _ _ hkj, hG, Option.bind_some, hbelow]

/-- A forest extends itself. -/
theorem extends_refl (F : List (Outline α)) : Extends key F F :=
  fun _ H hH => ⟨H, hH, fun _ t ht => ⟨t, ht, rfl⟩⟩

/-- Extensions can be done one after the other. -/
theorem extends_trans {F G H : List (Outline α)} (h₁ : Extends key F G) (h₂ : Extends key G H) :
    Extends key F H := by
  intro as K hK
  obtain ⟨K₁, hK₁, hsame₁⟩ := h₁ as K hK
  obtain ⟨K₂, hK₂, hsame₂⟩ := h₂ as K₁ hK₁
  refine ⟨K₂, hK₂, fun k t ht => ?_⟩
  obtain ⟨t₁, ht₁, heq₁⟩ := hsame₁ k t ht
  obtain ⟨t₂, ht₂, heq₂⟩ := hsame₂ k t₁ ht₁
  exact ⟨t₂, ht₂, heq₂.trans heq₁⟩

/-- What is kept under one key is kept under every key computed from it. -/
theorem Extends.map {μ : Type*} {F F' : List (Outline α)} (h : Extends key F F') (g : κ → μ) :
    Extends (fun a => g (key a)) F F' := by
  intro as H hH
  obtain ⟨H', hH', hsame⟩ := h as H hH
  refine ⟨H', hH', fun k t ht => ?_⟩
  obtain ⟨t', ht', heq⟩ := hsame k t ht
  exact ⟨t', ht', congrArg g heq⟩

/-- A node stays at its address, under its key, with its children in front. -/
theorem Extends.nodeAt {F F' : List (Outline α)} (h : Extends key F F') {as : List Nat}
    {t : Outline α} (ht : nodeAt F as = some t) :
    ∃ t', Outline.nodeAt F' as = some t' ∧ key t'.label = key t.label ∧
      ∀ G, t.kids = some G → ∃ G', t'.kids = some G' ∧ SiblingsExtend key G G' := by
  rcases List.eq_nil_or_concat as with rfl | ⟨as, k, rfl⟩
  · simp at ht
  · rw [List.concat_eq_append] at ht ⊢
    have hkids := h (as ++ [k])
    rw [kidsAt_eq_nodeAt F (by simp), kidsAt_eq_nodeAt F' (by simp), ht, Option.bind_some] at hkids
    rw [nodeAt_concat] at ht
    obtain ⟨H, hH, hk⟩ := Option.bind_eq_some_iff.mp ht
    obtain ⟨H', hH', hsame⟩ := h as H hH
    obtain ⟨t', ht', hkey⟩ := hsame k t hk
    have hnode := nodeAt_child hH' ht'
    refine ⟨t', hnode, hkey, fun G hG => ?_⟩
    obtain ⟨G', hG', hsame'⟩ := hkids G hG
    rw [hnode, Option.bind_some] at hG'
    exact ⟨G', hG', hsame'⟩

/-- A node behind the others leaves their indices as they are. -/
theorem getElem?_append_of_some {F : List (Outline α)} {k : Nat} {t : Outline α}
    (h : F[k]? = some t) (G : List (Outline α)) : (F ++ G)[k]? = some t := by
  rw [List.getElem?_append_left (List.getElem?_eq_some_iff.mp h).1, h]

/-- A new last child extends the forest. -/
theorem extends_appendAt (n : Outline α) : ∀ (as : List Nat) (F : List (Outline α)),
    Extends key F (appendAt F as n) := by
  intro as
  induction as with
  | nil =>
    intro F bs H hH
    rw [appendAt_nil]
    cases bs with
    | nil =>
      obtain rfl := Option.some.inj ((kidsAt_nil F).symm.trans hH)
      exact ⟨_, kidsAt_nil _, fun k t ht => ⟨t, getElem?_append_of_some ht [n], rfl⟩⟩
    | cons k bs =>
      rw [kidsAt_cons] at hH ⊢
      obtain ⟨G, hG, hbelow⟩ := Option.bind_eq_some_iff.mp hH
      obtain ⟨t, ht, hkids⟩ := Option.bind_eq_some_iff.mp hG
      refine ⟨H, ?_, fun i t ht => ⟨t, ht, rfl⟩⟩
      rw [getElem?_append_of_some ht [n], Option.bind_some, hkids, Option.bind_some, hbelow]
  | cons k as ih =>
    intro F
    rw [appendAt_cons]
    refine extends_modify (fun t => by rw [label_mapKids]) fun t G _ hG => ?_
    cases t with
    | item a => cases hG
    | block a ls => exact ⟨G, hG, extends_refl G⟩
    | group o cs c =>
      obtain rfl := Option.some.inj hG
      exact ⟨_, rfl, ih cs⟩

/-- A change of labels that keeps their keys extends a forest of items. -/
theorem extends_updateItems {f : α → α} (hf : ∀ a, key (f a) = key a) (as : List Nat)
    (ls : List α) : Extends key (ls.map item) ((updateItems f as ls).map item) := by
  intro bs H hH
  cases bs with
  | nil =>
    obtain rfl := Option.some.inj ((kidsAt_nil _).symm.trans hH)
    refine ⟨_, kidsAt_nil _, fun k t ht => ?_⟩
    rw [List.getElem?_map] at ht ⊢
    obtain ⟨a, ha, rfl⟩ := Option.map_eq_some_iff.mp ht
    rw [updateItems_getElem?, ha]
    split
    · exact ⟨_, rfl, hf a⟩
    · exact ⟨_, rfl, rfl⟩
  | cons k bs =>
    rw [kidsAt_cons, List.getElem?_map] at hH
    rcases hk : ls[k]? with _ | a <;> simp [hk] at hH

/-- A new label with the same key changes no lookup. -/
theorem extends_updateAt {f : α → α} (hf : ∀ a, key (f a) = key a) :
    ∀ (as : List Nat) (F : List (Outline α)), Extends key F (updateAt F as f) := by
  intro as
  induction as with
  | nil => intro F; rw [updateAt_nil]; exact extends_refl F
  | cons k as ih =>
    intro F
    rw [updateAt_cons]
    refine extends_modify (fun t => ?_) fun t G _ hG => ?_
    · cases t with
      | item a =>
        rw [updateNode]
        split
        · exact hf a
        · rfl
      | block a ls => rfl
      | group o cs c => rfl
    · cases t with
      | item a => cases hG
      | block a ls =>
        obtain rfl := Option.some.inj hG
        exact ⟨_, rfl, extends_updateItems hf as ls⟩
      | group o cs c =>
        obtain rfl := Option.some.inj hG
        exact ⟨_, rfl, ih cs⟩

end Stable

/-! ### Items, by address -/

/-- Only items stand below a block. -/
theorem nodeAt_map_item {ls : List α} {as : List Nat} {t : Outline α}
    (h : nodeAt (ls.map item) as = some t) : ∃ j a, as = [j] ∧ ls[j]? = some a ∧ t = item a := by
  rcases as with _ | ⟨j, _ | ⟨i, as⟩⟩
  · simp at h
  · rw [nodeAt_singleton, List.getElem?_map] at h
    obtain ⟨a, ha, rfl⟩ := Option.map_eq_some_iff.mp h
    exact ⟨j, a, rfl, ha, rfl⟩
  · rw [nodeAt_cons_cons, List.getElem?_map] at h
    rcases hj : ls[j]? with _ | a <;> simp [hj] at h

/-- One step down an address of length two or more. -/
theorem nodeAt_cons_eq_some {F : List (Outline α)} {k : Nat} {as : List Nat} {t : Outline α}
    (has : as ≠ []) : nodeAt F (k :: as) = some t ↔
      ∃ u cs, F[k]? = some u ∧ u.kids = some cs ∧ nodeAt cs as = some t := by
  cases as with
  | nil => exact absurd rfl has
  | cons j as =>
    rw [nodeAt_cons_cons]
    refine ⟨?_, ?_⟩
    · intro h
      obtain ⟨cs, hcs, ht⟩ := Option.bind_eq_some_iff.mp h
      obtain ⟨u, hu, hkids⟩ := Option.bind_eq_some_iff.mp hcs
      exact ⟨u, cs, hu, hkids, ht⟩
    · rintro ⟨u, cs, hu, hkids, ht⟩
      rw [hu, Option.bind_some, hkids, Option.bind_some, ht]

/-- Items keep their addresses when a child is added somewhere. -/
theorem nodeAt_appendAt_item (n : Outline α) {a : α} : ∀ {as bs : List Nat}
    {F : List (Outline α)}, nodeAt F bs = some (item a) →
    nodeAt (appendAt F as n) bs = some (item a) := by
  intro as
  induction as with
  | nil =>
    intro bs F h
    rw [appendAt_nil]
    rcases bs with _ | ⟨k, _ | ⟨j, bs⟩⟩
    · simp at h
    · rw [nodeAt_singleton] at h ⊢
      exact getElem?_append_of_some h [n]
    · obtain ⟨u, cs, hu, hkids, ht⟩ := (nodeAt_cons_eq_some (by simp)).mp h
      exact (nodeAt_cons_eq_some (by simp)).mpr ⟨u, cs, getElem?_append_of_some hu [n], hkids, ht⟩
  | cons i as ih =>
    intro bs F h
    rw [appendAt_cons]
    rcases bs with _ | ⟨k, _ | ⟨j, bs⟩⟩
    · simp at h
    · rw [nodeAt_singleton] at h ⊢
      by_cases hik : i = k
      · subst hik
        rw [List.getElem?_modify_eq, h]
        rfl
      · rw [List.getElem?_modify_ne _ _ hik, h]
    · obtain ⟨u, cs, hu, hkids, ht⟩ := (nodeAt_cons_eq_some (by simp)).mp h
      refine (nodeAt_cons_eq_some (by simp)).mpr ?_
      by_cases hik : i = k
      · subst hik
        rw [List.getElem?_modify_eq, hu]
        cases u with
        | item b => cases hkids
        | block b ls => exact ⟨_, cs, rfl, hkids, ht⟩
        | group o cs' c =>
          obtain rfl := Option.some.inj hkids
          exact ⟨_, _, rfl, rfl, ih ht⟩
      · exact ⟨u, cs, by rw [List.getElem?_modify_ne _ _ hik, hu], hkids, ht⟩

/-- The item whose label is changed. -/
theorem nodeAt_updateAt_self {a : α} (f : α → α) : ∀ {as : List Nat} {F : List (Outline α)},
    nodeAt F as = some (item a) → nodeAt (updateAt F as f) as = some (item (f a)) := by
  intro as
  induction as with
  | nil => intro F h; simp at h
  | cons k as ih =>
    intro F h
    rw [updateAt_cons]
    rcases eq_or_ne as [] with rfl | has
    · rw [nodeAt_singleton] at h ⊢
      rw [List.getElem?_modify_eq, h]
      rfl
    · obtain ⟨u, cs, hu, hkids, ht⟩ := (nodeAt_cons_eq_some has).mp h
      refine (nodeAt_cons_eq_some has).mpr ?_
      rw [List.getElem?_modify_eq, hu]
      cases u with
      | item b => cases hkids
      | block b ls =>
        obtain rfl := Option.some.inj hkids
        obtain ⟨j, a', rfl, hj, heq⟩ := nodeAt_map_item ht
        obtain rfl := Outline.item.inj heq
        exact ⟨_, _, rfl, rfl, by simp [updateItems_singleton, hj]⟩
      | group o cs' c =>
        obtain rfl := Option.some.inj hkids
        exact ⟨_, _, rfl, rfl, ih ht⟩

/-- Items at other addresses keep their labels. -/
theorem nodeAt_updateAt_ne {b : α} (f : α → α) : ∀ {as bs : List Nat} {F : List (Outline α)},
    bs ≠ as → nodeAt F bs = some (item b) → nodeAt (updateAt F as f) bs = some (item b) := by
  intro as
  induction as with
  | nil => intro bs F _ h; rwa [updateAt_nil]
  | cons k as ih =>
    intro bs F hne h
    rw [updateAt_cons]
    rcases bs with _ | ⟨j, bs⟩
    · simp at h
    · by_cases hkj : k = j
      · subst hkj
        have hne' : bs ≠ as := fun h => hne (by rw [h])
        rcases eq_or_ne bs [] with rfl | hbs
        · rw [nodeAt_singleton] at h ⊢
          rw [List.getElem?_modify_eq, h, Option.map_eq_map, Option.map_some, updateNode,
            if_neg hne'.symm]
        · obtain ⟨u, cs, hu, hkids, ht⟩ := (nodeAt_cons_eq_some hbs).mp h
          refine (nodeAt_cons_eq_some hbs).mpr ?_
          rw [List.getElem?_modify_eq, hu]
          cases u with
          | item c => cases hkids
          | block c ls =>
            obtain rfl := Option.some.inj hkids
            obtain ⟨i, a', rfl, hi, heq⟩ := nodeAt_map_item ht
            obtain rfl := Outline.item.inj heq
            refine ⟨_, _, rfl, rfl, ?_⟩
            rw [nodeAt_singleton, List.getElem?_map, updateItems_getElem?, if_neg hne'.symm, hi]
            rfl
          | group o cs' c =>
            obtain rfl := Option.some.inj hkids
            exact ⟨_, _, rfl, rfl, ih hne' ht⟩
      · rcases eq_or_ne bs [] with rfl | hbs
        · rw [nodeAt_singleton] at h ⊢
          rw [List.getElem?_modify_ne _ _ hkj, h]
        · obtain ⟨u, cs, hu, hkids, ht⟩ := (nodeAt_cons_eq_some hbs).mp h
          exact (nodeAt_cons_eq_some hbs).mpr
            ⟨u, cs, by rw [List.getElem?_modify_ne _ _ hkj, hu], hkids, ht⟩

/-- A change in the second of two lists leaves the first alone. -/
theorem modify_append_right (f : α → α) (A B : List α) (i : Nat) :
    (A ++ B).modify (A.length + i) f = A ++ B.modify i f := by
  induction A with
  | nil => simp
  | cons x A ih => simp [Nat.succ_add, ih]

/-- A change in the first of two lists leaves the second alone. -/
theorem modify_append_left (f : α → α) {A : List α} (B : List α) {i : Nat} (h : i < A.length) :
    (A ++ B).modify i f = A.modify i f ++ B := by
  induction A generalizing i with
  | nil => simp at h
  | cons x A ih =>
    cases i with
    | zero => simp
    | succ i => simp [ih (by simpa using h)]

/-- A node begins inside the text of its forest. -/
theorem position_lt {as : List Nat} {F : List (Outline α)} {t : Outline α}
    (h : nodeAt F as = some t) : position F as < (flattenAll F).length := by
  obtain ⟨rest, hrest⟩ := drop_position h
  exact lt_of_drop_eq hrest

/-- More nodes have no shorter text. -/
theorem flattenAll_take_le (F : List (Outline α)) {j k : Nat} (h : j ≤ k) :
    (flattenAll (F.take j)).length ≤ (flattenAll (F.take k)).length := by
  obtain ⟨G, hG⟩ := List.take_prefix_take_left (l := F) h
  rw [← hG, flattenAll_append, List.length_append]
  omega

/-- A position, one step down. -/
theorem position_cons {F cs : List (Outline α)} {k : Nat} {as : List Nat} {u : Outline α}
    (has : as ≠ []) (hu : F[k]? = some u) (hkids : u.kids = some cs) :
    position F (k :: as) = (flattenAll (F.take k)).length + (position cs as + 1) := by
  rcases as with _ | ⟨j, as⟩
  · exact absurd rfl has
  · rw [position_cons_cons, hu, Option.bind_some, hkids, Option.getD_some]
    omega

/-- The position of a node lies inside the text of its outermost ancestor. -/
theorem position_cons_bounds {F : List (Outline α)} {k : Nat} {as : List Nat} {t : Outline α}
    (h : nodeAt F (k :: as) = some t) :
    (flattenAll (F.take k)).length ≤ position F (k :: as) ∧
      position F (k :: as) < (flattenAll (F.take (k + 1))).length := by
  rcases eq_or_ne as [] with rfl | has
  · rw [nodeAt_singleton] at h
    have := t.flatten_length_pos
    rw [position_singleton, List.take_add_one, h, flattenAll_append, List.length_append]
    simp only [Option.toList_some, flattenAll_cons, flattenAll_nil, List.append_nil]
    omega
  · obtain ⟨u, cs, hu, hkids, ht⟩ := (nodeAt_cons_eq_some has).mp h
    obtain ⟨rest, hrest⟩ := drop_one_flatten hkids
    have hlt := position_lt ht
    have hlen := congrArg List.length hrest
    rw [List.length_cons, List.length_append] at hlen
    rw [position_cons has hu hkids, List.take_add_one, hu, flattenAll_append, List.length_append]
    simp only [Option.toList_some, flattenAll_cons, flattenAll_nil, List.append_nil]
    omega

/-- Different nodes have different positions. -/
theorem position_injective : ∀ {as bs : List Nat} {F : List (Outline α)} {t u : Outline α},
    nodeAt F as = some t → nodeAt F bs = some u → position F as = position F bs → as = bs := by
  intro as
  induction as with
  | nil => intro bs F t u h; simp at h
  | cons k as ih =>
    intro bs F t u ht hu heq
    cases bs with
    | nil => simp at hu
    | cons j bs =>
      have hk := position_cons_bounds ht
      have hj := position_cons_bounds hu
      -- the texts of different siblings do not overlap
      obtain rfl : k = j := by
        rcases Nat.lt_trichotomy k j with hlt | rfl | hlt
        · have := flattenAll_take_le F (Nat.succ_le_of_lt hlt)
          rw [Nat.succ_eq_add_one] at this
          omega
        · rfl
        · have := flattenAll_take_le F (Nat.succ_le_of_lt hlt)
          rw [Nat.succ_eq_add_one] at this
          omega
      rcases eq_or_ne as [] with rfl | has
      · rcases eq_or_ne bs [] with rfl | hbs
        · rfl
        · obtain ⟨u', cs, hu', hkids, -⟩ := (nodeAt_cons_eq_some hbs).mp hu
          rw [position_singleton, position_cons hbs hu' hkids] at heq
          omega
      · obtain ⟨t', cs, ht', hkids, htcs⟩ := (nodeAt_cons_eq_some has).mp ht
        rcases eq_or_ne bs [] with rfl | hbs
        · rw [position_singleton, position_cons has ht' hkids] at heq
          omega
        · obtain ⟨u', cs', hu', hkids', hucs⟩ := (nodeAt_cons_eq_some hbs).mp hu
          obtain rfl := Option.some.inj (ht'.symm.trans hu')
          obtain rfl := Option.some.inj (hkids.symm.trans hkids')
          rw [position_cons has ht' hkids, position_cons hbs ht' hkids] at heq
          rw [ih htcs hucs (by omega)]

/-- In the text, changing an item's label changes the label at its position. -/
theorem flattenAll_updateAt {a : α} (f : α → α) : ∀ {as : List Nat} {F : List (Outline α)},
    nodeAt F as = some (item a) →
    flattenAll (updateAt F as f) = (flattenAll F).modify (position F as) f := by
  intro as
  induction as with
  | nil => intro F h; simp at h
  | cons k as ih =>
    intro F h
    rw [updateAt_cons]
    rcases eq_or_ne as [] with rfl | has
    · rw [nodeAt_singleton] at h
      have hmod := modify_append_right f (flattenAll (F.take k))
        (a :: flattenAll (F.drop (k + 1))) 0
      simp only [Nat.add_zero, List.modify_zero_cons] at hmod
      rw [flattenAll_modify _ h, flattenAll_split h, position_singleton, flatten_item,
        List.singleton_append, hmod, updateNode, if_pos rfl, flatten_item, List.singleton_append]
    · obtain ⟨u, cs, hu, hkids, ht⟩ := (nodeAt_cons_eq_some has).mp h
      have hpos := position_cons has hu hkids
      have hlt := position_lt ht
      rw [flattenAll_modify _ hu, flattenAll_split hu, hpos, modify_append_right]
      congr 1
      cases u with
      | item b => cases hkids
      | block b ls =>
        obtain rfl := Option.some.inj hkids
        obtain ⟨j, a', rfl, hj, -⟩ := nodeAt_map_item ht
        have hjlt : j < ls.length := (List.getElem?_eq_some_iff.mp hj).1
        have hposj : position (ls.map item) [j] = j := by
          rw [position_singleton, ← List.map_take, flattenAll_map_item, List.length_take]
          omega
        rw [hposj, updateNode, updateItems_singleton, flatten_block, flatten_block,
          List.cons_append, List.cons_append, List.modify_succ_cons, modify_append_left f _ hjlt]
      | group o cs' c =>
        obtain rfl := Option.some.inj hkids
        rw [updateNode, flatten_group, flatten_group, List.cons_append, List.cons_append,
          List.modify_succ_cons, List.append_assoc, List.append_assoc, modify_append_left f _ hlt,
          ih ht]

/-! ### Changing a label moves nothing -/

/-- How long the texts of the nodes are. -/
def lengths (F : List (Outline α)) : List Nat := F.map fun t => t.flatten.length

/-- A forest is as long as its nodes are together. -/
theorem length_flattenAll (F : List (Outline α)) :
    (flattenAll F).length = (lengths F).foldr (· + ·) 0 := by
  induction F with
  | nil => rfl
  | cons t F ih => rw [flattenAll_cons, List.length_append, ih, lengths, lengths, List.map_cons,
      List.foldr_cons]

/-- An update does not change how long a node is, if it does not for what is below. -/
theorem length_flatten_updateNode {f : α → α} {as : List Nat}
    {below : List (Outline α) → List (Outline α)} (h : ∀ cs, lengths (below cs) = lengths cs)
    (t : Outline α) : (updateNode f as below t).flatten.length = t.flatten.length := by
  cases t with
  | item a =>
    rw [updateNode]
    split
    · rfl
    · rfl
  | block a ls =>
    rw [updateNode, flatten_block, flatten_block, List.length_cons, List.length_cons,
      length_updateItems]
  | group o cs c =>
    rw [updateNode, flatten_group, flatten_group, List.length_cons, List.length_cons,
      List.length_append, List.length_append, length_flattenAll, length_flattenAll, h]

/-- An update leaves the nodes of a forest as long as they are. -/
theorem lengths_updateAt (f : α → α) : ∀ (as : List Nat) (F : List (Outline α)),
    lengths (updateAt F as f) = lengths F := by
  intro as
  induction as with
  | nil => intro F; rw [updateAt_nil]
  | cons k as ih =>
    intro F
    rw [updateAt_cons]
    apply List.ext_getElem?
    intro j
    rw [lengths, lengths, List.getElem?_map, List.getElem?_map]
    by_cases hkj : k = j
    · subst hkj
      rw [List.getElem?_modify_eq]
      rcases F[k]? with _ | t
      · rfl
      · exact congrArg some (length_flatten_updateNode ih t)
    · rw [List.getElem?_modify_ne _ _ hkj]

/-- On a forest of items an update is one of the list of their labels. -/
theorem updateAt_map_item (f : α → α) (as : List Nat) (ls : List α) :
    updateAt (ls.map item) as f = (updateItems f as ls).map item := by
  apply List.ext_getElem?
  intro k
  rw [List.getElem?_map, updateItems_getElem?]
  rcases as with _ | ⟨j, as⟩
  · rw [updateAt_nil, List.getElem?_map, if_neg (by simp)]
  · rw [updateAt_cons]
    by_cases hjk : j = k
    · subst hjk
      rw [List.getElem?_modify_eq, List.getElem?_map]
      rcases ls[j]? with _ | a
      · simp
      · by_cases has : as = []
        · simp [updateNode, has]
        · simp [updateNode, has]
    · rw [List.getElem?_modify_ne _ _ hjk, List.getElem?_map, if_neg (by simp [hjk])]

/-- An update at an address is one among the children, for what is below the node. -/
theorem kids_updateNode (f : α → α) (as : List Nat) (t : Outline α) :
    ((updateNode f as (fun cs => updateAt cs as f) t).kids).getD [] =
      updateAt (t.kids.getD []) as f := by
  cases t with
  | item a =>
    rw [updateNode]
    rcases as with _ | ⟨k, as⟩
    · rfl
    · rw [updateAt_cons, if_neg (by simp), kids_item, Option.getD_none, List.modify_nil]
  | block a ls => exact (updateAt_map_item f as ls).symm
  | group o cs c => rfl

/-- Every node stays at its position. -/
theorem position_updateAt (f : α → α) : ∀ (bs as : List Nat) (F : List (Outline α)),
    position (updateAt F as f) bs = position F bs := by
  intro bs
  induction bs with
  | nil => intro as F; rw [position, position]
  | cons k bs ih =>
    intro as F
    have hbefore : (flattenAll ((updateAt F as f).take k)).length =
        (flattenAll (F.take k)).length := by
      rw [length_flattenAll, length_flattenAll, lengths, lengths, List.map_take, List.map_take]
      exact congrArg (fun ls => (ls.take k).sum) (lengths_updateAt f as F)
    rcases bs with _ | ⟨j, bs⟩
    · rw [position_singleton, position_singleton, hbefore]
    · rw [position_cons_cons, position_cons_cons, hbefore]
      congr 1
      rcases as with _ | ⟨i, as⟩
      · rw [updateAt_nil]
      · rw [updateAt_cons]
        by_cases hik : i = k
        · subst hik
          rw [List.getElem?_modify_eq]
          rcases F[i]? with _ | t
          · rfl
          · have hkids := kids_updateNode f as t
            have := ih as (t.kids.getD [])
            rw [← hkids] at this
            exact this
        · rw [List.getElem?_modify_ne _ _ hik]

end Outline
