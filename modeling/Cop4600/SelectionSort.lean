import Mathlib.Data.List.Basic
import Mathlib.Order.Lattice

/-!
# Selection sort

The two loops of selection sort on an array, taken as the list of its elements: the inner
one looks for the least element from an index on, and the outer one swaps it to this index.

* `minIndex_spec` — what the inner loop finds;
* `perm_sort`, `pairwise_sort` — the outer loop sorts.
-/

namespace SelectionSort

variable {α : Type} {nums : List α}

/-! ## Swapping -/

/-- `temp = nums[m]; nums[m] = nums[i]; nums[i] = temp;`. -/
def swap (nums : List α) (i m : Nat) : List α :=
  match nums[i]?, nums[m]? with
  | some x, some y => (nums.set m x).set i y
  | _, _ => nums

section

variable {i m : Nat}

theorem swap_eq (hi : i < nums.length) (hm : m < nums.length) :
    swap nums i m = (nums.set m nums[i]).set i nums[m] := by
  rw [swap, List.getElem?_eq_getElem hi, List.getElem?_eq_getElem hm]

theorem swap_self (hi : i < nums.length) : swap nums i i = nums := by
  rw [swap_eq hi hi, List.set_set, List.set_getElem_self]

theorem perm_swap (hi : i < nums.length) (hm : m < nums.length) : (swap nums i m).Perm nums := by
  rw [swap_eq hi hm]
  exact List.set_set_perm hm hi

/-- Two elements change places. -/
theorem getElem?_swap (hi : i < nums.length) (hm : m < nums.length) (k : Nat) :
    (swap nums i m)[k]? = nums[if k = i then m else if k = m then i else k]? := by
  rw [swap_eq hi hm, List.getElem?_set, List.getElem?_set]
  by_cases hki : i = k
  · rw [if_pos hki, if_pos hki.symm, List.length_set, if_pos hi, List.getElem?_eq_getElem hm]
  · rw [if_neg hki, if_neg (Ne.symm hki)]
    by_cases hkm : m = k
    · rw [if_pos hkm, if_pos hkm.symm, if_pos hm, List.getElem?_eq_getElem hi]
    · rw [if_neg hkm, if_neg (Ne.symm hkm)]

end

variable [LinearOrder α]

/-! ## The inner loop -/

/-- `nums[j] < nums[m]`. -/
def below (nums : List α) (j m : Nat) : Bool :=
  match nums[j]?, nums[m]? with
  | some x, some y => decide (x < y)
  | _, _ => false

/-- `for (; j < …; ++j) if (nums[j] < nums[m]) m = j;` with `todo` indices to go. -/
def minIndex (nums : List α) : (todo j m : Nat) → Nat
  | 0, _, m => m
  | todo + 1, j, m => minIndex nums todo (j + 1) (if below nums j m then j else m)

theorem below_eq {j m : Nat} {x y : α} (hx : nums[j]? = some x) (hy : nums[m]? = some y) :
    below nums j m = decide (x < y) := by
  rw [below, hx, hy]

/-- **What the inner loop finds**: among the index it starts with and those it goes over,
that of a least element. -/
theorem minIndex_spec (todo : Nat) : ∀ {j m : Nat}, m < nums.length → j + todo ≤ nums.length →
    (minIndex nums todo j m = m ∨ j ≤ minIndex nums todo j m) ∧
    ∃ y, nums[minIndex nums todo j m]? = some y ∧
      ∀ k x, (k = m ∨ j ≤ k ∧ k < j + todo) → nums[k]? = some x → y ≤ x := by
  induction todo with
  | zero =>
    intro j m hm _
    refine ⟨Or.inl rfl, nums[m], List.getElem?_eq_getElem hm, fun k x hk hx => ?_⟩
    obtain rfl : k = m := hk.resolve_right (by omega)
    rw [List.getElem?_eq_getElem hm] at hx
    exact le_of_eq (Option.some.inj hx)
  | succ todo ih =>
    intro j m hm hj
    have hjlt : j < nums.length := by omega
    have hxj := List.getElem?_eq_getElem hjlt
    have hxm := List.getElem?_eq_getElem hm
    rw [minIndex, below_eq hxj hxm]
    by_cases hlt : nums[j] < nums[m]
    · rw [decide_eq_true hlt, if_pos rfl]
      obtain ⟨hwhere, y, hy, hleast⟩ := ih hjlt (by omega : j + 1 + todo ≤ nums.length)
      refine ⟨Or.inr (by omega), y, hy, fun k x hk hx => ?_⟩
      by_cases hkm : k = m
      · rw [hkm, hxm] at hx
        exact le_trans (hleast j nums[j] (Or.inl rfl) hxj) (Option.some.inj hx ▸ hlt.le)
      · exact hleast k x (by omega) hx
    · rw [decide_eq_false hlt, if_neg Bool.false_ne_true]
      obtain ⟨hwhere, y, hy, hleast⟩ := ih hm (by omega : j + 1 + todo ≤ nums.length)
      refine ⟨by omega, y, hy, fun k x hk hx => ?_⟩
      by_cases hkj : k = j
      · rw [hkj, hxj] at hx
        exact le_trans (hleast m nums[m] (Or.inl rfl) hxm) (Option.some.inj hx ▸ not_lt.mp hlt)
      · exact hleast k x (by omega) hx

/-! ## The outer loop -/

/-- The outer loop, from index `i` on with `todo` indices to go. -/
def sortFrom (size : Nat) : (todo i : Nat) → List α → List α
  | 0, _, nums => nums
  | todo + 1, i, nums =>
    let m := minIndex nums (size - (i + 1)) (i + 1) i
    sortFrom size todo (i + 1) (if m ≠ i then swap nums i m else nums)

/-- The loops on an array of so many elements. -/
def sort (size : Nat) (nums : List α) : List α := sortFrom size (size - 1) 0 nums

/-- What stands before index `i` is in order, and not greater than anything behind. -/
def SortedTo (i : Nat) (nums : List α) : Prop :=
  ∀ a b x y, a < i → a < b → nums[a]? = some x → nums[b]? = some y → x ≤ y

/-- **One pass** of the outer loop puts a least element at its index. -/
theorem SortedTo.swap {i m : Nat} (h : SortedTo i nums) (hi : i < nums.length) (him : i ≤ m)
    {least : α} (hm : nums[m]? = some least)
    (hleast : ∀ k x, i ≤ k → nums[k]? = some x → least ≤ x) :
    SortedTo (i + 1) (swap nums i m) := by
  have hmlt : m < nums.length := (List.getElem?_eq_some_iff.mp hm).1
  intro a b x y ha hab hx hy
  rw [getElem?_swap hi hmlt] at hx hy
  by_cases hai : a = i
  · rw [if_pos hai, hm] at hx
    rw [← Option.some.inj hx]
    refine hleast _ y ?_ hy
    split
    · exact him
    · split <;> omega
  · rw [if_neg hai, if_neg (by omega : a ≠ m)] at hx
    refine h a _ x y (by omega) ?_ hx hy
    split
    · omega
    · split <;> omega

/-- **The outer loop sorts** what it has still to sort. -/
theorem sortFrom_spec (todo : Nat) : ∀ {i : Nat} {nums : List α}, i + todo + 1 = nums.length →
    SortedTo i nums →
    (sortFrom nums.length todo i nums).Perm nums ∧
      SortedTo (i + todo) (sortFrom nums.length todo i nums) := by
  induction todo with
  | zero => exact fun _ h => ⟨List.Perm.refl _, h⟩
  | succ todo ih =>
    intro i nums hlength h
    have hi : i < nums.length := by omega
    obtain ⟨hwhere, least, hm, hleast⟩ :=
      minIndex_spec (nums.length - (i + 1)) hi (by omega : i + 1 + _ ≤ nums.length)
    have hmlt := (List.getElem?_eq_some_iff.mp hm).1
    have hpass : SortedTo (i + 1)
        (SelectionSort.swap nums i (minIndex nums (nums.length - (i + 1)) (i + 1) i)) := by
      refine h.swap hi (by omega) hm fun k x hk hx => ?_
      have hklt := (List.getElem?_eq_some_iff.mp hx).1
      exact hleast k x (by omega) hx
    have hperm := perm_swap hi hmlt
    -- an element is not swapped with itself, but that would not change anything
    have hswap : ∀ m, (if m ≠ i then SelectionSort.swap nums i m else nums) =
        SelectionSort.swap nums i m := by
      intro m
      by_cases hmi : m = i
      · rw [if_neg (not_not.mpr hmi), hmi, swap_self hi]
      · rw [if_pos hmi]
    rw [sortFrom, hswap]
    obtain ⟨hrest, hsorted⟩ := ih (by rw [hperm.length_eq]; omega) hpass
    rw [hperm.length_eq] at hrest hsorted
    refine ⟨hrest.trans hperm, ?_⟩
    rwa [Nat.add_right_comm, Nat.add_assoc] at hsorted

theorem perm_sort (hne : nums ≠ []) : (sort nums.length nums).Perm nums := by
  have hpos := List.length_pos_iff.mpr hne
  have hlength : 0 + (nums.length - 1) + 1 = nums.length := by omega
  exact (sortFrom_spec _ hlength fun a b x y ha => absurd ha (Nat.not_lt_zero a)).1

theorem pairwise_sort (hne : nums ≠ []) :
    (sort nums.length nums).Pairwise fun x y => x ≤ y := by
  have hpos := List.length_pos_iff.mpr hne
  have hlength : 0 + (nums.length - 1) + 1 = nums.length := by omega
  have hsorted := (sortFrom_spec _ hlength fun a b x y ha => absurd ha (Nat.not_lt_zero a)).2
  rw [List.pairwise_iff_getElem]
  intro a b ha hb hab
  have hsame := (perm_sort hne).length_eq
  exact hsorted a b _ _ (by omega) hab (List.getElem?_eq_getElem ha) (List.getElem?_eq_getElem hb)

end SelectionSort
