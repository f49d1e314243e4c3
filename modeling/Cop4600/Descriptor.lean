import Mathlib.Algebra.Group.Int.Defs
import Mathlib.Algebra.Group.Nat.Defs
import Mathlib.Data.List.DropRight
import Mathlib.Data.List.TakeDrop

/-!
# WAD descriptors and their names

`Wad.h` and the name tests at the top of `Wad.cpp`. A descriptor's name is a
`char[8]`, zero-padded on the right by convention only; `is_start`, `is_map`
and `is_end` read the nesting of a WAD off these names.

* `Name` — the eight bytes, `Name.ofBytes` the padded copy of a shorter string;
* `isStart`, `isMap`, `isEnd` — the three marker tests, mutually exclusive;
* `displayName` — what a name shows to the user: the name without the `_START`
  suffix and without its zero padding.
-/

namespace Cop4600

/-- The contents of a C `char` array. -/
abbrev Bytes : Type := List UInt8

/-- The bytes of a C string literal, its terminator left out. -/
def chars (s : List Char) : Bytes := s.map Char.toUInt8

/-- `strnlen(s, n)` on a buffer of at least `n` bytes. -/
def strnlen (s : Bytes) (n : Nat) : Nat := ((s.take n).takeWhile (· ≠ 0)).length

/-- The string `c_str()` points to: everything before the first NUL. -/
def cstr (s : Bytes) : Bytes := s.takeWhile (· ≠ 0)

/-- A string without a NUL is all of itself. -/
theorem cstr_eq_self {s : Bytes} (h : 0 ∉ s) : cstr s = s := by
  rw [cstr, List.takeWhile_eq_self_iff]
  intro b hb
  simpa using fun h0 : b = 0 => h (h0 ▸ hb)

/-- There is no NUL in front of the first one. -/
theorem zero_notMem_cstr (s : Bytes) : 0 ∉ cstr s := fun h => by
  simpa using List.mem_takeWhile_imp h

/-- The value of an `int` expression; `none` where it overflows. -/
def asInt (x : Int) : Option Int := if -2 ^ 31 ≤ x ∧ x < 2 ^ 31 then some x else none

/-- A number in the range of an `int` is one. -/
theorem asInt_eq {x : Int} (hlow : -2 ^ 31 ≤ x) (hhigh : x < 2 ^ 31) : asInt x = some x :=
  if_pos ⟨hlow, hhigh⟩

/-- From `2 ^ 31` on there is no `int`. -/
theorem asInt_eq_none {x : Int} (hhigh : 2 ^ 31 ≤ x) : asInt x = none :=
  if_neg fun h => Int.not_lt.mpr hhigh h.2

/-- Counting up is undefined from the first overflow on. -/
theorem asInt_bind_succ {x : Int} (hx : 0 ≤ x) :
    ((asInt x).bind fun x => asInt (x + 1)) = asInt (x + 1) := by
  by_cases hlt : x < 2 ^ 31
  · rw [asInt_eq (by omega) hlt, Option.bind_some]
  · rw [asInt_eq_none (Int.not_lt.mp hlt), asInt_eq_none (by omega), Option.bind_none]

/-- A number of things is what it is as long as an `int` can hold it. -/
theorem asInt_natCast {n : Nat} (hn : n < 2 ^ 31) : asInt n = some (n : Int) :=
  asInt_eq (by omega) (by omega)

/-- A descriptor's `char name[8]`. -/
abbrev Name : Type := Vector UInt8 8

/-- `memset(name, 0, 8)` followed by a copy of (at most eight of) the bytes. -/
def Name.ofBytes (s : Bytes) : Name :=
  ⟨(s.takeD 8 0).toArray, by rw [List.size_toArray, List.takeD_length]⟩

@[simp] theorem Name.toList_ofBytes (s : Bytes) : (Name.ofBytes s).toList = s.takeD 8 0 := rfl

/-- `memcpy(name + off, src, ...)`, for a copy that stays inside the name. -/
def Name.blit (name : Name) (off : Nat) (src : Bytes) : Name :=
  Name.ofBytes (name.toList.take off ++ src ++ name.toList.drop (off + src.length))

/-- One entry of the descriptor table. -/
structure WadDescriptor where
  /-- where the lump's data begins in the file -/
  offset : UInt32
  /-- how many bytes the lump has -/
  size : UInt32
  /-- the lump's name -/
  name : Name
  deriving DecidableEq

/-- How the name of an opening marker ends. -/
def suffixStart : Bytes := chars ['_', 'S', 'T', 'A', 'R', 'T']

/-- How that of a closing one ends. -/
def suffixEnd : Bytes := chars ['_', 'E', 'N', 'D']

/-- `is_start`: the name ends in `_START` in front of its first NUL. -/
def isStart (name : Name) : Bool :=
  let namelen := strnlen name.toList 8
  6 ≤ namelen && (name.toList.drop (namelen - 6)).take 6 == suffixStart

/-- `is_map`: an `E`, a digit, an `M`, a digit, and a NUL. -/
def isMap (name : Name) : Bool :=
  name[0] == 'E'.toUInt8
    && '0'.toUInt8 ≤ name[1] && name[1] ≤ '9'.toUInt8
    && name[2] == 'M'.toUInt8
    && '0'.toUInt8 ≤ name[3] && name[3] ≤ '9'.toUInt8
    && name[4] == 0

/-- `is_end`: the name ends in `_END` in front of its first NUL. -/
def isEnd (name : Name) : Bool :=
  let namelen := strnlen name.toList 8
  4 ≤ namelen && (name.toList.drop (namelen - 4)).take 4 == suffixEnd

/-- A lump's own name: none of the three markers. -/
def isLump (name : Name) : Bool := !isStart name && !isMap name && !isEnd name

/-! ## The markers exclude one another -/

/-- No marker opens and closes a directory. -/
theorem isEnd_of_isStart {name : Name} (h : isStart name) : isEnd name = false := by
  simp only [isStart, Bool.and_eq_true, decide_eq_true_eq, beq_iff_eq] at h
  obtain ⟨hlen, hs⟩ := h
  rw [isEnd, Bool.and_eq_false_iff]
  refine Or.inr ?_
  have htail : (name.toList.drop (strnlen name.toList 8 - 4)).take 4 = suffixStart.drop 2 := by
    rw [← hs, List.drop_take, List.drop_drop]
    congr 2
    omega
  rw [htail]
  decide

/-- A name as its eight bytes. -/
theorem Name.exists_bytes (name : Name) :
    ∃ a b c d e f g h, name.toList = [a, b, c, d, e, f, g, h] := by
  have hlen : name.toList.length = 8 := name.length_toList
  rcases hl : name.toList with
    _ | ⟨a, _ | ⟨b, _ | ⟨c, _ | ⟨d, _ | ⟨e, _ | ⟨f, _ | ⟨g, _ | ⟨h, t⟩⟩⟩⟩⟩⟩⟩⟩ <;>
    rw [hl] at hlen <;> simp at hlen
  subst hlen
  exact ⟨a, b, c, d, e, f, g, h, rfl⟩

/-- The byte of a name at an index is that of the list. -/
theorem Name.getElem_toList (name : Name) (i : Nat) (hi : i < 8) :
    name[i] = name.toList.getD i 0 := by
  have hlen : i < name.toList.length := by rw [Vector.length_toList]; exact hi
  rw [List.getD_eq_getElem?_getD, List.getElem?_eq_getElem hlen, Option.getD_some,
    Vector.getElem_toList]

/-- A map name is exactly four characters long. -/
theorem strnlen_of_isMap {name : Name} (h : isMap name) : strnlen name.toList 8 = 4 := by
  obtain ⟨a, b, c, d, e, f, g, k, hl⟩ := name.exists_bytes
  simp only [isMap, Name.getElem_toList, hl, Bool.and_eq_true, beq_iff_eq, decide_eq_true_eq,
    List.getD_cons_zero, List.getD_cons_succ] at h
  obtain ⟨⟨⟨⟨⟨⟨rfl, hb⟩, -⟩, rfl⟩, hd⟩, -⟩, rfl⟩ := h
  have hb0 : b ≠ 0 := by rintro rfl; exact absurd hb (by decide)
  have hd0 : d ≠ 0 := by rintro rfl; exact absurd hd (by decide)
  have hE : 'E'.toUInt8 ≠ 0 := by decide
  have hM : 'M'.toUInt8 ≠ 0 := by decide
  simp [strnlen, hl, hb0, hd0, hE, hM]

/-- A map has no `_START` name. -/
theorem isStart_of_isMap {name : Name} (h : isMap name) : isStart name = false := by
  simp [isStart, strnlen_of_isMap h]

/-- A map has no `_END` name. -/
theorem isEnd_of_isMap {name : Name} (h : isMap name) : isEnd name = false := by
  obtain ⟨a, b, c, d, e, f, g, k, hl⟩ := name.exists_bytes
  have h4 := strnlen_of_isMap h
  simp only [isMap, Name.getElem_toList, hl, Bool.and_eq_true, beq_iff_eq,
    List.getD_cons_zero] at h
  obtain ⟨⟨⟨⟨⟨⟨rfl, -⟩, -⟩, -⟩, -⟩, -⟩, -⟩ := h
  rw [isEnd, h4, hl]
  have hE : ¬ ('E'.toUInt8 = '_'.toUInt8) := by decide
  simp [suffixEnd, chars, hE]

/-- A lump is what is none of the three. -/
theorem isLump_iff {name : Name} :
    isLump name ↔ isStart name = false ∧ isMap name = false ∧ isEnd name = false := by
  simp [isLump, and_assoc]

/-! ## Display names -/

/-- The `name` buffer of `resolve`: a copy of the name, the `_START` suffix of a
directory zeroed out. -/
def componentName (name : Name) : Name :=
  if isStart name then
    name.blit (strnlen name.toList 8 - 6) (List.replicate 6 0)
  else name

/-- What a name shows: the `_START` suffix of a directory and the zero padding
are not part of it. -/
def displayName (name : Name) : Bytes := (componentName name).toList.rdropWhile (· = 0)

/-- No name shows more than its eight bytes. -/
theorem displayName_length_le (name : Name) : (displayName name).length ≤ 8 := by
  have hpre := (List.rdropWhile_prefix (fun b : UInt8 => decide (b = 0))
    (l := (componentName name).toList)).length_le
  rw [Vector.length_toList] at hpre
  exact hpre

/-- A shorter string is filled up by zeros. -/
theorem takeD_eq_append {s : Bytes} {n : Nat} (h : s.length ≤ n) :
    s.takeD n 0 = s ++ List.replicate (n - s.length) 0 := by
  induction s generalizing n with
  | nil => simp
  | cons b s ih =>
    obtain ⟨n, rfl⟩ : ∃ m, n = m + 1 := ⟨n - 1, by simp at h; omega⟩
    simp [List.takeD, ih (by simpa using h)]

/-- Dropping the zero padding and padding again gives the same eight bytes. -/
theorem takeD_rdropWhile (s : Bytes) :
    (s.rdropWhile (· = 0)).takeD s.length 0 = s := by
  have hle := (List.rdropWhile_prefix (fun b : UInt8 => decide (b = 0)) (l := s)).length_le
  rw [takeD_eq_append hle]
  have hsplit : s.rdropWhile (· = 0) ++ s.rtakeWhile (· = 0) = s :=
    List.rdropWhile_append_rtakeWhile
  conv_rhs => rw [← hsplit]
  congr 1
  rw [eq_comm, List.eq_replicate_iff]
  refine ⟨?_, fun b hb => by simpa using List.mem_rtakeWhile_imp hb⟩
  have hlen := congrArg List.length hsplit
  rw [List.length_append] at hlen
  omega

/-- Padding a NUL-free string and dropping the padding gives the string back. -/
theorem rdropWhile_takeD {s : Bytes} (h0 : 0 ∉ s) {n : Nat} (h : s.length ≤ n) :
    (s.takeD n 0).rdropWhile (· = 0) = s := by
  rw [takeD_eq_append h]
  induction n - s.length with
  | zero =>
    rw [List.replicate_zero, List.append_nil, List.rdropWhile_eq_self_iff]
    intro hne hlast
    exact h0 ((by simpa using hlast : s.getLast hne = 0) ▸ List.getLast_mem hne)
  | succ m ih =>
    rw [List.replicate_succ', ← List.append_assoc, List.rdropWhile_concat_pos _ _ _ (by simp)]
    exact ih

/-- **The comparison in `resolve`**: a padded path component equals a trimmed
name exactly when it is that name's display name. -/
theorem ofBytes_eq_componentName_iff {c : Bytes} (h0 : 0 ∉ c) (h : c.length ≤ 8) (name : Name) :
    Name.ofBytes c = componentName name ↔ displayName name = c := by
  refine ⟨?_, ?_⟩
  · intro heq
    rw [displayName, ← heq, Name.toList_ofBytes, rdropWhile_takeD h0 h]
  · rintro rfl
    rw [← Vector.toList_inj, Name.toList_ofBytes, displayName]
    have := takeD_rdropWhile (componentName name).toList
    rwa [Vector.length_toList] at this

/-! ## Names made from a path component -/

/-- A name made of a string that fits is filled up by zeros. -/
theorem Name.toList_ofBytes_of_le {s : Bytes} (h : s.length ≤ 8) :
    (Name.ofBytes s).toList = s ++ List.replicate (8 - s.length) 0 := by
  rw [Name.toList_ofBytes, takeD_eq_append h]

/-- The length of such a name is that of the string. -/
theorem strnlen_ofBytes {s : Bytes} (h0 : 0 ∉ s) (h : s.length ≤ 8) :
    strnlen (Name.ofBytes s).toList 8 = s.length := by
  have hs : ∀ b ∈ s, (decide (b ≠ 0)) = true := fun b hb => by
    simpa using fun h : b = 0 => h0 (h ▸ hb)
  rw [strnlen, List.take_of_length_le (by rw [Vector.length_toList]),
    Name.toList_ofBytes_of_le h, List.takeWhile_append_of_pos hs, List.takeWhile_replicate]
  simp

/-- Overwriting the middle of a padded name. -/
theorem Name.blit_ofBytes {s t src : Bytes} (hlen : src.length = t.length)
    (h : s.length + t.length ≤ 8) :
    (Name.ofBytes (s ++ t)).blit s.length src = Name.ofBytes (s ++ src) := by
  have hst : (s ++ t).length ≤ 8 := by rw [List.length_append]; exact h
  have hsrc : (s ++ src).length ≤ 8 := by rw [List.length_append]; omega
  rw [← Vector.toList_inj, Name.blit, Name.toList_ofBytes_of_le hst, Name.toList_ofBytes_of_le hsrc,
    List.append_assoc s t, List.take_left, hlen, ← List.drop_drop, List.drop_left, List.drop_left,
    Name.toList_ofBytes_of_le (by simp; omega)]
  simp [hlen]
  omega

/-- Trailing zeros make no difference to a padded name. -/
theorem Name.ofBytes_append_zeros (s : Bytes) {n : Nat} (h : s.length + n ≤ 8) :
    Name.ofBytes (s ++ List.replicate n 0) = Name.ofBytes s := by
  rw [← Vector.toList_inj, Name.toList_ofBytes_of_le (by simpa using h),
    Name.toList_ofBytes_of_le (by omega), List.append_assoc, ← List.replicate_add,
    List.length_append, List.length_replicate]
  congr 2
  omega

/-- `memcpy(name + namelen, suffix, ...)` behind a component that leaves room. -/
theorem Name.blit_suffix {s : Bytes} (suffix : Bytes) (h : s.length + suffix.length ≤ 8) :
    (Name.ofBytes s).blit s.length suffix = Name.ofBytes (s ++ suffix) := by
  rw [← Name.ofBytes_append_zeros s h, Name.blit_ofBytes (by simp) (by simpa using h)]

/-- A component with a suffix behind it, in a name with room for both. -/
theorem suffixed_name {s suffix : Bytes} (h0 : 0 ∉ s) (h0' : 0 ∉ suffix)
    (h : s.length + suffix.length ≤ 8) :
    strnlen (Name.ofBytes (s ++ suffix)).toList 8 = s.length + suffix.length ∧
      (Name.ofBytes (s ++ suffix)).toList.drop s.length =
        suffix ++ List.replicate (8 - (s ++ suffix).length) 0 := by
  have h8 : (s ++ suffix).length ≤ 8 := by rwa [List.length_append]
  have hnot : 0 ∉ s ++ suffix := by
    rw [List.mem_append, not_or]
    exact ⟨h0, h0'⟩
  refine ⟨?_, ?_⟩
  · rw [strnlen_ofBytes hnot h8, List.length_append]
  · rw [Name.toList_ofBytes_of_le h8, List.append_assoc, List.drop_left]

/-- A short name with `_START` behind it opens a directory. -/
theorem isStart_ofBytes {s : Bytes} (h0 : 0 ∉ s) (h : s.length ≤ 2) :
    isStart (Name.ofBytes (s ++ suffixStart)) := by
  have hlen : suffixStart.length = 6 := rfl
  obtain ⟨hname, hdrop⟩ := suffixed_name h0 (by decide : 0 ∉ suffixStart) (by omega)
  rw [isStart, hname, hlen, Nat.add_sub_cancel, hdrop]
  simp [suffixStart, chars]

/-- A short name with `_END` behind it closes one. -/
theorem isEnd_ofBytes {s : Bytes} (h0 : 0 ∉ s) (h : s.length ≤ 2) :
    isEnd (Name.ofBytes (s ++ suffixEnd)) := by
  have hlen : suffixEnd.length = 4 := rfl
  obtain ⟨hname, hdrop⟩ := suffixed_name h0 (by decide : 0 ∉ suffixEnd) (by omega)
  rw [isEnd, hname, hlen, Nat.add_sub_cancel, hdrop]
  simp [suffixEnd, chars]

/-- The display name of a directory made from a component is the component. -/
theorem displayName_start {s : Bytes} (h0 : 0 ∉ s) (h : s.length ≤ 2) :
    displayName (Name.ofBytes (s ++ suffixStart)) = s := by
  have hlen : suffixStart.length = 6 := rfl
  have hname := (suffixed_name h0 (by decide : 0 ∉ suffixStart) (by omega)).1
  rw [← ofBytes_eq_componentName_iff h0 (by omega), componentName, if_pos (isStart_ofBytes h0 h),
    hname, hlen, Nat.add_sub_cancel, Name.blit_ofBytes (by simp [suffixStart, chars])
      (by simp [suffixStart, chars]; omega), Name.ofBytes_append_zeros s (by omega)]

/-- The display name of a file made from a component is the component. -/
theorem displayName_lump {s : Bytes} (h0 : 0 ∉ s) (h : s.length ≤ 8)
    (hs : isStart (Name.ofBytes s) = false) : displayName (Name.ofBytes s) = s := by
  rw [← ofBytes_eq_componentName_iff h0 h, componentName, if_neg (by simp [hs])]

end Cop4600
