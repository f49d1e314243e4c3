import Cop4600.Descriptor

/-!
# Copying memory

`memcpy` into an array, taken as the list of its bytes. A copy that stays inside
both arrays is a `put`; two adjoining ones are one (`put_put`), and nothing behind
the range changes (`drop_put`).
-/

namespace Cop4600

/-- The array with `bs` at `offset`. -/
def put (dest : Bytes) (offset : Nat) (bs : Bytes) : Bytes :=
  dest.take offset ++ bs ++ dest.drop (offset + bs.length)

/-- `memcpy(dest + offset, src, size)`, where `size` is an `int`: a negative one
becomes an enormous `size_t`. `none` is a copy that leaves one of the arrays. -/
def memcpy (dest : Bytes) (offset : Nat) (src : Bytes) (size : Int) : Option Bytes :=
  if 0 ≤ size ∧ size ≤ src.length ∧ offset + size ≤ dest.length then
    some (put dest offset (src.take size.toNat))
  else none

variable {dest bs : Bytes} {offset : Nat}

theorem memcpy_eq {src : Bytes} {size : Nat} (hsrc : size ≤ src.length)
    (hdest : offset + size ≤ dest.length) :
    memcpy dest offset src size = some (put dest offset (src.take size)) := by
  rw [memcpy, if_pos ⟨by omega, by omega, by omega⟩, Int.toNat_natCast]

/-- What a copy that was made fits. -/
theorem memcpy_some {src dest' : Bytes} {size : Int}
    (h : memcpy dest offset src size = some dest') :
    ∃ n : Nat, size = n ∧ n ≤ src.length ∧ offset + n ≤ dest.length ∧
      dest' = put dest offset (src.take n) := by
  rw [memcpy] at h
  split at h
  · next hfits =>
    obtain ⟨hsize, hsrc, hdest⟩ := hfits
    exact ⟨size.toNat, by omega, by omega, by omega, (Option.some.inj h).symm⟩
  · cases h

theorem length_put (h : offset + bs.length ≤ dest.length) :
    (put dest offset bs).length = dest.length := by
  rw [put, List.length_append, List.length_append, List.length_take, List.length_drop]
  omega

theorem length_of_memcpy {src dest' : Bytes} {size : Int}
    (h : memcpy dest offset src size = some dest') : dest'.length = dest.length := by
  obtain ⟨n, -, hsrc, hdest, rfl⟩ := memcpy_some h
  rw [length_put]
  rwa [List.length_take_of_le hsrc]

/-- Nothing behind the range changes. -/
theorem drop_put (h : offset ≤ dest.length) :
    (put dest offset bs).drop (offset + bs.length) = dest.drop (offset + bs.length) := by
  have hlen : (dest.take offset ++ bs).length = offset + bs.length := by
    rw [List.length_append, List.length_take_of_le h]
  rw [put, ← hlen, List.drop_left]

/-- The range holds what was put there. -/
theorem take_drop_put (h : offset ≤ dest.length) :
    ((put dest offset bs).drop offset).take bs.length = bs := by
  have hlen : (dest.take offset).length = offset := List.length_take_of_le h
  rw [put, List.append_assoc, List.drop_left' hlen, List.take_left]

/-- Two adjoining copies are one. -/
theorem put_put (h : offset ≤ dest.length) (bs' : Bytes) :
    put (put dest offset bs) (offset + bs.length) bs' = put dest offset (bs ++ bs') := by
  have hlen : (dest.take offset ++ bs).length = offset + bs.length := by
    rw [List.length_append, List.length_take_of_le h]
  have htake : (put dest offset bs).take (offset + bs.length) = dest.take offset ++ bs := by
    rw [put, ← hlen, List.take_left]
  rw [put, htake, ← List.drop_drop, drop_put h, List.drop_drop, put, List.length_append,
    List.append_assoc (dest.take offset) bs bs', Nat.add_assoc]

/-! ## Strings in memory -/

theorem cstr_append_of_mem {s : Bytes} (h : 0 ∈ s) (t : Bytes) : cstr (s ++ t) = cstr s := by
  rw [cstr, cstr, List.takeWhile_append, if_neg]
  intro hlen
  have hall := List.takeWhile_eq_self_iff.mp (List.takeWhile_prefix _ |>.eq_of_length hlen)
  simpa using hall 0 h

theorem cstr_terminated {text : Bytes} (h : 0 ∉ text) : cstr (text ++ [0]) = text := by
  rw [cstr, List.takeWhile_append_of_pos, List.takeWhile_cons_of_neg (by simp), List.append_nil]
  intro b hb
  simpa using fun hzero : b = 0 => h (hzero ▸ hb)

theorem cstr_concat_zero (s : Bytes) : cstr (s ++ [0]) = cstr s := by
  by_cases h : 0 ∈ s
  · exact cstr_append_of_mem h [0]
  · rw [cstr_terminated h, cstr_eq_self h]

/-- The string at the start of an array is the one that was put there. -/
theorem cstr_put (hbs : 0 ∈ bs) : cstr (put dest 0 bs) = cstr bs := by
  rw [put, List.take_zero, List.nil_append, cstr_append_of_mem hbs]

end Cop4600
