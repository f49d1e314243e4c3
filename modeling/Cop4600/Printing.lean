import Cop4600.Descriptor

/-!
# Printing

Texts as bytes, and what the conversions of `printf` make of numbers and strings.
-/

namespace Cop4600

/-- The bytes of a string. -/
def text (s : String) : Bytes := chars s.toList

/-- What `%d` prints. -/
def formatInt : Int → Bytes
  | .ofNat n => chars (Nat.toDigits 10 n)
  | .negSucc n => chars ('-' :: Nat.toDigits 10 (n + 1))

/-- What `%.ns` prints of an array, of which the elements that have been written are
`some`. `none` is a read of one that has not, or behind the array. -/
def formatStr : (n : Nat) → (buf : List (Option UInt8)) → Option Bytes
  | 0, _ => some []
  | _ + 1, [] => none
  | _ + 1, none :: _ => none
  | n + 1, some b :: buf => if b = 0 then some [] else (formatStr n buf).map (b :: ·)

theorem cstr_cons (b : UInt8) (bs : Bytes) :
    cstr (b :: bs) = if b = 0 then [] else b :: cstr bs := by
  rw [cstr, List.takeWhile_cons]
  by_cases hb : b = 0
  · rw [if_pos hb, hb]
    rfl
  · rw [if_neg hb, if_pos (decide_eq_true hb), cstr]

/-- A string that is as long as it may be. -/
theorem formatStr_full (bs : Bytes) (buf : List (Option UInt8)) :
    formatStr bs.length (bs.map some ++ buf) = some (cstr bs) := by
  induction bs with
  | nil => rfl
  | cons b bs ih =>
    rw [List.length_cons, List.map_cons, List.cons_append, formatStr, ih, cstr_cons,
      Option.map_some, apply_ite some]

/-- A string that ends in time, whatever stands behind its end. -/
theorem formatStr_ended (bs : Bytes) (buf : List (Option UInt8)) {n : Nat} (hn : bs.length < n) :
    formatStr n (bs.map some ++ some 0 :: buf) = some (cstr bs) := by
  induction bs generalizing n with
  | nil =>
    obtain ⟨n, rfl⟩ := Nat.exists_eq_add_one_of_ne_zero (Nat.ne_of_gt hn)
    rfl
  | cons b bs ih =>
    obtain ⟨n, rfl⟩ := Nat.exists_eq_add_one_of_ne_zero (Nat.ne_of_gt (Nat.zero_lt_of_lt hn))
    rw [List.map_cons, List.cons_append, formatStr, ih (Nat.lt_of_succ_lt_succ hn), cstr_cons,
      Option.map_some, apply_ite some]

end Cop4600
