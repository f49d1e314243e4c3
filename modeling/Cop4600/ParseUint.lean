import Cop4600.Descriptor
import Mathlib.Data.Nat.Digits.Defs

/-!
# The server's arguments

`parse_uint` of `wallserver.c` and the test of `main` on what it returns. The number is
built up digit by digit in an `int`, and the bound is tested in front of every
multiplication: `value > (max - digit) / 10` says that the next value would exceed
`max` (`exceeds_iff`). So `parse_uint` accepts the decimals up to `max`, however many
digits they are written with, and never overflows (`parseUint_eq`).
-/

namespace Cop4600

/-- A `char` as a number: `char` is signed. -/
def charValue (c : UInt8) : Int := c.toInt8.toInt

/-- The loop of `parse_uint` from the character that `s` points to. `none` is an `int`
that overflows, or a character behind the end of the memory. -/
def parseDigits (max : Int32) : (s : Bytes) → (value : Int) → Option Int
  | [], _ => none
  | c :: s, value =>
    if charValue c < charValue '0'.toUInt8 ∨ charValue '9'.toUInt8 < charValue c then some (-1)
    else
      (asInt (max.toInt - (charValue c - charValue '0'.toUInt8))).bind fun room =>
        if room.tdiv 10 < value then some (-1)
        else
          (asInt (value * 10)).bind fun value =>
            (asInt (value + (charValue c - charValue '0'.toUInt8))).bind fun value =>
              match s with
              | [] => none
              | c' :: _ => if c' ≠ 0 then parseDigits max s value else some value

/-- `parse_uint(s, max)`. -/
def parseUint (s : Bytes) (max : Int32) : Option Int := parseDigits max s 0

/-! ## Decimals -/

/-- The digits of ASCII. -/
def IsDigit (c : UInt8) : Prop := 48 ≤ c.toNat ∧ c.toNat ≤ 57

instance (c : UInt8) : Decidable (IsDigit c) := inferInstanceAs (Decidable (_ ∧ _))

/-- A nonempty string of decimal digits. -/
def IsDecimal (s : Bytes) : Prop := s ≠ [] ∧ ∀ c ∈ s, IsDigit c

instance (s : Bytes) : Decidable (IsDecimal s) :=
  @instDecidableAnd _ _ inferInstance (List.decidableBAll IsDigit s)

/-- One digit is a number. -/
theorem isDecimal_singleton {c : UInt8} (hc : IsDigit c) : IsDecimal [c] :=
  ⟨List.cons_ne_nil c [], fun _ h => List.mem_singleton.mp h ▸ hc⟩

/-- A digit in front makes no difference. -/
theorem isDecimal_cons {c c' : UInt8} (hc : IsDigit c) (s : Bytes) :
    IsDecimal (c :: c' :: s) ↔ IsDecimal (c' :: s) :=
  ⟨fun h => ⟨List.cons_ne_nil c' s, fun d hd => h.2 d (List.mem_cons_of_mem c hd)⟩,
    fun h => ⟨List.cons_ne_nil c _, List.forall_mem_cons.mpr ⟨hc, h.2⟩⟩⟩

/-- The number that a string of digits denotes. -/
def decimal (s : Bytes) : Nat := Nat.ofDigits 10 (s.reverse.map fun c => c.toNat - 48)

/-- The value of two strings of digits behind each other. -/
theorem decimal_append (s t : Bytes) :
    decimal (s ++ t) = decimal s * 10 ^ t.length + decimal t := by
  rw [decimal, List.reverse_append, List.map_append, Nat.ofDigits_append, List.length_map,
    List.length_reverse, Nat.add_comm, Nat.mul_comm]
  rfl

theorem decimal_singleton (c : UInt8) : decimal [c] = c.toNat - 48 := by
  rw [decimal, List.reverse_singleton, List.map_singleton, Nat.ofDigits_singleton]

/-- One more digit makes it ten times as much, and the digit. -/
theorem decimal_concat (s : Bytes) (c : UInt8) :
    decimal (s ++ [c]) = decimal s * 10 + (c.toNat - 48) := by
  rw [decimal_append, decimal_singleton, List.length_singleton, Nat.pow_one]

/-- More digits denote no smaller number. -/
theorem decimal_le_append (s t : Bytes) : decimal s ≤ decimal (s ++ t) := by
  rw [decimal_append]
  exact (Nat.le_mul_of_pos_right _ (Nat.pow_pos (by decide))).trans (Nat.le_add_right _ _)

/-! ## One character -/

/-- Bytes from 128 on are negative characters. -/
theorem charValue_eq (c : UInt8) :
    charValue c = if c.toNat < 128 then (c.toNat : Int) else c.toNat - 256 := by
  have hlt := c.toNat_lt
  rw [charValue, ← Int8.toInt_toBitVec, UInt8.toBitVec_toInt8, BitVec.toInt_eq_toNat_cond,
    UInt8.toNat_toBitVec]
  split <;> split <;> omega

/-- What the loop takes for a digit. -/
theorem not_digit_iff (c : UInt8) :
    (charValue c < charValue '0'.toUInt8 ∨ charValue '9'.toUInt8 < charValue c) ↔ ¬ IsDigit c := by
  have hlt := c.toNat_lt
  have hzero : charValue '0'.toUInt8 = 48 := by decide
  have hnine : charValue '9'.toUInt8 = 57 := by decide
  rw [hzero, hnine, charValue_eq, IsDigit]
  split <;> omega

/-- What the code takes for the value of a digit is its value. -/
theorem digit_eq {c : UInt8} (hc : IsDigit c) :
    charValue c - charValue '0'.toUInt8 = (c.toNat - 48 : Nat) := by
  obtain ⟨hlow, hhigh⟩ := hc
  have hzero : charValue '0'.toUInt8 = 48 := by decide
  rw [hzero, charValue_eq, if_pos (by omega)]
  omega

/-- **The bound in front of the multiplication** is the bound on the result. -/
theorem exceeds_iff {value digit : Nat} {max : Int} (hdigit : (digit : Int) ≤ max) :
    (max - digit).tdiv 10 < value ↔ max < (value * 10 + digit : Nat) := by
  rw [Int.tdiv_eq_ediv_of_nonneg (by omega)]
  omega

/-! ## The loop -/

section

variable {max : Int32} (hmax : 9 ≤ max.toInt)

/-- A character that is no digit. -/
theorem parseDigits_not_digit {c : UInt8} (hc : ¬ IsDigit c) (s : Bytes) (value : Int) :
    parseDigits max (c :: s) value = some (-1) := by
  rw [parseDigits.eq_def]
  exact if_pos ((not_digit_iff c).mpr hc)

include hmax

/-- A digit, behind a number that did not exceed `max`: it is refused, or it is taken,
and no `int` overflows. -/
theorem parseDigits_digit {c : UInt8} (hc : IsDigit c) {value : Nat} (hvalue : value ≤ max.toInt)
    (c' : UInt8) (s : Bytes) :
    parseDigits max (c :: c' :: s) value =
      if (value * 10 + (c.toNat - 48) : Nat) ≤ max.toInt then
        if c' ≠ 0 then parseDigits max (c' :: s) (value * 10 + (c.toNat - 48) : Nat)
        else some (value * 10 + (c.toNat - 48) : Nat)
      else some (-1) := by
  have hlt := max.toInt_lt
  obtain ⟨hlow, hhigh⟩ := id hc
  have hdigit : ((c.toNat - 48 : Nat) : Int) ≤ 9 := by omega
  rw [parseDigits.eq_def]
  simp only [if_neg fun h => (not_digit_iff c).mp h hc, digit_eq hc]
  rw [asInt_eq (by omega) (by omega), Option.bind_some]
  by_cases hexceeds : ((value * 10 + (c.toNat - 48) : Nat) : Int) ≤ max.toInt
  · rw [if_pos hexceeds, if_neg fun h => ?_, asInt_eq (by omega) (by omega), Option.bind_some,
      asInt_eq (by omega) (by omega), Option.bind_some]
    · congr 1
    · exact absurd ((exceeds_iff (by omega)).mp h) (by omega)
  · rw [if_neg hexceeds, if_pos ((exceeds_iff (by omega)).mpr (by omega))]

/-- **The loop behind some digits** that denote a number up to `max`: it goes on to what
they and the rest of the string denote together, if that is a number up to `max`. -/
theorem parseDigits_eq (rest : Bytes) : ∀ {s digits : Bytes}, s ≠ [] → 0 ∉ s →
    (decimal digits : Int) ≤ max.toInt →
    parseDigits max (s ++ 0 :: rest) (decimal digits) =
      some (if IsDecimal s ∧ (decimal (digits ++ s) : Int) ≤ max.toInt then
        (decimal (digits ++ s) : Int) else -1) := by
  intro s
  induction s with
  | nil => intro digits hs; exact absurd rfl hs
  | cons c s ih =>
    intro digits _ h0 hdigits
    rw [List.mem_cons, not_or] at h0
    by_cases hc : IsDigit c
    · have hconcat := decimal_concat digits c
      have hbehind : digits ++ c :: s = digits ++ [c] ++ s := by rw [List.append_assoc]; rfl
      have hle := decimal_le_append (digits ++ [c]) s
      obtain ⟨c', s', hs'⟩ : ∃ c' s', s ++ 0 :: rest = c' :: s' := by
        cases s with
        | nil => exact ⟨0, rest, rfl⟩
        | cons c' s => exact ⟨c', s ++ 0 :: rest, rfl⟩
      rw [List.cons_append, hs', parseDigits_digit hmax hc hdigits, ← hconcat, hbehind]
      by_cases hfits : (decimal (digits ++ [c]) : Int) ≤ max.toInt
      · rw [if_pos hfits]
        cases s with
        | nil =>
          -- the end of the string
          obtain rfl : c' = 0 := (List.cons.inj hs').1.symm
          rw [if_neg (not_not_intro rfl), List.append_nil, if_pos ⟨isDecimal_singleton hc, hfits⟩]
        | cons c₁ s =>
          obtain rfl : c' = c₁ := (List.cons.inj hs').1.symm
          rw [if_pos fun h => h0.2 (by simp [h]), ← hs',
            if_congr (and_congr_left' (isDecimal_cons hc s)) rfl rfl]
          exact ih (List.cons_ne_nil c' s) h0.2 hfits
      · rw [if_neg hfits, if_neg]
        rintro ⟨-, hall⟩
        omega
    · rw [List.cons_append, parseDigits_not_digit hc,
        if_neg fun h => hc (h.1.2 c List.mem_cons_self)]

/-- The loop from the beginning, where it is entered without a look at the string. -/
theorem parseDigits_zero {s : Bytes} (h0 : 0 ∉ s) (rest : Bytes) :
    parseDigits max (s ++ 0 :: rest) 0 =
      some (if IsDecimal s ∧ (decimal s : Int) ≤ max.toInt then (decimal s : Int) else -1) := by
  have hzero : (decimal [] : Int) ≤ max.toInt := Int.le_trans (by decide) hmax
  rcases eq_or_ne s [] with rfl | hs
  · rw [List.nil_append, parseDigits_not_digit (by decide), if_neg fun h => h.1.1 rfl]
  · exact parseDigits_eq hmax rest hs h0 hzero

/-- **`parse_uint` accepts exactly the bounded decimals.** On every string that ends with
a `NUL`, it returns the number that the string denotes if the string is a nonempty one of
digits and the number is at most `max`, and `-1` otherwise; no `int` overflows on the way. -/
theorem parseUint_eq {s : Bytes} (h0 : 0 ∉ s) (rest : Bytes) :
    parseUint (s ++ 0 :: rest) max =
      some (if IsDecimal s ∧ (decimal s : Int) ≤ max.toInt then (decimal s : Int) else -1) := by
  rw [parseUint, parseDigits_zero hmax h0]

end

/-- Leading zeros. -/
theorem parseUint_eq_sample :
    parseUint (chars ['0', '0', '0', '7', '2'] ++ 0 :: []) 1000 = some 72 :=
  (parseUint_eq (by decide) (by decide) []).trans (congrArg some (if_pos (by decide)))

/-! ## The arguments of `main` -/

/-- A positive number of at most `max`. -/
def positive (max : Int32) (arg : Bytes) : Option (Option Int) :=
  (parseUint arg max).map fun value => if value ≤ 0 then none else some value

/-- The test at the beginning of `main`, on the arguments behind the program's name: the
size of the queue and the port, or nothing where it prints the usage. -/
def wallserverArgs : List Bytes → Option (Option (Int × Int))
  | [] => some (some (20, 5514))
  | [queueSize] => (positive 1000 queueSize).map fun size => size.map fun size => (size, 5514)
  | [queueSize, port] =>
    (positive 1000 queueSize).bind fun
      | none => some none
      | some size => (positive 0xffff port).map fun port => port.map fun port => (size, port)
  | _ => some none

/-- **What is parsed** is the number, if it is one, and neither zero nor too large. -/
theorem positive_eq {max : Int32} (hmax : 9 ≤ max.toInt) {s : Bytes} (h0 : 0 ∉ s) (rest : Bytes) :
    positive max (s ++ 0 :: rest) =
      some (if IsDecimal s ∧ 0 < decimal s ∧ (decimal s : Int) ≤ max.toInt then
        some (decimal s : Int) else none) := by
  rw [positive, parseUint, parseDigits_zero hmax h0, Option.map_some]
  congr 1
  by_cases hs : IsDecimal s ∧ (decimal s : Int) ≤ max.toInt
  · rw [if_pos hs]
    by_cases hzero : 0 < decimal s
    · rw [if_neg (by omega), if_pos ⟨hs.1, hzero, hs.2⟩]
    · rw [if_pos (by omega), if_neg fun h => hzero h.2.1]
  · rw [if_neg hs, if_pos (by decide), if_neg fun h => hs ⟨h.1, h.2.2⟩]

/-- What passes the test. -/
theorem positive_bounds {max : Int32} (hmax : 9 ≤ max.toInt) {arg : Bytes} (harg : 0 ∈ arg) :
    ∃ answer, positive max arg = some answer ∧ ∀ x ∈ answer, 0 < x ∧ x ≤ max.toInt := by
  obtain ⟨s, rest, rfl, h0⟩ := List.eq_append_cons_of_mem harg
  refine ⟨_, positive_eq hmax h0 rest, fun x hx => ?_⟩
  split at hx
  · next hs =>
    obtain rfl := Option.some.inj hx
    exact ⟨Int.natCast_pos.mpr hs.2.1, hs.2.2⟩
  · cases hx

/-- **What `main` goes on with**: a queue of 1 to 1000 messages and a port of 1 to 65535,
whatever strings the arguments are. -/
theorem wallserverArgs_bounds {args : List Bytes} (hargs : ∀ arg ∈ args, 0 ∈ arg) :
    ∃ answer, wallserverArgs args = some answer ∧
      ∀ x ∈ answer, (0 < x.1 ∧ x.1 ≤ 1000) ∧ 0 < x.2 ∧ x.2 ≤ 65535 := by
  have hqueue : 9 ≤ (1000 : Int32).toInt := by decide
  have hport : 9 ≤ (0xffff : Int32).toInt := by decide
  rcases args with _ | ⟨queueSize, _ | ⟨port, _ | ⟨arg, args⟩⟩⟩
  · exact ⟨_, rfl, by simp⟩
  · obtain ⟨size, hsize, hbounds⟩ := positive_bounds hqueue (hargs queueSize (by simp))
    refine ⟨_, by rw [wallserverArgs, hsize, Option.map_some], fun x hx => ?_⟩
    obtain ⟨size', hsize', rfl⟩ := Option.map_eq_some_iff.mp hx
    exact ⟨hbounds size' hsize', by simp⟩
  · obtain ⟨size, hsize, hbounds⟩ := positive_bounds hqueue (hargs queueSize (by simp))
    obtain ⟨number, hnumber, hbounds'⟩ := positive_bounds hport (hargs port (by simp))
    rw [wallserverArgs, hsize, hnumber, Option.bind_some]
    cases size with
    | none => exact ⟨none, rfl, by simp⟩
    | some size =>
      refine ⟨_, rfl, fun x hx => ?_⟩
      obtain ⟨number', hnumber', rfl⟩ := Option.map_eq_some_iff.mp hx
      exact ⟨hbounds size rfl, hbounds' number' hnumber'⟩
  · exact ⟨none, rfl, by simp⟩

end Cop4600
