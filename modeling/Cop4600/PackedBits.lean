import Mathlib.Data.Nat.Bitwise

/-!
# Bits packed into bytes

A byte array as an array of bits, the lowest bit of a byte first.

* `bit bs p` — the bit number `p`, `false` past the end;
* `orAt` / `andNotAt` — the read-modify-write of one byte, `bs[k] |= mask` and
  `bs[k] &= ~mask`;
* `bit_orAt`, `bit_andNotAt` — what they do to every bit;
* `pack` — the bytes with given bits;
* `twoBits_eq` — a two-bit field as its two bits.
-/

namespace PackedBits

/-- The bit number `p`. -/
def bit (bs : List UInt8) (p : Nat) : Bool :=
  match bs[p / 8]? with
  | none => false
  | some b => b.toNat.testBit (p % 8)

/-- `bs[k] |= mask`. -/
def orAt (bs : List UInt8) (k : Nat) (mask : UInt8) : List UInt8 := bs.modify k fun b => b ||| mask

/-- `bs[k] &= ~mask`. -/
def andNotAt (bs : List UInt8) (k : Nat) (mask : UInt8) : List UInt8 :=
  bs.modify k fun b => b &&& ~~~mask

@[simp] theorem length_orAt (bs : List UInt8) (k : Nat) (mask : UInt8) :
    (orAt bs k mask).length = bs.length := by
  rw [orAt, List.length_modify]

@[simp] theorem length_andNotAt (bs : List UInt8) (k : Nat) (mask : UInt8) :
    (andNotAt bs k mask).length = bs.length := by
  rw [andNotAt, List.length_modify]

theorem bit_of_getElem? {bs : List UInt8} {p : Nat} {b : UInt8} (h : bs[p / 8]? = some b) :
    bit bs p = b.toNat.testBit (p % 8) := by
  rw [bit, h]

theorem bit_eq_false {bs : List UInt8} {p : Nat} (h : 8 * bs.length ≤ p) : bit bs p = false := by
  rw [bit, List.getElem?_eq_none (by omega)]

/-- A byte's bits end at eight. -/
theorem testBit_complement (b : UInt8) {i : Nat} (hi : i < 8) :
    (~~~b).toNat.testBit i = !b.toNat.testBit i := by
  have h := BitVec.getLsbD_not (x := b.toBitVec) (i := i)
  simpa [BitVec.getLsbD, hi] using h

/-- **Bytes are known by their bits.** -/
theorem eq_of_bits {as bs : List UInt8} (hlen : as.length = bs.length)
    (h : ∀ p, bit as p = bit bs p) : as = bs := by
  apply List.ext_getElem hlen
  intro k ha hb
  apply UInt8.toNat.inj
  apply Nat.eq_of_testBit_eq
  intro i
  by_cases hi : i < 8
  · have hk : (8 * k + i) / 8 = k := by omega
    have hmod : (8 * k + i) % 8 = i := by omega
    have hbit := h (8 * k + i)
    rwa [bit_of_getElem? (by rw [hk]; exact List.getElem?_eq_getElem ha),
      bit_of_getElem? (by rw [hk]; exact List.getElem?_eq_getElem hb), hmod] at hbit
  · have hbound : 2 ^ 8 ≤ 2 ^ i := Nat.pow_le_pow_right (by decide) (by omega)
    rw [Nat.testBit_lt_two_pow (Nat.lt_of_lt_of_le (UInt8.toNat_lt _) hbound),
      Nat.testBit_lt_two_pow (Nat.lt_of_lt_of_le (UInt8.toNat_lt _) hbound)]

/-- Setting bits of one byte. -/
theorem bit_orAt {bs : List UInt8} {k : Nat} (hk : k < bs.length) (mask : UInt8) (p : Nat) :
    bit (orAt bs k mask) p = (bit bs p || decide (p / 8 = k) && mask.toNat.testBit (p % 8)) := by
  by_cases hp : k = p / 8
  · subst hp
    have hget : bs[p / 8]? = some bs[p / 8] := List.getElem?_eq_getElem hk
    have hget' : (orAt bs (p / 8) mask)[p / 8]? = some (bs[p / 8] ||| mask) := by
      rw [orAt, List.getElem?_modify_eq, hget]
      rfl
    rw [bit_of_getElem? hget, bit_of_getElem? hget', UInt8.toNat_or, Nat.testBit_or]
    simp
  · have hsame : (orAt bs k mask)[p / 8]? = bs[p / 8]? := by
      rw [orAt, List.getElem?_modify_ne _ _ hp]
    rw [bit, hsame, bit]
    simp [Ne.symm hp]

/-- Clearing bits of one byte. -/
theorem bit_andNotAt {bs : List UInt8} {k : Nat} (mask : UInt8) (p : Nat) :
    bit (andNotAt bs k mask) p =
      (bit bs p && !(decide (p / 8 = k) && mask.toNat.testBit (p % 8))) := by
  by_cases hp : k = p / 8
  · subst hp
    rcases hget : bs[p / 8]? with _ | b
    · have hget' : (andNotAt bs (p / 8) mask)[p / 8]? = none := by
        rw [andNotAt, List.getElem?_modify_eq, hget]
        rfl
      rw [bit, hget', bit, hget]
      rfl
    · have hget' : (andNotAt bs (p / 8) mask)[p / 8]? = some (b &&& ~~~mask) := by
        rw [andNotAt, List.getElem?_modify_eq, hget]
        rfl
      rw [bit_of_getElem? hget, bit_of_getElem? hget', UInt8.toNat_and, Nat.testBit_and,
        testBit_complement mask (Nat.mod_lt _ (by decide))]
      simp
  · have hsame : (andNotAt bs k mask)[p / 8]? = bs[p / 8]? := by
      rw [andNotAt, List.getElem?_modify_ne _ _ hp]
    rw [bit, hsame, bit]
    simp [Ne.symm hp]

/-- A mask of one bit. -/
theorem testBit_mask {s : Nat} (hs : s < 8) (i : Nat) :
    (UInt8.ofNat (2 ^ s)).toNat.testBit i = decide (i = s) := by
  have hlt : 2 ^ s < 2 ^ 8 := Nat.pow_lt_pow_right (by decide) hs
  rw [UInt8.toNat_ofNat', Nat.mod_eq_of_lt hlt, Nat.testBit_two_pow]
  exact decide_eq_decide.mpr eq_comm

/-- Setting one bit. -/
theorem bit_orAt_two_pow {bs : List UInt8} {i : Nat} (hi : i / 8 < bs.length) (p : Nat) :
    bit (orAt bs (i / 8) (UInt8.ofNat (2 ^ (i % 8)))) p = (bit bs p || decide (p = i)) := by
  rw [bit_orAt hi, testBit_mask (Nat.mod_lt i (by decide)), ← Bool.decide_and]
  congr 1
  refine decide_eq_decide.mpr ?_
  omega

/-- Testing one bit of a byte. -/
theorem and_mask_ne_zero {s : Nat} (hs : s < 8) (b : UInt8) :
    b &&& UInt8.ofNat (2 ^ s) ≠ 0 ↔ b.toNat.testBit s = true := by
  have hlt : 2 ^ s < 2 ^ 8 := Nat.pow_lt_pow_right (by decide) hs
  have hpos : 0 < 2 ^ s := Nat.two_pow_pos s
  have hand : (b &&& UInt8.ofNat (2 ^ s)).toNat = (b.toNat.testBit s).toNat * 2 ^ s := by
    rw [UInt8.toNat_and, UInt8.toNat_ofNat', Nat.mod_eq_of_lt hlt, Nat.and_two_pow]
  rw [Ne, ← UInt8.toNat_inj, hand]
  cases b.toNat.testBit s with
  | false => simp
  | true => simp

/-- Two adjacent bits as a number. -/
theorem twoBits_eq (x s : Nat) :
    x >>> s &&& 3 = (x.testBit s).toNat + 2 * (x.testBit (s + 1)).toNat := by
  have hlow : (x.testBit s).toNat = x / 2 ^ s % 2 := by
    rw [Nat.toNat_testBit]
  have hhigh : (x.testBit (s + 1)).toNat = x / 2 ^ s / 2 % 2 := by
    rw [Nat.toNat_testBit, Nat.pow_succ, Nat.div_div_eq_div_mul]
  rw [hlow, hhigh, Nat.shiftRight_eq_div_pow, Nat.and_two_pow_sub_one_eq_mod (x / 2 ^ s) 2]
  omega

/-! ## Bytes from bits -/

/-- So many bytes, with these bits. -/
def pack (f : Nat → Bool) (len : Nat) : List UInt8 :=
  (List.range len).map fun j => UInt8.ofNat (Nat.ofBits fun k : Fin 8 => f (8 * j + k))

@[simp] theorem length_pack (f : Nat → Bool) (len : Nat) : (pack f len).length = len := by
  rw [pack, List.length_map, List.length_range]

theorem bit_pack (f : Nat → Bool) (len p : Nat) :
    bit (pack f len) p = (decide (p < 8 * len) && f p) := by
  by_cases hp : p < 8 * len
  · have hget : (pack f len)[p / 8]? =
        some (UInt8.ofNat (Nat.ofBits fun k : Fin 8 => f (8 * (p / 8) + k))) := by
      rw [pack, List.getElem?_map, List.getElem?_range (by omega), Option.map_some]
    have hbyte : (Nat.ofBits fun k : Fin 8 => f (8 * (p / 8) + k)) < 2 ^ 8 :=
      Nat.ofBits_lt_two_pow _
    rw [bit_of_getElem? hget, UInt8.toNat_ofNat_of_lt' hbyte,
      Nat.testBit_ofBits_lt _ _ (Nat.mod_lt _ (by decide)), Nat.div_add_mod, decide_eq_true hp,
      Bool.true_and]
  · rw [bit_eq_false (by rw [length_pack]; exact Nat.le_of_not_lt hp), decide_eq_false hp,
      Bool.false_and]

end PackedBits
