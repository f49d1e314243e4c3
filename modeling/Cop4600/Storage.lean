import Mathlib.Data.List.TakeDrop
import Mathlib.Tactic.Ring

/-!
# Byte storage

Positional reads and writes on a file, taken as the list of its bytes, and
little-endian numbers in it.

* `readAt f n off` — up to `n` bytes from `off` on: fewer past the end;
* `writeAt f bs off` — `bs` written over the bytes from `off` on. A write past
  the end fills the gap with zeros, and writing nothing changes nothing;
* `readAt_writeAt` — a read finds what was just written there;
* `readAt_writeAt_of_disjoint` — the frame rule: a read that does not meet the
  written range finds what it found before;
* `Stands` — what stands in the file, which is taken to go on with zeros;
  `stands_writeAt_take` says what a write that breaks off leaves to be desired;
* `leBytes` / `leNat` — fixed-width little-endian encodings.
-/

namespace Storage

/-- `n` bytes from `off` on, as far as the file has them. -/
def readAt (f : List UInt8) (n off : Nat) : List UInt8 := (f.drop off).take n

/-- `bs` written at `off`. -/
def writeAt (f bs : List UInt8) (off : Nat) : List UInt8 :=
  if bs = [] then f else f.takeD off 0 ++ (bs ++ f.drop (off + bs.length))

/-! ## Reading -/

/-- A read ends with the file. -/
theorem length_readAt (f : List UInt8) (n off : Nat) :
    (readAt f n off).length = min n (f.length - off) := by
  rw [readAt, List.length_take, List.length_drop]

/-- Inside the file it gets all that it asks for. -/
theorem length_readAt_of_le {f : List UInt8} {n off : Nat} (h : off + n ≤ f.length) :
    (readAt f n off).length = n := by
  rw [length_readAt]
  omega

/-- What is read are the bytes from the offset on. -/
theorem readAt_getElem? (f : List UInt8) (n off i : Nat) :
    (readAt f n off)[i]? = if i < n then f[off + i]? else none := by
  rw [readAt, List.getElem?_take, List.getElem?_drop]

@[simp] theorem readAt_zero (f : List UInt8) (off : Nat) : readAt f 0 off = [] := by
  simp [readAt]

/-- Behind the file there is nothing to be read. -/
theorem readAt_of_length_le {f : List UInt8} {off : Nat} (h : f.length ≤ off) (n : Nat) :
    readAt f n off = [] := by
  rw [readAt, List.drop_eq_nil_of_le h, List.take_nil]

/-- A read is the reads of its two halves. -/
theorem readAt_add (f : List UInt8) (m n off : Nat) :
    readAt f (m + n) off = readAt f m off ++ readAt f n (off + m) := by
  rw [readAt, List.take_add, List.drop_drop]
  rfl

/-- A part of what has been read is a shorter read. -/
theorem take_drop_readAt (f : List UInt8) (n off m k : Nat) :
    ((readAt f n off).drop k).take m = readAt f (min m (n - k)) (off + k) := by
  rw [readAt, readAt, List.drop_take, List.drop_drop, List.take_take]

/-- The first byte of a read. -/
theorem readAt_head? (f : List UInt8) {n : Nat} (hn : 0 < n) (off : Nat) :
    (readAt f n off).head? = f[off]? := by
  rw [List.head?_eq_getElem?, readAt_getElem?, if_pos hn, Nat.add_zero]

/-- A read gets nothing only behind the file, or where it asks for nothing. -/
theorem readAt_eq_nil_iff {f : List UInt8} {n off : Nat} :
    readAt f n off = [] ↔ n = 0 ∨ f.length ≤ off := by
  rw [readAt, List.take_eq_nil_iff, List.drop_eq_nil_iff]

/-! ## Writing -/

@[simp] theorem writeAt_nil (f : List UInt8) (off : Nat) : writeAt f [] off = f := by
  rw [writeAt, if_pos rfl]

/-- A list that is filled up by zeros, byte by byte. -/
theorem takeD_getElem? (f : List UInt8) (n i : Nat) :
    (f.takeD n 0)[i]? = if i < n then some (f[i]?.getD 0) else none := by
  induction n generalizing f i with
  | zero => simp
  | succ n ih =>
    rw [List.takeD_succ]
    cases i with
    | zero => cases f <;> simp
    | succ i =>
      rw [List.getElem?_cons_succ, ih]
      cases f <;> simp

/-- A write makes the file as long as it has to be. -/
theorem length_writeAt (f : List UInt8) {bs : List UInt8} (h : bs ≠ []) (off : Nat) :
    (writeAt f bs off).length = max f.length (off + bs.length) := by
  rw [writeAt, if_neg h, List.length_append, List.length_append, List.length_drop,
    List.takeD_length]
  omega

/-- A write never makes the file shorter. -/
theorem length_le_writeAt (f bs : List UInt8) (off : Nat) :
    f.length ≤ (writeAt f bs off).length := by
  rcases eq_or_ne bs [] with rfl | h
  · rw [writeAt_nil]
  · rw [length_writeAt f h]
    omega

/-- Every byte behind a write: inside the written range, the bytes written. -/
theorem writeAt_getElem?_inside (f : List UInt8) {bs : List UInt8} {off i : Nat}
    (h₁ : off ≤ i) (h₂ : i < off + bs.length) : (writeAt f bs off)[i]? = bs[i - off]? := by
  have hne : bs ≠ [] := by
    rintro rfl
    simp at h₂
    omega
  rw [writeAt, if_neg hne, List.getElem?_append_right (by rw [List.takeD_length]; exact h₁),
    List.takeD_length, List.getElem?_append_left (by omega)]

/-- Outside the written range, a byte that was there before. -/
theorem writeAt_getElem?_outside {f : List UInt8} (bs : List UInt8) {off i : Nat}
    (hi : i < f.length) (h : i < off ∨ off + bs.length ≤ i) : (writeAt f bs off)[i]? = f[i]? := by
  rcases eq_or_ne bs [] with rfl | hne
  · rw [writeAt_nil]
  · rw [writeAt, if_neg hne]
    rcases h with h | h
    · rw [List.getElem?_append_left (by rw [List.takeD_length]; exact h), takeD_getElem?, if_pos h,
        List.getElem?_eq_getElem hi, Option.getD_some]
    · rw [List.getElem?_append_right (by rw [List.takeD_length]; omega), List.takeD_length,
        List.getElem?_append_right (by omega), List.getElem?_drop]
      congr 1
      omega

/-- A read finds what was just written there. -/
theorem readAt_writeAt (f bs : List UInt8) (off : Nat) :
    readAt (writeAt f bs off) bs.length off = bs := by
  apply List.ext_getElem?
  intro i
  rw [readAt_getElem?]
  by_cases hi : i < bs.length
  · rw [if_pos hi, writeAt_getElem?_inside f (by omega) (by omega)]
    congr 1
    omega
  · rw [if_neg hi, List.getElem?_eq_none (by omega)]

/-- **The frame rule**: a read of bytes that exist and are not written over. -/
theorem readAt_writeAt_of_disjoint {f : List UInt8} (bs : List UInt8) {n off off' : Nat}
    (hlen : off + n ≤ f.length) (h : off + n ≤ off' ∨ off' + bs.length ≤ off) :
    readAt (writeAt f bs off') n off = readAt f n off := by
  apply List.ext_getElem?
  intro i
  rw [readAt_getElem?, readAt_getElem?]
  by_cases hi : i < n
  · rw [if_pos hi, if_pos hi, writeAt_getElem?_outside bs (by omega) (by omega)]
  · rw [if_neg hi, if_neg hi]

/-! ## What a file holds -/

/-- These bytes stand in the file from `off` on. -/
def Holds (f : List UInt8) (off : Nat) (bs : List UInt8) : Prop := readAt f bs.length off = bs

/-- Bytes that the file holds are read from it. -/
theorem Holds.readAt_eq {f bs : List UInt8} {off n : Nat} (h : Holds f off bs)
    (hn : bs.length = n) : readAt f n off = bs := by
  rw [← hn]
  exact h

/-- Bytes that the file holds are inside it. -/
theorem Holds.length_le {f bs : List UInt8} {off : Nat} (h : Holds f off bs) (hbs : bs ≠ []) :
    off + bs.length ≤ f.length := by
  have hlen := congrArg List.length h
  have hpos := List.length_pos_iff.mpr hbs
  rw [length_readAt] at hlen
  omega

/-- A file holds two pieces behind each other if it holds each in its place. -/
theorem holds_append {f a b : List UInt8} {off : Nat} :
    Holds f off (a ++ b) ↔ Holds f off a ∧ Holds f (off + a.length) b := by
  rw [Holds, List.length_append, readAt_add]
  refine ⟨?_, ?_⟩
  · intro h
    by_cases ha : off + a.length ≤ f.length
    · exact List.append_inj h (length_readAt_of_le ha)
    · -- past the end of the file there is nothing to read
      have hlen := congrArg List.length h
      rw [List.length_append, List.length_append, length_readAt, length_readAt] at hlen
      obtain rfl : b = [] := List.eq_nil_of_length_eq_zero (by omega)
      simp only [List.length_nil, readAt_zero, List.append_nil] at h
      exact ⟨h, rfl⟩
  · rintro ⟨ha, hb⟩
    rw [ha, hb]

/-- A part of the file is held where it stands. -/
theorem holds_middle (a bs c : List UInt8) : Holds (a ++ bs ++ c) a.length bs := by
  rw [Holds, readAt, List.append_assoc, List.drop_left, List.take_left]

/-- What was just written. -/
theorem holds_writeAt (f bs : List UInt8) (off : Nat) : Holds (writeAt f bs off) off bs :=
  readAt_writeAt f bs off

/-- A write elsewhere keeps what the file holds. -/
theorem Holds.writeAt {f bs : List UInt8} {off : Nat} (h : Holds f off bs) {bs' : List UInt8}
    {off' : Nat} (hdisj : off + bs.length ≤ off' ∨ off' + bs'.length ≤ off) :
    Holds (Storage.writeAt f bs' off') off bs := by
  rcases eq_or_ne bs [] with rfl | hne
  · exact readAt_zero _ _
  · rw [Holds, readAt_writeAt_of_disjoint bs' (h.length_le hne) hdisj]
    exact h

/-! ## A file that goes on with zeros -/

/-- The byte at a position: zero past the end. -/
def byteAt (f : List UInt8) (i : Nat) : UInt8 := f[i]?.getD 0

/-- `n` bytes from `off` on, with zeros past the end. -/
def bytesAt (f : List UInt8) (n off : Nat) : List UInt8 := (readAt f n off).takeD n 0

/-- These bytes stand in the file from `off` on; zeros may be missing at its end. -/
def Stands (f : List UInt8) (off : Nat) (bs : List UInt8) : Prop := bytesAt f bs.length off = bs

instance (f : List UInt8) (off : Nat) (bs : List UInt8) : Decidable (Stands f off bs) :=
  inferInstanceAs (Decidable (_ = _))

@[simp] theorem length_bytesAt (f : List UInt8) (n off : Nat) : (bytesAt f n off).length = n :=
  List.takeD_length ..

/-- The bytes at a place in the file and the zeros behind it. -/
theorem bytesAt_getElem? (f : List UInt8) {n off i : Nat} (hi : i < n) :
    (bytesAt f n off)[i]? = some (byteAt f (off + i)) := by
  rw [bytesAt, takeD_getElem?, if_pos hi, readAt_getElem?, if_pos hi]
  rfl

/-- Bytes that the file has. -/
theorem bytesAt_of_le {f : List UInt8} {n off : Nat} (h : off + n ≤ f.length) :
    bytesAt f n off = readAt f n off := by
  have hlen := length_readAt_of_le h
  rw [bytesAt, List.takeD_eq_take _ (Nat.le_of_eq hlen.symm),
    List.take_of_length_le (Nat.le_of_eq hlen)]

/-- Bytes stand at a place if each of them does. -/
theorem stands_iff {f bs : List UInt8} {off : Nat} :
    Stands f off bs ↔ ∀ i b, bs[i]? = some b → byteAt f (off + i) = b := by
  refine ⟨fun h i b hb => ?_, fun h => ?_⟩
  · have hi := (List.getElem?_eq_some_iff.mp hb).1
    rw [← h, bytesAt_getElem? f hi] at hb
    exact Option.some.inj hb
  · apply List.ext_getElem?
    intro i
    by_cases hi : i < bs.length
    · rw [bytesAt_getElem? f hi, h i _ (List.getElem?_eq_getElem hi), List.getElem?_eq_getElem hi]
    · rw [List.getElem?_eq_none (by rw [length_bytesAt]; omega), List.getElem?_eq_none (by omega)]

/-- In front of the end of the file, what stands there is there to be read. -/
theorem stands_iff_readAt {f bs : List UInt8} {n off : Nat} (hn : bs.length = n)
    (h : off + n ≤ f.length) : Stands f off bs ↔ readAt f n off = bs := by
  rw [Stands, hn, bytesAt_of_le h]

/-- Every byte behind a write. The gap that a write past the end leaves shows the zeros
that it showed before. -/
theorem byteAt_writeAt (f bs : List UInt8) (off i : Nat) :
    byteAt (writeAt f bs off) i =
      if off ≤ i ∧ i < off + bs.length then byteAt bs (i - off) else byteAt f i := by
  split
  · rename_i h
    rw [byteAt, writeAt_getElem?_inside f h.1 h.2]
    rfl
  · rename_i h
    rcases eq_or_ne bs [] with rfl | hne
    · rw [writeAt_nil]
    · by_cases hi : i < f.length
      · rw [byteAt, writeAt_getElem?_outside bs hi (by omega)]
        rfl
      · have hzero : byteAt f i = 0 := by
          rw [byteAt, List.getElem?_eq_none (by omega), Option.getD_none]
        rw [hzero, byteAt, writeAt, if_neg hne]
        by_cases hgap : i < off
        · rw [List.getElem?_append_left (by rw [List.takeD_length]; exact hgap), takeD_getElem?,
            if_pos hgap, List.getElem?_eq_none (by omega), Option.getD_none, Option.getD_some]
        · rw [List.getElem?_eq_none, Option.getD_none]
          rw [List.length_append, List.length_append, List.takeD_length, List.length_drop]
          omega

/-- **The frame rule**, for what stands in the file. -/
theorem stands_writeAt_of_disjoint {f bs bs' : List UInt8} {off off' : Nat}
    (h : off + bs.length ≤ off' ∨ off' + bs'.length ≤ off) :
    Stands (writeAt f bs' off') off bs ↔ Stands f off bs := by
  rw [stands_iff, stands_iff]
  refine forall_congr' fun i => forall_congr' fun b => forall_congr' fun hb => ?_
  have hi := (List.getElem?_eq_some_iff.mp hb).1
  rw [byteAt_writeAt, if_neg (by omega)]

/-- **A write that breaks off.** After a write of the first `k` of these bytes, all of them
stand in the file if the rest of them did before, and only then. -/
theorem stands_writeAt_take {f bs : List UInt8} {off k : Nat} :
    Stands (writeAt f (bs.take k) off) off bs ↔ Stands f (off + k) (bs.drop k) := by
  rw [stands_iff, stands_iff]
  refine ⟨fun h i b hb => ?_, fun h i b hb => ?_⟩
  · rw [List.getElem?_drop] at hb
    have := h (k + i) b hb
    rwa [byteAt_writeAt, if_neg (by rw [List.length_take]; omega), ← Nat.add_assoc] at this
  · have hi := (List.getElem?_eq_some_iff.mp hb).1
    rw [byteAt_writeAt]
    by_cases hk : i < k
    · rw [if_pos (by rw [List.length_take]; omega), Nat.add_sub_cancel_left, byteAt,
        List.getElem?_take_of_lt hk, hb]
      rfl
    · rw [if_neg (by rw [List.length_take]; omega)]
      have hrest := h (i - k) b
      rw [List.getElem?_drop, Nat.add_sub_cancel' (by omega)] at hrest
      rw [← hrest hb]
      congr 1
      omega

/-! ## Little-endian numbers -/

/-- The `w` low bytes of `n`, least significant first. -/
def leBytes : Nat → Nat → List UInt8
  | 0, _ => []
  | w + 1, n => UInt8.ofNat n :: leBytes w (n / 256)

/-- The number these bytes stand for. -/
def leNat (bs : List UInt8) : Nat := bs.foldr (fun b n => b.toNat + 256 * n) 0

/-- A number takes as many bytes as it is given. -/
@[simp] theorem length_leBytes (w n : Nat) : (leBytes w n).length = w := by
  induction w generalizing n with
  | zero => rfl
  | succ w ih => rw [leBytes, List.length_cons, ih]

/-- The bytes keep a number modulo `256 ^ w`. -/
theorem leNat_leBytes (w n : Nat) : leNat (leBytes w n) = n % 256 ^ w := by
  induction w generalizing n with
  | zero => rw [leBytes, Nat.pow_zero, Nat.mod_one]; rfl
  | succ w ih =>
    have hstep : leNat (leBytes (w + 1) n) = n % 256 + 256 * leNat (leBytes w (n / 256)) := by
      simp [leBytes, leNat]
    rw [hstep, ih, Nat.pow_succ, Nat.mul_comm (256 ^ w) 256, Nat.mod_mul]

/-- Fixed-width bytes are the bytes of their number. -/
theorem leBytes_leNat {bs : List UInt8} {w : Nat} (h : bs.length = w) :
    leBytes w (leNat bs) = bs := by
  induction bs generalizing w with
  | nil => rw [← h]; rfl
  | cons b bs ih =>
    have hb : b.toNat < 256 := b.toNat_lt
    have hstep : leNat (b :: bs) = b.toNat + 256 * leNat bs := rfl
    have hdiv : (b.toNat + 256 * leNat bs) / 256 = leNat bs := by omega
    have hlow : UInt8.ofNat (b.toNat + 256 * leNat bs) = b := by
      apply UInt8.toNat_inj.mp
      rw [UInt8.toNat_ofNat']
      omega
    rw [← h, List.length_cons, leBytes, hstep, hdiv, ih rfl, hlow]

/-- A few bytes are no large number. -/
theorem leNat_lt {bs : List UInt8} {w : Nat} (h : bs.length = w) : leNat bs < 256 ^ w := by
  rw [← leBytes_leNat h, leNat_leBytes]
  exact Nat.mod_lt _ (Nat.pow_pos (by decide))

/-- Zeros are the number zero. -/
theorem leNat_of_zeros {bs : List UInt8} (h : ∀ b ∈ bs, b = 0) : leNat bs = 0 := by
  induction bs with
  | nil => rfl
  | cons b bs ih =>
    have hstep : leNat (b :: bs) = b.toNat + 256 * leNat bs := rfl
    rw [hstep, ih fun b' hb' => h b' (List.mem_cons_of_mem _ hb'), h b (List.mem_cons_self ..)]
    rfl

end Storage
