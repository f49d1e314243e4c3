import Cop4600.Memory
import Cop4600.Delimited
import Mathlib.Algebra.Group.Nat.Defs

/-!
# Reading lines from a connection

`conn_read` of `wallserver.c`. What a client sends is the list of the chunks that
`recv` will return, one after the other; behind the last one the connection is
closed.

Every call looks for a newline only in what it receives itself, not in what an
earlier call has left in `buf` (`connRead_line`).
-/

namespace Cop4600

open Delimited

/-- The end of a line. -/
def newline : UInt8 := 10

/-- `READ_MAX`. -/
def readMax : Nat := 80

/-- `struct conn` without its socket. -/
structure Conn : Type where
  rsize : Nat
  buf : Bytes

/-- What a call of `conn_read` returns and leaves behind; `rest` are the chunks that
have not been received. -/
structure ReadResult : Type where
  /-- the value that is returned -/
  ret : Int
  /-- the connection, with what is left over -/
  conn : Conn
  /-- the array that is read into -/
  dest : Bytes
  /-- the chunks that have not been received -/
  rest : List Bytes

/-- `copysize = size < n ? size : n; memcpy(dest, c->buf, copysize);` with what is left
of `dest` and of `size` behind the copy. `offset` is how far `dest` has advanced. -/
def copyOut (dest : Bytes) (offset : Nat) (size : Int) (buf : Bytes) (n : Nat) :
    Option (Bytes × Nat × Int) :=
  let copysize := if size < n then size else n
  (memcpy dest offset buf copysize).map fun dest => (dest, offset + copysize.toNat, size - copysize)

/-- `conn_read` from the label `recv` on. `none` is an `int` that overflows, or a copy
that leaves its array. -/
def connReadLoop (rsize : Nat) : (chunks : List Bytes) → (buf : Bytes) → (received retsize : Nat) →
    (dest : Bytes) → (offset : Nat) → (size : Int) → Option ReadResult
  | chunks, buf, received, retsize, dest, offset, size =>
    if 2 ^ 31 ≤ retsize + received then none
    else
      (copyOut dest offset size buf received).bind fun (dest, offset, size) =>
        match chunks with
        | [] => some { ret := -1, conn := { rsize, buf }, dest, rest := [] }
        | chunk :: chunks =>
          if chunk = [] then some { ret := -1, conn := { rsize, buf }, dest, rest := chunks }
          else
            (memcpy buf 0 chunk chunk.length).bind fun buf =>
              -- `memchr(c->buf, '\n', received)`
              match (buf.take chunk.length).idxOf? newline with
              | none =>
                connReadLoop rsize chunks buf chunk.length (retsize + received) dest offset size
              | some e =>
                if 2 ^ 31 ≤ retsize + received + e then none
                else
                  (copyOut dest offset size buf e).bind fun (dest, offset, _) =>
                    (memcpy dest offset [0] 1).bind fun dest =>
                      let rsize := chunk.length - (e + 1)
                      (memcpy buf 0 (buf.drop (e + 1)) rsize).map fun buf =>
                        { ret := (retsize + received + e : Nat)
                          conn := { rsize, buf }
                          dest
                          rest := chunks }

/-- `conn_read` into the whole of `dest`. -/
def connRead (c : Conn) (dest : Bytes) (size : Int) (chunks : List Bytes) : Option ReadResult :=
  connReadLoop c.rsize chunks c.buf c.rsize 0 dest 0 (size - 1)

/-- `conn_read(c, dest + offset, size)`. -/
def connReadAt (c : Conn) (dest : Bytes) (offset : Nat) (size : Int) (chunks : List Bytes) :
    Option ReadResult :=
  connReadLoop c.rsize chunks c.buf c.rsize 0 dest offset (size - 1)

/-! ## One call -/

/-- The chunks that `recv` can return: never empty, and at most `READ_MAX` bytes. -/
def Chunks (chunks : List Bytes) : Prop := ∀ chunk ∈ chunks, chunk ≠ [] ∧ chunk.length ≤ readMax

instance (chunks : List Bytes) : Decidable (Chunks chunks) :=
  inferInstanceAs (Decidable (∀ chunk ∈ chunks, chunk ≠ [] ∧ chunk.length ≤ readMax))

/-- Copying what fits of the first `n` bytes of `buf`. -/
theorem copyOut_eq {dest buf : Bytes} {offset size n : Nat} (hbuf : n ≤ buf.length)
    (hdest : offset + min size n ≤ dest.length) :
    copyOut dest offset size buf n =
      some (put dest offset ((buf.take n).take size),
        offset + ((buf.take n).take size).length, ((size - n : Nat) : Int)) := by
  have hmin : (if (size : Int) < n then (size : Int) else n) = (min size n : Nat) := by
    split <;> omega
  have hcopied : ((buf.take n).take size).length = min size n := by
    rw [List.length_take, List.length_take_of_le hbuf]
  rw [copyOut, hmin]
  simp only [Int.toNat_natCast]
  rw [memcpy_eq (by omega) (by omega), Option.map_some, hcopied, List.take_take]
  congr 3
  omega

/-- A chunk arrives at the start of `buf`. -/
theorem receive_eq {buf chunk : Bytes} (hbuf : buf.length = readMax)
    (hlen : chunk.length ≤ readMax) :
    memcpy buf 0 chunk chunk.length = some (put buf 0 chunk) ∧
      (put buf 0 chunk).length = readMax ∧ (put buf 0 chunk).take chunk.length = chunk := by
  refine ⟨?_, ?_, ?_⟩
  · rw [memcpy_eq (Nat.le_refl _) (by omega), List.take_length]
  · rw [length_put (by omega), hbuf]
  · exact take_drop_put (Nat.zero_le buf.length)

/-- The bytes behind the newline move to the start of `buf`. -/
theorem keep_eq {buf chunk : Bytes} {e : Nat} (hbuf : buf.length = readMax)
    (hchunk : buf.take chunk.length = chunk) (hlen : chunk.length ≤ readMax)
    (he : e < chunk.length) :
    ∃ buf', memcpy buf 0 (buf.drop (e + 1)) (chunk.length - (e + 1) : Nat) = some buf' ∧
      buf'.length = readMax ∧ buf'.take (chunk.length - (e + 1)) = chunk.drop (e + 1) := by
  have hdrop : (buf.drop (e + 1)).take (chunk.length - (e + 1)) = chunk.drop (e + 1) := by
    rw [← List.drop_take, hchunk]
  have hrest : (chunk.drop (e + 1)).length = chunk.length - (e + 1) := List.length_drop
  refine ⟨put buf 0 (chunk.drop (e + 1)), ?_, ?_, ?_⟩
  · rw [memcpy_eq (by rw [List.length_drop]; omega) (by omega), hdrop]
  · rw [length_put (by omega), hbuf]
  · rw [← hrest]
    exact take_drop_put (Nat.zero_le buf.length)

/-- What fits of two texts is what fits of the first, and then of the second. -/
theorem take_append_take {a b : Bytes} (size : Nat) :
    a.take size ++ b.take (size - a.length) = (a ++ b).take size := List.take_append.symm

/-- How much of the bytes at hand is copied, and that `dest` keeps its length. -/
theorem copied_eq {buf dest : Bytes} {received offset size : Nat}
    (hreceived : received ≤ buf.length) (hdest : offset + min size received ≤ dest.length) :
    (buf.take received).length = received ∧
      ((buf.take received).take size).length = min size received ∧
      (put dest offset ((buf.take received).take size)).length = dest.length := by
  have htext : (buf.take received).length = received := List.length_take_of_le hreceived
  have hcopied : ((buf.take received).take size).length = min size received := by
    rw [List.length_take, htext]
  exact ⟨htext, hcopied, length_put (by omega)⟩

section

variable {rsize : Nat} {chunk : Bytes} {chunks : List Bytes} {buf dest : Bytes}
  {received retsize offset size : Nat}

/-- Nothing more to receive. -/
theorem connReadLoop_nil (hreceived : received ≤ buf.length)
    (hdest : offset + min size received ≤ dest.length) (hint : retsize + received < 2 ^ 31) :
    ∃ r, connReadLoop rsize [] buf received retsize dest offset size = some r ∧ r.ret = -1 ∧
      r.dest.length = dest.length := by
  obtain ⟨-, -, hput⟩ := copied_eq hreceived hdest
  refine ⟨{ ret := -1
            conn := { rsize, buf }
            dest := put dest offset ((buf.take received).take size)
            rest := [] }, ?_, rfl, hput⟩
  rw [connReadLoop, if_neg (by omega), copyOut_eq hreceived hdest, Option.bind_some]

/-- A chunk without a newline: the loop goes on behind what it has copied. -/
theorem connReadLoop_goto (hchunk : chunk ≠ []) (hlen : chunk.length ≤ readMax)
    (hbuf : buf.length = readMax) (hreceived : received ≤ readMax)
    (hdest : offset + min size received ≤ dest.length) (hint : retsize + received < 2 ^ 31)
    (hnone : chunk.idxOf? newline = none) :
    connReadLoop rsize (chunk :: chunks) buf received retsize dest offset size =
      connReadLoop rsize chunks (put buf 0 chunk) chunk.length (retsize + received)
        (put dest offset ((buf.take received).take size))
        (offset + ((buf.take received).take size).length) (size - received : Nat) := by
  obtain ⟨hcopy, -, htake⟩ := receive_eq hbuf hlen
  rw [connReadLoop, if_neg (by omega), copyOut_eq (by omega) hdest, Option.bind_some]
  simp only [if_neg hchunk, hcopy, Option.bind_some, htake, hnone]

/-- A chunk with a newline ends the line. -/
theorem connReadLoop_return (hchunk : chunk ≠ []) (hlen : chunk.length ≤ readMax)
    (hbuf : buf.length = readMax) (hreceived : received ≤ readMax)
    {e : Nat} (hdest : offset + min size (received + e) + 1 ≤ dest.length)
    (hsome : chunk.idxOf? newline = some e) (hint : retsize + received + e < 2 ^ 31) :
    ∃ buf', connReadLoop rsize (chunk :: chunks) buf received retsize dest offset size =
        some { ret := (retsize + received + e : Nat)
               conn := { rsize := chunk.length - (e + 1), buf := buf' }
               dest := put dest offset ((buf.take received ++ chunk.take e).take size ++ [0])
               rest := chunks } ∧
      buf'.length = readMax ∧ buf'.take (chunk.length - (e + 1)) = chunk.drop (e + 1) := by
  obtain ⟨hcopy, hbuf₁, htake⟩ := receive_eq hbuf hlen
  obtain ⟨he, -, -⟩ := eq_of_idxOf? hsome
  obtain ⟨buf', hkeep, hbuf', hrest⟩ := keep_eq hbuf₁ htake hlen he
  refine ⟨buf', ?_, hbuf', hrest⟩
  obtain ⟨htext, hA, hput⟩ := @copied_eq buf dest received offset size (by omega) (by omega)
  have hprefix : (put buf 0 chunk).take e = chunk.take e := by
    rw [← htake, List.take_take, Nat.min_eq_left (Nat.le_of_lt he), htake]
  have hB : ((chunk.take e).take (size - received)).length = min (size - received) e := by
    rw [List.length_take, List.length_take_of_le (Nat.le_of_lt he)]
  rw [connReadLoop, if_neg (by omega), copyOut_eq (by omega) (by omega), Option.bind_some]
  simp only [if_neg hchunk, hcopy, Option.bind_some, htake, hsome, if_neg (Nat.not_le.mpr hint)]
  -- the three copies into `dest` adjoin
  rw [copyOut_eq (by omega) (by omega), Option.bind_some, hprefix, put_put (by omega)]
  have hnul : memcpy (put dest offset ((buf.take received).take size ++
      (chunk.take e).take (size - received)))
      (offset + ((buf.take received).take size).length +
        ((chunk.take e).take (size - received)).length) [0] 1 =
      some (put dest offset ((buf.take received ++ chunk.take e).take size ++ [0])) := by
    have hfits := take_append_take (a := buf.take received) (b := chunk.take e) size
    rw [htext] at hfits
    have hlength : (put dest offset ((buf.take received).take size ++
        (chunk.take e).take (size - received))).length = dest.length :=
      length_put (by rw [List.length_append]; omega)
    rw [Nat.add_assoc, ← List.length_append]
    refine (@memcpy_eq _ _ [0] 1 (Nat.le_refl 1) ?_).trans ?_
    · rw [hlength, List.length_append]
      omega
    · rw [put_put (by omega), hfits]
      rfl
  simp only [hnul, Option.bind_some, hkeep, Option.map_some]

end

/-- **The loop reads up to the first newline it receives.** The text in front of it,
that of `buf` included, goes to `dest` as far as it fits; what follows the newline stays
in `buf`. -/
theorem connReadLoop_line {rsize : Nat} {y : Bytes} {rest : List Bytes} {chunks : List Bytes} :
    ∀ {x buf dest : Bytes} {received retsize offset size : Nat}, Chunks chunks →
    firstLine newline chunks = some (x, y, rest) → buf.length = readMax → received ≤ readMax →
    offset + min size (received + x.length) + 1 ≤ dest.length →
    retsize + received + x.length < 2 ^ 31 →
    ∃ buf', connReadLoop rsize chunks buf received retsize dest offset size =
        some { ret := (retsize + received + x.length : Nat)
               conn := { rsize := y.length, buf := buf' }
               dest := put dest offset ((buf.take received ++ x).take size ++ [0])
               rest } ∧
      buf'.length = readMax ∧ buf'.take y.length = y := by
  induction chunks with
  | nil =>
    intro x buf dest received retsize offset size _ hfirst
    cases hfirst
  | cons chunk chunks ih =>
    intro x buf dest received retsize offset size hchunks hfirst hbuf hreceived hdest hint
    obtain ⟨hchunk, hlen⟩ := hchunks chunk List.mem_cons_self
    rw [firstLine] at hfirst
    split at hfirst
    · next e hsome =>
      obtain ⟨he, -, -⟩ := eq_of_idxOf? hsome
      cases hfirst
      rw [List.length_take_of_le (Nat.le_of_lt he)] at hdest hint ⊢
      rw [List.length_drop]
      exact connReadLoop_return hchunk hlen hbuf hreceived hdest hsome hint
    · next hnone =>
      -- the line goes on: what is copied now stands in front of what the rest copies
      obtain ⟨⟨x', y', rest'⟩, hfirst, heq⟩ := Option.map_eq_some_iff.mp hfirst
      cases heq
      rw [List.length_append] at hdest hint ⊢
      obtain ⟨-, hbuf₁, htake⟩ := receive_eq hbuf hlen
      obtain ⟨htext, hcopied, hput⟩ :=
        @copied_eq buf dest received offset size (by omega) (by omega)
      rw [connReadLoop_goto hchunk hlen hbuf hreceived (by omega) (by omega) hnone]
      obtain ⟨buf', hloop, hbuf', hrest⟩ :=
        @ih x' (put buf 0 chunk) (put dest offset ((buf.take received).take size)) chunk.length
          (retsize + received) (offset + ((buf.take received).take size).length) (size - received)
          (fun c hc => hchunks c (List.mem_cons_of_mem _ hc)) hfirst hbuf₁ hlen (by omega)
          (by omega)
      refine ⟨buf', ?_, hbuf', hrest⟩
      have hfits := take_append_take (a := buf.take received) (b := chunk ++ x') size
      rw [htext] at hfits
      rw [hloop, htake, put_put (by omega), ← List.append_assoc _ _ [0], hfits,
        Nat.add_assoc (retsize + received)]

/-- Without a newline the connection is closed in the end. -/
theorem connReadLoop_closed {rsize : Nat} {chunks : List Bytes} :
    ∀ {buf dest : Bytes} {received retsize offset size : Nat}, Chunks chunks →
    firstLine newline chunks = none → buf.length = readMax → received ≤ readMax →
    offset + min size (received + chunks.flatten.length) ≤ dest.length →
    retsize + received + chunks.flatten.length < 2 ^ 31 →
    ∃ r, connReadLoop rsize chunks buf received retsize dest offset size = some r ∧ r.ret = -1 ∧
      r.dest.length = dest.length := by
  induction chunks with
  | nil =>
    intro buf dest received retsize offset size _ _ hbuf hreceived hdest hint
    exact connReadLoop_nil (by omega) (by omega) (by simpa using hint)
  | cons chunk chunks ih =>
    intro buf dest received retsize offset size hchunks hfirst hbuf hreceived hdest hint
    obtain ⟨hchunk, hlen⟩ := hchunks chunk List.mem_cons_self
    rw [List.flatten_cons, List.length_append] at hdest hint
    rw [firstLine] at hfirst
    split at hfirst
    · cases hfirst
    · next hnone =>
      obtain ⟨-, hbuf₁, -⟩ := receive_eq hbuf hlen
      obtain ⟨-, hcopied, hput⟩ := @copied_eq buf dest received offset size (by omega) (by omega)
      rw [connReadLoop_goto hchunk hlen hbuf hreceived (by omega) (by omega) hnone]
      rw [← hput]
      exact ih (fun c hc => hchunks c (List.mem_cons_of_mem _ hc))
        (Option.map_eq_none_iff.mp hfirst) hbuf₁ hlen (by omega) (by omega)

/-- The bytes that an earlier call has left in `buf`. -/
structure Conn.Leaves (c : Conn) (text : Bytes) : Prop where
  /-- the buffer is as long as it was declared -/
  buf_length : c.buf.length = readMax
  /-- `rsize` counts what is left over -/
  rsize_eq : c.rsize = text.length
  /-- and the buffer begins with it -/
  buf_take : c.buf.take text.length = text

/-- What is left over fits the buffer. -/
theorem Conn.Leaves.length_le {c : Conn} {text : Bytes} (h : c.Leaves text) :
    text.length ≤ readMax := by
  rw [← h.buf_take, ← h.buf_length]
  exact List.length_take_le' _ _

section

variable {c : Conn} {text x y dest : Bytes} {rest chunks : List Bytes}

/-- **What `conn_read` returns**: the length of the line that what was left over and
what is received make up, however much of it fits `dest`. -/
theorem connReadAt_line (hc : c.Leaves text) (hchunks : Chunks chunks)
    (hfirst : firstLine newline chunks = some (x, y, rest)) {offset size : Nat}
    (hdest : offset + min size (text.length + x.length) + 1 ≤ dest.length)
    (hint : text.length + x.length < 2 ^ 31) :
    ∃ c', connReadAt c dest offset (size + 1 : Nat) chunks =
        some { ret := (text.length + x.length : Nat)
               conn := c'
               dest := put dest offset ((text ++ x).take size ++ [0])
               rest } ∧ c'.Leaves y := by
  have hlength := hc.length_le
  have hsize : ((size + 1 : Nat) : Int) - 1 = size := by omega
  obtain ⟨buf', hloop, hbuf', hrest⟩ :=
    @connReadLoop_line c.rsize y rest chunks x c.buf dest c.rsize 0 offset size hchunks hfirst
      hc.buf_length (hc.rsize_eq ▸ hlength) (by rw [hc.rsize_eq]; omega)
      (by rw [hc.rsize_eq]; omega)
  refine ⟨{ rsize := y.length, buf := buf' }, ?_, hbuf', rfl, hrest⟩
  rw [connReadAt, hsize, hloop, hc.rsize_eq, hc.buf_take, Nat.zero_add]

/-- A client that goes away in the middle of a line makes it return `-1`. -/
theorem connReadAt_closed (hc : c.Leaves text) (hchunks : Chunks chunks)
    (hfirst : firstLine newline chunks = none) {offset size : Nat}
    (hdest : offset + min size (text.length + chunks.flatten.length) ≤ dest.length)
    (hint : text.length + chunks.flatten.length < 2 ^ 31) :
    ∃ r, connReadAt c dest offset (size + 1 : Nat) chunks = some r ∧ r.ret = -1 ∧
      r.dest.length = dest.length := by
  have hlength := hc.length_le
  have hsize : ((size + 1 : Nat) : Int) - 1 = size := by omega
  rw [connReadAt, hsize]
  exact connReadLoop_closed hchunks hfirst hc.buf_length (hc.rsize_eq ▸ hlength)
    (by rw [hc.rsize_eq]; omega) (by rw [hc.rsize_eq]; omega)

/-- **A line that ends** is read up to its newline, as far as there is room. -/
theorem connRead_line {size : Nat} (hc : c.Leaves text) (hchunks : Chunks chunks)
    (hfirst : firstLine newline chunks = some (x, y, rest)) (hdest : size + 1 ≤ dest.length)
    (hint : text.length + x.length < 2 ^ 31) :
    ∃ c', connRead c dest (size + 1 : Nat) chunks =
        some { ret := (text.length + x.length : Nat)
               conn := c'
               dest := put dest 0 ((text ++ x).take size ++ [0])
               rest } ∧ c'.Leaves y :=
  connReadAt_line hc hchunks hfirst (by omega) hint

/-- A line that does not end is an error. -/
theorem connRead_closed {size : Nat} (hc : c.Leaves text) (hchunks : Chunks chunks)
    (hfirst : firstLine newline chunks = none) (hdest : size + 1 ≤ dest.length)
    (hint : text.length + chunks.flatten.length < 2 ^ 31) :
    ∃ r, connRead c dest (size + 1 : Nat) chunks = some r ∧ r.ret = -1 := by
  obtain ⟨r, hread, hret, -⟩ :=
    @connReadAt_closed c text dest chunks hc hchunks hfirst 0 size (by omega) hint
  exact ⟨r, hread, hret⟩

end

/-! ## What a call that returns has fitted -/

/-- A copy stays in the array and goes on behind what it has copied. -/
theorem copyOut_some {dest dest' buf : Bytes} {offset offset' n : Nat} {size size' : Int}
    (h : copyOut dest offset size buf n = some (dest', offset', size')) :
    0 ≤ size ∧ offset + min size.toNat n ≤ dest.length ∧ dest'.length = dest.length ∧
      offset' = offset + min size.toNat n ∧ size' = (size.toNat - n : Nat) := by
  rw [copyOut] at h
  obtain ⟨dest₁, hcopy, heq⟩ := Option.map_eq_some_iff.mp h
  cases heq
  obtain ⟨k, hk, hbuf, hdest, rfl⟩ := memcpy_some hcopy
  have hlen : (buf.take k).length = k := List.length_take_of_le hbuf
  have hcopysize : 0 ≤ size ∧ k = min size.toNat n := by
    split at hk <;> omega
  rw [hk, length_put (by omega), Int.toNat_natCast]
  exact ⟨hcopysize.1, by omega, rfl, by omega, by omega⟩

section

variable {rsize received retsize offset : Nat} {chunk buf dest : Bytes} {chunks : List Bytes}
  {size : Int} {r : ReadResult}

/-- The first copy of the loop. -/
theorem connReadLoop_room
    (hloop : connReadLoop rsize chunks buf received retsize dest offset size = some r) :
    retsize + received < 2 ^ 31 ∧ 0 ≤ size ∧ offset + min size.toNat received ≤ dest.length := by
  rw [connReadLoop] at hloop
  split at hloop
  · cases hloop
  · next hint =>
    obtain ⟨⟨dest₁, offset₁, size₁⟩, hcopy, -⟩ := Option.bind_eq_some_iff.mp hloop
    obtain ⟨hsize, hdest, -⟩ := copyOut_some hcopy
    exact ⟨Nat.not_le.mp hint, hsize, hdest⟩

/-- Nothing was received. -/
theorem connReadLoop_over (hover : chunks = [] ∨ ∃ rest, chunks = [] :: rest)
    (hloop : connReadLoop rsize chunks buf received retsize dest offset size = some r) :
    r.ret = -1 := by
  rw [connReadLoop] at hloop
  split at hloop
  · cases hloop
  obtain ⟨_, -, hloop⟩ := Option.bind_eq_some_iff.mp hloop
  obtain rfl | ⟨rest, rfl⟩ := hover
  all_goals
    cases hloop
    rfl

/-- One round of the loop that has received a chunk. -/
theorem connReadLoop_cons (hchunk : chunk ≠ [])
    (hloop : connReadLoop rsize (chunk :: chunks) buf received retsize dest offset size = some r) :
    (chunk.idxOf? newline = none ∧ ∃ buf' dest', dest'.length = dest.length ∧
      connReadLoop rsize chunks buf' chunk.length (retsize + received) dest'
        (offset + min size.toNat received) (size.toNat - received : Nat) = some r) ∨
    ∃ e, chunk.idxOf? newline = some e ∧ retsize + received + e < 2 ^ 31 ∧
      offset + min size.toNat (received + e) + 1 ≤ dest.length ∧
      r.ret = (retsize + received + e : Nat) := by
  rw [connReadLoop] at hloop
  split at hloop
  · cases hloop
  obtain ⟨⟨dest₁, offset₁, size₁⟩, hcopy, hloop⟩ := Option.bind_eq_some_iff.mp hloop
  obtain ⟨-, -, hlength, rfl, rfl⟩ := copyOut_some hcopy
  dsimp only at hloop
  rw [if_neg hchunk] at hloop
  obtain ⟨buf₁, hreceive, hloop⟩ := Option.bind_eq_some_iff.mp hloop
  have htake : buf₁.take chunk.length = chunk := by
    obtain ⟨k, hk, -, -, rfl⟩ := memcpy_some hreceive
    obtain rfl := Int.ofNat.inj hk
    rw [List.take_length]
    exact take_drop_put (Nat.zero_le buf.length)
  rw [htake] at hloop
  split at hloop
  · next hnone => exact Or.inl ⟨hnone, buf₁, dest₁, hlength, hloop⟩
  · next e hsome =>
    split at hloop
    · cases hloop
    · next hint =>
      obtain ⟨⟨dest₂, offset₂, size₂⟩, hcopy₂, hloop⟩ := Option.bind_eq_some_iff.mp hloop
      obtain ⟨-, -, hlength₂, rfl, -⟩ := copyOut_some hcopy₂
      obtain ⟨dest₃, hnul, hloop⟩ := Option.bind_eq_some_iff.mp hloop
      obtain ⟨_, -, rfl⟩ := Option.map_eq_some_iff.mp hloop
      obtain ⟨k, hk, -, hdest, -⟩ := memcpy_some hnul
      dsimp only at hdest
      rw [Int.toNat_natCast] at hdest
      exact Or.inr ⟨e, hsome, Nat.not_le.mp hint, by omega, rfl⟩

end

/-- What was left over is part of what a call returns, newline or not. -/
theorem connReadLoop_ret {rsize : Nat} {chunks : List Bytes} :
    ∀ {buf dest : Bytes} {received retsize offset : Nat} {size : Int} {r : ReadResult},
    connReadLoop rsize chunks buf received retsize dest offset size = some r →
    r.ret < 0 ∨ (retsize + received : Nat) ≤ r.ret := by
  induction chunks with
  | nil =>
    intro buf dest received retsize offset size r hloop
    exact Or.inl (connReadLoop_over (Or.inl rfl) hloop ▸ by decide)
  | cons chunk chunks ih =>
    intro buf dest received retsize offset size r hloop
    rcases eq_or_ne chunk [] with hchunk | hchunk
    · exact Or.inl (connReadLoop_over (Or.inr ⟨chunks, by rw [hchunk]⟩) hloop ▸ by decide)
    · rcases connReadLoop_cons hchunk hloop with ⟨-, buf', dest', -, hloop⟩ | ⟨e, -, -, -, hret⟩
      · refine (ih hloop).imp_right fun hle => ?_
        omega
      · rw [hret]
        exact Or.inr (Int.ofNat_le.mpr (Nat.le_add_right _ e))

/-- **What a call needs**: an `int` for the length of the line, and room for what fits of
it and for the `NUL`. -/
theorem connReadLoop_fits {rsize : Nat} {chunks : List Bytes} :
    ∀ {buf dest : Bytes} {received retsize offset : Nat} {size : Int} {r : ReadResult},
    Chunks chunks →
    connReadLoop rsize chunks buf received retsize dest offset size = some r →
    (firstLine newline chunks = none → retsize + received + chunks.flatten.length < 2 ^ 31 ∧
      offset + min size.toNat (received + chunks.flatten.length) ≤ dest.length) ∧
    ∀ x y rest, firstLine newline chunks = some (x, y, rest) →
      retsize + received + x.length < 2 ^ 31 ∧
      offset + min size.toNat (received + x.length) + 1 ≤ dest.length := by
  induction chunks with
  | nil =>
    intro buf dest received retsize offset size r _ hloop
    obtain ⟨hint, -, hdest⟩ := connReadLoop_room hloop
    exact ⟨fun _ => ⟨hint, hdest⟩, fun x y rest hfirst => by cases hfirst⟩
  | cons chunk chunks ih =>
    intro buf dest received retsize offset size r hchunks hloop
    obtain ⟨hchunk, -⟩ := hchunks chunk List.mem_cons_self
    rw [firstLine]
    rcases connReadLoop_cons hchunk hloop with
      ⟨hnone, buf', dest', hlength, hloop⟩ | ⟨e, hsome, hint, hdest, -⟩
    · -- what is left of the line is received later
      obtain ⟨hclosed, hline⟩ := ih (fun c hc => hchunks c (List.mem_cons_of_mem _ hc)) hloop
      rw [hlength, Int.toNat_natCast] at hclosed hline
      simp only [hnone, Option.map_eq_none_iff, List.flatten_cons, List.length_append]
      refine ⟨fun hfirst => ?_, fun x y rest hfirst => ?_⟩
      · have hrest := hclosed hfirst
        omega
      · obtain ⟨⟨x', y', rest'⟩, hfirst', heq⟩ := Option.map_eq_some_iff.mp hfirst
        cases heq
        have hrest := hline x' y' rest' hfirst'
        dsimp only
        rw [List.length_append]
        omega
    · obtain ⟨he, -, -⟩ := eq_of_idxOf? hsome
      simp only [hsome]
      refine ⟨fun hfirst => (by cases hfirst), fun x y rest hfirst => ?_⟩
      cases hfirst
      rw [List.length_take_of_le (Nat.le_of_lt he)]
      exact ⟨hint, hdest⟩

/-- The size of a call that returns is positive. -/
theorem connReadAt_fits {c : Conn} {text dest : Bytes} {chunks : List Bytes} {offset : Nat}
    {size : Int} {r : ReadResult} (hc : c.Leaves text) (hchunks : Chunks chunks)
    (hread : connReadAt c dest offset size chunks = some r) :
    ∃ k : Nat, size = (k + 1 : Nat) ∧
      (firstLine newline chunks = none → text.length + chunks.flatten.length < 2 ^ 31 ∧
        offset + min k (text.length + chunks.flatten.length) ≤ dest.length) ∧
      ∀ x y rest, firstLine newline chunks = some (x, y, rest) →
        text.length + x.length < 2 ^ 31 ∧
        offset + min k (text.length + x.length) + 1 ≤ dest.length := by
  obtain ⟨-, hsize, -⟩ := connReadLoop_room hread
  obtain ⟨k, hk⟩ := Int.eq_ofNat_of_zero_le hsize
  have hfits := connReadLoop_fits hchunks hread
  rw [hk, Int.toNat_natCast, hc.rsize_eq, Nat.zero_add] at hfits
  exact ⟨k, by omega, hfits⟩

/-- No call returns fewer bytes than it has found left over. -/
theorem connRead_ret {c : Conn} {dest : Bytes} {size : Int} {chunks : List Bytes} {r : ReadResult}
    (h : connRead c dest size chunks = some r) : r.ret < 0 ∨ c.rsize ≤ r.ret := by
  have hret := connReadLoop_ret h
  rwa [Nat.zero_add] at hret

/-! ## Lines that do not fit -/

/-- **What a call writes** into `dest`: as many bytes of the line as leave room for the
`NUL`, the `NUL`, and nothing else. -/
theorem put_terminated {dest line : Bytes} {n : Nat} (hdest : min line.length n < dest.length) :
    (put dest 0 (line.take n ++ [0])).length = dest.length ∧
      (put dest 0 (line.take n ++ [0])).take (min line.length n) = line.take n ∧
      (put dest 0 (line.take n ++ [0]))[min line.length n]? = some 0 ∧
      (put dest 0 (line.take n ++ [0])).drop (min line.length n + 1) =
        dest.drop (min line.length n + 1) := by
  have htaken : (line.take n).length = min line.length n := by
    rw [List.length_take, Nat.min_comm]
  have hlength : (line.take n ++ [0]).length = min line.length n + 1 := by
    rw [List.length_append, htaken, List.length_singleton]
  have hput : put dest 0 (line.take n ++ [0]) =
      line.take n ++ 0 :: dest.drop (min line.length n + 1) := by
    rw [put, List.take_zero, List.nil_append, hlength, Nat.zero_add, List.append_assoc,
      List.singleton_append]
  refine ⟨length_put (by rw [hlength]; omega), ?_, ?_, ?_⟩
  · rw [hput, ← htaken, List.take_left]
  · rw [hput, ← htaken, List.getElem?_append_right (Nat.le_refl _), Nat.sub_self]
    rfl
  · have hdrop := @drop_put dest (line.take n ++ [0]) 0 (Nat.zero_le dest.length)
    rwa [hlength, Nat.zero_add] at hdrop

/-- **`conn_read` truncates but measures.** On a connection with nothing left over, a call
with `size` bytes of room that receives chunks up to the one with the first newline
returns the length of the whole line. In `dest` it leaves as much of the line as fits in
front of a `NUL` and changes no other byte, and in `buf` what follows the newline in its
chunk. -/
theorem connRead_truncates {c : Conn} (hc : c.Leaves []) {before behind : List Bytes}
    {last y dest : Bytes} (hchunks : Chunks (before ++ (last ++ newline :: y) :: behind))
    (hbefore : newline ∉ before.flatten) (hlast : newline ∉ last)
    (hint : (before.flatten ++ last).length < 2 ^ 31) {size : Nat} (hsize : 1 ≤ size)
    (hdest : min (before.flatten ++ last).length (size - 1) < dest.length) :
    ∃ r, connRead c dest size (before ++ (last ++ newline :: y) :: behind) = some r ∧
      r.ret = (before.flatten ++ last).length ∧
      r.dest.length = dest.length ∧
      r.dest.take (min (before.flatten ++ last).length (size - 1)) =
        (before.flatten ++ last).take (size - 1) ∧
      r.dest[min (before.flatten ++ last).length (size - 1)]? = some 0 ∧
      r.dest.drop (min (before.flatten ++ last).length (size - 1) + 1) =
        dest.drop (min (before.flatten ++ last).length (size - 1) + 1) ∧
      r.conn.Leaves y ∧ y.length < readMax ∧ r.rest = behind := by
  have hfirst := firstLine_append hlast y behind hbefore
  obtain ⟨hwritten, hfront, hzero, hbehind⟩ := put_terminated hdest
  generalize before.flatten ++ last = line at *
  obtain ⟨k, rfl⟩ : ∃ k, size = k + 1 := ⟨size - 1, by omega⟩
  rw [Nat.add_sub_cancel] at hdest hwritten hfront hzero hbehind
  obtain ⟨c', hread, hleaves⟩ :=
    @connReadAt_line c [] line y dest behind _ hc hchunks hfirst 0 k
      (by rw [List.length_nil]; omega) (by rw [List.length_nil]; omega)
  rw [List.length_nil, Nat.zero_add, List.nil_append] at hread
  refine ⟨_, hread, rfl, hwritten, hfront, hzero, hbehind, hleaves, ?_, rfl⟩
  -- the chunk of the newline holds at most `READ_MAX` bytes
  have hlen := (hchunks (last ++ newline :: y) (by simp)).2
  rw [List.length_append, List.length_cons] at hlen
  omega

/-- A line of five bytes in two chunks, into four bytes of room. -/
theorem connRead_truncates_sample :
    ∃ r, connRead ⟨0, List.replicate 80 0⟩ [9, 9, 9, 9, 9] 4
        [[97, 98], [99, 100, 101, 10, 102]] = some r ∧
      r.ret = 5 ∧ r.dest.take 3 = [97, 98, 99] ∧ r.conn.Leaves [102] := by
  obtain ⟨r, hread, hret, -, hfront, -, -, hleaves, -⟩ :=
    @connRead_truncates ⟨0, List.replicate 80 0⟩ ⟨by decide, rfl, rfl⟩ [[97, 98]] [] [99, 100, 101]
      [102] [9, 9, 9, 9, 9] (by decide) (by decide) (by decide) (by decide) 4 (by decide)
      (by decide)
  exact ⟨r, hread, hret, hfront, hleaves⟩

end Cop4600
