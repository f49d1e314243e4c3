import Cop4600.Connection

/-!
# Lines and packets

Successive calls of `conn_read` on one connection. They return the lines of what the
client sends if no chunk holds more than one newline, and only then
(`connReads_eq_lines_iff`): a second newline in a chunk stays in `buf`, where the next
call does not look for it.
-/

namespace Cop4600

open Delimited

/-- What `calls` successive calls return, with the string each leaves in `dest`. A
negative return ends the connection. -/
def connReads (size : Int) : (calls : Nat) → Conn → (dest : Bytes) → (chunks : List Bytes) →
    Option (List (Int × Bytes))
  | 0, _, _, _ => some []
  | calls + 1, c, dest, chunks =>
    (connRead c dest size chunks).bind fun r =>
      if r.ret < 0 then some []
      else (connReads size calls r.conn r.dest r.rest).map ((r.ret, cstr r.dest) :: ·)

/-- A line as a call should return it. -/
def asRead (line : Bytes) : Int × Bytes := (line.length, line)

/-- What the calls should return of a stream. -/
def readable (stream : Bytes) : List (Int × Bytes) := (lines newline stream).map asRead

/-- The lines of a stream are at most 79 bytes long and contain no `NUL`; what follows
the last newline can be counted in an `int`. -/
structure ShortLines (text stream : Bytes) : Prop where
  line : ∀ line ∈ linesFrom newline text stream, line.length ≤ 79 ∧ 0 ∉ line
  unfinished : (unfinishedFrom newline text stream).length < 2 ^ 31

/-- No chunk holds more than one newline. -/
def OneLineEach (chunks : List Bytes) : Prop := ∀ chunk ∈ chunks, chunk.count newline ≤ 1

instance (chunks : List Bytes) : Decidable (OneLineEach chunks) :=
  inferInstanceAs (Decidable (∀ chunk ∈ chunks, chunk.count newline ≤ 1))

/-! ## One call of several -/

/-- Where the first line ends, in the stream and in the chunks. -/
theorem flatten_of_firstLine {chunks rest : List Bytes} {x y : Bytes}
    (h : firstLine newline chunks = some (x, y, rest)) :
    newline ∉ x ∧ chunks.flatten = x ++ newline :: (y ++ rest.flatten) := by
  obtain ⟨hx, before, last, -, -, rfl, rfl⟩ := firstLine_spec h
  refine ⟨hx, ?_⟩
  rw [List.flatten_append, List.flatten_cons, List.append_assoc, List.append_assoc,
    List.cons_append]

theorem oneLineEach_of_firstLine {chunks rest : List Bytes} {x y : Bytes}
    (h : firstLine newline chunks = some (x, y, rest)) :
    rest.length < chunks.length ∧
      (OneLineEach chunks ↔ newline ∉ y ∧ OneLineEach rest) := by
  obtain ⟨-, before, last, hbefore, hlast, rfl, -⟩ := firstLine_spec h
  refine ⟨by rw [List.length_append, List.length_cons]; omega, ?_⟩
  have hfront : ∀ chunk ∈ before, chunk.count newline ≤ 1 := fun chunk hchunk => by
    rw [List.count_eq_zero_of_not_mem fun hmem => hbefore (List.mem_flatten_of_mem hchunk hmem)]
    exact Nat.zero_le 1
  have hcount : (last ++ newline :: y).count newline = y.count newline + 1 := by
    rw [List.count_append, List.count_cons_self, List.count_eq_zero_of_not_mem hlast, Nat.zero_add]
  rw [OneLineEach, List.forall_mem_append, List.forall_mem_cons, and_iff_right hfront, hcount,
    ← List.count_eq_zero, ← OneLineEach]
  exact and_congr_left fun _ => by omega

theorem Chunks.behind {chunks rest : List Bytes} {x y : Bytes} (h : Chunks chunks)
    (hfirst : firstLine newline chunks = some (x, y, rest)) : Chunks rest := by
  obtain ⟨-, before, last, -, -, rfl, -⟩ := firstLine_spec hfirst
  exact fun chunk hchunk => h chunk (List.mem_append_right _ (List.mem_cons_of_mem _ hchunk))

/-- The lines behind the first one, when no other ends in its last chunk. -/
theorem linesFrom_behind {chunks rest : List Bytes} {x y : Bytes}
    (hfirst : firstLine newline chunks = some (x, y, rest)) (hy : newline ∉ y) (text : Bytes) :
    linesFrom newline text chunks.flatten = (text ++ x) :: linesFrom newline y rest.flatten := by
  obtain ⟨hx, hflatten⟩ := flatten_of_firstLine hfirst
  rw [hflatten, linesFrom_line hx, linesFrom_append _ _ hy, List.nil_append]

theorem ShortLines.behind {chunks rest : List Bytes} {text x y : Bytes}
    (h : ShortLines text chunks.flatten) (hfirst : firstLine newline chunks = some (x, y, rest))
    (hy : newline ∉ y) : ShortLines y rest.flatten := by
  obtain ⟨hx, hflatten⟩ := flatten_of_firstLine hfirst
  refine ⟨?_, ?_⟩
  · intro line hline
    exact h.line line (linesFrom_behind hfirst hy text ▸ List.mem_cons_of_mem _ hline)
  · have hint := h.unfinished
    rwa [hflatten, unfinishedFrom_line hx, unfinishedFrom_append _ _ hy, List.nil_append] at hint

/-- A line that fits is returned as it is. -/
theorem connRead_short {c : Conn} {text x y dest : Bytes} {rest chunks : List Bytes}
    (hc : c.Leaves text) (hchunks : Chunks chunks)
    (hfirst : firstLine newline chunks = some (x, y, rest)) (hdest : dest.length = 80)
    (hlen : (text ++ x).length ≤ 79) (hzero : 0 ∉ text ++ x) :
    ∃ r, connRead c dest 80 chunks = some r ∧ ¬ r.ret < 0 ∧
      (r.ret, cstr r.dest) = asRead (text ++ x) ∧ r.conn.Leaves y ∧ r.dest.length = 80 ∧
      r.rest = rest := by
  have hlength : (text ++ x).length = text.length + x.length := List.length_append
  obtain ⟨c', hread, hc'⟩ :=
    @connRead_line c text x y dest rest chunks 79 hc hchunks hfirst (by omega) (by omega)
  refine ⟨_, hread, Int.not_lt.mpr (Int.natCast_nonneg _), ?_, hc', ?_, rfl⟩
  · rw [List.take_of_length_le hlen, cstr_put (by simp), cstr_terminated hzero, asRead, hlength]
  · rw [length_put, hdest]
    rw [List.length_append, List.length_singleton, List.length_take]
    omega

/-! ## All calls -/

/-- With at most one newline in every chunk, the calls return the lines. -/
theorem connReads_of_oneLineEach (calls : Nat) : ∀ {c : Conn} {text dest : Bytes}
    {chunks : List Bytes}, c.Leaves text → dest.length = 80 → Chunks chunks →
    ShortLines text chunks.flatten → OneLineEach chunks →
    connReads 80 calls c dest chunks =
      some (((linesFrom newline text chunks.flatten).map asRead).take calls) := by
  induction calls with
  | zero =>
    intro c text dest chunks _ _ _ _ _
    rw [connReads, List.take_zero]
  | succ calls ih =>
    intro c text dest chunks hc hdest hchunks hshort hone
    rcases hfirst : firstLine newline chunks with _ | ⟨x, y, rest⟩
    · -- no newline any more: the call fails, and there is no line left
      have hnone := firstLine_eq_none_iff.mp hfirst
      have hint := hshort.unfinished
      rw [unfinishedFrom_of_notMem hnone, List.length_append] at hint
      obtain ⟨r, hread, hret⟩ :=
        @connRead_closed c text dest chunks 79 hc hchunks hfirst (by omega) hint
      rw [connReads, show connRead c dest 80 chunks = some r from hread, Option.bind_some,
        if_pos (by rw [hret]; decide), linesFrom_of_notMem hnone]
      rfl
    · -- the line ends in its chunk, and `buf` keeps the start of the next one
      obtain ⟨-, hone'⟩ := oneLineEach_of_firstLine hfirst
      obtain ⟨hy, hrest⟩ := hone'.mp hone
      have hlines := linesFrom_behind hfirst hy text
      obtain ⟨hlen, hzero⟩ := hshort.line (text ++ x) (hlines ▸ List.mem_cons_self)
      obtain ⟨r, hread, hret, hline, hc', hdest', rfl⟩ :=
        connRead_short hc hchunks hfirst hdest hlen hzero
      rw [connReads, hread, Option.bind_some, if_neg hret,
        ih hc' hdest' (hchunks.behind hfirst) (hshort.behind hfirst hy) hrest, hline, hlines]
      rfl

/-- A newline that is left in `buf` does not end the next line. -/
theorem newline_notMem_of_connReads {c : Conn} {y dest : Bytes} {rest : List Bytes}
    (hc : c.Leaves y) {stream : Bytes}
    (hreads : connReads 80 1 c dest rest =
      some (((linesFrom newline [] (y ++ stream)).map asRead).take 1)) : newline ∉ y := by
  intro hmem
  obtain ⟨e, he⟩ := Option.isSome_iff_exists.mp (List.isSome_idxOf?.mpr hmem)
  obtain ⟨hlt, hsplit, hnot⟩ := eq_of_idxOf? he
  have hlines : linesFrom newline [] (y ++ stream) =
      y.take e :: linesFrom newline [] (y.drop (e + 1) ++ stream) := by
    conv_lhs => rw [hsplit]
    rw [List.append_assoc, List.cons_append, linesFrom_line hnot, List.nil_append]
  rw [hlines, connReads] at hreads
  obtain ⟨r, hread, hcase⟩ := Option.bind_eq_some_iff.mp hreads
  split at hcase
  · cases hcase
  · next hret =>
    -- the call returns at least what was left over, newline and all
    have hle := (connRead_ret hread).resolve_left hret
    have hfirst : (r.ret, cstr r.dest) = asRead (y.take e) :=
      (List.cons.inj (Option.some.inj hcase)).1
    have hlength : r.ret = ((y.take e).length : Int) := congrArg Prod.fst hfirst
    rw [hlength, hc.rsize_eq, List.length_take] at hle
    omega

/-- Where the calls return the lines, every chunk has at most one newline. -/
theorem oneLineEach_of_connReads (length : Nat) : ∀ {c : Conn} {text dest : Bytes}
    {chunks : List Bytes}, chunks.length ≤ length → c.Leaves text → dest.length = 80 →
    Chunks chunks → ShortLines text chunks.flatten →
    (∀ calls, connReads 80 calls c dest chunks =
      some (((linesFrom newline text chunks.flatten).map asRead).take calls)) →
    OneLineEach chunks := by
  induction length with
  | zero =>
    intro c text dest chunks hlength _ _ _ _ _ chunk hchunk
    rw [List.length_eq_zero_iff.mp (Nat.le_zero.mp hlength)] at hchunk
    cases hchunk
  | succ length ih =>
    intro c text dest chunks hlength hc hdest hchunks hshort hreads
    rcases hfirst : firstLine newline chunks with _ | ⟨x, y, rest⟩
    · have hnone := firstLine_eq_none_iff.mp hfirst
      intro chunk hchunk
      rw [List.count_eq_zero_of_not_mem fun hmem => hnone (List.mem_flatten_of_mem hchunk hmem)]
      exact Nat.zero_le 1
    · obtain ⟨hx, hflatten⟩ := flatten_of_firstLine hfirst
      obtain ⟨hshorter, hone⟩ := oneLineEach_of_firstLine hfirst
      have hlines : linesFrom newline text chunks.flatten =
          (text ++ x) :: linesFrom newline [] (y ++ rest.flatten) := by
        rw [hflatten, linesFrom_line hx]
      obtain ⟨hlen, hzero⟩ := hshort.line (text ++ x) (hlines ▸ List.mem_cons_self)
      obtain ⟨r, hread, hret, hline, hc', hdest', rfl⟩ :=
        connRead_short hc hchunks hfirst hdest hlen hzero
      -- the calls behind the first one return the lines behind the first one
      have hreads' : ∀ calls, connReads 80 calls r.conn r.dest r.rest =
          some (((linesFrom newline [] (y ++ r.rest.flatten)).map asRead).take calls) := by
        intro calls
        have hcalls := hreads (calls + 1)
        rw [connReads, hread, Option.bind_some, if_neg hret, hlines, hline] at hcalls
        obtain ⟨later, hlater, heq⟩ := Option.map_eq_some_iff.mp hcalls
        rw [hlater, (List.cons.inj heq).2]
      have hy := newline_notMem_of_connReads hc' (hreads' 1)
      rw [linesFrom_append _ _ hy, List.nil_append] at hreads'
      exact hone.mpr ⟨hy, ih (by omega) hc' hdest' (hchunks.behind hfirst) (hshort.behind hfirst hy)
        hreads'⟩

/-- **Framing and packets.** On a new connection the successive calls return the lines
of the stream, each with its length, exactly if every chunk of it holds at most one
newline. -/
theorem connReads_eq_lines_iff {c : Conn} (hbuf : c.buf.length = readMax) (hrsize : c.rsize = 0)
    {dest : Bytes} (hdest : dest.length = 80) {chunks : List Bytes} (hchunks : Chunks chunks)
    (hshort : ShortLines [] chunks.flatten) :
    (∀ calls, connReads 80 calls c dest chunks =
      some ((readable chunks.flatten).take calls)) ↔ OneLineEach chunks := by
  have hc : c.Leaves [] := ⟨hbuf, hrsize, rfl⟩
  refine ⟨?_, ?_⟩
  · exact oneLineEach_of_connReads chunks.length (Nat.le_refl _) hc hdest hchunks hshort
  · intro hone calls
    exact connReads_of_oneLineEach calls hc hdest hchunks hshort hone

/-- A connection that was just accepted. -/
def newConn : Conn := { rsize := 0, buf := List.replicate 80 0 }

/-- An array for the commands. -/
def commandArray : Bytes := List.replicate 80 0

/-- Two lines and a part of a third, in chunks that end a line each, and one that ends none. -/
theorem connReads_eq_lines_sample :
    OneLineEach [[97, 10, 98], [99, 10], [100]] ∧
      ∀ calls, connReads 80 calls newConn commandArray [[97, 10, 98], [99, 10], [100]] =
        some ([(1, [97]), (2, [98, 99])].take calls) :=
  have hone : OneLineEach [[97, 10, 98], [99, 10], [100]] := by decide
  ⟨hone, (@connReads_eq_lines_iff newConn rfl rfl commandArray (by decide) _ (by decide)
    ⟨by decide, by decide⟩).mpr hone⟩

/-- The stream `a`, `b`, `c` with its first two lines in one chunk. -/
def burst : List Bytes := [[97, 10, 98, 10], [99, 10]]

/-- **A second line in a chunk is not found.** The second call takes what is left of
the first chunk, newline and all, for the beginning of the third line; one chunk a
line, the same stream is read as it should be. -/
theorem second_line_is_lost :
    Chunks burst ∧ ShortLines [] burst.flatten ∧
      burst.flatten = [[97, 10], [98, 10], [99, 10]].flatten ∧
      connReads 80 3 newConn commandArray burst = some [(1, [97]), (3, [98, 10, 99])] ∧
      connReads 80 3 newConn commandArray [[97, 10], [98, 10], [99, 10]] =
        some (readable burst.flatten) ∧
      ¬ ∀ calls, connReads 80 calls newConn commandArray burst =
        some ((readable burst.flatten).take calls) := by
  have hburst : connReads 80 3 newConn commandArray burst =
      some [(1, [97]), (3, [98, 10, 99])] := by
    decide +kernel
  refine ⟨by decide, ⟨by decide, by decide⟩, by decide, hburst, by decide +kernel, fun hall => ?_⟩
  have h := (hall 3).symm.trans hburst
  revert h
  decide +kernel

end Cop4600
