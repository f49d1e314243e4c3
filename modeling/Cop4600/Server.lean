import Cop4600.Framing
import Cop4600.Wall

/-!
# The wall server

The command loop of `wallserver.c`, from label to label. The clients connect one
after the other; each is the list of the chunks that `recv` will return on its
connection. What `conn_write` sends is left out.

`command` is the memory from the array on, so that a write behind its 80 bytes can be
told from one further off. As everywhere, `none` is a step that leaves an array, or an
`int` that overflows.
-/

namespace Cop4600

open Delimited

/-- The labels of `main`. -/
inductive Label : Type where
  | accept
  | wall
  | command
  | close
  | terminate
  deriving DecidableEq

/-- What `main` keeps from one label to the next, with the clients that are still to come. -/
structure Server : Type where
  wall : Wall
  conn : Conn
  command : Bytes
  /-- what the client will send on this connection -/
  chunks : List Bytes
  /-- what the clients behind it will send -/
  clients : List (List Bytes)
  /-- the label that is reached -/
  label : Label

/-- `queue_size` slots for messages, and whatever bytes `command` holds. -/
def Server.start (queueSize : Nat) (command : Bytes) (clients : List (List Bytes)) : Server where
  wall := Wall.new queueSize
  conn := newConn
  command := command
  chunks := []
  clients := clients
  label := .accept

/-- A `goto` to a label. -/
def Server.goto (s : Server) (label : Label) : Server := { s with label }

/-- `conn_read(&c, command + offset, size)`. -/
def Server.read (s : Server) (offset : Nat) (size : Int) : Option (Int × Server) :=
  (connReadAt s.conn s.command offset size s.chunks).map fun r =>
    (r.ret, { s with conn := r.conn, command := r.dest, chunks := r.rest })

/-- The post command behind the message: it is refused or put on the wall. -/
def Server.placeMessage (s : Server) (namelen : Nat) (maxlen messlen : Int) : Option Server :=
  if messlen < 0 then some (s.goto .close)
  else if maxlen < messlen then some (s.goto .command)
  else
    (s.wall.post (s.command.take 80) (namelen + messlen + 3)).map fun wall =>
      { s with wall, label := .wall }

/-- The post command when the name stands in `command`: from `int namelen` on. -/
def Server.postMessage (s : Server) : Option Server :=
  let namelen := (cstr s.command).length
  let maxlen : Int := 78 - namelen
  (memcpy s.command namelen (chars [':']) 1).bind fun command =>
    (memcpy command (namelen + 1) (chars [' ']) 1).bind fun command =>
      ({ s with command }.read (namelen + 2) (maxlen + 1)).bind fun (messlen, s) =>
        s.placeMessage namelen maxlen messlen

/-- The command `post`, from the question for a name on. -/
def Server.post (s : Server) : Option Server :=
  (s.read 0 80).bind fun (ret, s) => if ret < 0 then some (s.goto .close) else s.postMessage

/-- From the label `command` on. -/
def Server.turn (s : Server) : Option Server :=
  (s.read 0 80).bind fun (ret, s) =>
    if ret < 0 then some (s.goto .close)
    else if cstr s.command = chars ['c', 'l', 'e', 'a', 'r'] then
      some { s with wall := s.wall.clear, label := .wall }
    else if cstr s.command = chars ['p', 'o', 's', 't'] then s.post
    else if cstr s.command = chars ['k', 'i', 'l', 'l'] then some (s.goto .terminate)
    else if cstr s.command = chars ['q', 'u', 'i', 't'] then some (s.goto .close)
    else some (s.goto .command)

/-- From one label to the next. Behind the last client `accept` fails. -/
def Server.step (s : Server) (_ : Unit) : Option Server :=
  match s.label with
  | .accept =>
    match s.clients with
    | [] => some (s.goto .terminate)
    | chunks :: clients => some { s with conn := newConn, chunks, clients, label := .wall }
  | .wall => some (s.goto .command)
  | .command => s.turn
  | .close => some (s.goto .accept)
  | .terminate => some s

/-! ## The next line -/

/-- The labels at which a client is connected and its connection open. -/
def Label.Connected (label : Label) : Prop := label = .wall ∨ label = .command

instance (label : Label) : Decidable label.Connected :=
  inferInstanceAs (Decidable (label = .wall ∨ label = .command))

/-- What an earlier call has left in `buf`. -/
def Conn.pending (c : Conn) : Bytes := c.buf.take c.rsize

/-- What a connection has left over is what it begins the next line with. -/
theorem Conn.Leaves.pending_eq {c : Conn} {text : Bytes} (h : c.Leaves text) :
    c.pending = text := by
  rw [Conn.pending, h.rsize_eq, h.buf_take]

/-- What `conn_read` takes for a line: what was left over, and what is received up to the
first newline. With what it leaves over itself, and what has not been received. -/
def nextLine (text : Bytes) (chunks : List Bytes) : Option (Bytes × Bytes × List Bytes) :=
  (firstLine newline chunks).map fun (x, y, rest) => (text ++ x, y, rest)

/-- The line that the next call of `conn_read` gets, what is left over behind it, and the
chunks that are still to come. -/
def Server.line (s : Server) : Option (Bytes × Bytes × List Bytes) :=
  nextLine s.conn.pending s.chunks

/-- The string that `conn_read` makes of a line in an array of 80 bytes. -/
def heard (line : Bytes) : Bytes := cstr (line.take 79)

/-- An open connection on which `recv` will return these chunks. -/
structure Conn.Receives (c : Conn) (chunks : List Bytes) : Prop where
  leaves : c.Leaves c.pending
  chunks : Chunks chunks

/-- The connection can receive what its client sends. -/
def Server.Open (s : Server) : Prop := s.conn.Receives s.chunks

variable {s t : Server} {line left : Bytes} {rest : List Bytes} {offset : Nat} {size ret : Int}

/-- A line begins with what is left over and ends in the chunks. -/
theorem Server.exists_firstLine (hline : s.line = some (line, left, rest)) :
    ∃ x, firstLine newline s.chunks = some (x, left, rest) ∧ s.conn.pending ++ x = line := by
  obtain ⟨⟨x, y, rest'⟩, hfirst, heq⟩ := Option.map_eq_some_iff.mp hline
  cases heq
  exact ⟨x, hfirst, rfl⟩

/-- **A call that finds a line**, where there is room for what fits of it. -/
theorem Server.Open.read_line (hs : s.Open) (hline : s.line = some (line, left, rest)) {k : Nat}
    (hint : line.length < 2 ^ 31) (hroom : offset + min k line.length + 1 ≤ s.command.length) :
    ∃ c, c.Leaves left ∧ s.read offset (k + 1 : Nat) = some ((line.length : Int),
      { s with conn := c
               command := put s.command offset (line.take k ++ [0])
               chunks := rest }) := by
  obtain ⟨x, hfirst, rfl⟩ := Server.exists_firstLine hline
  rw [List.length_append] at hint hroom
  obtain ⟨c, hread, hc⟩ := connReadAt_line hs.leaves hs.chunks hfirst hroom hint
  refine ⟨c, hc, ?_⟩
  rw [Server.read, hread, Option.map_some, List.length_append]

/-- A call on a connection that is closed before the line ends. -/
theorem Server.Open.read_closed (hs : s.Open) (hline : s.line = none) {k : Nat}
    (hint : (s.conn.pending ++ s.chunks.flatten).length < 2 ^ 31)
    (hroom : offset + min k (s.conn.pending ++ s.chunks.flatten).length ≤ s.command.length) :
    ∃ c command chunks, command.length = s.command.length ∧
      s.read offset (k + 1 : Nat) = some (-1, { s with conn := c, command, chunks }) := by
  rw [List.length_append] at hint hroom
  obtain ⟨r, hread, hret, hlength⟩ :=
    connReadAt_closed hs.leaves hs.chunks (Option.map_eq_none_iff.mp hline) hroom hint
  exact ⟨r.conn, r.dest, r.rest, hlength, by rw [Server.read, hread, Option.map_some, hret]⟩

/-- What a call that returns has needed. -/
theorem Server.Open.read_needs (hs : s.Open) (hread : s.read offset size = some (ret, t)) :
    ∃ k : Nat, size = (k + 1 : Nat) ∧
      (s.line = none → (s.conn.pending ++ s.chunks.flatten).length < 2 ^ 31 ∧
        offset + min k (s.conn.pending ++ s.chunks.flatten).length ≤ s.command.length) ∧
      ∀ line left rest, s.line = some (line, left, rest) → line.length < 2 ^ 31 ∧
        offset + min k line.length + 1 ≤ s.command.length := by
  obtain ⟨r, hr, -⟩ := Option.map_eq_some_iff.mp hread
  obtain ⟨k, hk, hclosed, hfound⟩ := connReadAt_fits hs.leaves hs.chunks hr
  refine ⟨k, hk, fun hline => ?_, fun line left rest hline => ?_⟩
  · rw [List.length_append]
    exact hclosed (Option.map_eq_none_iff.mp hline)
  · obtain ⟨x, hfirst, rfl⟩ := Server.exists_firstLine hline
    rw [List.length_append]
    exact hfound x left rest hfirst

/-- Behind a line the connection is as open as it was. -/
theorem Server.Open.behind (hs : s.Open) (hline : s.line = some (line, left, rest)) {c : Conn}
    (hc : c.Leaves left) : c.Receives rest := by
  obtain ⟨x, hfirst, -⟩ := Server.exists_firstLine hline
  refine ⟨?_, hs.chunks.behind hfirst⟩
  rw [hc.pending_eq]
  exact hc

/-- The server behind a line that was read to the start of `command`. -/
structure Server.Hears (s u : Server) (line left : Bytes) (rest : List Bytes) : Prop where
  /-- the connection stays open -/
  opened : u.Open
  /-- it leaves over what is behind the line -/
  pending_eq : u.conn.pending = left
  /-- and these chunks are still to come -/
  chunks_eq : u.chunks = rest
  /-- the wall is the same -/
  wall_eq : u.wall = s.wall
  /-- the array is as long as it was -/
  length_eq : u.command.length = s.command.length
  /-- and holds the line -/
  command_eq : cstr u.command = heard line

/-- After a line has been heard, the next one begins with what is left over. -/
theorem Server.Hears.line_eq {u : Server} (h : s.Hears u line left rest) :
    u.line = nextLine left rest := by
  rw [Server.line, h.pending_eq, h.chunks_eq]

/-- `conn_read(&c, command, sizeof(command))`. -/
theorem Server.Open.read_command (hs : s.Open) (hline : s.line = some (line, left, rest))
    (hcommand : 80 ≤ s.command.length) (hint : line.length < 2 ^ 31) :
    ∃ u, s.Hears u line left rest ∧ s.read 0 80 = some ((line.length : Int), u) := by
  obtain ⟨c, hc, hread⟩ := @Server.Open.read_line s line left rest 0 hs hline 79 hint (by omega)
  refine ⟨{ s with conn := c
                   command := put s.command 0 (line.take 79 ++ [0])
                   chunks := rest }, ?_, hread⟩
  refine ⟨hs.behind hline hc, hc.pending_eq, rfl, rfl, ?_, ?_⟩
  · rw [length_put]
    rw [List.length_append, List.length_take, List.length_singleton]
    omega
  · rw [cstr_put (by simp), cstr_concat_zero, heard]

/-! ## What every step keeps -/

/-- A state of the server, with `cap` bytes of memory from `command` on. -/
structure Server.Sound (cap : Nat) (s : Server) : Prop where
  /-- the array for the command is as long as it was -/
  command_length : s.command.length = cap
  /-- the queue has its slots -/
  wall : s.wall.Roomy
  /-- what the clients to come send can be received -/
  clients : ∀ chunks ∈ s.clients, Chunks chunks
  /-- whoever is connected can be received -/
  opened : s.label.Connected → s.Open

variable {cap : Nat}

/-- Nothing changes with the label. -/
theorem Server.Sound.goto (hs : s.Sound cap) (hopen : s.Open) (label : Label) :
    (s.goto label).Sound cap :=
  ⟨hs.command_length, hs.wall, hs.clients, fun _ => hopen⟩

/-- A call keeps everything but the connection, which stays open when a line is found. -/
theorem Server.Sound.read (hs : s.Sound cap) (hopen : s.Open)
    (hread : s.read offset size = some (ret, t)) :
    (0 ≤ ret → t.Open ∧ t.Sound cap) ∧ (t.goto .close).Sound cap := by
  obtain ⟨k, rfl, hclosed, hfound⟩ := hopen.read_needs hread
  rcases hline : s.line with _ | ⟨line, left, rest⟩
  · obtain ⟨hint, hroom⟩ := hclosed hline
    obtain ⟨c, command, chunks, hlength, heq⟩ := hopen.read_closed hline hint hroom
    cases hread.symm.trans heq
    refine ⟨fun hret => absurd hret (by decide), ?_⟩
    exact ⟨hlength.trans hs.command_length, hs.wall, hs.clients,
      fun h => absurd h (show ¬ Label.close.Connected by decide)⟩
  · obtain ⟨hint, hroom⟩ := hfound line left rest hline
    obtain ⟨c, hc, heq⟩ := hopen.read_line hline hint hroom
    cases hread.symm.trans heq
    have hbehind := hopen.behind hline hc
    have hlength : (put s.command offset (line.take k ++ [0])).length = cap := by
      refine (length_put ?_).trans hs.command_length
      rw [List.length_append, List.length_take, List.length_singleton]
      exact hroom
    refine ⟨fun _ => ⟨hbehind, ?_⟩, ?_⟩
    · exact ⟨hlength, hs.wall, hs.clients, fun _ => hbehind⟩
    · exact ⟨hlength, hs.wall, hs.clients, fun _ => hbehind⟩

/-- A message that is read stays inside its array, and so do all of them on the wall. -/
theorem Server.Sound.postMessage (hs : s.Sound cap) (hopen : s.Open)
    (hpost : s.postMessage = some t) : t.Sound cap := by
  rw [Server.postMessage] at hpost
  obtain ⟨command₁, hcolon, hpost⟩ := Option.bind_eq_some_iff.mp hpost
  obtain ⟨command, hblank, hpost⟩ := Option.bind_eq_some_iff.mp hpost
  obtain ⟨⟨messlen, u⟩, hread, hpost⟩ := Option.bind_eq_some_iff.mp hpost
  have hlength : command.length = cap := by
    rw [length_of_memcpy hblank, length_of_memcpy hcolon, hs.command_length]
  have hs' : ({ s with command } : Server).Sound cap :=
    ⟨hlength, hs.wall, hs.clients, fun _ => hopen⟩
  obtain ⟨hkept, hclosed⟩ := hs'.read hopen hread
  dsimp only at hpost
  rw [Server.placeMessage] at hpost
  split at hpost
  · cases hpost
    exact hclosed
  · next hret =>
    obtain ⟨huopen, hu⟩ := hkept (Int.not_lt.mp hret)
    split at hpost
    · cases hpost
      exact hu.goto huopen .command
    · obtain ⟨wall, hwall, rfl⟩ := Option.map_eq_some_iff.mp hpost
      exact ⟨hu.command_length, hu.wall.post hwall, hu.clients, fun _ => huopen⟩

/-- A post keeps the memory of the server as it should be, its name and its message inside
their arrays. -/
theorem Server.Sound.post (hs : s.Sound cap) (hopen : s.Open) (hpost : s.post = some t) :
    t.Sound cap := by
  rw [Server.post] at hpost
  obtain ⟨⟨ret, u⟩, hread, hpost⟩ := Option.bind_eq_some_iff.mp hpost
  obtain ⟨hkept, hclosed⟩ := hs.read hopen hread
  dsimp only at hpost
  split at hpost
  · cases hpost
    exact hclosed
  · next hret =>
    obtain ⟨huopen, hu⟩ := hkept (Int.not_lt.mp hret)
    exact hu.postMessage huopen hpost

/-- So does every turn of the loop over commands. -/
theorem Server.Sound.turn (hs : s.Sound cap) (hopen : s.Open) (hturn : s.turn = some t) :
    t.Sound cap := by
  rw [Server.turn] at hturn
  obtain ⟨⟨ret, u⟩, hread, hturn⟩ := Option.bind_eq_some_iff.mp hturn
  obtain ⟨hkept, hclosed⟩ := hs.read hopen hread
  dsimp only at hturn
  split at hturn
  · cases hturn
    exact hclosed
  · next hret =>
    obtain ⟨huopen, hu⟩ := hkept (Int.not_lt.mp hret)
    split at hturn
    · cases hturn
      exact ⟨hu.command_length, hu.wall.clear, hu.clients, fun _ => huopen⟩
    split at hturn
    · exact hu.post huopen hturn
    split at hturn
    · cases hturn
      exact hu.goto huopen .terminate
    split at hturn
    · cases hturn
      exact hclosed
    · cases hturn
      exact hu.goto huopen .command

/-- A new connection has nothing left over. -/
theorem Conn.leaves_new : newConn.Leaves [] := ⟨rfl, rfl, rfl⟩

/-- **Every step** of the server keeps its memory as it should be. -/
theorem Server.Sound.step (hs : s.Sound cap) (hstep : s.step () = some t) : t.Sound cap := by
  rw [Server.step] at hstep
  split at hstep
  · split at hstep
    · cases hstep
      exact ⟨hs.command_length, hs.wall, hs.clients,
        fun h => absurd h (show ¬ Label.terminate.Connected by decide)⟩
    · next chunks clients hclients =>
      cases hstep
      have hchunks := hs.clients
      rw [hclients, List.forall_mem_cons] at hchunks
      exact ⟨hs.command_length, hs.wall, hchunks.2, fun _ => ⟨Conn.leaves_new, hchunks.1⟩⟩
  · next hlabel =>
    cases hstep
    exact ⟨hs.command_length, hs.wall, hs.clients, fun _ => hs.opened (Or.inl hlabel)⟩
  · next hlabel => exact hs.turn (hs.opened (Or.inr hlabel)) hstep
  · cases hstep
    exact ⟨hs.command_length, hs.wall, hs.clients,
      fun h => absurd h (show ¬ Label.accept.Connected by decide)⟩
  · cases hstep
    exact hs

/-- The memory is as it should be when the server starts. -/
theorem Server.sound_start (queueSize : Nat) {command : Bytes} (hcommand : command.length = cap)
    {clients : List (List Bytes)} (hclients : ∀ chunks ∈ clients, Chunks chunks) :
    (Server.start queueSize command clients).Sound cap where
  command_length := hcommand
  wall := Wall.roomy_new queueSize
  clients := hclients
  opened := fun h => absurd h (show ¬ Label.accept.Connected by decide)

end Cop4600
