import Cop4600.Posting
import Cop4600.PartialRuns

/-!
# Serving clients

Whole runs of the server, on a memory with one more byte behind `command`: the `NUL`
behind the greatest message then goes to that byte, and what is left to go wrong is the
length of a copy. `Server.Proper` says when none does, and `copies_fit_iff` that this is
exact, for any clients and any number of steps.
-/

namespace Cop4600

open Delimited PartialRuns

/-- The line that comes next can be counted in an `int`; without an end, everything that
is left to receive. -/
def Counted (text : Bytes) (chunks : List Bytes) : Prop :=
  match nextLine text chunks with
  | some (line, _, _) => line.length < 2 ^ 31
  | none => (text ++ chunks.flatten).length < 2 ^ 31

/-- The name leaves room for a message, and the message is not one that ends where the room
does. -/
structure ProperMessage (namelen : Nat) (text : Bytes) (chunks : List Bytes) : Prop where
  /-- the name leaves room for what is put behind it -/
  name : namelen ≤ 78
  /-- the message can be counted -/
  counted : Counted text chunks
  /-- and its NUL is not put behind the array -/
  length : ∀ message left rest, nextLine text chunks = some (message, left, rest) →
    namelen + message.length ≠ 78

/-- What can be read for `post`: a name that can be counted, and a proper message behind it. -/
structure ProperPost (text : Bytes) (chunks : List Bytes) : Prop where
  counted : Counted text chunks
  message : ∀ name left rest, nextLine text chunks = some (name, left, rest) →
    ProperMessage (heard name).length left rest

/-- What can be read for a command. -/
structure ProperTurn (text : Bytes) (chunks : List Bytes) : Prop where
  counted : Counted text chunks
  post : ∀ line left rest, nextLine text chunks = some (line, left, rest) →
    heard line = chars ['p', 'o', 's', 't'] → ProperPost left rest

/-- Where a command is awaited, the lines that come next are proper. -/
def Server.Proper (s : Server) : Prop :=
  s.label = .command → ProperTurn s.conn.pending s.chunks

variable {s t : Server} {line left : Bytes} {rest : List Bytes} {offset namelen : Nat}

/-! ## One step -/

/-- A line that ends is counted by its length. -/
theorem counted_of_line (hline : s.line = some (line, left, rest)) :
    Counted s.conn.pending s.chunks ↔ line.length < 2 ^ 31 := by
  rw [Server.line] at hline
  rw [Counted, hline]

/-- Where no line ends, all that is left is counted. -/
theorem counted_of_closed (hline : s.line = none) :
    Counted s.conn.pending s.chunks ↔ (s.conn.pending ++ s.chunks.flatten).length < 2 ^ 31 := by
  rw [Server.line] at hline
  rw [Counted, hline]

/-- A command line or a name returns exactly if it can be counted, and what follows then
does. -/
theorem Server.Open.bind_read_isSome_iff (hopen : s.Open) (hcommand : 80 ≤ s.command.length)
    {f : Int × Server → Option Server} {P : Bytes → Bytes → List Bytes → Prop}
    (hclosed : ∀ t, (f (-1, t)).isSome)
    (hfound : ∀ line left rest u, s.Hears u line left rest →
      ((f (line.length, u)).isSome ↔ P line left rest)) :
    ((s.read 0 80).bind f).isSome ↔ Counted s.conn.pending s.chunks ∧
      ∀ line left rest, nextLine s.conn.pending s.chunks = some (line, left, rest) →
        P line left rest := by
  have hreads : ((s.read 0 80).bind f).isSome → ∃ ret t, s.read 0 80 = some (ret, t) := by
    intro hsome
    obtain ⟨⟨ret, t⟩, hread⟩ := Option.isSome_iff_exists.mp (Option.isSome_of_isSome_bind hsome)
    exact ⟨ret, t, hread⟩
  rcases hline : s.line with _ | ⟨line, left, rest⟩
  · rw [counted_of_closed hline]
    refine ⟨fun hsome => ⟨?_, fun line left rest h => ?_⟩, fun ⟨hint, _⟩ => ?_⟩
    · obtain ⟨ret, t, hread⟩ := hreads hsome
      obtain ⟨k, -, hneeds, -⟩ := hopen.read_needs hread
      exact (hneeds hline).1
    · cases hline.symm.trans h
    · obtain ⟨c, command, chunks, -, hread⟩ :=
        @Server.Open.read_closed s 0 hopen hline 79 hint (by omega)
      rw [show s.read 0 80 = _ from hread, Option.bind_some]
      exact hclosed _
  · have hnext : ∀ line' left' rest', nextLine s.conn.pending s.chunks =
        some (line', left', rest') → line = line' ∧ left = left' ∧ rest = rest' := by
      intro line' left' rest' h
      cases hline.symm.trans h
      exact ⟨rfl, rfl, rfl⟩
    rw [counted_of_line hline]
    refine ⟨fun hsome => ?_, fun ⟨hint, hP⟩ => ?_⟩
    · obtain ⟨ret, t, hread⟩ := hreads hsome
      obtain ⟨k, -, -, hneeds⟩ := hopen.read_needs hread
      have hint := (hneeds line left rest hline).1
      obtain ⟨u, hu, hread'⟩ := hopen.read_command hline hcommand hint
      rw [hread', Option.bind_some, hfound line left rest u hu] at hsome
      refine ⟨hint, fun line' left' rest' h => ?_⟩
      obtain ⟨rfl, rfl, rfl⟩ := hnext line' left' rest' h
      exact hsome
    · obtain ⟨u, hu, hread⟩ := hopen.read_command hline hcommand hint
      rw [hread, Option.bind_some, hfound line left rest u hu]
      exact hP line left rest hline

/-- The message of a post, when the connection is closed before it ends. -/
theorem Server.Open.postMessage_closed (hopen : s.Open)
    (hname : (cstr s.command).length = namelen) (hname_le : namelen ≤ 78)
    (hcommand : s.command.length = 81) (hline : s.line = none)
    (hint : (s.conn.pending ++ s.chunks.flatten).length < 2 ^ 31) : s.postMessage.isSome := by
  obtain ⟨command, hlength, heq⟩ := s.postMessage_eq hname hname_le (by omega)
  have hroom : namelen + 2 + min (78 - namelen) (s.conn.pending ++ s.chunks.flatten).length ≤
      command.length := by
    omega
  obtain ⟨c, command', chunks, -, hread⟩ :=
    @Server.Open.read_closed { s with command } (namelen + 2) hopen hline _ hint hroom
  rw [heq, hread]
  rfl

/-- The message stays in the array exactly if it is proper. -/
theorem Server.Open.postMessage_iff (hopen : s.Open) (hwall : s.wall.Roomy)
    (hcommand : s.command.length = 81) (hname : (cstr s.command).length = namelen) :
    s.postMessage.isSome ↔ ProperMessage namelen s.conn.pending s.chunks := by
  rcases hline : s.line with _ | ⟨message, left, rest⟩
  · refine ⟨fun hsome => ?_, fun h => ?_⟩
    · obtain ⟨t, hpost⟩ := Option.isSome_iff_exists.mp hsome
      obtain ⟨hname_le, hint, -⟩ := hopen.postMessage_needs hname hpost
      refine ⟨hname_le, (counted_of_closed hline).mpr (hint hline), fun message left rest h => ?_⟩
      cases hline.symm.trans h
    · exact hopen.postMessage_closed hname h.name hcommand hline
        ((counted_of_closed hline).mp h.counted)
  · rw [hopen.postMessage_isSome_iff hwall hname (by omega) hline, hcommand, postFits_behind_iff]
    refine ⟨fun ⟨hname_le, hint, hlength⟩ => ?_, fun h => ?_⟩
    · refine ⟨hname_le, (counted_of_line hline).mpr hint, fun message left rest h => ?_⟩
      cases hline.symm.trans h
      exact hlength
    · exact ⟨h.name, (counted_of_line hline).mp h.counted, h.length message left rest hline⟩

/-- A whole post stays in the array exactly if it is proper. -/
theorem Server.Open.post_iff (hopen : s.Open) (hwall : s.wall.Roomy)
    (hcommand : s.command.length = 81) :
    s.post.isSome ↔ ProperPost s.conn.pending s.chunks := by
  rw [Server.post, hopen.bind_read_isSome_iff
    (P := fun name left rest => ProperMessage (heard name).length left rest) (by omega)]
  · exact ⟨fun h => ⟨h.1, h.2⟩, fun h => ⟨h.counted, h.message⟩⟩
  · exact fun t => rfl
  · intro name left rest u hu
    have hroomy : u.wall.Roomy := hu.wall_eq ▸ hwall
    dsimp only
    rw [if_neg (by omega), hu.opened.postMessage_iff hroomy (hu.length_eq.trans hcommand)
      (congrArg List.length hu.command_eq), hu.pending_eq, hu.chunks_eq]

/-- A turn of the loop over commands does exactly if what it reads is proper. -/
theorem Server.Open.turn_iff (hopen : s.Open) (hwall : s.wall.Roomy)
    (hcommand : s.command.length = 81) :
    s.turn.isSome ↔ ProperTurn s.conn.pending s.chunks := by
  rw [Server.turn, hopen.bind_read_isSome_iff
    (P := fun line left rest => heard line = chars ['p', 'o', 's', 't'] → ProperPost left rest)
    (by omega)]
  · exact ⟨fun h => ⟨h.1, h.2⟩, fun h => ⟨h.counted, h.post⟩⟩
  · exact fun t => rfl
  · intro line left rest u hu
    have hroomy : u.wall.Roomy := hu.wall_eq ▸ hwall
    have hpost := hu.opened.post_iff hroomy (hu.length_eq.trans hcommand)
    rw [hu.pending_eq, hu.chunks_eq] at hpost
    dsimp only
    rw [if_neg (by omega), hu.command_eq]
    split
    · next hclear => exact iff_of_true rfl fun h => absurd (hclear.symm.trans h) (by decide)
    split
    · next h => rw [hpost, forall_prop_of_true h]
    · next hnot =>
      refine iff_of_true ?_ fun h => absurd h hnot
      split
      · rfl
      split <;> rfl

/-- **The copies of one step fit** exactly if the lines that come next are proper. -/
theorem Server.Sound.step_isSome_iff (hs : s.Sound 81) : (s.step ()).isSome ↔ s.Proper := by
  rw [Server.step, Server.Proper]
  split
  · next hlabel =>
    refine iff_of_true ?_ fun h => by cases hlabel.symm.trans h
    split <;> rfl
  · next hlabel => exact iff_of_true rfl fun h => by cases hlabel.symm.trans h
  · next hlabel =>
    rw [forall_prop_of_true hlabel]
    exact (hs.opened (Or.inr hlabel)).turn_iff hs.wall hs.command_length
  · next hlabel => exact iff_of_true rfl fun h => by cases hlabel.symm.trans h
  · next hlabel => exact iff_of_true rfl fun h => by cases hlabel.symm.trans h

/-- **No copy length goes negative** or beyond its array, in any run for any clients and with
a queue of any size, exactly if the lines that come next are proper wherever a command is
awaited. -/
theorem copies_fit_iff (queueSize : Nat) {command : Bytes} (hcommand : command.length = 81)
    {clients : List (List Bytes)} (hclients : ∀ chunks ∈ clients, Chunks chunks) (steps : Nat) :
    (run Server.step (Server.start queueSize command clients) (List.replicate steps ())).isSome ↔
      Throughout Server.step (fun s _ => s.Proper) (Server.start queueSize command clients)
        (List.replicate steps ()) :=
  run_isSome_iff (fun _ _ hs => hs.step_isSome_iff) (fun _ _ _ hs hstep => hs.step hstep) _
    (Server.sound_start queueSize hcommand hclients)

/-- A client that posts under a name. -/
def poster (name message : Bytes) : List Bytes :=
  [chars ['p', 'o', 's', 't', '\n'], name ++ [newline], message ++ [newline]]

/-- Five steps for a client that posts a message of two bytes under a name of one. -/
theorem copies_fit_sample :
    Throughout Server.step (fun s _ => s.Proper)
      (Server.start 20 (List.replicate 81 0) [poster [65] [66, 67]]) (List.replicate 5 ()) :=
  (copies_fit_iff 20 (by decide) (by decide) 5).mp (by decide +kernel)

/-- **A name of 79 bytes leaves less than nothing.** The advertised maximum is then `-1`, and
the message is read with the size 0: the third step copies a negative number of bytes. -/
theorem long_name_goes_negative :
    (∀ chunks ∈ [poster (List.replicate 79 65) [66]], Chunks chunks) ∧
      (78 : Int) - (heard (List.replicate 79 65)).length + 1 = 0 ∧
      (run Server.step (Server.start 20 (List.replicate 81 0)
        [poster (List.replicate 79 65) [66]]) (List.replicate 2 ())).isSome = true ∧
      (run Server.step (Server.start 20 (List.replicate 81 0)
        [poster (List.replicate 79 65) [66]]) (List.replicate 3 ())).isSome = false :=
  ⟨by decide, by decide, by decide +kernel, by decide +kernel⟩

end Cop4600
