import Cop4600.Server

/-!
# Posting a message

The post command with the lengths of its two lines. A name of `namelen` bytes leaves
`78 - namelen` bytes for the message, and the read that asks for them puts its `NUL`
one byte further than `command` reaches when they are used up
(`post_inBounds_iff`).
-/

namespace Cop4600

open Delimited

/-- The lengths with which a post stays in a memory of `cap` bytes from `command` on, in
the 80 bytes of the array where it is copied, and in `int`. -/
structure PostFits (cap namelen messlen : Nat) : Prop where
  /-- the name and what is put behind it stay in the array -/
  name : namelen ≤ 78
  /-- the message can be counted -/
  int : messlen < 2 ^ 31
  /-- its NUL stays in the array -/
  nul : namelen + 2 + min (78 - namelen) messlen + 1 ≤ cap
  /-- and the copy stays in a slot of the queue -/
  copy : messlen ≤ 78 - namelen → namelen + messlen + 3 ≤ 80

variable {s t : Server} {name message left left' : Bytes} {rest rest' : List Bytes} {namelen : Nat}

/-- In the array itself. -/
theorem postFits_array_iff {messlen : Nat} :
    PostFits 80 namelen messlen ↔ namelen + messlen < 78 := by
  refine ⟨fun h => ?_, fun h => ⟨by omega, by omega, by omega, fun _ => by omega⟩⟩
  have hname := h.name
  have hnul := h.nul
  omega

/-- With one more byte of memory behind the array. -/
theorem postFits_behind_iff {messlen : Nat} :
    PostFits 81 namelen messlen ↔ namelen ≤ 78 ∧ messlen < 2 ^ 31 ∧ namelen + messlen ≠ 78 := by
  refine ⟨fun h => ⟨h.name, h.int, fun heq => ?_⟩, fun h => ?_⟩
  · have hcopy := h.copy (by omega)
    omega
  · exact ⟨h.1, h.2.1, by omega, fun _ => by omega⟩

/-- `": "` behind the name. -/
theorem separate_eq {command : Bytes} (h : namelen + 2 ≤ command.length) :
    ∃ command₁ command₂, memcpy command namelen (chars [':']) 1 = some command₁ ∧
      memcpy command₁ (namelen + 1) (chars [' ']) 1 = some command₂ ∧
      command₂.length = command.length := by
  have hcolon := @memcpy_eq command namelen (chars [':']) 1 (Nat.le_refl 1) (by omega)
  have hlength := length_of_memcpy hcolon
  have hblank := @memcpy_eq _ (namelen + 1) (chars [' ']) 1 (Nat.le_refl 1)
    (hlength.symm ▸ h)
  exact ⟨_, _, hcolon, hblank, (length_of_memcpy hblank).trans hlength⟩

/-- A message without an error goes to the wall if it is not refused. -/
theorem Server.placeMessage_isSome_iff (hwall : s.wall.Roomy) {messlen : Nat} :
    (s.placeMessage namelen (78 - namelen : Nat) messlen).isSome ↔
      (messlen ≤ 78 - namelen →
        namelen + messlen + 3 ≤ 80 ∧ namelen + messlen + 3 ≤ s.command.length) := by
  rw [Server.placeMessage, if_neg (by omega)]
  split
  · next hlong => exact iff_of_true rfl fun hle => by omega
  · next hle =>
    have hcopy : (namelen : Int) + messlen + 3 = (namelen + messlen + 3 : Nat) := rfl
    rw [Option.isSome_map, hcopy, hwall.post_isSome_iff, List.length_take]
    omega

/-- Behind the name stands `": "` when the message is read. -/
theorem Server.postMessage_eq (hname : (cstr s.command).length = namelen) (hname_le : namelen ≤ 78)
    (hcommand : 80 ≤ s.command.length) :
    ∃ command : Bytes, command.length = s.command.length ∧
      s.postMessage =
        (({ s with command } : Server).read (namelen + 2) (78 - namelen + 1 : Nat)).bind
          fun (messlen, s) => s.placeMessage namelen (78 - namelen : Nat) messlen := by
  obtain ⟨command₁, command₂, hcolon, hblank, hlength⟩ :=
    @separate_eq namelen s.command (by omega)
  refine ⟨command₂, hlength, ?_⟩
  have hmaxlen : (78 : Int) - namelen = (78 - namelen : Nat) := by omega
  rw [Server.postMessage, hname, hcolon, Option.bind_some, hblank, Option.bind_some, hmaxlen]
  rfl

/-- What a message needs before it is copied to the wall. -/
theorem Server.Open.postMessage_needs (hopen : s.Open) (hname : (cstr s.command).length = namelen)
    (hpost : s.postMessage = some t) :
    namelen ≤ 78 ∧
      (s.line = none → (s.conn.pending ++ s.chunks.flatten).length < 2 ^ 31) ∧
      ∀ message left rest, s.line = some (message, left, rest) → message.length < 2 ^ 31 ∧
        namelen + 2 + min (78 - namelen) message.length + 1 ≤ s.command.length := by
  rw [Server.postMessage] at hpost
  obtain ⟨command₁, hcolon, hpost⟩ := Option.bind_eq_some_iff.mp hpost
  obtain ⟨command₂, hblank, hpost⟩ := Option.bind_eq_some_iff.mp hpost
  obtain ⟨⟨messlen, u⟩, hread, -⟩ := Option.bind_eq_some_iff.mp hpost
  have hlength := (length_of_memcpy hblank).trans (length_of_memcpy hcolon)
  have hopen' : ({ s with command := command₂ } : Server).Open := hopen
  obtain ⟨k, hk, hclosed, hfound⟩ := hopen'.read_needs hread
  rw [hname] at hk hfound
  obtain rfl : k = 78 - namelen := by omega
  refine ⟨by omega, fun hline => (hclosed hline).1, fun message left rest hline => ?_⟩
  rw [← hlength]
  exact hfound message left rest hline

/-- A message that is read. -/
theorem Server.Open.postMessage_line (hopen : s.Open)
    (hname : (cstr s.command).length = namelen) (hname_le : namelen ≤ 78)
    (hcommand : 80 ≤ s.command.length) (hline : s.line = some (message, left, rest))
    (hint : message.length < 2 ^ 31)
    (hnul : namelen + 2 + min (78 - namelen) message.length + 1 ≤ s.command.length) :
    ∃ u : Server, u.wall = s.wall ∧ u.command.length = s.command.length ∧
      s.postMessage = u.placeMessage namelen (78 - namelen : Nat) message.length := by
  obtain ⟨command, hlength, heq⟩ := s.postMessage_eq hname hname_le hcommand
  rw [← hlength] at hnul
  obtain ⟨c, -, hread⟩ :=
    @Server.Open.read_line { s with command } _ _ _ (namelen + 2) hopen hline _ hint hnul
  refine ⟨{ s with conn := c
                   command := put command (namelen + 2) (message.take (78 - namelen) ++ [0])
                   chunks := rest }, rfl, ?_, by rw [heq, hread]; rfl⟩
  rw [← hlength, length_put]
  rw [List.length_append, List.length_take, List.length_singleton]
  exact hnul

/-- **The lengths decide.** The message of a post stays in its arrays exactly if its
length fits behind that of the name. -/
theorem Server.Open.postMessage_isSome_iff (hopen : s.Open) (hwall : s.wall.Roomy)
    (hname : (cstr s.command).length = namelen) (hcommand : 80 ≤ s.command.length)
    (hline : s.line = some (message, left, rest)) :
    s.postMessage.isSome ↔ PostFits s.command.length namelen message.length := by
  refine ⟨fun hsome => ?_, fun hfits => ?_⟩
  · obtain ⟨t, hpost⟩ := Option.isSome_iff_exists.mp hsome
    obtain ⟨hname_le, -, hneeds⟩ := hopen.postMessage_needs hname hpost
    obtain ⟨hint, hnul⟩ := hneeds message left rest hline
    obtain ⟨u, huwall, hulength, heq⟩ :=
      hopen.postMessage_line hname hname_le hcommand hline hint hnul
    rw [heq, Server.placeMessage_isSome_iff (huwall ▸ hwall)] at hsome
    exact ⟨hname_le, hint, hnul, fun hle => (hsome hle).1⟩
  · obtain ⟨u, huwall, hulength, heq⟩ :=
      hopen.postMessage_line hname hfits.name hcommand hline hfits.int hfits.nul
    rw [heq, Server.placeMessage_isSome_iff (huwall ▸ hwall), hulength]
    exact fun hle => ⟨hfits.copy hle, Nat.le_trans (hfits.copy hle) hcommand⟩

/-- The name is read, and the message follows. -/
theorem Server.Open.post_line (hopen : s.Open) (hname : s.line = some (name, left, rest))
    (hcommand : 80 ≤ s.command.length) (hint : name.length < 2 ^ 31) :
    ∃ u, s.Hears u name left rest ∧ s.post = u.postMessage := by
  obtain ⟨u, hu, hread⟩ := hopen.read_command hname hcommand hint
  refine ⟨u, hu, ?_⟩
  rw [Server.post, hread, Option.bind_some]
  dsimp only
  rw [if_neg (by omega)]

theorem Server.Open.post_needs (hopen : s.Open) (hname : s.line = some (name, left, rest))
    (hpost : s.post.isSome) : name.length < 2 ^ 31 := by
  obtain ⟨t, hpost⟩ := Option.isSome_iff_exists.mp hpost
  rw [Server.post] at hpost
  obtain ⟨⟨ret, u⟩, hread, -⟩ := Option.bind_eq_some_iff.mp hpost
  obtain ⟨k, -, -, hfound⟩ := hopen.read_needs hread
  exact (hfound name left rest hname).1

/-- **A post stays inside its buffers** exactly if the name and the message have less
than 78 bytes together: a message of the greatest length that is advertised, or of any
length above it, has its `NUL` written behind `command`. -/
theorem post_inBounds_iff (hopen : s.Open) (hwall : s.wall.Roomy)
    (hcommand : s.command.length = 80) (hname : s.line = some (name, left, rest))
    (hmessage : nextLine left rest = some (message, left', rest')) :
    s.post.isSome ↔ name.length < 2 ^ 31 ∧ (heard name).length + message.length < 78 := by
  by_cases hint : name.length < 2 ^ 31
  · obtain ⟨u, hu, hpost⟩ := hopen.post_line hname (Nat.le_of_eq hcommand.symm) hint
    have hline : u.line = some (message, left', rest') := hu.line_eq.trans hmessage
    have hroomy : u.wall.Roomy := hu.wall_eq ▸ hwall
    rw [and_iff_right hint, hpost,
      hu.opened.postMessage_isSome_iff hroomy (congrArg List.length hu.command_eq)
        (Nat.le_of_eq (hu.length_eq.trans hcommand).symm) hline,
      hu.length_eq, hcommand, postFits_array_iff]
  · exact iff_of_false (fun hpost => hint (hopen.post_needs hname hpost)) fun h => hint h.1

/-- A server whose client answers a post with these two lines. -/
def asked (name message : Bytes) : Server where
  wall := Wall.new 20
  conn := newConn
  command := commandArray
  chunks := [name ++ [newline], message ++ [newline]]
  clients := []
  label := .command

/-- A name of one byte and a message of two. -/
theorem post_inBounds_sample : (asked [65] [66, 67]).post.isSome :=
  (@post_inBounds_iff (asked [65] [66, 67]) [65] [66, 67] [] [] [[66, 67, newline]] []
    ⟨Conn.leaves_new, by decide⟩ (Wall.roomy_new 20) rfl rfl rfl).mpr ⟨by decide, by decide⟩

/-- **The greatest message overflows.** Behind the name `A` the server asks for a message
of at most 77 bytes; with 77 it writes behind `command`. -/
theorem greatest_message_overflows :
    (asked [65] (List.replicate 77 66)).Open ∧
      (asked [65] (List.replicate 77 66)).wall.Roomy ∧
      (asked [65] (List.replicate 77 66)).command.length = 80 ∧
      (asked [65] (List.replicate 77 66)).line =
        some ([65], [], [List.replicate 77 66 ++ [newline]]) ∧
      nextLine [] [List.replicate 77 66 ++ [newline]] = some (List.replicate 77 66, [], []) ∧
      78 - (heard [65]).length = 77 ∧
      (asked [65] (List.replicate 77 66)).post.isSome = false :=
  ⟨⟨Conn.leaves_new, by decide⟩, Wall.roomy_new 20, rfl, rfl, rfl, by decide, by decide +kernel⟩

end Cop4600
