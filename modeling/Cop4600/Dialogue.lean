import Cop4600.Printing
import Cop4600.Reactions
import Cop4600.Serving

/-!
# What the wall server says

`Server.step` with what `conn_write` is given on the way from one label to the next
(`Server.talk`), and `conn_write` itself: whatever part of the text each `send`
transfers, the client gets all of it, in order and once (`sendLoop_sends`). That holds of
every text, because none is too long for the array it is formatted in (`texts_are_sent`).
-/

namespace Cop4600

open Delimited

/-! ## `conn_write` -/

/-- `while (size) …`: `s` are the bytes from the pointer on, and `sends` is what the
calls of `send` return, one after the other. The result is what has been transferred
and the return value; `none` is a call that is not answered. -/
def sendLoop : (sends : List Int) → (s : Bytes) → Option (Bytes × Int)
  | _, [] => some ([], 0)
  | [], _ :: _ => none
  | sent :: sends, b :: s =>
    if sent < 0 then some ([], -1)
    else (sendLoop sends ((b :: s).drop sent.toNat)).map fun (bs, ret) =>
      ((b :: s).take sent.toNat ++ bs, ret)

/-- `conn_write(c, format, …)`, where `formatted` is what the format makes of its
arguments: `vsnprintf` puts what fits of it into `char buf[256]`, with a `NUL` behind,
and returns the length of all of it. `none` is also a loop that leaves the array. -/
def connWrite (formatted : Bytes) (sends : List Int) : Option (Bytes × Int) :=
  if formatted.length ≤ 255 then sendLoop sends formatted
  else if formatted.length = 256 then sendLoop sends (formatted.take 255 ++ [0])
  else none

/-- Answers that `send` can give while `size` bytes are left: it fails, or transfers
some of them. -/
def Sends : (size : Nat) → List Int → Prop
  | 0, _ => True
  | _ + 1, [] => False
  | size + 1, sent :: sends =>
    sent < 0 ∨ 0 < sent ∧ sent ≤ (size + 1 : Nat) ∧ Sends (size + 1 - sent.toNat) sends

instance decidableSends : ∀ (size : Nat) (sends : List Int), Decidable (Sends size sends)
  | 0, [] => isTrue trivial
  | 0, _ :: _ => isTrue trivial
  | _ + 1, [] => isFalse id
  | size + 1, sent :: sends =>
    have := decidableSends (size + 1 - sent.toNat) sends
    inferInstanceAs (Decidable (_ ∨ _))

/-- **Every byte is sent once, and in order**, until a `send` fails. -/
theorem sendLoop_sends : ∀ (sends : List Int) {s : Bytes}, Sends s.length sends →
    ∃ bs ret, sendLoop sends s = some (bs, ret) ∧ bs <+: s ∧
      (ret = 0 ∧ bs = s ∨ ret = -1 ∧ bs ≠ s ∧ ∃ sent ∈ sends, sent < 0) := by
  intro sends
  induction sends with
  | nil =>
    intro s h
    rcases s with _ | ⟨b, s⟩
    · exact ⟨[], 0, rfl, List.prefix_refl _, Or.inl ⟨rfl, rfl⟩⟩
    · exact absurd h id
  | cons sent sends ih =>
    intro s h
    rcases s with _ | ⟨b, s⟩
    · exact ⟨[], 0, rfl, List.prefix_refl _, Or.inl ⟨rfl, rfl⟩⟩
    · rcases h with hneg | ⟨hpos, hle, hrest⟩
      · refine ⟨[], -1, ?_, List.nil_prefix, Or.inr ⟨rfl, ?_, sent, List.mem_cons_self, hneg⟩⟩
        · rw [sendLoop, if_pos hneg]
        · exact (List.cons_ne_nil b s).symm
      · rw [← List.length_cons (a := b), ← List.length_drop] at hrest
        obtain ⟨bs, ret, hloop, hprefix, hret⟩ := ih hrest
        have hsplit := List.take_append_drop sent.toNat (b :: s)
        refine ⟨(b :: s).take sent.toNat ++ bs, ret, ?_, ?_, ?_⟩
        · rw [sendLoop, if_neg (by omega), hloop, Option.map_some]
        · conv_rhs => rw [← hsplit]
          exact (List.prefix_append_right_inj _).mpr hprefix
        · rcases hret with ⟨rfl, rfl⟩ | ⟨rfl, hne, sent', hmem, hneg⟩
          · exact Or.inl ⟨rfl, hsplit⟩
          · refine Or.inr ⟨rfl, fun heq => hne ?_, sent', List.mem_cons_of_mem _ hmem, hneg⟩
            conv_rhs at heq => rw [← hsplit]
            exact List.append_cancel_left heq

/-! ## The texts -/

/-- The arguments of the calls of `conn_write` in `main`. -/
def wallTitle : Bytes := text "Wall Contents\n-------------\n"

/-- What an empty wall says. -/
def wallEmpty : Bytes := text "[NO MESSAGES - WALL EMPTY]\n\n"

/-- The prompt. -/
def enterCommand : Bytes := text "Enter command: "

/-- The answer to `clear`. -/
def wallCleared : Bytes := text "Wall cleared.\n\n"

/-- What `post` asks for first. -/
def enterName : Bytes := text "Enter name: "

/-- What `post` asks for behind the name, with the room there is for the message. -/
def postMax (maxlen : Int) : Bytes :=
  text "Post [Max length " ++ formatInt maxlen ++ text "]: "

/-- The answer to a message without room. -/
def tooLong : Bytes := text "Error: message is too long!\n\n"

/-- The answer to one that has been put on the wall. -/
def tagged : Bytes := text "Successfully tagged the wall.\n\n"

/-- The answer to `kill`. -/
def terminating : Bytes := text "Closing socket and terminating server. Bye!\n"

/-- The answer to `quit`. -/
def goodBye : Bytes := text "Come back soon. Bye!\n"

/-- The answer to anything else. -/
def badCommand : Bytes := text "Error: bad command.\n\n"

/-- The texts at the label `wall`. -/
def wallTexts : Option (List Bytes) → List Bytes
  | none => [wallTitle, wallEmpty]
  | some messages => wallTitle :: (messages.map (· ++ [newline]) ++ [[newline]])

/-! ## From label to label -/

/-- What happens on a connection. -/
inductive Said : Type where
  | accepted
  | sent (text : Bytes)
  | closed
  deriving DecidableEq

/-- At the label `wall`. -/
def Server.showWall (s : Server) : Option (Server × List Bytes) :=
  (s.wall.listing s.wall.queue.length).map fun visited =>
    (s.goto .command, wallTexts (visited.map fun visited => visited.map Prod.snd))

/-- The post command behind the message. -/
def Server.talkPlace (s : Server) (namelen : Nat) (maxlen messlen : Int) :
    Option (Server × List Bytes) :=
  if messlen < 0 then some (s.goto .close, [])
  else if maxlen < messlen then some (s.goto .command, [tooLong])
  else
    (s.wall.post (s.command.take 80) (namelen + messlen + 3)).map fun wall =>
      ({ s with wall, label := .wall }, [tagged])

/-- What is said in front of the rest. -/
def saying (text : Bytes) (r : Option (Server × List Bytes)) : Option (Server × List Bytes) :=
  r.map fun (s, texts) => (s, text :: texts)

/-- The post command when the name stands in `command`. -/
def Server.talkMessage (s : Server) : Option (Server × List Bytes) :=
  let namelen := (cstr s.command).length
  let maxlen : Int := 78 - namelen
  (memcpy s.command namelen (chars [':']) 1).bind fun command =>
    (memcpy command (namelen + 1) (chars [' ']) 1).bind fun command =>
      saying (postMax maxlen)
        (({ s with command }.read (namelen + 2) (maxlen + 1)).bind fun (messlen, s) =>
          s.talkPlace namelen maxlen messlen)

/-- The command `post`: the name is asked for, read, and followed by the message. -/
def Server.talkPost (s : Server) : Option (Server × List Bytes) :=
  saying enterName
    ((s.read 0 80).bind fun (ret, s) =>
      if ret < 0 then some (s.goto .close, []) else s.talkMessage)

/-- From the label `command` on. -/
def Server.talkTurn (s : Server) : Option (Server × List Bytes) :=
  saying enterCommand
    ((s.read 0 80).bind fun (ret, s) =>
      if ret < 0 then some (s.goto .close, [])
      else if cstr s.command = chars ['c', 'l', 'e', 'a', 'r'] then
        some ({ s with wall := s.wall.clear, label := .wall }, [wallCleared])
      else if cstr s.command = chars ['p', 'o', 's', 't'] then s.talkPost
      else if cstr s.command = chars ['k', 'i', 'l', 'l'] then
        some (s.goto .terminate, [terminating])
      else if cstr s.command = chars ['q', 'u', 'i', 't'] then some (s.goto .close, [goodBye])
      else some (s.goto .command, [badCommand]))

/-- From one label to the next, with what happens on the connection. -/
def Server.talk (s : Server) : Option (Server × List Said) :=
  match s.label with
  | .accept =>
    match s.clients with
    | [] => some (s.goto .terminate, [])
    | chunks :: clients =>
      some ({ s with conn := newConn, chunks, clients, label := .wall }, [.accepted])
  | .wall => s.showWall.map fun (s, texts) => (s, texts.map .sent)
  | .command => s.talkTurn.map fun (s, texts) => (s, texts.map .sent)
  | .close => some (s.goto .accept, [.closed])
  | .terminate => some (s, [])

/-! ### The same steps -/

variable {s t : Server}

/-- `placeMessage` is this without the texts. -/
theorem talkPlace_fst (namelen : Nat) (maxlen messlen : Int) :
    (s.talkPlace namelen maxlen messlen).map Prod.fst = s.placeMessage namelen maxlen messlen := by
  rw [Server.talkPlace, Server.placeMessage]
  split
  · rfl
  split
  · rfl
  · rw [Option.map_map]
    rfl

/-- A text in front changes nothing else. -/
theorem saying_fst (text : Bytes) (r : Option (Server × List Bytes)) :
    (saying text r).map Prod.fst = r.map Prod.fst := by
  rw [saying, Option.map_map]
  rfl

/-- `postMessage` is this without the texts. -/
theorem talkMessage_fst : s.talkMessage.map Prod.fst = s.postMessage := by
  rw [Server.talkMessage, Server.postMessage, Option.map_bind]
  congr 1
  funext command
  rw [Function.comp_apply, Option.map_bind]
  congr 1
  funext command'
  rw [Function.comp_apply, saying_fst, Option.map_bind]
  congr 1
  funext r
  exact talkPlace_fst _ _ _

/-- `post` is this without the texts. -/
theorem talkPost_fst : s.talkPost.map Prod.fst = s.post := by
  rw [Server.talkPost, Server.post, saying_fst, Option.map_bind]
  congr 1
  funext r
  rw [Function.comp_apply]
  dsimp only
  split
  · rfl
  · exact talkMessage_fst

/-- `turn` is this without the texts, so that the server takes the same steps whether it is
listened to or not. -/
theorem talkTurn_fst : s.talkTurn.map Prod.fst = s.turn := by
  rw [Server.talkTurn, Server.turn, saying_fst, Option.map_bind]
  congr 1
  funext r
  rw [Function.comp_apply]
  dsimp only
  split
  · rfl
  split
  · rfl
  split
  · exact talkPost_fst
  split
  · rfl
  split <;> rfl

/-- **What the server says changes nothing**: it goes from label to label as before. -/
theorem Server.step_of_talk {said : List Said} (h : s.talk = some (t, said)) :
    s.step () = some t := by
  have hfst : ∀ {r : Option (Server × List Bytes)},
      (r.map fun (s, texts) => (s, texts.map Said.sent)) = some (t, said) →
        r.map Prod.fst = some t := by
    intro r hr
    obtain ⟨⟨s', texts⟩, rfl, heq⟩ := Option.map_eq_some_iff.mp hr
    rw [Option.map_some, (Prod.mk.inj heq).1]
  rw [Server.talk] at h
  rw [Server.step]
  rcases hlabel : s.label with _ | _ | _ | _ | _
  · rw [hlabel] at h
    rcases hclients : s.clients with _ | ⟨chunks, clients⟩
    · rw [hclients] at h
      exact congrArg some (Prod.mk.inj (Option.some.inj h)).1
    · rw [hclients] at h
      exact congrArg some (Prod.mk.inj (Option.some.inj h)).1
  · rw [hlabel] at h
    rw [← hfst h, Server.showWall, Option.map_map]
    obtain ⟨⟨s', texts⟩, hwall, -⟩ := Option.map_eq_some_iff.mp h
    obtain ⟨visited, hvisited, -⟩ := Option.map_eq_some_iff.mp hwall
    rw [hvisited]
    rfl
  · rw [hlabel] at h
    rw [← hfst h]
    exact talkTurn_fst.symm
  · rw [hlabel] at h
    exact congrArg some (Prod.mk.inj (Option.some.inj h)).1
  · rw [hlabel] at h
    exact congrArg some (Prod.mk.inj (Option.some.inj h)).1

/-! ## The texts fit the array -/

/-- A printed string ends in front of its NUL, which is in the array. -/
theorem length_printed {content message : Bytes} (h : printed content = some message) :
    message.length < content.length := by
  rw [printed] at h
  split at h
  · next hzero =>
    rw [← Option.some.inj h]
    refine lt_of_le_of_ne (List.takeWhile_prefix _).length_le fun heq => ?_
    have hself := (List.takeWhile_prefix _).eq_of_length heq
    exact zero_notMem_cstr content (by rw [cstr, hself]; exact hzero)
  · cases h

/-- What is shown of the wall is as short as its slots. -/
theorem length_of_walk {w : Wall} (hw : w.Roomy) (fuel : Nat) : ∀ {m : Nat}
    {visited : List (Nat × Bytes)}, w.walk fuel m = some visited →
      ∀ p ∈ visited, p.2.length ≤ 80 := by
  induction fuel with
  | zero =>
    intro m visited h
    cases h
  | succ fuel ih =>
    intro m visited h
    rw [Wall.walk] at h
    split at h
    · cases h
      exact fun p hp => absurd hp List.not_mem_nil
    · obtain ⟨content, hcontent, h⟩ := Option.bind_eq_some_iff.mp h
      obtain ⟨message, hmessage, h⟩ := Option.bind_eq_some_iff.mp h
      obtain ⟨rest, hrest, rfl⟩ := Option.map_eq_some_iff.mp h
      refine List.forall_mem_cons.mpr ⟨?_, ih hrest⟩
      have hslot := hw.slot_length content (List.mem_of_getElem? hcontent)
      have hlt := length_printed hmessage
      rw [hslot] at hlt
      exact Nat.le_of_lt_succ hlt

/-- The texts of a step are formatted without loss. -/
def Formatted (texts : List Bytes) : Prop := ∀ text ∈ texts, text.length ≤ 255

instance (texts : List Bytes) : Decidable (Formatted texts) :=
  inferInstanceAs (Decidable (∀ text ∈ texts, text.length ≤ 255))

/-- A wall of messages that fit their arrays is formatted without loss. -/
theorem formatted_wallTexts {messages : List Bytes}
    (h : ∀ message ∈ messages, message.length ≤ 80) :
    Formatted (wallTexts (some messages)) := by
  rw [wallTexts, Formatted, List.forall_mem_cons, List.forall_mem_append, List.forall_mem_map]
  refine ⟨by decide, fun message hmessage => ?_, by decide⟩
  rw [List.length_append, List.length_singleton]
  exact (Nat.succ_le_succ (h message hmessage)).trans (by decide)

/-- What is said behind a text that fits is formatted without loss if the rest is. -/
theorem formatted_saying {first : Bytes} {r : Option (Server × List Bytes)} {texts : List Bytes}
    (hfirst : first.length ≤ 255) (hr : ∀ u texts, r = some (u, texts) → Formatted texts)
    (h : saying first r = some (t, texts)) : Formatted texts := by
  obtain ⟨⟨u, texts'⟩, hu, heq⟩ := Option.map_eq_some_iff.mp h
  rw [← (Prod.mk.inj heq).2]
  exact List.forall_mem_cons.mpr ⟨hfirst, hr u texts' hu⟩

/-- The two answers to a message are short. -/
theorem formatted_talkPlace {namelen : Nat} {maxlen messlen : Int} {texts : List Bytes}
    (h : s.talkPlace namelen maxlen messlen = some (t, texts)) : Formatted texts := by
  rw [Server.talkPlace] at h
  split at h
  · rw [← (Prod.mk.inj (Option.some.inj h)).2]
    decide
  split at h
  · rw [← (Prod.mk.inj (Option.some.inj h)).2]
    decide
  · obtain ⟨wall, -, heq⟩ := Option.map_eq_some_iff.mp h
    rw [← (Prod.mk.inj heq).2]
    decide

/-- A name in the memory of the array leaves a number of at most two characters. -/
theorem length_postMax {namelen : Nat} (h : namelen ≤ 81) :
    (postMax (78 - namelen)).length ≤ 255 := by
  have hall : ∀ k < 82, (postMax (78 - (k : Nat))).length ≤ 255 := by decide +kernel
  exact hall namelen (Nat.lt_succ_of_le h)

/-- The line that asks for the message has a number in it, which is at most as long as any
`int`. -/
theorem formatted_talkMessage {texts : List Bytes} (hcommand : s.command.length ≤ 81)
    (h : s.talkMessage = some (t, texts)) : Formatted texts := by
  rw [Server.talkMessage] at h
  obtain ⟨command₁, -, h⟩ := Option.bind_eq_some_iff.mp h
  obtain ⟨command₂, -, h⟩ := Option.bind_eq_some_iff.mp h
  have hname : (cstr s.command).length ≤ 81 :=
    (List.takeWhile_prefix _).length_le.trans hcommand
  refine formatted_saying (length_postMax hname) (fun u texts hu => ?_) h
  obtain ⟨⟨messlen, u'⟩, -, hplace⟩ := Option.bind_eq_some_iff.mp hu
  exact formatted_talkPlace hplace

variable {cap : Nat} (hcap : cap ≤ 81) {said : List Said} {texts : List Bytes} (hs : s.Sound cap)
include hs

include hcap in
/-- Nothing that is said about a post is cut off. -/
theorem Server.Sound.formatted_post (hopen : s.Open) (h : s.talkPost = some (t, texts)) :
    Formatted texts := by
  refine formatted_saying (by decide) (fun u texts hu => ?_) h
  obtain ⟨⟨ret, u'⟩, hread, hu⟩ := Option.bind_eq_some_iff.mp hu
  have hlength : u'.command.length = cap := (hs.read hopen hread).2.command_length
  dsimp only at hu
  split at hu
  · rw [← (Prod.mk.inj (Option.some.inj hu)).2]
    decide
  · exact formatted_talkMessage (hlength ▸ hcap) hu

include hcap in
/-- Nothing that is said about a command is cut off. -/
theorem Server.Sound.formatted_turn (hopen : s.Open) (h : s.talkTurn = some (t, texts)) :
    Formatted texts := by
  refine formatted_saying (by decide) (fun u texts hu => ?_) h
  obtain ⟨⟨ret, u'⟩, hread, hu⟩ := Option.bind_eq_some_iff.mp hu
  obtain ⟨hkept, -⟩ := hs.read hopen hread
  dsimp only at hu
  split at hu
  · rw [← (Prod.mk.inj (Option.some.inj hu)).2]
    decide
  next hret =>
  obtain ⟨hopen', hs'⟩ := hkept (Int.not_lt.mp hret)
  split at hu
  · rw [← (Prod.mk.inj (Option.some.inj hu)).2]
    decide
  split at hu
  · exact hs'.formatted_post hcap hopen' hu
  split at hu
  · rw [← (Prod.mk.inj (Option.some.inj hu)).2]
    decide
  split at hu
  · rw [← (Prod.mk.inj (Option.some.inj hu)).2]
    decide
  · rw [← (Prod.mk.inj (Option.some.inj hu)).2]
    decide

/-- No line of the wall is cut off, as every message on it came through the array for the
command. -/
theorem Server.Sound.formatted_wall (h : s.showWall = some (t, texts)) : Formatted texts := by
  obtain ⟨visited, hvisited, heq⟩ := Option.map_eq_some_iff.mp h
  rw [← (Prod.mk.inj heq).2]
  rcases visited with _ | visited
  · decide
  · rw [Option.map_some]
    refine formatted_wallTexts (List.forall_mem_map.mpr ?_)
    rw [Wall.listing] at hvisited
    split at hvisited
    · cases hvisited
    · obtain ⟨visited', hwalk, heq'⟩ := Option.map_eq_some_iff.mp hvisited
      rw [← Option.some.inj heq']
      exact length_of_walk hs.wall _ hwalk

include hcap in
/-- What is said in one step. -/
theorem Server.Sound.formatted (h : s.talk = some (t, said)) :
    ∀ text, .sent text ∈ said → text.length ≤ 255 := by
  have hsent : ∀ {texts : List Bytes}, Formatted texts →
      ∀ text, Said.sent text ∈ texts.map Said.sent → text.length ≤ 255 := by
    intro texts htexts text hmem
    obtain ⟨text', hmem', heq⟩ := List.mem_map.mp hmem
    exact Said.sent.inj heq ▸ htexts text' hmem'
  rw [Server.talk] at h
  rcases hlabel : s.label with _ | _ | _ | _ | _
  · rw [hlabel] at h
    rcases hclients : s.clients with _ | ⟨chunks, clients⟩
    · rw [hclients] at h
      rw [← (Prod.mk.inj (Option.some.inj h)).2]
      exact fun text hmem => absurd hmem List.not_mem_nil
    · rw [hclients] at h
      rw [← (Prod.mk.inj (Option.some.inj h)).2]
      exact fun text hmem => by cases List.mem_singleton.mp hmem
  · rw [hlabel] at h
    obtain ⟨⟨u, texts⟩, hwall, heq⟩ := Option.map_eq_some_iff.mp h
    rw [← (Prod.mk.inj heq).2]
    exact hsent (hs.formatted_wall hwall)
  · rw [hlabel] at h
    obtain ⟨⟨u, texts⟩, hturn, heq⟩ := Option.map_eq_some_iff.mp h
    rw [← (Prod.mk.inj heq).2]
    exact hsent (hs.formatted_turn hcap (hs.opened (Or.inr hlabel)) hturn)
  · rw [hlabel] at h
    rw [← (Prod.mk.inj (Option.some.inj h)).2]
    exact fun text hmem => by cases List.mem_singleton.mp hmem
  · rw [hlabel] at h
    rw [← (Prod.mk.inj (Option.some.inj h)).2]
    exact fun text hmem => absurd hmem List.not_mem_nil

omit hs

/-- And in a run. -/
theorem Server.Sound.formatted_of_leads (hcap : cap ≤ 81) (hs : s.Sound cap)
    (h : Reactions.Leads Server.talk s said t) : ∀ text, .sent text ∈ said → text.length ≤ 255 := by
  induction h with
  | refl s => exact fun text hmem => absurd hmem List.not_mem_nil
  | step hnext _ ih =>
    intro text hmem
    rcases List.mem_append.mp hmem with hmem | hmem
    · exact hs.formatted hcap hnext text hmem
    · exact ih (hs.step (Server.step_of_talk hnext)) text hmem

/-- **Every text gets to the client.** In every run of the server, for any clients, each
text it says is formatted without loss, and is sent byte by byte and once, whatever part
of it each `send` transfers, until one fails. The array for the command may be followed by
a byte that the server writes to; a step that leaves this memory, too, is none of the run,
and neither is what has been said on the way to it. -/
theorem texts_are_sent (queueSize : Nat) {command : Bytes} (hcommand : command.length ≤ 81)
    {clients : List (List Bytes)} (hclients : ∀ chunks ∈ clients, Chunks chunks)
    (h : Reactions.Leads Server.talk (Server.start queueSize command clients) said t) (text : Bytes)
    (htext : .sent text ∈ said) {sends : List Int} (hsends : Sends text.length sends) :
    ∃ bs ret, connWrite text sends = some (bs, ret) ∧ bs <+: text ∧
      (ret = 0 ∧ bs = text ∨ ret = -1 ∧ bs ≠ text ∧ ∃ sent ∈ sends, sent < 0) := by
  have hsound := @Server.sound_start command.length queueSize command rfl clients hclients
  rw [connWrite, if_pos (hsound.formatted_of_leads hcommand h text htext)]
  exact sendLoop_sends sends hsends

/-- The title of the wall, to a client that says nothing, in two parts. -/
theorem texts_are_sent_sample : connWrite wallTitle [10, 18] = some (wallTitle, 0) := by
  have hleads : Reactions.Leads Server.talk (Server.start 20 (List.replicate 80 0) [[]])
      ([.accepted] ++ ([.sent wallTitle, .sent wallEmpty] ++ [])) _ :=
    .step rfl (.step rfl (.refl _))
  have hsends : Sends wallTitle.length [10, 18] := by decide
  obtain ⟨bs, ret, hwrite, -, hret⟩ := texts_are_sent 20 (by decide) (by decide) hleads wallTitle
    (by decide) hsends
  rcases hret with ⟨rfl, rfl⟩ | ⟨-, -, hneg⟩
  · exact hwrite
  · revert hneg
    decide

end Cop4600
