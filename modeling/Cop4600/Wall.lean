import Cop4600.Memory
import Cop4600.PartialRuns
import Cop4600.Ring

/-!
# The wall

The message queue of `wallserver.c`: `queue_size + 1` slots of 81 bytes, used as a
ring between `head` and `tail`. Pointers into the queue are indices; `none` is a
pointer that leaves its array.

Posting and clearing follow the last messages of the history
(`wall_shows_last_posts`), which `Ring` knows how to keep.
-/

namespace Cop4600

open Ring PartialRuns

/-- What `%s` prints of an array; without a `NUL` it would read on behind the array. -/
def printed (content : Bytes) : Option Bytes := if 0 ∈ content then some (cstr content) else none

/-- The queue of messages: one slot more than it can hold, the first message at `head`, the
next free slot at `tail`. -/
structure Wall : Type where
  /-- the slots, each with its content -/
  queue : List Bytes
  /-- the index of the first message -/
  head : Nat
  /-- the index of the next free slot -/
  tail : Nat

/-- `calloc(queue_size + 1, sizeof(*queue))`. -/
def Wall.new (queueSize : Nat) : Wall where
  queue := List.replicate (queueSize + 1) (List.replicate 81 0)
  head := 0
  tail := 0

/-- `if (++p == end) p = queue;` -/
def Wall.next (w : Wall) (p : Nat) : Nat := Ring.next w.queue.length p

/-- An accepted post; `command` is the memory from the command buffer on, and `size`
is `namelen + messlen + 3`. -/
def Wall.post (w : Wall) (command : Bytes) (size : Int) : Option Wall :=
  w.queue[w.tail]?.bind fun slot =>
    (memcpy slot 0 command size).map fun content =>
      let tail := w.next w.tail
      { queue := w.queue.set w.tail content
        -- `if (head == tail && ++head == end) head = queue;`
        head := if w.head = tail then w.next w.head else w.head
        tail }

/-- The command `clear`. -/
def Wall.clear (w : Wall) : Wall := { w with tail := w.head }

/-- `while (m != tail) …` of the listing: the slots it visits and what it prints of
each. `none` also stands for a loop that has not ended after `fuel` rounds. -/
def Wall.walk (w : Wall) : (fuel m : Nat) → Option (List (Nat × Bytes))
  | 0, _ => none
  | fuel + 1, m =>
    if m = w.tail then some []
    else
      w.queue[m]?.bind fun content =>
        (printed content).bind fun text =>
          (w.walk fuel (w.next m)).map fun rest => (m, text) :: rest

/-- The wall contents; `none` inside is `[NO MESSAGES - WALL EMPTY]`. -/
def Wall.listing (w : Wall) (fuel : Nat) : Option (Option (List (Nat × Bytes))) :=
  if w.head = w.tail then some none else (w.walk fuel w.head).map some

/-- What is done to a wall. -/
inductive WallOp : Type where
  | post (command : Bytes) (namelen messlen : Nat)
  | clear
  deriving DecidableEq

/-- One command on the wall. -/
def Wall.step (w : Wall) : WallOp → Option Wall
  | .post command namelen messlen => w.post command (namelen + messlen + 3 : Nat)
  | .clear => some w.clear

/-- A post that is not refused as too long, with the bytes that are copied there, and
a `NUL` among them. -/
def WallOp.Accepted : WallOp → Prop
  | .post command namelen messlen =>
    (messlen : Int) ≤ 78 - namelen ∧ namelen + messlen + 3 ≤ command.length ∧
      0 ∈ command.take (namelen + messlen + 3)
  | .clear => True

instance : ∀ op : WallOp, Decidable op.Accepted
  | .post command namelen messlen =>
    inferInstanceAs (Decidable ((messlen : Int) ≤ 78 - namelen ∧
      namelen + messlen + 3 ≤ command.length ∧ 0 ∈ command.take (namelen + messlen + 3)))
  | .clear => inferInstanceAs (Decidable True)

/-- The messages since the most recent clear, oldest first. -/
def posted (messages : List Bytes) : WallOp → List Bytes
  | .post command namelen messlen => messages ++ [cstr (command.take (namelen + messlen + 3))]
  | .clear => []

/-! ## Room for the next post -/

/-- The pointers stay in the queue, whose slots have 81 bytes. -/
structure Wall.Roomy (w : Wall) : Prop where
  /-- the first pointer is one of a slot -/
  head_lt : w.head < w.queue.length
  /-- and so is the second -/
  tail_lt : w.tail < w.queue.length
  /-- each slot has room for a message and its NUL -/
  slot_length : ∀ slot ∈ w.queue, slot.length = 81

/-- The pointers and slots of a new queue are so. -/
theorem Wall.roomy_new (n : Nat) : (Wall.new n).Roomy where
  head_lt := List.length_replicate.symm ▸ Nat.succ_pos n
  tail_lt := List.length_replicate.symm ▸ Nat.succ_pos n
  slot_length := fun slot hslot => by
    rw [(List.mem_replicate.mp hslot).2]
    exact List.length_replicate

/-- A post stays in its arrays exactly if it is not longer than both of them. -/
theorem Wall.Roomy.post_isSome_iff {w : Wall} (h : w.Roomy) {command : Bytes} {size : Int} :
    (w.post command size).isSome ↔ 0 ≤ size ∧ size ≤ command.length ∧ size ≤ 81 := by
  have htail := h.tail_lt
  have hget : w.queue[w.tail]? = some w.queue[w.tail] := List.getElem?_eq_getElem htail
  have hslot := h.slot_length _ (List.mem_of_getElem? hget)
  rw [Wall.post, hget, Option.bind_some, Option.isSome_map, memcpy, hslot]
  split
  · next hfits => exact iff_of_true rfl ⟨hfits.1, hfits.2.1, by omega⟩
  · next hfits =>
    refine iff_of_false (by simp) fun hsize => hfits ⟨hsize.1, hsize.2.1, ?_⟩
    omega

/-- A post keeps the queue as it should be. -/
theorem Wall.Roomy.post {w w' : Wall} (h : w.Roomy) {command : Bytes} {size : Int}
    (hpost : w.post command size = some w') : w'.Roomy := by
  rw [Wall.post] at hpost
  obtain ⟨slot, hslot, hpost⟩ := Option.bind_eq_some_iff.mp hpost
  obtain ⟨content, hcopy, rfl⟩ := Option.map_eq_some_iff.mp hpost
  refine ⟨?_, ?_, ?_⟩
  · rw [List.length_set]
    dsimp only
    split
    · exact next_lt h.head_lt
    · exact h.head_lt
  · rw [List.length_set]
    exact next_lt h.tail_lt
  · intro slot' hslot'
    rcases List.mem_or_eq_of_mem_set hslot' with hold | rfl
    · exact h.slot_length slot' hold
    · rw [length_of_memcpy hcopy, h.slot_length slot (List.mem_of_getElem? hslot)]

/-- A clear keeps the queue as it should be. -/
theorem Wall.Roomy.clear {w : Wall} (h : w.Roomy) : w.clear.Roomy :=
  ⟨h.head_lt, h.head_lt, h.slot_length⟩

/-! ## The ring keeps the last messages -/

/-- A wall of `n + 1` slots that shows the last `n` of these messages. -/
structure Wall.Shows (n : Nat) (w : Wall) (messages : List Bytes) : Prop where
  /-- one slot more than there can be messages -/
  queue_length : w.queue.length = n + 1
  /-- each with room for a message and its NUL -/
  slot_length : ∀ slot ∈ w.queue, slot.length = 81
  /-- the last messages stand in them, in their order -/
  keeps : ∃ slots, Keeps w.queue w.head w.tail slots ∧
    slots.map printed = (lastN n messages).map some

/-- A new wall shows no messages. -/
theorem Wall.shows_new (n : Nat) : (Wall.new n).Shows n [] where
  queue_length := List.length_replicate
  slot_length := fun slot hslot => by
    obtain rfl := (List.mem_replicate.mp hslot).2
    exact List.length_replicate
  keeps := by
    refine ⟨[], Keeps.nil ?_, by rw [lastN_nil]; rfl⟩
    rw [Wall.new, List.length_replicate]
    exact Nat.succ_pos n

variable {n : Nat} {w : Wall} {messages : List Bytes}

/-- What an accepted post leaves in a slot. -/
theorem memcpy_slot {slot command : Bytes} {size : Nat} (hslot : slot.length = 81)
    (hsize : size ≤ 81) (hcommand : size ≤ command.length) (hzero : 0 ∈ command.take size) :
    ∃ content, memcpy slot 0 command size = some content ∧ content.length = 81 ∧
      printed content = some (cstr (command.take size)) := by
  have htake : (command.take size).length = size := List.length_take_of_le hcommand
  refine ⟨_, memcpy_eq hcommand (by omega), ?_, ?_⟩
  · rw [length_put (by omega), hslot]
  · have hmem : 0 ∈ put slot 0 (command.take size) := by
      rw [put, List.take_zero, List.nil_append]
      exact List.mem_append_left _ hzero
    rw [printed, if_pos hmem, cstr_put hzero]

/-- **A post shows its message, and no longer the oldest one of a full wall.** -/
theorem Wall.Shows.post (h : w.Shows (n + 1) messages) {command : Bytes} {size : Nat}
    (hsize : size ≤ 81) (hcommand : size ≤ command.length) (hzero : 0 ∈ command.take size) :
    ∃ w', w.post command size = some w' ∧
      w'.Shows (n + 1) (messages ++ [cstr (command.take size)]) := by
  obtain ⟨slots, hkeeps, htexts⟩ := h.keeps
  have hqueue := h.queue_length
  have hroom := hkeeps.room
  have htail := hkeeps.tail_lt
  have hget : w.queue[w.tail]? = some w.queue[w.tail] := List.getElem?_eq_getElem htail
  obtain ⟨content, hcopy, hlength, hprinted⟩ :=
    memcpy_slot (h.slot_length _ (List.mem_of_getElem? hget)) hsize hcommand hzero
  have hslots : slots.length = (lastN (n + 1) messages).length := by
    simpa using congrArg List.length htexts
  refine ⟨_, by rw [Wall.post, hget, Option.bind_some, hcopy, Option.map_some], ?_, ?_, ?_⟩
  · rw [List.length_set, hqueue]
  · intro slot hslot
    rcases List.mem_or_eq_of_mem_set hslot with hold | rfl
    · exact h.slot_length slot hold
    · exact hlength
  · rw [lastN_concat, ← hslots]
    by_cases hfull : slots.length < n + 1
    · -- a free slot: `head` stays
      have hpush := hkeeps.push (by omega) content
      have hne : w.head ≠ w.next w.tail := fun heq => by
        rw [Wall.next, hpush.head_eq_tail_iff] at heq
        exact List.append_ne_nil_of_right_ne_nil _ (List.cons_ne_nil _ _) heq
      refine ⟨slots ++ [content], ?_, ?_⟩
      · simp only [if_neg hne]
        exact hpush
      · rw [if_pos hfull, List.map_append, List.map_append, htexts, List.map_singleton, hprinted]
        rfl
    · -- the ring is full: `head` gives up the oldest message
      have hnonempty : slots ≠ [] := fun hnil => hfull (by rw [hnil]; exact Nat.succ_pos n)
      obtain ⟨hround, hpush⟩ := hkeeps.push_full hnonempty (by omega) content
      refine ⟨slots.tail ++ [content], ?_, ?_⟩
      · simp only [Wall.next, hround, if_true]
        rw [hround] at hpush
        exact hpush
      · rw [if_neg hfull, List.map_append, List.map_append, List.map_tail, List.map_tail, htexts,
          List.map_singleton, hprinted]
        rfl

/-- A wall that has been cleared shows nothing. -/
theorem Wall.Shows.clear (h : w.Shows n messages) : w.clear.Shows n [] := by
  obtain ⟨slots, hkeeps, -⟩ := h.keeps
  exact ⟨h.queue_length, h.slot_length, [], Keeps.nil hkeeps.head_lt, by rw [lastN_nil]; rfl⟩

/-- The listing walks over the slots in use, and ends. -/
theorem walk_eq {texts : List Bytes} : ∀ {m : Nat} {slots : List Bytes},
    Keeps w.queue m w.tail slots → slots.map printed = texts.map some →
    ∀ {fuel : Nat}, slots.length < fuel →
      ∃ visited, w.walk fuel m = some visited ∧ visited.map Prod.snd = texts ∧
        ∀ p ∈ visited, p.1 < w.queue.length := by
  induction texts with
  | nil =>
    intro m slots hkeeps htexts fuel hfuel
    obtain rfl : slots = [] := by simpa using htexts
    obtain ⟨fuel, rfl⟩ := Nat.exists_eq_add_one_of_ne_zero (Nat.ne_of_gt hfuel)
    refine ⟨[], ?_, rfl, fun p hp => by cases hp⟩
    rw [Wall.walk, if_pos (hkeeps.head_eq_tail_iff.mpr rfl)]
  | cons text texts ih =>
    intro m slots hkeeps htexts fuel hfuel
    rcases slots with _ | ⟨content, slots⟩
    · cases htexts
    rw [List.map_cons, List.map_cons, List.cons.injEq] at htexts
    obtain ⟨hprinted, htexts⟩ := htexts
    rw [List.length_cons] at hfuel
    obtain ⟨fuel, rfl⟩ := Nat.exists_eq_add_one_of_ne_zero (show fuel ≠ 0 by omega)
    obtain ⟨hget, hpop⟩ := hkeeps.pop
    obtain ⟨visited, hwalk, hsnd, hlt⟩ := ih hpop htexts (Nat.lt_of_succ_lt_succ hfuel)
    have hne : m ≠ w.tail := fun heq => by
      cases hkeeps.head_eq_tail_iff.mp heq
    refine ⟨(m, text) :: visited, ?_, ?_, ?_⟩
    · rw [Wall.walk, if_neg hne, hget, Option.bind_some, hprinted, Option.bind_some, Wall.next,
        hwalk, Option.map_some]
    · rw [List.map_cons, hsnd]
    · exact List.forall_mem_cons.mpr ⟨hkeeps.head_lt, hlt⟩

/-- **Each command** on the wall makes it show what it should. -/
theorem Wall.Shows.step (h : w.Shows (n + 1) messages) {op : WallOp} (hop : op.Accepted) :
    ∃ w', w.step op = some w' ∧ w'.Shows (n + 1) (posted messages op) := by
  cases op with
  | post command namelen messlen =>
    obtain ⟨hlen, hcommand, hzero⟩ := hop
    exact h.post (by omega) hcommand hzero
  | clear => exact ⟨w.clear, rfl, h.clear⟩

/-- The listing of a wall. -/
theorem Wall.Shows.listing (h : w.Shows n messages) (hn : 0 < n) :
    (w.head = w.tail ↔ messages = []) ∧ w.head < n + 1 ∧ w.tail < n + 1 ∧
      ∀ fuel, n < fuel → ∃ visited, w.walk fuel w.head = some visited ∧
        visited.map Prod.snd = lastN n messages ∧ ∀ p ∈ visited, p.1 < n + 1 := by
  obtain ⟨slots, hkeeps, htexts⟩ := h.keeps
  have hroom := hkeeps.room
  have hlength : slots.length = min messages.length n := by
    rw [← length_lastN]
    simpa using congrArg List.length htexts
  rw [h.queue_length] at hroom
  refine ⟨?_, h.queue_length ▸ hkeeps.head_lt, h.queue_length ▸ hkeeps.tail_lt,
    fun fuel hfuel => ?_⟩
  · rw [hkeeps.head_eq_tail_iff, ← List.length_eq_zero_iff, ← List.length_eq_zero_iff, hlength]
    omega
  · rw [← h.queue_length]
    exact walk_eq hkeeps htexts (by omega)

/-- **The wall is the last posts.** After every sequence of accepted posts and clears,
the listing is empty exactly if nothing was posted since the last clear; it ends, and
walks over the last `n` messages since then, oldest first. All pointers stay inside the
`n + 1` slots. -/
theorem wall_shows_last_posts {n : Nat} (hn : 0 < n) {ops : List WallOp}
    (hops : ∀ op ∈ ops, op.Accepted) :
    ∃ w, run Wall.step (Wall.new n) ops = some w ∧ w.queue.length = n + 1 ∧
      w.head < n + 1 ∧ w.tail < n + 1 ∧
      ∀ fuel, n < fuel →
        (w.listing fuel = some none ↔ ops.foldl posted [] = []) ∧
        (ops.foldl posted [] ≠ [] → ∃ visited, w.listing fuel = some (some visited) ∧
          visited.map Prod.snd = lastN n (ops.foldl posted []) ∧ ∀ p ∈ visited, p.1 < n + 1) := by
  obtain ⟨n, rfl⟩ := Nat.exists_eq_add_one_of_ne_zero (Nat.ne_of_gt hn)
  have hstep : ∀ (w : Wall) (messages : List Bytes) (op : WallOp), w.Shows (n + 1) messages →
      op.Accepted → ∃ w', w.step op = some w' ∧ w'.Shows (n + 1) (posted messages op) :=
    fun _ _ _ h hop => h.step hop
  obtain ⟨w, hrun, hshows⟩ :=
    run_of_simulation hstep ops (Wall.shows_new (n + 1)) (throughout_of_forall ops hops)
  obtain ⟨hempty, hhead, htail, hwalk⟩ := hshows.listing hn
  refine ⟨w, hrun, hshows.queue_length, hhead, htail, fun fuel hfuel => ⟨?_, fun hne => ?_⟩⟩
  · rw [Wall.listing, ← hempty]
    split
    · next heq => exact iff_of_true rfl heq
    · next hne =>
      refine iff_of_false (fun hsome => ?_) hne
      obtain ⟨_, -, hcase⟩ := Option.map_eq_some_iff.mp hsome
      cases hcase
  · obtain ⟨visited, hvisited, hsnd, hlt⟩ := hwalk fuel hfuel
    refine ⟨visited, ?_, hsnd, hlt⟩
    rw [Wall.listing, if_neg (fun heq => hne (hempty.mp heq)), hvisited, Option.map_some]

/-- Four posts around a clear, on a wall of two messages. -/
theorem wall_shows_last_posts_sample :
    ∃ w, run Wall.step (Wall.new 2) [.post [97, 58, 32, 0] 1 0, .clear, .post [98, 58, 32, 0] 1 0,
        .post [99, 58, 32, 65, 0] 1 1, .post [100, 58, 32, 0, 7] 1 0] = some w ∧
      ∃ visited, w.listing 3 = some (some visited) ∧ visited.map Prod.snd =
        [[99, 58, 32, 65], [100, 58, 32]] := by
  obtain ⟨w, hrun, -, -, -, hlisting⟩ :=
    wall_shows_last_posts (n := 2) (by decide)
      (by decide : ∀ op ∈ [WallOp.post [97, 58, 32, 0] 1 0, .clear, .post [98, 58, 32, 0] 1 0,
        .post [99, 58, 32, 65, 0] 1 1, .post [100, 58, 32, 0, 7] 1 0], op.Accepted)
  obtain ⟨visited, hvisited, htexts, -⟩ := (hlisting 3 (by decide)).2 (by decide)
  exact ⟨w, hrun, visited, hvisited, by rw [htexts]; decide⟩

end Cop4600
