import Cop4600.PartialRuns
import Cop4600.Printing
import Cop4600.OneWay

/-!
# A client and a server

The two programs of exercise 9 on one connection. The client sends a message, shuts
down its side, and shows what it receives until the end of the stream; the server shows
what it receives until the end of the stream, sends its welcome, and closes. Each call
is a step, and the steps come in any order, with any amount received at a time.
However they come, neither waits for ever, and in the end each has shown what the other
one has sent (`exchange_completes`).
-/

namespace Cop4600

open PartialRuns

/-! ## The programs -/

/-- Where the client is: at `connect`, and so on. -/
inductive ClientLabel : Type where
  | connect
  | send
  | shutdown
  | recv
  | close
  | exited
  deriving DecidableEq, Repr

/-- The server, from `accept` on. -/
inductive ServerLabel : Type where
  | accept
  | recv
  | send
  | close
  | exited
  deriving DecidableEq, Repr

/-- Both programs, the two directions of their connection, and what they have written. -/
structure Exchange : Type where
  /-- where the client is -/
  client : ClientLabel
  /-- where the server is -/
  server : ServerLabel
  /-- what the client has sent -/
  up : OneWay UInt8
  /-- what the server has sent -/
  down : OneWay UInt8
  /-- what the client has shown -/
  clientOut : Bytes
  /-- what the server has shown -/
  serverOut : Bytes

/-- The `message` of the server. -/
def welcome : Bytes := text "Welcome to the server running on REPTILIAN\n"

/-- Whose step it is, and how much `recv` returns if that is the step. -/
inductive ExchangeEvent : Type where
  | client (amount : Nat)
  | server (amount : Nat)

namespace Exchange

/-- A server that listens. -/
def start : Exchange := ⟨.connect, .accept, .fresh, .fresh, [], []⟩

/-- `client.cpp`. A `send` to a server that has exited fails, and is not a step. -/
def clientStep (message : Bytes) (s : Exchange) (amount : Nat) : Option Exchange :=
  match s.client with
  | .connect => some { s with client := .send }
  | .send =>
    if s.server = .exited then none
    else some { s with up := s.up.send message, client := .shutdown }
  | .shutdown => some { s with up := s.up.finish, client := .recv }
  | .recv =>
    (s.down.recv 1024 amount).map fun (buf, down) =>
      if buf = [] then { s with client := .close }
      else { s with down, clientOut := s.clientOut ++ buf }
  | .close => some { s with client := .exited }
  | .exited => none

/-- `server.cpp`. -/
def serverStep (s : Exchange) (amount : Nat) : Option Exchange :=
  match s.server with
  | .accept => if s.client = .connect then none else some { s with server := .recv }
  | .recv =>
    (s.up.recv 1024 amount).map fun (buf, up) =>
      if buf = [] then { s with server := .send }
      else { s with up, serverOut := s.serverOut ++ buf }
  | .send =>
    if s.client = .exited then none
    else some { s with down := s.down.send welcome, server := .close }
  | .close => some { s with down := s.down.finish, server := .exited }
  | .exited => none

def step (message : Bytes) (s : Exchange) : ExchangeEvent → Option Exchange
  | .client amount => s.clientStep message amount
  | .server amount => s.serverStep amount

end Exchange

/-! ## What holds on the way -/

/-- How far the client has got. -/
def ClientLabel.rank : ClientLabel → Nat
  | .connect => 0
  | .send => 1
  | .shutdown => 2
  | .recv => 3
  | .close => 4
  | .exited => 5

def ServerLabel.rank : ServerLabel → Nat
  | .accept => 0
  | .recv => 1
  | .send => 2
  | .close => 3
  | .exited => 4

/-- What the two have sent, what is on its way, and what they have shown. -/
structure Exchange.Sound (message : Bytes) (s : Exchange) : Prop where
  /-- the message is on its way, or shown -/
  up : s.serverOut ++ s.up.pending = if 2 ≤ s.client.rank then message else []
  /-- the client has closed its direction behind it -/
  upEnded : s.up.ended = decide (3 ≤ s.client.rank)
  /-- the server goes on when it has shown all of it -/
  upHeard : 2 ≤ s.server.rank → s.up.ended = true ∧ s.up.pending = []
  /-- the same of the answer -/
  down : s.clientOut ++ s.down.pending = if 3 ≤ s.server.rank then welcome else []
  /-- and of its end -/
  downEnded : s.down.ended = decide (4 ≤ s.server.rank)
  /-- the client goes on when it has shown all of the answer -/
  downHeard : 4 ≤ s.client.rank → s.down.ended = true ∧ s.down.pending = []

/-- The steps to go, and the bytes to receive. -/
def Exchange.remaining (message : Bytes) (s : Exchange) : Nat :=
  (5 - s.client.rank) + (4 - s.server.rank) + (message.length - s.serverOut.length) +
    (welcome.length - s.clientOut.length)

namespace Exchange.Sound

variable {message : Bytes} {s s' : Exchange}

theorem start : Exchange.start.Sound message := by
  refine ⟨rfl, rfl, ?_, rfl, rfl, ?_⟩ <;> intro h <;> revert h <;> decide

/-- What has been shown was sent. -/
theorem serverOut_prefix (h : s.Sound message) : s.serverOut <+: message := by
  have hup := h.up
  split at hup
  · exact ⟨_, hup⟩
  · rw [(List.append_eq_nil_iff.mp hup).1]
    exact List.nil_prefix

theorem clientOut_prefix (h : s.Sound message) : s.clientOut <+: welcome := by
  have hdown := h.down
  split at hdown
  · exact ⟨_, hdown⟩
  · rw [(List.append_eq_nil_iff.mp hdown).1]
    exact List.nil_prefix

/-- A server that has got to the end of the stream has shown the whole message. -/
theorem serverOut_eq (h : s.Sound message) (hheard : 2 ≤ s.server.rank) :
    3 ≤ s.client.rank ∧ s.serverOut = message := by
  obtain ⟨hended, hpending⟩ := h.upHeard hheard
  have hclient : 3 ≤ s.client.rank := of_decide_eq_true (h.upEnded ▸ hended)
  have hup := h.up
  rw [hpending, List.append_nil, if_pos (Nat.le_of_succ_le hclient)] at hup
  exact ⟨hclient, hup⟩

theorem clientOut_eq (h : s.Sound message) (hheard : 4 ≤ s.client.rank) :
    4 ≤ s.server.rank ∧ s.clientOut = welcome := by
  obtain ⟨hended, hpending⟩ := h.downHeard hheard
  have hserver : 4 ≤ s.server.rank := of_decide_eq_true (h.downEnded ▸ hended)
  have hdown := h.down
  rw [hpending, List.append_nil, if_pos (Nat.le_of_succ_le hserver)] at hdown
  exact ⟨hserver, hdown⟩

/-! ### Steps -/

/-- A step that only gets further. -/
theorem remaining_client (l l' : ClientLabel) (hl : s.client = l) (hl' : s'.client = l')
    (hlt : l.rank < l'.rank) (hserver : s'.server = s.server)
    (hclientOut : s'.clientOut = s.clientOut) (hserverOut : s'.serverOut = s.serverOut) :
    s'.remaining message < s.remaining message := by
  have hle : l'.rank ≤ 5 := by
    cases l' <;> decide
  rw [Exchange.remaining, Exchange.remaining, hl, hl', hserver, hclientOut, hserverOut]
  omega

theorem remaining_server (l l' : ServerLabel) (hl : s.server = l) (hl' : s'.server = l')
    (hlt : l.rank < l'.rank) (hclient : s'.client = s.client)
    (hclientOut : s'.clientOut = s.clientOut) (hserverOut : s'.serverOut = s.serverOut) :
    s'.remaining message < s.remaining message := by
  have hle : l'.rank ≤ 4 := by
    cases l' <;> decide
  rw [Exchange.remaining, Exchange.remaining, hl, hl', hclient, hclientOut, hserverOut]
  omega

/-- Bytes that are received are bytes less to receive. -/
theorem lt_of_shown {total shown buf rest : Bytes} {P : Prop} [Decidable P]
    (h : shown ++ buf ++ rest = if P then total else []) (hne : buf ≠ []) :
    total.length - (shown ++ buf).length < total.length - shown.length := by
  have hpos := List.length_pos_iff.mpr hne
  by_cases hP : P
  · rw [if_pos hP] at h
    have hlength := congrArg List.length h
    rw [List.length_append, List.length_append] at hlength
    rw [List.length_append]
    omega
  · rw [if_neg hP] at h
    exact absurd (List.append_eq_nil_iff.mp (List.append_eq_nil_iff.mp h).1).2 hne

/-- **Each step of the client** keeps this, and is one less to go. -/
theorem clientStep (h : s.Sound message) {amount : Nat}
    (hstep : s.clientStep message amount = some s') :
    s'.Sound message ∧ s'.remaining message < s.remaining message := by
  obtain ⟨hup, hupEnded, hupHeard, hdown, hdownEnded, hdownHeard⟩ := id h
  rw [Exchange.clientStep] at hstep
  cases hlabel : s.client with
  | connect =>
    rw [hlabel] at hstep hup hupEnded
    obtain rfl := Option.some.inj hstep
    refine ⟨⟨hup, hupEnded, hupHeard, hdown, hdownEnded, ?_⟩, ?_⟩
    · exact fun hrank : 4 ≤ ClientLabel.send.rank => absurd hrank (by decide)
    · exact remaining_client .connect .send hlabel rfl (by decide) rfl rfl rfl
  | send =>
    rw [hlabel] at hstep hup hupEnded
    dsimp only at hstep
    split at hstep
    · cases hstep
    obtain rfl := Option.some.inj hstep
    obtain ⟨hserverOut, hpending⟩ := List.append_eq_nil_iff.mp hup
    refine ⟨⟨?_, hupEnded, fun hrank => ?_, hdown, hdownEnded, ?_⟩, ?_⟩
    · rw [hserverOut, OneWay.send, hpending]
      rfl
    · exact absurd ((hupHeard hrank).1.symm.trans hupEnded) (by decide)
    · exact fun hrank : 4 ≤ ClientLabel.shutdown.rank => absurd hrank (by decide)
    · exact remaining_client .send .shutdown hlabel rfl (by decide) rfl rfl rfl
  | shutdown =>
    rw [hlabel] at hstep hup
    obtain rfl := Option.some.inj hstep
    refine ⟨⟨hup, rfl, fun hrank => ⟨rfl, (hupHeard hrank).2⟩, hdown, hdownEnded, ?_⟩, ?_⟩
    · exact fun hrank : 4 ≤ ClientLabel.recv.rank => absurd hrank (by decide)
    · exact remaining_client .shutdown .recv hlabel rfl (by decide) rfl rfl rfl
  | recv =>
    rw [hlabel] at hstep hup hupEnded
    obtain ⟨⟨buf, down⟩, hrecv, rfl⟩ := Option.map_eq_some_iff.mp hstep
    dsimp only
    rcases OneWay.recv_cases hrecv with ⟨rfl, rfl, hended, hpending⟩ | ⟨hne, hpending, hended⟩
    · rw [if_pos rfl]
      refine ⟨⟨hup, hupEnded, hupHeard, hdown, hdownEnded, fun _ => ⟨hended, hpending⟩⟩, ?_⟩
      exact remaining_client .recv .close hlabel rfl (by decide) rfl rfl rfl
    · rw [if_neg hne]
      rw [hpending, ← List.append_assoc] at hdown
      refine ⟨⟨hup, hupEnded, hupHeard, hdown, hended.trans hdownEnded, ?_⟩, ?_⟩
      · exact fun hrank : 4 ≤ ClientLabel.recv.rank => absurd hrank (by decide)
      · have hlt := lt_of_shown hdown hne
        simp only [Exchange.remaining, hlabel]
        omega
  | close =>
    rw [hlabel] at hstep hup hupEnded hdownHeard
    obtain rfl := Option.some.inj hstep
    refine ⟨⟨hup, hupEnded, hupHeard, hdown, hdownEnded, fun _ => hdownHeard (by decide)⟩, ?_⟩
    exact remaining_client .close .exited hlabel rfl (by decide) rfl rfl rfl
  | exited =>
    rw [hlabel] at hstep
    cases hstep

/-- **Each step of the server** does the same. -/
theorem serverStep (h : s.Sound message) {amount : Nat} (hstep : s.serverStep amount = some s') :
    s'.Sound message ∧ s'.remaining message < s.remaining message := by
  obtain ⟨hup, hupEnded, hupHeard, hdown, hdownEnded, hdownHeard⟩ := id h
  rw [Exchange.serverStep] at hstep
  cases hlabel : s.server with
  | accept =>
    rw [hlabel] at hstep hdown hdownEnded
    dsimp only at hstep
    split at hstep
    · cases hstep
    obtain rfl := Option.some.inj hstep
    refine ⟨⟨hup, hupEnded, ?_, hdown, hdownEnded, hdownHeard⟩, ?_⟩
    · exact fun hrank : 2 ≤ ServerLabel.recv.rank => absurd hrank (by decide)
    · exact remaining_server .accept .recv hlabel rfl (by decide) rfl rfl rfl
  | recv =>
    rw [hlabel] at hstep hdown hdownEnded
    obtain ⟨⟨buf, up⟩, hrecv, rfl⟩ := Option.map_eq_some_iff.mp hstep
    dsimp only
    rcases OneWay.recv_cases hrecv with ⟨rfl, rfl, hended, hpending⟩ | ⟨hne, hpending, hended⟩
    · rw [if_pos rfl]
      refine ⟨⟨hup, hupEnded, fun _ => ⟨hended, hpending⟩, hdown, hdownEnded, hdownHeard⟩, ?_⟩
      exact remaining_server .recv .send hlabel rfl (by decide) rfl rfl rfl
    · rw [if_neg hne]
      rw [hpending, ← List.append_assoc] at hup
      refine ⟨⟨hup, hended.trans hupEnded, ?_, hdown, hdownEnded, hdownHeard⟩, ?_⟩
      · exact fun hrank : 2 ≤ ServerLabel.recv.rank => absurd hrank (by decide)
      · have hlt := lt_of_shown hup hne
        simp only [Exchange.remaining, hlabel]
        omega
  | send =>
    rw [hlabel] at hstep hdown hdownEnded hupHeard
    dsimp only at hstep
    split at hstep
    · cases hstep
    obtain rfl := Option.some.inj hstep
    obtain ⟨hclientOut, hpending⟩ := List.append_eq_nil_iff.mp hdown
    refine ⟨⟨hup, hupEnded, fun _ => hupHeard (by decide), ?_, hdownEnded, fun hrank => ?_⟩, ?_⟩
    · rw [hclientOut, OneWay.send, hpending]
      rfl
    · exact absurd ((hdownHeard hrank).1.symm.trans hdownEnded) (by decide)
    · exact remaining_server .send .close hlabel rfl (by decide) rfl rfl rfl
  | close =>
    rw [hlabel] at hstep hdown hupHeard
    obtain rfl := Option.some.inj hstep
    refine ⟨⟨hup, hupEnded, fun _ => hupHeard (by decide), hdown, rfl,
      fun hrank => ⟨rfl, (hdownHeard hrank).2⟩⟩, ?_⟩
    exact remaining_server .close .exited hlabel rfl (by decide) rfl rfl rfl
  | exited =>
    rw [hlabel] at hstep
    cases hstep

theorem step (h : s.Sound message) {e : ExchangeEvent} (hstep : s.step message e = some s') :
    s'.Sound message ∧ s'.remaining message < s.remaining message := by
  cases e with
  | client amount => exact h.clientStep hstep
  | server amount => exact h.serverStep hstep

/-- A server that waits has a client that has not shut down its side. -/
theorem exists_serverStep (h : s.Sound message) (hclient : 3 ≤ s.client.rank)
    (hgoing : s.client ≠ .exited) (hserver : s.server ≠ .exited) :
    ∃ amount, (s.serverStep amount).isSome = true := by
  cases hlabel : s.server with
  | accept =>
    refine ⟨0, ?_⟩
    have hconnected : s.client ≠ .connect := by
      intro hconnect
      rw [hconnect] at hclient
      exact absurd hclient (by decide)
    rw [Exchange.serverStep, hlabel]
    dsimp only
    rw [if_neg hconnected]
    rfl
  | recv =>
    have hended : s.up.ended = true := h.upEnded.trans (decide_eq_true hclient)
    obtain ⟨amount, hrecv⟩ := OneWay.exists_recv (by decide : 0 < 1024) (Or.inr hended)
    refine ⟨amount, ?_⟩
    rw [Exchange.serverStep, hlabel]
    dsimp only
    rwa [Option.isSome_map]
  | send =>
    refine ⟨0, ?_⟩
    rw [Exchange.serverStep, hlabel]
    dsimp only
    rw [if_neg hgoing]
    rfl
  | close =>
    refine ⟨0, ?_⟩
    rw [Exchange.serverStep, hlabel]
    rfl
  | exited => exact absurd hlabel hserver

/-- **Nobody waits for ever**: as long as one of the two has not exited, one can go on. -/
theorem exists_step (h : s.Sound message)
    (hgoing : s.client ≠ .exited ∨ s.server ≠ .exited) :
    ∃ e, (s.step message e).isSome = true := by
  cases hlabel : s.client with
  | connect | shutdown | close =>
    refine ⟨.client 0, ?_⟩
    rw [Exchange.step, Exchange.clientStep, hlabel]
    rfl
  | send =>
    -- a server that has exited has heard a client that has shut down its side
    have hserver : s.server ≠ .exited := by
      intro hexited
      have hheard := (h.serverOut_eq (hexited ▸ by decide)).1
      rw [hlabel] at hheard
      exact absurd hheard (by decide)
    refine ⟨.client 0, ?_⟩
    rw [Exchange.step, Exchange.clientStep, hlabel]
    dsimp only
    rw [if_neg hserver]
    rfl
  | recv =>
    by_cases hserver : s.server = .exited
    · have hended : s.down.ended = true := by
        rw [h.downEnded, hserver]
        rfl
      obtain ⟨amount, hrecv⟩ := OneWay.exists_recv (by decide : 0 < 1024) (Or.inr hended)
      refine ⟨.client amount, ?_⟩
      rw [Exchange.step, Exchange.clientStep, hlabel]
      dsimp only
      rwa [Option.isSome_map]
    · obtain ⟨amount, hstep⟩ :=
        h.exists_serverStep (hlabel ▸ by decide) (hlabel ▸ by decide) hserver
      exact ⟨.server amount, hstep⟩
  | exited =>
    have hheard := (h.clientOut_eq (hlabel ▸ by decide)).1
    have hserver : s.server = .exited := by
      cases hs : s.server with
      | exited => rfl
      | accept | recv | send | close =>
        rw [hs] at hheard
        exact absurd hheard (by decide)
    exact absurd hgoing (by rw [hlabel, hserver]; decide)

end Exchange.Sound

/-! ## Every run -/

/-- **The exchange completes.** Whatever the message, and in whatever order the two take
their steps and however much is received at a time: what is shown is always the beginning
of what the other one sends, and the client shows nothing before the server has shown all.
A run is not longer than there are calls and bytes, and one that cannot go on is one in
which both have exited, and have shown everything. -/
theorem exchange_completes {message : Bytes} {events : List ExchangeEvent} {s : Exchange}
    (hrun : run (Exchange.step message) Exchange.start events = some s) :
    s.serverOut <+: message ∧ s.clientOut <+: welcome ∧
    (s.clientOut ≠ [] → s.serverOut = message) ∧
    events.length ≤ 9 + message.length + welcome.length ∧
    ((∀ e, s.step message e = none) →
      s.client = .exited ∧ s.server = .exited ∧ s.serverOut = message ∧ s.clientOut = welcome) := by
  have h : s.Sound message :=
    invariant_of_run (fun _ _ _ h hstep => (h.step hstep).1) events Exchange.Sound.start hrun
  have hlength := length_run_le (f := Exchange.remaining message)
    (fun _ _ _ h hstep => Exchange.Sound.step h hstep) events Exchange.Sound.start hrun
  refine ⟨h.serverOut_prefix, h.clientOut_prefix, ?_, ?_, ?_⟩
  · intro hshown
    have hdown := h.down
    split at hdown
    · next hsaid => exact (h.serverOut_eq (Nat.le_of_succ_le hsaid)).2
    · exact absurd (List.append_eq_nil_iff.mp hdown).1 hshown
  · exact (Nat.le_add_right _ _).trans hlength
  · intro hstuck
    have hexited : s.client = .exited ∧ s.server = .exited := by
      by_contra hgoing
      obtain ⟨e, hstep⟩ := h.exists_step (not_and_or.mp hgoing)
      rw [hstuck e] at hstep
      cases hstep
    exact ⟨hexited.1, hexited.2, (h.serverOut_eq (hexited.2 ▸ by decide)).2,
      (h.clientOut_eq (hexited.1 ▸ by decide)).2⟩

/-- Three bytes, received as one and two; the server has exited before the client reads. -/
theorem exchange_completes_sample :
    ∃ s, run (Exchange.step [72, 105, 10]) Exchange.start
        [.client 0, .server 0, .client 0, .server 1, .client 0, .server 2, .server 0, .server 0,
          .server 0, .client 43, .client 0, .client 0] = some s ∧
      s.serverOut = [72, 105, 10] ∧ s.clientOut = welcome := by
  obtain ⟨s, hrun⟩ : ∃ s, run (Exchange.step [72, 105, 10]) Exchange.start
      [.client 0, .server 0, .client 0, .server 1, .client 0, .server 2, .server 0, .server 0,
        .server 0, .client 43, .client 0, .client 0] = some s := ⟨_, rfl⟩
  obtain ⟨-, -, -, -, hdone⟩ := exchange_completes hrun
  have hstuck : ∀ e, s.step [72, 105, 10] e = none := by
    obtain rfl := Option.some.inj (hrun.symm.trans rfl)
    rintro (amount | amount) <;> rfl
  exact ⟨s, hrun, (hdone hstuck).2.2⟩

end Cop4600
