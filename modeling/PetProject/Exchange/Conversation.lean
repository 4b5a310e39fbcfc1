import PetProject.Framework.Pairing
import PetProject.ServerHttp.SessionLoop

/-!
# A conversation between the client and the server

One connection, with the exchange of `Client_HTTP::do_session` at one end and
`Session::session_loop` at the other. Messages travel in order in both directions, and an operation
reads as many of them into its buffer as have arrived. The buffer of the server lives as long as
the session, that of the client only for one pass of its loop.
-/

namespace PetProject.Exchange

open Framework Handler ServerHttp

/-- What every request of a session of the client is made of. -/
structure Caller where
  clientName : Text
  hostAddress : Text
  portService : Text
  versionText : Text

/-- `version` in the constructor of the client. `std::strcmp` yields zero for equal texts, and
`"\0"` is the empty one. -/
def versionOf (versionText : Text) : Nat :=
  if versionText ≠ [] ∨ versionText = "1.0".toList then 10 else 11

def Caller.version (caller : Caller) : Nat := versionOf caller.versionText

/-- The request that a session makes for a target. It says nothing about the connection, so that
the version decides whether that is to be kept. -/
def Caller.request (caller : Caller) (target : Text) : Request where
  target := target
  host := caller.hostAddress ++ ':' :: caller.portService
  userAgent := caller.clientName
  method := "GET".toList
  version := caller.version
  keepAlive := decide (11 ≤ caller.version)

theorem verb_request (caller : Caller) (target : Text) : (caller.request target).verb = .get := by
  have hget : verbOf "GET".toList = .get := by decide
  exact hget

/-- The characters of which a request target may consist. -/
def isPathchar (c : Char) : Bool := 32 < c.toNat && c.toNat ≠ 127

/-- A request that can be parsed: a blank in the target would end it. -/
def Parseable (req : Request) : Prop := ∀ c ∈ req.target, isPathchar c

instance (req : Request) : Decidable (Parseable req) :=
  inferInstanceAs (Decidable (∀ c ∈ req.target, isPathchar c))

/-- Where the client stands in its exchange. -/
inductive ClientPc
  | ready
  | awaiting (req : Request)
  | reading (req : Request) (res : Response)
  | closed

/-- What the client waits for. -/
def ClientPc.Outstanding : ClientPc → List Request → Prop
  | .ready, reqs => reqs = []
  | .awaiting req, reqs | .reading req _, reqs => reqs = [req]
  | .closed, reqs => reqs.length ≤ 1

theorem ClientPc.Outstanding.length_le {pc : ClientPc} {reqs : List Request}
    (h : pc.Outstanding reqs) : reqs.length ≤ 1 := by
  cases pc with
  | ready => simp [show reqs = [] from h]
  | awaiting req => simp [show reqs = [req] from h]
  | reading req res => simp [show reqs = [req] from h]
  | closed => exact h

/-- Both ends of a connection and what is between them: the requests on their way and those in the
buffer of the server, the responses whose bytes have still to be sent, those on their way and those
in the buffer of the client; what the client has received for its requests, and what has gone with
a buffer of the client. -/
structure Conversation where
  client : ClientPc
  toServer : List Request
  buffer : List Request
  server : Session
  unsent : List Response
  toClient : List Response
  clientBuffer : List Response
  exchanges : List (Request × Response)
  lost : List Response

inductive ConversationStep
  | request (target : Text)
  | requestFailed (target : Text) (sent : Bool)
  | header (arrived : Nat)
  | body (arrived : Nat)
  | giveUp
  | quit
  | serve (arrived : Nat) (handler : ReqInfo → Option (Bool × ReqInfo))
  | readFailed (ec : ErrorCode) (shutdown : Option ErrorCode)
  | transmit
  | written (shutdown : Option ErrorCode)
  | writeFailed (ec : ErrorCode) (shutdown : Option ErrorCode)

namespace Conversation

variable (server : Server) (caller : Caller)

def start : Conversation where
  client := .ready
  toServer := []
  buffer := []
  server := .start server
  unsent := []
  toClient := []
  clientBuffer := []
  exchanges := []
  lost := []

/-- The steps of the client: `async_write`, `async_read_header` and the `async_read` of the rest,
after which the buffer of the pass is gone. -/
def clientStep (s : Conversation) : ConversationStep → Option Conversation
  | .request target =>
    match s.client with
    | .ready =>
      let req := caller.request target
      some { s with client := .awaiting req, toServer := s.toServer ++ [req] }
    | _ => none
  | .requestFailed target sent =>
    match s.client with
    | .ready => some { s with
        client := .closed
        toServer := if sent then s.toServer ++ [caller.request target] else s.toServer }
    | _ => none
  | .header arrived =>
    match s.client, s.clientBuffer ++ s.toClient.take arrived with
    | .awaiting req, res :: rest => some { s with
        client := .reading req res, clientBuffer := rest, toClient := s.toClient.drop arrived }
    | _, _ => none
  | .body arrived =>
    match s.client with
    | .reading req res => some { s with
        client := .ready
        exchanges := s.exchanges ++ [(req, res)]
        lost := s.lost ++ (s.clientBuffer ++ s.toClient.take arrived)
        clientBuffer := []
        toClient := s.toClient.drop arrived }
    | _ => none
  | .giveUp =>
    match s.client with
    | .awaiting _ | .reading _ _ => some { s with client := .closed }
    | _ => none
  | .quit =>
    match s.client with
    | .ready => some { s with client := .closed }
    | _ => none
  | _ => none

/-- The steps of the server, each the resumption of its session; the bytes of a message leave while
its write is pending. -/
def serverStep (s : Conversation) : ConversationStep → Option Conversation
  | .serve arrived handler =>
    match s.buffer ++ s.toServer.take arrived with
    | [] => none
    | req :: rest =>
      if Parseable req then
        (s.server.step server (.read req handler)).map fun u => { s with
          buffer := rest, toServer := s.toServer.drop arrived, server := u, unsent := u.pending }
      else none
  | .readFailed ec shutdown =>
    (s.server.step server (.readFailed ec shutdown)).map fun u => { s with server := u }
  | .transmit =>
    match s.unsent with
    | [] => none
    | res :: rest => some { s with unsent := rest, toClient := s.toClient ++ [res] }
  | .written shutdown =>
    if s.unsent = [] then
      (s.server.step server (.written shutdown)).map fun u => { s with server := u }
    else none
  | .writeFailed ec shutdown =>
    (s.server.step server (.writeFailed ec shutdown)).map fun u =>
      { s with server := u, unsent := [] }
  | _ => none

def step (s : Conversation) (a : ConversationStep) : Option Conversation :=
  (clientStep caller s a).or (serverStep server s a)

/-- The requests between the two ends. -/
def requests (s : Conversation) : List Request := s.buffer ++ s.toServer

/-- The response of which the client has read the header. -/
def parsed (s : Conversation) : List Response :=
  match s.client with
  | .reading _ res => [res]
  | _ => []

/-- The responses between the two ends. -/
def responses (s : Conversation) : List Response :=
  s.parsed ++ (s.clientBuffer ++ (s.toClient ++ s.unsent))

/-- The messages between the two ends. -/
def inFlight (s : Conversation) : Nat := s.requests.length + s.responses.length

end Conversation

def conversationMachine (server : Server) (caller : Caller) :
    Machine Conversation ConversationStep :=
  ⟨Conversation.step server caller⟩

namespace Conversation

variable {server : Server} {caller : Caller}

/-! ## What a step can do -/

/-- The enabled steps, one rule for each way in which the conversation can go on. -/
inductive Fires (server : Server) (caller : Caller) (s : Conversation) :
    ConversationStep → Conversation → Prop
  | request (target : Text) (hclient : s.client = .ready) :
      Fires server caller s (.request target) { s with
        client := .awaiting (caller.request target)
        toServer := s.toServer ++ [caller.request target] }
  | requestFailed (target : Text) (sent : Bool) (hclient : s.client = .ready) :
      Fires server caller s (.requestFailed target sent) { s with
        client := .closed
        toServer := if sent then s.toServer ++ [caller.request target] else s.toServer }
  | header (arrived : Nat) (req : Request) (res : Response) (rest : List Response)
      (hclient : s.client = .awaiting req)
      (harrived : s.clientBuffer ++ s.toClient.take arrived = res :: rest) :
      Fires server caller s (.header arrived) { s with
        client := .reading req res, clientBuffer := rest, toClient := s.toClient.drop arrived }
  | body (arrived : Nat) (req : Request) (res : Response)
      (hclient : s.client = .reading req res) :
      Fires server caller s (.body arrived) { s with
        client := .ready
        exchanges := s.exchanges ++ [(req, res)]
        lost := s.lost ++ (s.clientBuffer ++ s.toClient.take arrived)
        clientBuffer := []
        toClient := s.toClient.drop arrived }
  | giveUp : Fires server caller s .giveUp { s with client := .closed }
  | quit : Fires server caller s .quit { s with client := .closed }
  | serve (arrived : Nat) (handler : ReqInfo → Option (Bool × ReqInfo)) (req : Request)
      (rest : List Request) (u : Session)
      (harrived : s.buffer ++ s.toServer.take arrived = req :: rest) (hparse : Parseable req)
      (hstep : s.server.step server (.read req handler) = some u) :
      Fires server caller s (.serve arrived handler) { s with
        buffer := rest, toServer := s.toServer.drop arrived, server := u, unsent := u.pending }
  | readFailed (ec : ErrorCode) (shutdown : Option ErrorCode) (u : Session)
      (hstep : s.server.step server (.readFailed ec shutdown) = some u) :
      Fires server caller s (.readFailed ec shutdown) { s with server := u }
  | transmit (res : Response) (rest : List Response) (hunsent : s.unsent = res :: rest) :
      Fires server caller s .transmit
        { s with unsent := rest, toClient := s.toClient ++ [res] }
  | written (shutdown : Option ErrorCode) (u : Session) (hunsent : s.unsent = [])
      (hstep : s.server.step server (.written shutdown) = some u) :
      Fires server caller s (.written shutdown) { s with server := u }
  | writeFailed (ec : ErrorCode) (shutdown : Option ErrorCode) (u : Session)
      (hstep : s.server.step server (.writeFailed ec shutdown) = some u) :
      Fires server caller s (.writeFailed ec shutdown) { s with server := u, unsent := [] }

private theorem fires_client {s t : Conversation} {a : ConversationStep}
    (h : clientStep caller s a = some t) : s.Fires server caller a t := by
  cases a with
  | request target =>
    unfold clientStep at h
    cases hclient : s.client with
    | ready =>
      rw [hclient] at h
      exact Option.some.inj h ▸ .request target hclient
    | _ => rw [hclient] at h; exact nomatch h
  | requestFailed target sent =>
    unfold clientStep at h
    cases hclient : s.client with
    | ready =>
      rw [hclient] at h
      exact Option.some.inj h ▸ .requestFailed target sent hclient
    | _ => rw [hclient] at h; exact nomatch h
  | header arrived =>
    unfold clientStep at h
    dsimp only at h
    split at h
    case h_1 req res rest hclient harrived =>
      exact Option.some.inj h ▸ .header arrived req res rest hclient harrived
    case h_2 => exact nomatch h
  | body arrived =>
    unfold clientStep at h
    cases hclient : s.client with
    | reading req res =>
      rw [hclient] at h
      exact Option.some.inj h ▸ .body arrived req res hclient
    | _ => rw [hclient] at h; exact nomatch h
  | giveUp =>
    unfold clientStep at h
    cases hclient : s.client with
    | awaiting | reading => rw [hclient] at h; exact Option.some.inj h ▸ .giveUp
    | _ => rw [hclient] at h; exact nomatch h
  | quit =>
    unfold clientStep at h
    cases hclient : s.client with
    | ready => rw [hclient] at h; exact Option.some.inj h ▸ .quit
    | _ => rw [hclient] at h; exact nomatch h
  | _ => exact nomatch h

private theorem fires_server {s t : Conversation} {a : ConversationStep}
    (h : serverStep server s a = some t) : s.Fires server caller a t := by
  cases a with
  | serve arrived handler =>
    unfold serverStep at h
    dsimp only at h
    split at h
    case h_1 => exact nomatch h
    case h_2 req rest harrived =>
      split at h
      case isTrue hparse =>
        obtain ⟨u, hu, rfl⟩ := Option.map_eq_some_iff.mp h
        exact .serve arrived handler req rest u harrived hparse hu
      case isFalse => exact nomatch h
  | readFailed ec shutdown =>
    obtain ⟨u, hu, rfl⟩ := Option.map_eq_some_iff.mp h
    exact .readFailed ec shutdown u hu
  | transmit =>
    unfold serverStep at h
    cases hunsent : s.unsent with
    | nil => rw [hunsent] at h; exact nomatch h
    | cons res rest =>
      rw [hunsent] at h
      exact Option.some.inj h ▸ .transmit res rest hunsent
  | written shutdown =>
    unfold serverStep at h
    dsimp only at h
    split at h
    case isTrue hunsent =>
      obtain ⟨u, hu, rfl⟩ := Option.map_eq_some_iff.mp h
      exact .written shutdown u hunsent hu
    case isFalse => exact nomatch h
  | writeFailed ec shutdown =>
    obtain ⟨u, hu, rfl⟩ := Option.map_eq_some_iff.mp h
    exact .writeFailed ec shutdown u hu
  | _ => exact nomatch h

theorem fires {s t : Conversation} {a : ConversationStep} (h : s.step server caller a = some t) :
    s.Fires server caller a t := by
  rcases Option.or_eq_some_iff.mp h with h | ⟨-, h⟩
  · exact fires_client h
  · exact fires_server h

/-! ## Requests and responses stay in order -/

/-- Requests and responses are paired off in order, and at most one request is outstanding. -/
def InOrder (s : Conversation) : Prop :=
  ∃ outstanding dropped,
    Paired s.server.served s.exchanges s.requests outstanding s.responses dropped ∧
      s.client.Outstanding outstanding

private theorem InOrder.inFlight_le {s : Conversation} (h : s.InOrder) : s.inFlight ≤ 1 := by
  obtain ⟨outstanding, dropped, hpaired, hclient⟩ := h
  have hlength := hpaired.length_add
  have hone := hclient.length_le
  unfold inFlight
  omega

theorem InOrder.alone {s : Conversation} (h : s.InOrder) {req : Request} {res : Response}
    (hreading : s.client = .reading req res) :
    s.clientBuffer ++ (s.toClient ++ s.unsent) = [] := by
  have hone := h.inFlight_le
  rw [inFlight, responses, parsed, hreading, List.length_append, List.length_singleton] at hone
  exact List.length_eq_zero_iff.mp (by omega)

private theorem inOrder_start : (start server).InOrder := ⟨[], [], .start, rfl⟩

theorem InOrder.close {s : Conversation} (h : s.InOrder) :
    InOrder { s with client := .closed } := by
  have ⟨outstanding, dropped, hpaired, hclient⟩ := h
  have hlength := hclient.length_le
  cases hpc : s.client with
  | reading req res =>
    have hrest := h.alone hpc
    have hresponses : s.responses = [] ++ [res] := by
      rw [responses, parsed, hpc, hrest]
      rfl
    have hclosed : responses { s with client := .closed } = [] := hrest
    rw [hresponses] at hpaired
    refine ⟨outstanding, [res] ++ dropped, ?_, hlength⟩
    rw [hclosed]
    exact hpaired.drop
  | _ =>
    refine ⟨outstanding, dropped, ?_, hlength⟩
    rwa [responses, parsed, hpc] at hpaired

theorem inOrder_step {s t : Conversation} {a : ConversationStep}
    (hstep : s.step server caller a = some t) (horderly : s.server.Orderly server)
    (h : s.InOrder) : t.InOrder := by
  cases fires hstep with
  | request target hready =>
    obtain ⟨outstanding, dropped, hpaired, hclient⟩ := h
    rw [hready] at hclient
    obtain rfl : outstanding = [] := hclient
    refine ⟨[caller.request target], dropped, ?_, rfl⟩
    have hasked := hpaired.ask (caller.request target)
    rwa [requests, responses, parsed, hready, List.append_assoc] at hasked
  | requestFailed target sent hready =>
    cases sent with
    | false => exact h.close
    | true =>
      obtain ⟨outstanding, dropped, hpaired, hclient⟩ := h
      rw [hready] at hclient
      obtain rfl : outstanding = [] := hclient
      refine ⟨[caller.request target], dropped, ?_, le_rfl⟩
      have hasked := hpaired.ask (caller.request target)
      rwa [requests, responses, parsed, hready, List.append_assoc] at hasked
  | header arrived req res rest hawaiting harrived =>
    obtain ⟨outstanding, dropped, hpaired, hclient⟩ := h
    rw [hawaiting] at hclient
    refine ⟨outstanding, dropped, ?_, hclient⟩
    have hresponses : s.responses =
        [res] ++ (rest ++ (s.toClient.drop arrived ++ s.unsent)) := by
      rw [responses, parsed, hawaiting, List.nil_append, ← List.append_assoc, ← List.append_assoc,
        ← List.take_append_drop arrived s.toClient, ← List.append_assoc, harrived]
      simp
    rwa [hresponses] at hpaired
  | body arrived req res hreading =>
    have hrest := h.alone hreading
    obtain ⟨outstanding, dropped, hpaired, hclient⟩ := h
    rw [hreading] at hclient
    obtain rfl : outstanding = [req] := hclient
    rw [responses, parsed, hreading, hrest] at hpaired
    simp only [List.append_eq_nil_iff] at hrest
    obtain ⟨-, harriving, hunsent⟩ := hrest
    refine ⟨[], dropped, ?_, rfl⟩
    have hquiet : responses { s with
        client := .ready
        exchanges := s.exchanges ++ [(req, res)]
        lost := s.lost ++ (s.clientBuffer ++ s.toClient.take arrived)
        clientBuffer := []
        toClient := s.toClient.drop arrived } = [] := by
      simp [responses, parsed, harriving, hunsent]
    rw [hquiet]
    exact hpaired.take
  | giveUp => exact h.close
  | quit => exact h.close
  | serve arrived handler req rest u harrived hparse hread =>
    obtain ⟨outstanding, dropped, hpaired, hclient⟩ := h
    obtain ⟨hpc, res, hanswer, hserved, hpending⟩ := Session.read_spec hread
    have hidle : s.server.pending = [] := horderly.idle (by rw [hpc]; exact nofun)
    have hrequests : s.requests = req :: (rest ++ s.toServer.drop arrived) := by
      rw [requests, ← List.take_append_drop arrived s.toServer, ← List.append_assoc, harrived]
      simp
    have hlength := hpaired.length_add
    have houtstanding := hclient.length_le
    rw [hrequests, List.length_cons] at hlength
    have hresponses : s.responses = [] := List.length_eq_zero_iff.mp (by omega)
    have hdropped : dropped = [] := List.length_eq_zero_iff.mp (by omega)
    rw [hrequests, hresponses, hdropped] at hpaired
    simp only [responses, List.append_eq_nil_iff] at hresponses
    obtain ⟨hparsed, hbuffer, harriving, hunsent⟩ := hresponses
    refine ⟨outstanding, [], ?_, hclient⟩
    have hanswered : responses { s with
        buffer := rest, toServer := s.toServer.drop arrived, server := u, unsent := u.pending } =
          [] ++ [res] := by
      rw [responses, hbuffer, harriving, hpending, hidle]
      exact congrArg (· ++ [res]) hparsed
    rw [hanswered]
    have hnext := hpaired.serve res
    rwa [← hserved] at hnext
  | readFailed ec shutdown u hread =>
    have hserved := Session.served_of_step hread nofun
    obtain ⟨outstanding, dropped, hpaired, hclient⟩ := h
    rw [← hserved] at hpaired
    exact ⟨outstanding, dropped, hpaired, hclient⟩
  | transmit res rest hunsent =>
    obtain ⟨outstanding, dropped, hpaired, hclient⟩ := h
    refine ⟨outstanding, dropped, ?_, hclient⟩
    rw [responses, hunsent, List.append_cons s.toClient] at hpaired
    exact hpaired
  | written shutdown u hunsent hwritten =>
    have hserved := Session.served_of_step hwritten nofun
    obtain ⟨outstanding, dropped, hpaired, hclient⟩ := h
    rw [← hserved] at hpaired
    exact ⟨outstanding, dropped, hpaired, hclient⟩
  | writeFailed ec shutdown u hfailed =>
    have hserved := Session.served_of_step hfailed nofun
    obtain ⟨outstanding, dropped, hpaired, hclient⟩ := h
    refine ⟨outstanding, s.unsent ++ dropped, ?_, hclient⟩
    have hresponses : s.responses = s.parsed ++ (s.clientBuffer ++ s.toClient) ++ s.unsent := by
      simp [responses]
    rw [hresponses, ← hserved] at hpaired
    have hdropped := hpaired.drop
    rwa [← List.append_nil s.toClient] at hdropped

/-- What holds throughout a conversation. -/
structure Sound (server : Server) (caller : Caller) (s : Conversation) : Prop where
  orderly : s.server.Orderly server
  inOrder : s.InOrder
  lost : s.lost = []
  asked : ∀ req ∈ s.requests, ∃ target, req = caller.request target
  served : ∀ p ∈ s.server.served, (∃ target, p.1 = caller.request target) ∧ Parseable p.1

theorem sound_start (server : Server) (caller : Caller) :
    (start server).Sound server caller where
  orderly := Session.orderly_start
  inOrder := inOrder_start
  lost := rfl
  asked := nofun
  served := nofun

private theorem asked_append {reqs : List Request}
    (h : ∀ req ∈ reqs, ∃ target, req = caller.request target) (target : Text) :
    ∀ req ∈ reqs ++ [caller.request target], ∃ target, req = caller.request target := by
  intro req hreq
  rcases List.mem_append.mp hreq with hreq | hreq
  · exact h req hreq
  · exact ⟨target, List.mem_singleton.mp hreq⟩

theorem sound_step {s t : Conversation} {a : ConversationStep}
    (hstep : s.step server caller a = some t) (h : s.Sound server caller) :
    t.Sound server caller := by
  have hinOrder := inOrder_step hstep h.orderly h.inOrder
  cases fires hstep with
  | request target hready =>
    refine ⟨h.orderly, hinOrder, h.lost, ?_, h.served⟩
    rw [requests, ← List.append_assoc]
    exact asked_append h.asked target
  | requestFailed target sent hready =>
    refine ⟨h.orderly, hinOrder, h.lost, ?_, h.served⟩
    cases sent with
    | false => exact h.asked
    | true =>
      rw [requests, if_pos rfl, ← List.append_assoc]
      exact asked_append h.asked target
  | header | giveUp | quit | transmit => exact ⟨h.orderly, hinOrder, h.lost, h.asked, h.served⟩
  | body arrived req res hreading =>
    refine ⟨h.orderly, hinOrder, ?_, h.asked, h.served⟩
    -- the buffer that goes with the pass is empty
    have hrest := h.inOrder.alone hreading
    simp only [List.append_eq_nil_iff] at hrest
    simp [h.lost, hrest]
  | serve arrived handler req rest u harrived hparse hread =>
    obtain ⟨-, res, -, hserved, -⟩ := Session.read_spec hread
    have hrequests : s.requests = req :: (rest ++ s.toServer.drop arrived) := by
      rw [requests, ← List.take_append_drop arrived s.toServer, ← List.append_assoc, harrived]
      simp
    have hasked := h.asked
    rw [hrequests, List.forall_mem_cons] at hasked
    refine ⟨Session.orderly_step hread h.orderly, hinOrder, h.lost, hasked.2, fun p hp => ?_⟩
    change p ∈ u.served at hp
    rw [hserved] at hp
    rcases List.mem_append.mp hp with hp | hp
    · exact h.served p hp
    · rw [List.mem_singleton.mp hp]
      exact ⟨hasked.1, hparse⟩
  | readFailed ec shutdown u hu | written shutdown u hunsent hu | writeFailed ec shutdown u hu =>
    refine ⟨Session.orderly_step hu h.orderly, hinOrder, h.lost, h.asked, ?_⟩
    rw [Session.served_of_step hu nofun]
    exact h.served

/-- The handlers that work on the requests of a run have a property. -/
def UsesHandlers (Q : (ReqInfo → Option (Bool × ReqInfo)) → Prop) (a : ConversationStep) : Prop :=
  ∀ arrived handler, a = .serve arrived handler → Q handler

theorem served_by_step {Q : (ReqInfo → Option (Bool × ReqInfo)) → Prop} {s t : Conversation}
    {a : ConversationStep} (hstep : s.step server caller a = some t) (ha : UsesHandlers Q a)
    (h : ∀ p ∈ s.server.served, ∃ handler, Q handler ∧ server.handle handler p.1 = some [p.2]) :
    ∀ p ∈ t.server.served, ∃ handler, Q handler ∧ server.handle handler p.1 = some [p.2] := by
  cases fires hstep with
  | serve arrived handler req rest u harrived hparse hread =>
    obtain ⟨-, res, hanswer, hserved, -⟩ := Session.read_spec hread
    intro p hp
    change p ∈ u.served at hp
    rw [hserved] at hp
    rcases List.mem_append.mp hp with hp | hp
    · exact h p hp
    · rw [List.mem_singleton.mp hp]
      exact ⟨handler, ha arrived handler rfl, hanswer⟩
  | readFailed ec shutdown u hu | written shutdown u hunsent hu | writeFailed ec shutdown u hu =>
    rw [Session.served_of_step hu nofun]
    exact h
  | _ => exact h

end Conversation

/-- Whatever fails and however messages arrive, the pairs of requests and responses at the client
are those that the server has made, in order, but for at most one that is still to come; each
response answers its request; at most one message is on its way; and no buffer of the client takes
a message with it. -/
theorem exchanges_match_served (server : Server) (caller : Caller) (as : List ConversationStep) :
    (conversationMachine server caller).Always
      (fun s => s.exchanges <+: s.server.served ∧
        s.server.served.length ≤ s.exchanges.length + 1 ∧ s.inFlight ≤ 1 ∧ s.lost = [] ∧
        ∀ p ∈ s.exchanges, server.Answers p.1 p.2 ∧ (∃ target, p.1 = caller.request target) ∧
          Parseable p.1)
      (.start server) as := by
  refine (Machine.always_of_step (fun _ _ _ => Conversation.sound_step)
    (Conversation.sound_start server caller) as).mono fun s h => ?_
  have hflight := h.inOrder.inFlight_le
  obtain ⟨outstanding, dropped, hpaired, hclient⟩ := h.inOrder
  have htaken := hpaired.taken_prefix
  have hlength := hpaired.length_add
  have hanswered := congrArg List.length hpaired.answered
  have hone := hclient.length_le
  simp only [List.length_append, List.length_map] at hanswered
  refine ⟨htaken, by omega, hflight, h.lost, fun p hp => ?_⟩
  have hserved := htaken.subset hp
  exact ⟨h.orderly.answered p hserved, h.served p hserved⟩

end PetProject.Exchange
