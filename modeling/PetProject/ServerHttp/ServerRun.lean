import PetProject.Framework.Crowd
import PetProject.ServerHttp.SessionLoop

/-!
# The server at work

`Server_HTTP::Server_HTTP`, `Listener` with its accepting loop, and the sessions that it starts, each
on the strand of its own socket, all with one logger. A logger that has not started leaves a null
pointer behind, which only `fail_report` looks at before it is used.
-/

namespace PetProject.ServerHttp

open Framework Handler

/-- The error codes of the calls that set up the acceptor, by their messages. -/
structure SetUp where
  makeAddress : Option Text
  openAcceptor : Option Text
  reuseAddress : Option Text
  bindAcceptor : Option Text
  listenAcceptor : Option Text
  deriving DecidableEq

/-- What is reported on an error code, if it is one. -/
def reportOf (reason : String) (ec : Option Text) : List Text :=
  (ec.map fun message => reason.toList ++ message).toList

/-- The values of the section that the acceptor is set up with. -/
structure ListenerTexts where
  address : Text
  port : Text

def startingRecord (server : Server) : Text := server.serverName ++ " starting...".toList

def listensRecord (server : Server) (texts : ListenerTexts) : Text :=
  "Server ".toList ++ server.serverName ++ " starts listening port ".toList ++ texts.port ++
    " with IP-address: ".toList ++ texts.address

/-- `Listener::Listener`: whether `_acceptor` listens, and what has been reported and recorded;
`none` when a null logger is dereferenced. -/
def makeListener (server : Server) (texts : ListenerTexts) (logger : Bool) (su : SetUp) :
    Option (Bool × List Text) :=
  let reused := reportOf
    "Failed to allow the socket to be bound to an address that is already in use: " su.reuseAddress
  if su.makeAddress.isSome then
    some (false, reportOf "Something wrong with ip address: " su.makeAddress)
  else if su.openAcceptor.isSome then
    some (false, reportOf "Failed to open acceptor using specified ip address and port: "
      su.openAcceptor)
  else if su.bindAcceptor.isSome then
    some (false, reused ++ reportOf "Failed to bind to the server address: " su.bindAcceptor)
  else if logger then
    some (su.listenAcceptor.isNone, reused ++
      reportOf "Failed to set the maximum length of the queue of pending incoming connections: "
        su.listenAcceptor ++ [listensRecord server texts])
  else none

/-- A session knows the other end of its connection. -/
def Server.withPeer (server : Server) (peer : Peer) : Server := { server with peer := peer }

private theorem report_grows {s : Session} (text : Text) : s.records <+: (s.report text).records :=
  List.prefix_append _ _

private theorem finish_grows (server : Server) (s : Session) (ec shutdown : Option ErrorCode) :
    s.records <+: (s.finish server ec shutdown).records := by
  unfold Session.finish
  split
  case isTrue => exact List.prefix_append _ _
  case isFalse =>
    cases shutdown with
    | none => exact List.prefix_append _ _
    | some ec => exact (List.prefix_append _ _).trans (List.prefix_append _ _)

private theorem records_grow {server : Server} {s t : Session} {a : SessionStep}
    (h : s.step server a = some t) : s.records <+: t.records := by
  cases a with
  | read req handler =>
    rw [Session.step] at h
    split at h
    case isTrue =>
      obtain ⟨responses, hresponses, rfl⟩ := Option.map_eq_some_iff.mp h
      obtain ⟨res, rfl⟩ := handle_sends_one hresponses
      exact List.prefix_append _ _
    case isFalse => cases h
  | readFailed ec shutdown =>
    rw [Session.step] at h
    split at h
    case isTrue =>
      obtain rfl := Option.some.inj h
      exact (report_grows _).trans (finish_grows server _ _ _)
    case isFalse => cases h
  | written shutdown =>
    rw [Session.step] at h
    split at h
    case isTrue =>
      split at h
      case h_1 => cases h
      case h_2 res pending hpending =>
        dsimp only at h
        split at h
        case isTrue =>
          obtain rfl := Option.some.inj h
          exact finish_grows server { s with pending := pending } _ _
        case isFalse =>
          obtain rfl := Option.some.inj h
          exact List.prefix_rfl
    case isFalse => cases h
  | writeFailed ec shutdown =>
    rw [Session.step] at h
    split at h
    case isTrue =>
      obtain rfl := Option.some.inj h
      exact (report_grows _).trans (finish_grows server _ _ _)
    case isFalse => cases h

/-- The sessions of one server, each with its peer. -/
def sessionSpeaker (server : Server) : Speaker (Peer × Session) SessionStep Text where
  machine := ⟨fun m a => (m.2.step (server.withPeer m.1) a).map fun t => (m.1, t)⟩
  speech m := m.2.records
  grows s a t h := by
    obtain ⟨u, hu, rfl⟩ := Option.map_eq_some_iff.mp h
    exact records_grow hu

/-- Whether there is a logger and whether `_acceptor` listens, the sessions with the records that
have been made, the strands of their sockets, and that of `_socket`. -/
structure ServerRun where
  logger : Bool
  listening : Bool
  crowd : Crowd (Peer × Session) Text
  strands : List Nat
  socket : Nat

/-- A connection is accepted, or is accepted and cannot tell its peer any more, which leaves
`remote_port` as it is, or accepting fails; a session is resumed, or makes its next record. -/
inductive ServerStep
  | accepted (peer : Peer)
  | acceptedGone (message : Text) (port : UInt16)
  | failed (message : Text)
  | session (k : Nat) (a : SessionStep)
  | record (k : Nat)

private theorem unspecified_safe : SafeLiteral "0.0.0.0".toList := by decide

/-- The address of a session that has not been told its peer. -/
def unknownPeer (port : UInt16) : Peer := ⟨⟨_, unspecified_safe⟩, port⟩

/-- The peers of the connections that are accepted. -/
def ServerStep.peers : ServerStep → List Peer
  | .accepted peer => [peer]
  | .acceptedGone _ port => [unknownPeer port]
  | _ => []

/-- What the listener reports. -/
def ServerStep.failures : ServerStep → List Text
  | .failed message => ["Failed to accept: ".toList ++ message]
  | _ => []

namespace ServerRun

variable (server : Server)

/-- The server as it is when its threads begin to run. Strand 0 is that of the acceptor. -/
def launch (texts : ListenerTexts) (logger : Bool) (su : SetUp) : Option ServerRun :=
  (makeListener server texts logger su).map fun listener =>
    { logger := logger
      listening := listener.1
      crowd := ⟨[], if logger then (startingRecord server :: listener.2).map fun r => (none, r)
        else []⟩
      strands := []
      socket := 1 }

/-- `_socket` is made anew, on a new strand. -/
def renew (s : ServerRun) : ServerRun := { s with socket := s.socket + 1 }

/-- `Session::Session`; the session takes `_socket`. -/
def newSession (s : ServerRun) (peer : Peer) (session : Session) : ServerRun :=
  { s with
    crowd := s.crowd.join (sessionSpeaker server) (peer, session)
    strands := s.strands ++ [s.socket] }

def failReport (s : ServerRun) (text : Text) : ServerRun :=
  if s.logger then { s with crowd := s.crowd.aside text } else s

/-- `accepting_loop` from one suspension to the next, and the steps of the sessions. -/
def step (s : ServerRun) : ServerStep → Option ServerRun
  | .accepted peer =>
    if s.listening then some (s.newSession server peer (.start (server.withPeer peer))).renew else none
  | .acceptedGone message port =>
    if s.listening then
      some (s.newSession server (unknownPeer port)
        { Session.start (server.withPeer (unknownPeer port)) with
          records := ["Failed to get remote endpoint: ".toList ++ message] }).renew
    else none
  | .failed message => some (s.failReport ("Failed to accept: ".toList ++ message)).renew
  | .session k a => (s.crowd.move (sessionSpeaker server) k a).map fun c => { s with crowd := c }
  | .record k => (s.crowd.say k).map fun c => { s with crowd := c }

def machine : Machine ServerRun ServerStep := ⟨step server⟩

variable {server} {s t : ServerRun}

/-- What one step of the server can do. -/
inductive Fires (server : Server) (s : ServerRun) : ServerStep → ServerRun → Prop
  | connected (a : ServerStep) (peer : Peer) (session : Session) (hlistening : s.listening = true)
      (hsession : session.Orderly (server.withPeer peer)) (hpeers : a.peers = [peer])
      (hfailures : a.failures = []) : Fires server s a (s.newSession server peer session).renew
  | failed (message : Text) :
      Fires server s (.failed message) (s.failReport ("Failed to accept: ".toList ++ message)).renew
  | session (k : Nat) (a : SessionStep) (c : Crowd (Peer × Session) Text)
      (hmove : s.crowd.move (sessionSpeaker server) k a = some c) :
      Fires server s (.session k a) { s with crowd := c }
  | record (k : Nat) (c : Crowd (Peer × Session) Text) (hsay : s.crowd.say k = some c) :
      Fires server s (.record k) { s with crowd := c }

theorem fires {a : ServerStep} (h : s.step server a = some t) : s.Fires server a t := by
  cases a with
  | accepted peer =>
    rw [step] at h
    split at h
    case isTrue hlistening =>
      obtain rfl := Option.some.inj h
      exact .connected _ peer _ hlistening Session.orderly_start rfl rfl
    case isFalse => cases h
  | acceptedGone message port =>
    rw [step] at h
    split at h
    case isTrue hlistening =>
      obtain rfl := Option.some.inj h
      have hstart : (Session.start (server.withPeer (unknownPeer port))).Orderly _ :=
        Session.orderly_start
      exact .connected _ _ _ hlistening ⟨hstart.answered, hstart.sending, hstart.idle, hstart.kept,
        hstart.reading⟩ rfl rfl
    case isFalse => cases h
  | failed message => exact Option.some.inj h ▸ .failed message
  | session k a =>
    obtain ⟨c, hmove, rfl⟩ := Option.map_eq_some_iff.mp h
    exact .session k a c hmove
  | record k =>
    obtain ⟨c, hsay, rfl⟩ := Option.map_eq_some_iff.mp h
    exact .record k c hsay

/-- Every session is in order, on a strand that is its own, neither that of the acceptor nor that of
`_socket`, and its records are in the log in the order in which it has made them. There are sessions
only when there is a logger. -/
structure Sound (server : Server) (s : ServerRun) : Prop where
  orderly : ∀ m ∈ s.crowd.members, m.1.2.Orderly (server.withPeer m.1.1)
  own : s.strands.length = s.crowd.members.length
  ordered : s.strands.Pairwise (· < ·)
  between : ∀ x ∈ s.strands, 0 < x ∧ x < s.socket
  socket : 0 < s.socket
  listening : s.crowd.members ≠ [] → s.listening = true
  logger : s.listening = true → s.logger = true
  accounted : s.crowd.Accounted (sessionSpeaker server)

private theorem Sound.renew (h : s.Sound server) : s.renew.Sound server where
  orderly := h.orderly
  own := h.own
  ordered := h.ordered
  between x hx := ⟨(h.between x hx).1, Nat.lt_succ_of_lt (h.between x hx).2⟩
  socket := Nat.succ_pos _
  listening := h.listening
  logger := h.logger
  accounted := h.accounted

private theorem Sound.failReport (h : s.Sound server) (text : Text) : (s.failReport text).Sound server := by
  rw [ServerRun.failReport]
  split
  · exact ⟨h.orderly, h.own, h.ordered, h.between, h.socket, h.listening, h.logger,
      Crowd.accounted_aside h.accounted text⟩
  · exact h

private theorem Sound.withCrowd (h : s.Sound server) {c : Crowd (Peer × Session) Text}
    (hlength : c.members.length = s.crowd.members.length)
    (horderly : ∀ m ∈ c.members, m.1.2.Orderly (server.withPeer m.1.1))
    (haccounted : c.Accounted (sessionSpeaker server)) :
    { s with crowd := c : ServerRun }.Sound server where
  orderly := horderly
  own := h.own.trans hlength.symm
  ordered := h.ordered
  between := h.between
  socket := h.socket
  listening hne := h.listening (List.ne_nil_of_length_pos
    (hlength ▸ List.length_pos_of_ne_nil hne))
  logger := h.logger
  accounted := haccounted

theorem sound_step {a : ServerStep} (h : s.step server a = some t) (hs : s.Sound server) :
    t.Sound server := by
  have hkeeps : ∀ (m : Peer × Session) (a : SessionStep) (m' : Peer × Session),
      (sessionSpeaker server).machine.step m a = some m' →
      m.2.Orderly (server.withPeer m.1) → m'.2.Orderly (server.withPeer m'.1) := by
    intro m a m' hstep horderly
    obtain ⟨u, hu, rfl⟩ := Option.map_eq_some_iff.mp hstep
    exact Session.orderly_step hu horderly
  cases fires h with
  | connected _ peer session hlistening hsession =>
    refine ⟨?_, ?_, ?_, ?_, Nat.succ_pos _, fun _ => hlistening, hs.logger,
      Crowd.accounted_join hs.accounted _⟩
    · exact Crowd.forall_join (Q := fun m : Peer × Session => m.2.Orderly (server.withPeer m.1))
        hs.orderly hsession
    · rw [ServerRun.renew, newSession, Crowd.join, List.length_append, List.length_append, hs.own]
      rfl
    · refine List.pairwise_append.mpr ⟨hs.ordered, List.pairwise_singleton _ _, ?_⟩
      intro x hx y hy
      rw [List.mem_singleton.mp hy]
      exact (hs.between x hx).2
    · intro x hx
      rcases List.mem_append.mp hx with hx | hx
      · exact ⟨(hs.between x hx).1, Nat.lt_succ_of_lt (hs.between x hx).2⟩
      · rw [List.mem_singleton.mp hx]
        exact ⟨hs.socket, Nat.lt_succ_self _⟩
  | failed message => exact (hs.failReport _).renew
  | session k a c hmove =>
    exact hs.withCrowd (Crowd.length_move hmove)
      (Crowd.forall_move (Q := fun m : Peer × Session => m.2.Orderly (server.withPeer m.1))
        hkeeps hs.orderly hmove) (Crowd.accounted_move hs.accounted hmove)
  | record k c hsay =>
    exact hs.withCrowd (Crowd.length_say hsay)
      (Crowd.forall_say (Q := fun m : Peer × Session => m.2.Orderly (server.withPeer m.1))
        hs.orderly hsay) (Crowd.accounted_say hs.accounted hsay)

private theorem step_accepted (h : s.listening = true) (peer : Peer) :
    s.step server (.accepted peer) =
      some (s.newSession server peer (.start (server.withPeer peer))).renew :=
  if_pos h

/-- The peers of the sessions. -/
def peers (s : ServerRun) : List Peer := s.crowd.members.map fun m => m.1.1

private theorem peers_step {a : ServerStep} (h : s.step server a = some t) :
    t.peers = s.peers ++ a.peers := by
  cases fires h with
  | connected _ peer session hlistening hsession hpeers =>
    rw [hpeers]
    exact List.map_append
  | failed message =>
    have hcrowd : (s.failReport ("Failed to accept: ".toList ++ message)).peers = s.peers := by
      rw [failReport]
      split <;> rfl
    exact hcrowd.trans (List.append_nil _).symm
  | session k a c hmove =>
    have hpeer : ∀ m a m', (sessionSpeaker server).machine.step m a = some m' → m'.1 = m.1 := by
      intro m a m' hstep
      obtain ⟨u, -, rfl⟩ := Option.map_eq_some_iff.mp hstep
      rfl
    exact (Crowd.map_move hpeer hmove).trans (List.append_nil _).symm
  | record k c hsay => exact (Crowd.map_say Prod.fst hsay).trans (List.append_nil _).symm

/-- What the listener has been heard to record. -/
def listenerRecords (s : ServerRun) : List Text := Crowd.words none s.crowd.heard

private theorem listenerRecords_step {a : ServerStep} (h : s.step server a = some t)
    (hlogger : s.logger = true) : t.listenerRecords = s.listenerRecords ++ a.failures := by
  cases fires h with
  | connected _ peer session hlistening hsession hpeers hfailures =>
    have hother := Crowd.words_other (k := none) (l := some s.crowd.members.length) (by simp)
      session.records
    rw [hfailures]
    exact (Crowd.words_append _ _ _).trans (congrArg _ hother)
  | failed message =>
    rw [failReport, if_pos hlogger]
    exact Crowd.words_append _ _ _
  | session k a c hmove =>
    obtain ⟨m, m', -, -, rfl⟩ := Crowd.move_spec hmove
    exact (List.append_nil _).symm
  | record k c hsay =>
    obtain ⟨m, b, rest, -, rfl⟩ := Crowd.say_spec hsay
    have hother := Crowd.words_other (k := none) (l := some k) (by simp) [b]
    exact (Crowd.words_append _ _ _).trans (congrArg _ hother)

private theorem logger_step {a : ServerStep} (h : s.step server a = some t) : t.logger = s.logger := by
  cases fires h with
  | failed message =>
    rw [failReport]
    split <;> rfl
  | connected => rfl
  | session => rfl
  | record => rfl

private theorem listening_step {a : ServerStep} (h : s.step server a = some t) :
    t.listening = s.listening := by
  cases fires h with
  | failed message =>
    rw [failReport]
    split <;> rfl
  | connected => rfl
  | session => rfl
  | record => rfl

private theorem makeListener_listening {texts : ListenerTexts} {logger : Bool} {su : SetUp}
    {listener : Bool × List Text} (h : makeListener server texts logger su = some listener) :
    listener.1 = true ↔ logger = true ∧ su.makeAddress = none ∧ su.openAcceptor = none ∧
      su.bindAcceptor = none ∧ su.listenAcceptor = none := by
  rw [makeListener] at h
  split_ifs at h with haddress hopen hbind hlogger
  · obtain rfl := Option.some.inj h
    exact iff_of_false Bool.false_ne_true fun hset => by simp [hset.2.1] at haddress
  · obtain rfl := Option.some.inj h
    exact iff_of_false Bool.false_ne_true fun hset => by simp [hset.2.2.1] at hopen
  · obtain rfl := Option.some.inj h
    exact iff_of_false Bool.false_ne_true fun hset => by simp [hset.2.2.2.1] at hbind
  · obtain rfl := Option.some.inj h
    rw [Option.not_isSome_iff_eq_none] at haddress hopen hbind
    rw [Option.isNone_iff_eq_none]
    exact ⟨fun hlisten => ⟨hlogger, haddress, hopen, hbind, hlisten⟩, fun hset => hset.2.2.2.2⟩

private theorem sound_launch {texts : ListenerTexts} {logger : Bool} {su : SetUp}
    (h : launch server texts logger su = some s) : s.Sound server := by
  obtain ⟨listener, hlistener, rfl⟩ := Option.map_eq_some_iff.mp h
  refine ⟨?_, rfl, List.Pairwise.nil, ?_, Nat.zero_lt_one, fun hne => absurd rfl hne, ?_, ?_, ?_⟩
  · intro m hm
    cases hm
  · intro x hx
    cases hx
  · exact fun hlistening => ((makeListener_listening hlistener).mp hlistening).1
  · intro k m rest hk
    cases hk
  · intro k _
    dsimp only
    split
    · exact Crowd.words_other (by simp) _
    · rfl

private theorem peers_launch {texts : ListenerTexts} {logger : Bool} {su : SetUp}
    (h : launch server texts logger su = some s) : s.peers = [] := by
  obtain ⟨listener, -, rfl⟩ := Option.map_eq_some_iff.mp h
  rfl

private theorem logger_launch {texts : ListenerTexts} {logger : Bool} {su : SetUp}
    (h : launch server texts logger su = some s) : s.logger = logger := by
  obtain ⟨listener, -, rfl⟩ := Option.map_eq_some_iff.mp h
  rfl

end ServerRun

/-- In every run of the server each accepted connection has one session, in the order in which they
are accepted, each session is in order on a strand of its own, and the log holds the records of each
session and those of the listener, each in their order. -/
theorem server_run_is_sound {server : Server} {texts : ListenerTexts} {logger : Bool} {su : SetUp}
    {s t : ServerRun} {as : List ServerStep}
    (hlaunch : ServerRun.launch server texts logger su = some s)
    (hrun : (ServerRun.machine server).run s as = some t) :
    t.Sound server ∧ t.peers = as.flatMap ServerStep.peers ∧
      (logger = true → t.listenerRecords = s.listenerRecords ++ as.flatMap ServerStep.failures) := by
  refine ⟨?_, ?_, fun hlogger => ?_⟩
  · exact Machine.run_invariant (fun _ _ _ => ServerRun.sound_step) hrun
      (ServerRun.sound_launch hlaunch)
  · have hpeers := Machine.run_appends (M := ServerRun.machine server) (I := fun _ => True)
      (fun _ _ _ _ _ => trivial) (fun _ _ _ h _ => ServerRun.peers_step h) hrun trivial
    rwa [ServerRun.peers_launch hlaunch, List.nil_append] at hpeers
  · exact Machine.run_appends (M := ServerRun.machine server) (I := fun u => u.logger = true)
      (fun _ _ _ h hu => (ServerRun.logger_step h).trans hu)
      (fun _ _ _ => ServerRun.listenerRecords_step) hrun
      ((ServerRun.logger_launch hlaunch).trans hlogger)

def quietSetUp : SetUp := ⟨none, none, none, none, none⟩

/-- The server that has been launched without an error. -/
def emptyRun : ServerRun where
  logger := true
  listening := true
  crowd := ⟨[], [(none, startingRecord emptyServer), (none, listensRecord emptyServer ⟨[], []⟩)]⟩
  strands := []
  socket := 1

theorem server_run_is_sound_one_session :
    let session := Session.start (emptyServer.withPeer emptyServer.peer)
    let t := ((emptyRun.newSession emptyServer emptyServer.peer session).renew.failReport
      "Failed to accept: ".toList).renew
    t.Sound emptyServer ∧ t.peers = [emptyServer.peer] ∧
      (true = true →
        t.listenerRecords = emptyRun.listenerRecords ++ ["Failed to accept: ".toList]) := by
  intro session t
  have hlaunch : ServerRun.launch emptyServer ⟨[], []⟩ true quietSetUp = some emptyRun := rfl
  have hrun : (ServerRun.machine emptyServer).run emptyRun
      [.accepted emptyServer.peer, .failed []] = some t := rfl
  exact server_run_is_sound hlaunch hrun

/-- Without a listening acceptor the accepting loop reports one failure after the other. -/
theorem idle_listener_only_fails {server : Server} {texts : ListenerTexts} {logger : Bool}
    {su : SetUp} {s : ServerRun} (hlaunch : ServerRun.launch server texts logger su = some s)
    (hidle : s.listening = false) (as : List ServerStep) :
    (ServerRun.machine server).Throughout (fun _ a _ => ∃ message, a = .failed message) s as := by
  refine Machine.throughout_of_step (I := fun u => u.Sound server ∧ u.listening = false) ?_ ?_
    ⟨ServerRun.sound_launch hlaunch, hidle⟩ as
  · rintro u a v h ⟨hsound, hlistening⟩
    exact ⟨ServerRun.sound_step h hsound, (ServerRun.listening_step h).trans hlistening⟩
  · rintro u a v h ⟨hsound, hlistening⟩
    have hnobody : ∀ (k : Nat) m, u.crowd.members[k]? ≠ some m := by
      intro k m hk
      have hmember := hsound.listening (List.ne_nil_of_mem (List.mem_of_getElem? hk))
      rw [hlistening] at hmember
      cases hmember
    cases ServerRun.fires h with
    | connected _ _ _ hnew =>
      rw [hlistening] at hnew
      cases hnew
    | failed message => exact ⟨message, rfl⟩
    | session k a c hmove =>
      obtain ⟨m, -, hk, -⟩ := Crowd.move_spec hmove
      exact absurd hk (hnobody k _)
    | record k c hsay =>
      obtain ⟨m, b, rest, hk, -⟩ := Crowd.say_spec hsay
      exact absurd hk (hnobody k _)

/-- A connection can be accepted exactly if the logger has started and the acceptor could be set up:
without a logger either the listener dereferences a null pointer or nothing is ever accepted. -/
theorem server_accepts_iff (server : Server) (texts : ListenerTexts) (logger : Bool) (su : SetUp) :
    (∃ s as t, ServerRun.launch server texts logger su = some s ∧
      (ServerRun.machine server).run s as = some t ∧ t.peers ≠ []) ↔
      logger = true ∧ su.makeAddress = none ∧ su.openAcceptor = none ∧ su.bindAcceptor = none ∧
        su.listenAcceptor = none := by
  constructor
  · rintro ⟨s, as, t, hlaunch, hrun, hpeers⟩
    have hsound := Machine.run_invariant (M := ServerRun.machine server)
      (fun _ _ _ => ServerRun.sound_step) hrun (ServerRun.sound_launch hlaunch)
    have hmembers : t.crowd.members ≠ [] := fun hnil => hpeers (by rw [ServerRun.peers, hnil]; rfl)
    have hsame : t.listening = s.listening :=
      Machine.run_invariant (M := ServerRun.machine server) (P := fun u => u.listening = s.listening)
        (fun _ _ _ h hu => (ServerRun.listening_step h).trans hu) hrun rfl
    have hlistening := hsame.symm.trans (hsound.listening hmembers)
    obtain ⟨listener, hlistener, rfl⟩ := Option.map_eq_some_iff.mp hlaunch
    exact (ServerRun.makeListener_listening hlistener).mp hlistening
  · rintro ⟨rfl, haddress, hopen, hbind, hlisten⟩
    obtain ⟨listener, hlistener⟩ : ∃ listener, makeListener server texts true su = some listener :=
      ⟨_, by rw [makeListener, haddress, hopen, hbind]; rfl⟩
    obtain ⟨s, hs, hlistening⟩ : ∃ s, ServerRun.launch server texts true su = some s ∧
        s.listening = true :=
      ⟨_, Option.map_eq_some_iff.mpr ⟨listener, hlistener, rfl⟩,
        (ServerRun.makeListener_listening hlistener).mpr ⟨rfl, haddress, hopen, hbind, hlisten⟩⟩
    have hstep : s.step server (.accepted server.peer) = _ :=
      ServerRun.step_accepted hlistening server.peer
    refine ⟨s, [.accepted server.peer], _, hs,
      (ServerRun.machine server).run_cons_eq_some.mpr ⟨_, hstep, rfl⟩, ?_⟩
    rw [ServerRun.peers_step hstep]
    exact List.append_ne_nil_of_right_ne_nil _ (List.cons_ne_nil _ _)

end PetProject.ServerHttp
