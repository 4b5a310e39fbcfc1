import PetProject.Framework.Machine
import PetProject.ServerHttp.HandleRequest

/-!
# The session loop of the server

`Session::session_loop`, a coroutine that is resumed by the completion of the read or of the write
that it has started last. The message that is being written is kept alive by `_res_sp`; whether the
connection is to be closed behind it is bound to the handler of the write.
-/

namespace PetProject.ServerHttp

open Framework Database Handler

/-- An operation on a stream has met the end of the stream, has timed out, or has failed. -/
inductive IoError
  | endOfStream
  | timeout
  | other
  deriving DecidableEq, Repr

structure ErrorCode where
  kind : IoError
  message : Text

/-- `need_eof()`; the length of the body is set in every response. -/
def Response.needEof (res : Response) : Bool := !res.keepAlive

/-- What the coroutine waits for. -/
inductive SessionPc
  | reading
  | sending
  | ended
  deriving DecidableEq, Repr

/-- A session: the writes that have been started and have not completed, `_res_sp`, the requests
that have been read with the responses to them, the records in the log, and how often the socket
has been shut down. -/
structure Session where
  pc : SessionPc
  pending : List Response
  resSp : Option Response
  served : List (Request × Response)
  records : List Text
  shutdowns : Nat

namespace Server

variable (server : Server)

def peerText : Text :=
  "IP-address: ".toList ++ server.peer.address.1 ++ ", port: ".toList ++
    decimal server.peer.port.toNat

/-- What `handle` reports: a file request that the handler has found nothing for. -/
def handleReports (handler : ReqInfo → Option (Bool × ReqInfo)) (req : Request) : List Text :=
  if req.verb = .other then []
  else
    match handler (handlerVectorFill server.peer req.toHttpRequest) with
    | none => []
    | some (ifFile, info) =>
      if ifFile = true ∧ info.result = [] then
        [info.error ++ " (request from ip-address: ".toList ++ server.peer.address.1 ++
          ", port: ".toList ++ decimal server.peer.port.toNat ++ [')']]
      else []

end Server

namespace Session

variable (server : Server)

def start : Session where
  pc := .reading
  pending := []
  resSp := none
  served := []
  records := ["Connected to ".toList ++ server.peerText]
  shutdowns := 0

/-- `send_lambda`. -/
def send (s : Session) (res : Response) : Session :=
  { s with resSp := some res, pending := s.pending ++ [res] }

def report (s : Session) (text : Text) : Session := { s with records := s.records ++ [text] }

/-- What is done behind the loop, with the error of the last operation and of the shutdown. -/
def finish (s : Session) (ec shutdown : Option ErrorCode) : Session :=
  let s := { s with pc := .ended, pending := [] }
  if ec.map ErrorCode.kind = some .timeout then
    s.report ("Connection with ".toList ++ server.peerText ++ " closed due to timeout".toList)
  else
    let s := { s.report ("Closing connection with ".toList ++ server.peerText ++ " : ".toList) with
      shutdowns := s.shutdowns + 1 }
    match shutdown with
    | none => s
    | some ec =>
      s.report ("Error while closing connection with ".toList ++ server.peerText ++ " : ".toList ++
        ec.message)

end Session

/-- How the session is resumed: with the request that has been read, on which the handler works, or
with the error of the read; with the message that has been written, or with the error of the
write. -/
inductive SessionStep
  | read (req : Request) (handler : ReqInfo → Option (Bool × ReqInfo))
  | readFailed (ec : ErrorCode) (shutdown : Option ErrorCode)
  | written (shutdown : Option ErrorCode)
  | writeFailed (ec : ErrorCode) (shutdown : Option ErrorCode)

namespace Session

variable (server : Server)

/-- The report on a read that has failed. -/
def readReport (ec : ErrorCode) : Text :=
  if ec.kind = .endOfStream then
    "The remote host with ".toList ++ server.peerText ++ " closed the connection: ".toList ++
      ec.message
  else
    "Error while reading message from remote host with ".toList ++ server.peerText ++
      " : ".toList ++ ec.message

def writeReport (ec : ErrorCode) : Text :=
  "Error while writing response to remote host with ".toList ++ server.peerText ++ " : ".toList ++
    ec.message

/-- `session_loop`, from one suspension to the next. The request is handled as soon as it has been
read; every message that `handle` sends starts a write. -/
def step (s : Session) : SessionStep → Option Session
  | .read req handler =>
    if s.pc = .reading then
      (server.handle handler req).map fun responses =>
        let s := { s with
          pc := .sending
          served := s.served ++ responses.map fun res => (req, res)
          records := s.records ++ server.handleReports handler req }
        responses.foldl send s
    else none
  | .readFailed ec shutdown =>
    if s.pc = .reading then
      some ((s.report (readReport server ec)).finish server (some ec) shutdown)
    else none
  | .written shutdown =>
    if s.pc = .sending then
      match s.pending with
      | [] => none
      | res :: pending =>
        let s := { s with pending := pending }
        if res.needEof then some (s.finish server none shutdown)
        else some { s with pc := .reading, resSp := none }
    else none
  | .writeFailed ec shutdown =>
    if s.pc = .sending ∧ s.pending ≠ [] then
      some ((s.report (writeReport server ec)).finish server (some ec) shutdown)
    else none

@[simp] theorem finish_pc (s : Session) (ec shutdown : Option ErrorCode) :
    (s.finish server ec shutdown).pc = .ended := by
  unfold finish report
  split
  · rfl
  · cases shutdown <;> rfl

@[simp] theorem finish_pending (s : Session) (ec shutdown : Option ErrorCode) :
    (s.finish server ec shutdown).pending = [] := by
  unfold finish report
  split
  · rfl
  · cases shutdown <;> rfl

@[simp] theorem finish_served (s : Session) (ec shutdown : Option ErrorCode) :
    (s.finish server ec shutdown).served = s.served := by
  unfold finish report
  split
  · rfl
  · cases shutdown <;> rfl

@[simp] theorem finish_resSp (s : Session) (ec shutdown : Option ErrorCode) :
    (s.finish server ec shutdown).resSp = s.resSp := by
  unfold finish report
  split
  · rfl
  · cases shutdown <;> rfl

@[simp] theorem report_served (s : Session) (text : Text) : (s.report text).served = s.served := rfl

end Session

/-! ## One response for each request -/

/-- On every path `handle` sends one message. -/
theorem handle_sends_one {server : Server} {handler : ReqInfo → Option (Bool × ReqInfo)}
    {req : Request} {responses : List Response} (h : server.handle handler req = some responses) :
    ∃ res, responses = [res] := by
  unfold Server.handle at h
  split at h
  case isTrue => exact ⟨_, (Option.some.inj h).symm⟩
  case isFalse =>
    obtain ⟨⟨ifFile, info⟩, -, rfl⟩ := Option.map_eq_some_iff.mp h
    dsimp only
    unfold Server.respond
    split
    case isTrue => cases req.verb <;> exact ⟨_, rfl⟩
    case isFalse =>
      split
      case isTrue => exact ⟨_, rfl⟩
      case isFalse =>
        cases server.openFile info.result with
        | error message => exact ⟨_, rfl⟩
        | ok body => cases req.verb <;> exact ⟨_, rfl⟩

namespace Server

/-- The response is what the server sends for the request, however the handler works. -/
def Answers (server : Server) (req : Request) (res : Response) : Prop :=
  ∃ handler, server.handle handler req = some [res]

private theorem respond_keepAlive {server : Server} {req : Request} {ifFile : Bool} {info : ReqInfo} :
    ∀ res ∈ server.respond req ifFile info, res.keepAlive = req.keepAlive := by
  intro res hres
  unfold respond at hres
  split at hres
  case isTrue => cases hverb : req.verb <;> simp_all [emptyTableRes, stringBodyRes, unknownMethodRes]
  case isFalse =>
    split at hres
    case isTrue => simp_all [stringBodyRes]
    case isFalse =>
      split at hres
      · simp_all [stringBodyRes]
      · cases hverb : req.verb <;> simp_all [fileRes, stringBodyRes, unknownMethodRes]

theorem Answers.keepAlive {server : Server} {req : Request} {res : Response}
    (h : server.Answers req res) : res.keepAlive = req.keepAlive := by
  obtain ⟨handler, h⟩ := h
  unfold handle at h
  split at h
  case isTrue =>
    obtain rfl : server.unknownMethodRes req = res := by simpa using h
    rfl
  case isFalse =>
    obtain ⟨handled, -, hres⟩ := Option.map_eq_some_iff.mp h
    exact respond_keepAlive res (hres ▸ List.mem_singleton_self res)

end Server

namespace Session

variable {server : Server}

/-- The ways in which a session can be resumed. -/
inductive Fires (server : Server) (s : Session) : SessionStep → Session → Prop
  | read (req : Request) (handler : ReqInfo → Option (Bool × ReqInfo)) (res : Response)
      (records : List Text) (hpc : s.pc = .reading)
      (hanswer : server.handle handler req = some [res]) :
      Fires server s (.read req handler) { s with
        pc := .sending, pending := s.pending ++ [res], resSp := some res,
        served := s.served ++ [(req, res)], records := records }
  | readFailed (ec : ErrorCode) (shutdown : Option ErrorCode) (hpc : s.pc = .reading) :
      Fires server s (.readFailed ec shutdown)
        ((s.report (readReport server ec)).finish server (some ec) shutdown)
  | writtenLast (shutdown : Option ErrorCode) (res : Response) (pending : List Response)
      (hpc : s.pc = .sending) (hpending : s.pending = res :: pending)
      (hclose : res.keepAlive = false) :
      Fires server s (.written shutdown) (finish server { s with pending := pending } none shutdown)
  | written (shutdown : Option ErrorCode) (res : Response) (pending : List Response)
      (hpc : s.pc = .sending) (hpending : s.pending = res :: pending)
      (hkeep : res.keepAlive = true) :
      Fires server s (.written shutdown)
        { s with pc := .reading, pending := pending, resSp := none }
  | writeFailed (ec : ErrorCode) (shutdown : Option ErrorCode) (hpc : s.pc = .sending) :
      Fires server s (.writeFailed ec shutdown)
        ((s.report (writeReport server ec)).finish server (some ec) shutdown)

theorem fires {s t : Session} {a : SessionStep} (h : s.step server a = some t) :
    s.Fires server a t := by
  cases a with
  | read req handler =>
    unfold step at h
    dsimp only at h
    split at h
    case isTrue hpc =>
      obtain ⟨responses, hresponses, rfl⟩ := Option.map_eq_some_iff.mp h
      obtain ⟨res, rfl⟩ := handle_sends_one hresponses
      exact .read req handler res _ hpc hresponses
    case isFalse => exact nomatch h
  | readFailed ec shutdown =>
    unfold step at h
    dsimp only at h
    split at h
    case isTrue hpc => exact Option.some.inj h ▸ .readFailed ec shutdown hpc
    case isFalse => exact nomatch h
  | written shutdown =>
    unfold step at h
    dsimp only at h
    split at h
    case isTrue hpc =>
      cases hpending : s.pending with
      | nil =>
        rw [hpending] at h
        exact nomatch h
      | cons res pending =>
        rw [hpending] at h
        dsimp only at h
        unfold Response.needEof at h
        cases hkeep : res.keepAlive with
        | false =>
          rw [hkeep] at h
          exact Option.some.inj h ▸ .writtenLast shutdown res pending hpc hpending hkeep
        | true =>
          rw [hkeep] at h
          exact Option.some.inj h ▸ .written shutdown res pending hpc hpending hkeep
    case isFalse => exact nomatch h
  | writeFailed ec shutdown =>
    unfold step at h
    dsimp only at h
    split at h
    case isTrue hpc => exact Option.some.inj h ▸ .writeFailed ec shutdown hpc.1
    case isFalse => exact nomatch h

theorem read_spec {s t : Session} {req : Request}
    {handler : ReqInfo → Option (Bool × ReqInfo)}
    (h : s.step server (.read req handler) = some t) :
    s.pc = .reading ∧ ∃ res, server.handle handler req = some [res] ∧
      t.served = s.served ++ [(req, res)] ∧ t.pending = s.pending ++ [res] := by
  cases fires h with
  | read _ _ res records hpc hanswer => exact ⟨hpc, res, hanswer, rfl, rfl⟩

theorem served_of_step {s t : Session} {a : SessionStep} (h : s.step server a = some t)
    (hread : ∀ req handler, a ≠ .read req handler) : t.served = s.served := by
  cases fires h with
  | read req handler => exact absurd rfl (hread req handler)
  | readFailed => simp
  | writtenLast => simp
  | written => rfl
  | writeFailed => simp

/-- Every request has been answered once, with what `handle` sends for it; while a session sends,
the response to the last request is its only pending write, and `_res_sp` holds that message;
otherwise no write is pending. A request behind which the connection is to be closed is the last
one that is read. -/
structure Orderly (server : Server) (s : Session) : Prop where
  answered : ∀ p ∈ s.served, server.Answers p.1 p.2
  sending : s.pc = .sending → ∃ served p, s.served = served ++ [p] ∧ s.pending = [p.2] ∧
    s.resSp = some p.2
  idle : s.pc ≠ .sending → s.pending = []
  kept : ∀ served p, s.served = served ++ [p] → ∀ q ∈ served, q.1.keepAlive = true
  reading : s.pc = .reading → ∀ p ∈ s.served, p.1.keepAlive = true

theorem Orderly.finish {s : Session} (h : s.Orderly server) (ec shutdown : Option ErrorCode) :
    (s.finish server ec shutdown).Orderly server where
  answered := by simpa using h.answered
  sending := by simp
  idle := by simp
  kept := by simpa using h.kept
  reading := by simp

theorem Orderly.report {s : Session} (h : s.Orderly server) (text : Text) :
    (s.report text).Orderly server :=
  ⟨h.answered, h.sending, h.idle, h.kept, h.reading⟩

theorem orderly_start : (start server).Orderly server where
  answered := nofun
  sending := nofun
  idle _ := rfl
  kept served p h := by simp [start] at h
  reading _ := nofun

theorem orderly_step {s t : Session} {a : SessionStep} (hstep : s.step server a = some t)
    (h : s.Orderly server) : t.Orderly server := by
  cases fires hstep with
  | read req handler res records hpc hanswer =>
    have hkept := h.reading hpc
    have hidle : s.pending = [] := h.idle (by rw [hpc]; exact nofun)
    refine ⟨?_, ?_, nofun, ?_, nofun⟩
    · intro p hp
      rcases List.mem_append.mp hp with hp | hp
      · exact h.answered p hp
      · exact List.mem_singleton.mp hp ▸ ⟨handler, hanswer⟩
    · intro _
      exact ⟨s.served, (req, res), rfl, by simp [hidle], rfl⟩
    · intro served p hserved q hq
      obtain ⟨rfl, -⟩ := List.append_inj' hserved rfl
      exact hkept q hq
  | readFailed ec shutdown hpc => exact (h.report _).finish _ _
  | writtenLast shutdown res pending hpc hpending hclose =>
    refine ⟨?_, by simp, by simp, ?_, by simp⟩
    · simpa using h.answered
    · simpa using h.kept
  | written shutdown res pending hpc hpending hkeep =>
    obtain ⟨served, p, hserved, hlast, -⟩ := h.sending hpc
    obtain ⟨rfl, rfl⟩ : p.2 = res ∧ pending = [] := by
      rw [hpending, List.cons.injEq] at hlast
      exact ⟨hlast.1.symm, hlast.2⟩
    refine ⟨h.answered, nofun, fun _ => rfl, h.kept, fun _ q hq => ?_⟩
    rw [hserved] at hq
    rcases List.mem_append.mp hq with hq | hq
    · exact h.kept served p hserved q hq
    · have hanswer := h.answered p (by simp [hserved])
      rw [List.mem_singleton.mp hq, ← hanswer.keepAlive]
      exact hkeep
  | writeFailed ec shutdown hpc => exact (h.report _).finish _ _

end Session

def sessionMachine (server : Server) : Machine Session SessionStep := ⟨Session.step server⟩

/-- In every run of a session each request is answered once and in order, no write is started while
another one is pending, `_res_sp` holds the message that is being written, and nothing is read
behind a request that closes the connection. -/
theorem session_is_orderly (server : Server) (as : List SessionStep) :
    (sessionMachine server).Always (Session.Orderly server) (.start server) as :=
  Machine.always_of_step (fun _ _ _ => Session.orderly_step) Session.orderly_start as

end PetProject.ServerHttp
