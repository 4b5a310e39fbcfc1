import PetProject.Exchange.Conversation

/-!
# Connections that are kept

The server keeps a connection as long as the requests of the client ask for it, and these say
nothing about it, so that the version of the protocol decides. The client takes the first version
for every text in its configuration but the empty one.
-/

namespace PetProject.Exchange

open Framework Handler ServerHttp

private theorem version_eq_ten_iff (caller : Caller) : caller.version = 10 ↔ caller.versionText ≠ [] := by
  unfold Caller.version versionOf
  cases caller.versionText with
  | nil => decide
  | cons c rest => simp

private theorem keepAlive_request (caller : Caller) (target : Text) :
    (caller.request target).keepAlive = true ↔ caller.versionText = [] := by
  unfold Caller.request
  rw [decide_eq_true_iff]
  by_cases hnil : caller.versionText = []
  · have hversion : caller.version = 11 := by
      rw [Caller.version, hnil]
      rfl
    simp [hversion, hnil]
  · simp [(version_eq_ten_iff caller).mpr hnil, hnil]

namespace Conversation

variable {server : Server} {caller : Caller}

private theorem Sound.served_length_le {s : Conversation} (h : s.Sound server caller)
    (hversion : caller.versionText ≠ []) : s.server.served.length ≤ 1 := by
  rcases List.eq_nil_or_concat s.server.served with hnil | ⟨served, p, hserved⟩
  · rw [hnil]
    exact Nat.zero_le 1
  · rw [List.concat_eq_append] at hserved
    cases served with
    | nil => simp [hserved]
    | cons q served =>
      have hkept := h.orderly.kept (q :: served) p hserved q List.mem_cons_self
      obtain ⟨⟨target, hq⟩, -⟩ := h.served q (by simp [hserved])
      rw [hq] at hkept
      exact absurd ((keepAlive_request caller target).mp hkept) hversion

/-! ## One exchange after the other -/

/-- Both ends wait for the next request, and nothing is between them. -/
structure Quiet (s : Conversation) : Prop where
  client : s.client = .ready
  requests : s.buffer = [] ∧ s.toServer = []
  responses : s.clientBuffer = [] ∧ s.toClient = [] ∧ s.unsent = []
  session : s.server.pc = .reading ∧ s.server.pending = []

def exchangeSteps (target : Text) (handler : ReqInfo → Option (Bool × ReqInfo)) :
    List ConversationStep :=
  [.request target, .serve 1 handler, .transmit, .header 1, .body 0, .written none]

private theorem session_exchange {s : Session} (hpc : s.pc = .reading) (hpending : s.pending = [])
    {req : Request} {handler : ReqInfo → Option (Bool × ReqInfo)} {res : Response}
    (hresponse : server.handle handler req = some [res]) :
    ∃ u v, s.step server (.read req handler) = some u ∧ u.pending = [res] ∧
      u.step server (.written none) = some v ∧
      (res.needEof = false → v.pc = .reading ∧ v.pending = []) := by
  have hread : s.step server (.read req handler) = some { s with
      pc := .sending
      resSp := some res
      pending := [res]
      served := s.served ++ [(req, res)]
      records := s.records ++ server.handleReports handler req } := by
    rw [Session.step, if_pos hpc, hresponse, Option.map_some, List.foldl_cons, List.foldl_nil,
      Session.send, hpending]
    rfl
  have hwritten : ∀ u : Session, u.pc = .sending → u.pending = [res] →
      u.step server (.written none) = some
        (if res.needEof then { u with pending := [] }.finish server none none
        else { u with pc := .reading, pending := [], resSp := none }) := by
    intro u hpc hpending
    rw [Session.step, if_pos hpc, hpending]
    exact (apply_ite some _ _ _).symm
  refine ⟨_, _, hread, rfl, hwritten _ rfl rfl, fun hkeep => ?_⟩
  rw [if_neg (by rw [hkeep]; decide)]
  exact ⟨rfl, rfl⟩

/-- The next exchange, with whatever the handler makes of the request. -/
theorem exchange_run {s : Conversation} (h : s.Quiet) {target : Text}
    (hparse : Parseable (caller.request target)) {handler : ReqInfo → Option (Bool × ReqInfo)}
    {res : Response} (hresponse : server.handle handler (caller.request target) = some [res]) :
    ∃ t, (conversationMachine server caller).run s (exchangeSteps target handler) = some t ∧
      t.exchanges = s.exchanges ++ [(caller.request target, res)] ∧
      (caller.versionText = [] → t.Quiet) := by
  obtain ⟨client, toServer, buffer, session, unsent, toClient, clientBuffer, exchanges, lost⟩ := s
  obtain ⟨rfl, ⟨rfl, rfl⟩, ⟨rfl, rfl, rfl⟩, hpc, hpending⟩ := h
  obtain ⟨u, v, hread, hsends, hwritten, hnext⟩ := session_exchange hpc hpending hresponse
  have hkeep : caller.versionText = [] → res.needEof = false := by
    have hanswer : server.Answers (caller.request target) res := ⟨handler, hresponse⟩
    rw [← keepAlive_request caller target, ← hanswer.keepAlive, Response.needEof]
    simp
  refine ⟨⟨.ready, [], [], v, [], [], [], exchanges ++ [(caller.request target, res)],
    lost ++ []⟩, ?_, rfl, fun hversion => ⟨rfl, ⟨rfl, rfl⟩, ⟨rfl, rfl, rfl⟩, hnext (hkeep hversion)⟩⟩
  have hserve : ∀ s : Conversation, s.buffer = [] → s.toServer = [caller.request target] →
      s.server = session → step server caller s (.serve 1 handler) =
        some { s with buffer := [], toServer := [], server := u, unsent := [res] } := by
    rintro s hbuffer htoServer rfl
    rw [step, serverStep, hbuffer, htoServer]
    dsimp only [List.nil_append, List.take, List.drop]
    rw [if_pos hparse, hread, Option.map_some, hsends]
    rfl
  have hwrite : ∀ s : Conversation, s.unsent = [] → s.server = u →
      step server caller s (.written none) = some { s with server := v } := by
    rintro s hunsent rfl
    rw [step, serverStep, if_pos hunsent, hwritten, Option.map_some]
    rfl
  have first : ∀ {s t u : Conversation} {a : ConversationStep} {as : List ConversationStep},
      step server caller s a = some t → (conversationMachine server caller).run t as = some u →
      (conversationMachine server caller).run s (a :: as) = some u := fun ha has =>
    (conversationMachine server caller).run_cons_eq_some.mpr ⟨_, ha, has⟩
  rw [exchangeSteps]
  exact first rfl (first (hserve _ rfl rfl rfl) (first rfl (first rfl (first rfl
    (first (hwrite _ rfl rfl) rfl)))))

/-- The response is what the server sends when the handler works on the request for the target. -/
def AnswersTarget (server : Server) (caller : Caller)
    (asked : Text × (ReqInfo → Option (Bool × ReqInfo))) (p : Request × Response) : Prop :=
  p.1 = caller.request asked.1 ∧ server.handle asked.2 p.1 = some [p.2]

private theorem exchanges_run {s : Conversation} (h : s.Quiet) (hversion : caller.versionText = [])
    {asked : List (Text × (ReqInfo → Option (Bool × ReqInfo)))}
    (hparse : ∀ a ∈ asked, Parseable (caller.request a.1))
    (hanswered : ∀ a ∈ asked, (server.handle a.2 (caller.request a.1)).isSome) :
    ∃ as t exchanges, (conversationMachine server caller).run s as = some t ∧
      t.exchanges = s.exchanges ++ exchanges ∧
        List.Forall₂ (AnswersTarget server caller) asked exchanges := by
  induction asked generalizing s with
  | nil => exact ⟨[], s, [], rfl, (List.append_nil _).symm, .nil⟩
  | cons a asked ih =>
    obtain ⟨hparsed, hparse⟩ := List.forall_mem_cons.mp hparse
    obtain ⟨hsome, hanswered⟩ := List.forall_mem_cons.mp hanswered
    obtain ⟨responses, hresponses⟩ := Option.isSome_iff_exists.mp hsome
    obtain ⟨res, rfl⟩ := handle_sends_one hresponses
    obtain ⟨t, ht, hexchange, hquiet⟩ := exchange_run h hparsed hresponses
    obtain ⟨as, u, exchanges, hu, hexchanges, hall⟩ := ih (hquiet hversion) hparse hanswered
    refine ⟨exchangeSteps a.1 a.2 ++ as, u, (caller.request a.1, res) :: exchanges, ?_, ?_,
      .cons ⟨rfl, hresponses⟩ hall⟩
    · exact (Machine.run_append_eq_some _).mpr ⟨t, ht, hu⟩
    · rw [hexchanges, hexchange, List.append_assoc]
      rfl

private theorem quiet_start (server : Server) : (start server).Quiet :=
  ⟨rfl, ⟨rfl, rfl⟩, ⟨rfl, rfl, rfl⟩, rfl, rfl⟩

end Conversation

/-- With an empty version in the configuration a connection can carry any requests that can be parsed,
one after the other, with the responses to what their handlers answer; with every other text,
whichever version it names, no connection carries a second one. -/
theorem version_decides_exchanges (server : Server) (caller : Caller) :
    (caller.versionText = [] → ∀ asked : List (Text × (ReqInfo → Option (Bool × ReqInfo))),
      (∀ a ∈ asked, Parseable (caller.request a.1)) →
      (∀ a ∈ asked, (server.handle a.2 (caller.request a.1)).isSome) →
        ∃ as s, (conversationMachine server caller).run (.start server) as = some s ∧
          List.Forall₂ (Conversation.AnswersTarget server caller) asked s.exchanges) ∧
      (caller.versionText ≠ [] → ∀ as, (conversationMachine server caller).Always
        (fun s => s.exchanges.length ≤ 1) (.start server) as) := by
  constructor
  · intro hversion asked hparse hanswered
    obtain ⟨as, s, exchanges, hs, hexchanges, hall⟩ :=
      Conversation.exchanges_run (Conversation.quiet_start server) hversion hparse hanswered
    exact ⟨as, s, hs, hexchanges ▸ hall⟩
  · intro hversion as
    refine (Machine.always_of_step (fun _ _ _ => Conversation.sound_step)
      (Conversation.sound_start server caller) as).mono fun s h => ?_
    obtain ⟨outstanding, dropped, hpaired, -⟩ := h.inOrder
    exact hpaired.taken_prefix.length_le.trans (h.served_length_le hversion)

end PetProject.Exchange
