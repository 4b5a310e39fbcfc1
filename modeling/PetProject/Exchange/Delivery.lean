import PetProject.ClientHttp.DownloadPaths
import PetProject.Exchange.KeepAlive
import PetProject.Handler.NamePattern
import PetProject.ServerHttp.FileService
import PetProject.ServerHttp.MimeTypes

/-!
# What is delivered

What a session of the client makes of the responses of the server: it prints a text, and writes the
body of any other response to a file of the name that the server has sent. From the rows of the
song table to the file in the download directory.
-/

namespace PetProject.Exchange

open Framework Database Handler ServerDirHandler ServerHttp ClientHttp

/-- The field `Content-Disposition` as the client reads it; a missing field is empty. -/
def cdField (res : Response) : Text := res.contentDisposition.getD []

/-- The file that the client writes for a response, with what it writes. -/
def stored (s : DownloadSession) (res : Response) : Option (Place × Text) :=
  (openedForResponse s (cdField res) res.contentType (some res.contentLength)).map fun place =>
    (place, res.body)

/-- The text that the client prints of a response: the body or the header alone. -/
def PrintsText (res : Response) : Prop := PrintsBody (cdField res) res.contentType

/-! ## Files and texts -/

/-- The file that is opened for what the handler leaves in the vector, with its content. -/
def SendsFile (server : Server) (ifFile : Bool) (info : ReqInfo) (content : Text) : Prop :=
  ifFile = true ∧ info.result ≠ [] ∧ server.openFile info.result = .ok content

private theorem respond_file_or_text {server : Server} {req : Request} {ifFile : Bool}
    {info : ReqInfo} {res : Response} (hverb : req.verb = .get)
    (hres : server.respond req ifFile info = [res]) :
    (∃ content, SendsFile server ifFile info content ∧
        res = server.fileRes req info.target content.length content) ∨
      (∀ content, ¬SendsFile server ifFile info content) ∧
        ∃ status text, res = server.stringBodyRes req status text := by
  unfold Server.respond at hres
  rw [hverb] at hres
  split at hres
  case isTrue hfalse =>
    have hnone : ∀ content, ¬SendsFile server ifFile info content :=
      fun _ h => nomatch hfalse.symm.trans h.1
    exact Or.inr ⟨hnone, _, _, (List.singleton_inj.mp hres).symm⟩
  case isFalse htrue =>
    split at hres
    case isTrue hnil =>
      exact Or.inr ⟨fun _ h => h.2.1 hnil, _, _, (List.singleton_inj.mp hres).symm⟩
    case isFalse hne =>
      cases hopen : server.openFile info.result with
      | error message =>
        rw [hopen] at hres
        have hnone : ∀ content, ¬SendsFile server ifFile info content :=
          fun _ h => nomatch hopen.symm.trans h.2.2
        exact Or.inr ⟨hnone, _, _, (List.singleton_inj.mp hres).symm⟩
      | ok content =>
        rw [hopen] at hres
        exact Or.inl ⟨content, ⟨by simpa using htrue, hne, hopen⟩,
          (List.singleton_inj.mp hres).symm⟩

theorem stringBodyRes_printed (server : Server) (req : Request) (status : Status) (text : Text) :
    PrintsText (server.stringBodyRes req status text) := ⟨rfl, Or.inr rfl⟩

private theorem fileRes_not_printed (server : Server) (req : Request) (name : Text) (size : Nat)
    (content : Text) : ¬PrintsText (server.fileRes req name size content) := by
  rintro ⟨hfield, -⟩
  rw [cdField, contentDisposition_fileRes, Option.getD_some, List.append_eq_nil_iff] at hfield
  exact nomatch hfield.2

theorem stored_of_printed {s : DownloadSession} {res : Response} (h : PrintsText res) :
    stored s res = none := by
  have hprints : PrintsBody (cdField res) res.contentType := h
  rw [stored, openedForResponse, if_pos hprints, Option.map_none]

/-- A file is written under the name that the server has sent, up to the first double quote. -/
theorem stored_fileRes_iff (s : DownloadSession) (server : Server) (req : Request) {name : Text}
    (hquote : '"' ∉ name) (content : Text) {place : Place} {text : Text} :
    stored s (server.fileRes req name content.length content) = some (place, text) ↔
      text = content ∧ ∃ w, s.tree = .ok w ∧
        w.openToWrite s.mayOpen (joinPath s.pathToDwnldDir (cText name)) = some place := by
  have hencloses : Encloses (cdField (server.fileRes req name content.length content)) name := by
    rw [cdField, contentDisposition_fileRes, Option.getD_some]
    exact ⟨hquote, [], Or.inl ⟨_, _, equals_notMem_head, rfl⟩⟩
  rw [stored, Option.map_eq_some_iff]
  constructor
  · rintro ⟨found, hfound, heq⟩
    obtain ⟨rfl, rfl⟩ := Prod.mk.inj heq
    exact ⟨rfl, (openedForResponse_eq_some_iff hencloses _ _).mp hfound⟩
  · rintro ⟨rfl, hopen⟩
    exact ⟨place, (openedForResponse_eq_some_iff hencloses _ _).mpr hopen, rfl⟩

/-- What the client makes of the response to what the handler has left in the vector: the file that
is opened for it is stored, byte for byte and nothing else; a table or an error has no
`Content-Disposition`, is printed and never stored. -/
structure Delivered (server : Server) (ifFile : Bool) (info : ReqInfo) (res : Response) :
    Prop where
  file : ∀ content, SendsFile server ifFile info content →
    res.contentDisposition ≠ none ∧ res.body = content
  text : (∀ content, ¬SendsFile server ifFile info content) →
    res.contentDisposition = none ∧ ∀ d, stored d res = none
  written : ∀ d place content, stored d res = some (place, content) →
    SendsFile server ifFile info content
  printed : PrintsText res ↔ res.contentDisposition = none
  typed : server.mimeType = audioMimeType →
    (res.contentType = "text/plain".toList ↔ res.contentDisposition = none)

private theorem delivered_of_respond {server : Server} {req : Request} {ifFile : Bool}
    {info : ReqInfo} {res : Response} (hverb : req.verb = .get)
    (hres : server.respond req ifFile info = [res])
    (htyped : server.mimeType = audioMimeType →
      (res.contentType = "text/plain".toList ↔ res.contentDisposition = none)) :
    Delivered server ifFile info res := by
  rcases respond_file_or_text hverb hres with
    ⟨content, hsends, rfl⟩ | ⟨hnone, status, text, rfl⟩
  · refine ⟨fun content' hsends' => ⟨nofun, ?_⟩, fun hnone => absurd hsends (hnone content),
      fun d place text hstored => ?_, iff_of_false (fileRes_not_printed _ _ _ _ _) nofun, htyped⟩
    · exact Except.ok.inj (hsends.2.2.symm.trans hsends'.2.2)
    · obtain ⟨found, -, heq⟩ := Option.map_eq_some_iff.mp hstored
      obtain ⟨-, rfl⟩ := Prod.mk.inj heq
      exact hsends
  · have hprinted := stringBodyRes_printed server req status text
    refine ⟨fun content hsends => absurd hsends (hnone content),
      fun _ => ⟨rfl, fun d => stored_of_printed hprinted⟩, fun d place content hstored => ?_,
      iff_of_true hprinted rfl, htyped⟩
    exact nomatch (stored_of_printed hprinted).symm.trans hstored

/-- In every conversation each response comes from a handler of the run: what the client stores is
the content of the file that has been opened for what this handler has left in the vector, and an
error or a table is printed and never stored. -/
theorem stored_files_are_served (server : Server) (caller : Caller) (as : List ConversationStep) :
    (conversationMachine server caller).Always
      (fun s => ∀ p ∈ s.exchanges, ∃ arrived handler ifFile info,
        ConversationStep.serve arrived handler ∈ as ∧
          handler (handlerVectorFill server.peer p.1.toHttpRequest) = some (ifFile, info) ∧
            server.respond p.1 ifFile info = [p.2] ∧ Delivered server ifFile info p.2)
      (.start server) as := by
  have hsound := Machine.always_of_step (M := conversationMachine server caller)
    (fun _ _ _ => Conversation.sound_step) (Conversation.sound_start server caller) as
  have hserved := Machine.always_of_labels (M := conversationMachine server caller)
    (L := Conversation.UsesHandlers fun handler => ∃ arrived, .serve arrived handler ∈ as)
    (fun _ _ _ hstep ha => Conversation.served_by_step hstep ha)
    (fun a ha arrived handler heq => ⟨arrived, heq ▸ ha⟩) (s := .start server) nofun
  refine (hsound.and hserved).mono fun s ⟨hsound, hserved⟩ p hp => ?_
  obtain ⟨outstanding, dropped, hpaired, -⟩ := hsound.inOrder
  have hmem := hpaired.taken_prefix.subset hp
  obtain ⟨⟨target, htarget⟩, -⟩ := hsound.served p hmem
  have hverb : p.1.verb = .get := htarget ▸ verb_request caller target
  obtain ⟨handler, ⟨arrived, hstep⟩, hanswer⟩ := hserved p hmem
  have htyped : server.mimeType = audioMimeType →
      (p.2.contentType = "text/plain".toList ↔ p.2.contentDisposition = none) := fun hmime =>
    content_type_tells_files hmime hanswer p.2 (List.mem_singleton_self _)
  rw [server.handle_of_verb (by rw [hverb]; exact nofun)] at hanswer
  obtain ⟨⟨ifFile, info⟩, hhandler, hres⟩ := Option.map_eq_some_iff.mp hanswer
  exact ⟨arrived, handler, ifFile, info, hstep, hhandler, hres,
    delivered_of_respond hverb hres htyped⟩

/-! ## Songs -/

/-- The database answers the two queries for a pattern, unless a quote or a NUL ends it early, with
the rows of the song table that match. -/
structure AnswersFrom (d : Dialect) (songTable : List SongRow) (answer : Text → PgResult)
    (pattern : Text) : Prop where
  byName : SafeLiteral pattern → ∃ dbName N,
    answer (nameCommand pattern) = selected dbName N ∧ N.Subperm songTable ∧
      ∀ row, row ∈ N ↔ row ∈ songTable ∧ SimilarTo d pattern row.songName
  byUid : SafeLiteral pattern → ∃ dbName U,
    answer (uidCommand pattern) = selected dbName U ∧ U.Subperm songTable ∧
      ∀ row, row ∈ U ↔ row ∈ songTable ∧ SimilarTo d pattern row.songUid

/-- A target that means nothing more to the server than a name or a uid, and which is one of the
two for one song only. -/
structure Identifies (songTable : List SongRow) (target : Text) (song : SongRow) : Prop where
  file : targetKind target = .file
  legal : ¬illegalTarget target
  plain : PlainTarget target
  notStem : ¬IsStem target
  safe : SafeLiteral target
  mem : song ∈ songTable
  only : ∀ row ∈ songTable, row.songName = target ∨ row.songUid = target ↔ row = song
  either : ¬(song.songName = target ∧ song.songUid = target)

/-- The path under which the server opens a song. -/
def songPath (song : SongRow) : Text := song.songUrl ++ '/' :: song.songName

section Songs

variable {songTable : List SongRow} {target : Text} {song : SongRow}

private theorem eq_singleton {rows : List SongRow} (hnodup : rows.Nodup)
    (hrows : ∀ row, row ∈ rows ↔ row = song) : rows = [song] :=
  List.perm_singleton.mp ((List.perm_ext_iff_of_nodup hnodup (List.nodup_singleton song)).mpr
    (by simpa using hrows))

theorem nodup_of_subperm {rows : List SongRow} (h : rows.Subperm songTable)
    (htable : songTable.Nodup) : rows.Nodup := by
  obtain ⟨rows', hperm, hsublist⟩ := h
  exact hperm.nodup_iff.mp (hsublist.nodup htable)

private theorem similarTo_plain (d : Dialect) (hplain : PlainTarget target) (hstem : ¬IsStem target)
    (text : Text) : SimilarTo d target text ↔ text = target := by
  have hpattern : wildcard target = target := if_neg hstem
  have hsimilar : SimilarTo d (wildcard target) text ↔ IsNamedBy target text :=
    hplain.similarTo_iff
  rwa [hpattern, IsNamedBy, if_neg hstem] at hsimilar

theorem Identifies.lookup {d : Dialect} {answer : Text → PgResult}
    (h : Identifies songTable target song) (hdb : AnswersFrom d songTable answer target)
    (htable : songTable.Nodup) :
    lookupOutcome (answer (nameCommand (wildcard target)))
        (answer (uidCommand (wildcard target))) =
      .found [song.songName, song.songUrl] := by
  have hpattern : wildcard target = target := if_neg h.notStem
  have hsimilar : ∀ text, SimilarTo d target text ↔ text = target :=
    similarTo_plain d h.plain h.notStem
  rw [hpattern]
  obtain ⟨dbName, N, hname, hN, hmemN⟩ := hdb.byName h.safe
  obtain ⟨dbName', U, huid, hU, hmemU⟩ := hdb.byUid h.safe
  simp only [hsimilar] at hmemN hmemU
  have hNnodup := nodup_of_subperm hN htable
  have hUnodup := nodup_of_subperm hU htable
  rw [hname, huid]
  rcases (h.only song h.mem).mpr rfl with hsong | hsong
  · have hsingle : N = [song] := eq_singleton hNnodup fun row => by
      rw [hmemN]
      constructor
      · rintro ⟨hrow, heq⟩
        exact (h.only row hrow).mp (Or.inl heq)
      · rintro rfl
        exact ⟨h.mem, hsong⟩
    have hnone : U = [] := List.eq_nil_iff_forall_not_mem.mpr fun row hrow => by
      obtain ⟨hmem, heq⟩ := (hmemU row).mp hrow
      obtain rfl := (h.only row hmem).mp (Or.inr heq)
      exact h.either ⟨hsong, heq⟩
    rw [hsingle, hnone]
    rfl
  · have hsingle : U = [song] := eq_singleton hUnodup fun row => by
      rw [hmemU]
      constructor
      · rintro ⟨hrow, heq⟩
        exact (h.only row hrow).mp (Or.inr heq)
      · rintro rfl
        exact ⟨h.mem, hsong⟩
    have hnone : N = [] := List.eq_nil_iff_forall_not_mem.mpr fun row hrow => by
      obtain ⟨hmem, heq⟩ := (hmemN row).mp hrow
      obtain rfl := (h.only row hmem).mp (Or.inl heq)
      exact h.either ⟨heq, hsong⟩
    rw [hsingle, hnone]
    rfl

/-- The server sends the song that is asked for. -/
theorem Identifies.served {d : Dialect} {answer : Text → PgResult}
    (h : Identifies songTable target song) (hdb : AnswersFrom d songTable answer target)
    (htable : songTable.Nodup) {server : Server} {handler : ServerHttpHandler}
    (hinsert : ComesToInsert handler answer) {content : Text}
    (hopen : server.openFile (songPath song) = .ok content) (caller : Caller) :
    server.serve handler answer (caller.request ('/' :: target)) =
      some [server.fileRes (caller.request ('/' :: target)) song.songName content.length
        content] := by
  have hverb := verb_request caller ('/' :: target)
  have hknown : (caller.request ('/' :: target)).verb ≠ .other := by
    rw [hverb]
    exact nofun
  obtain ⟨info, hinfo, htarget, hserve⟩ := serve_eq server hknown hinsert
  change info.target = target at htarget
  have hlegal : ¬illegalTarget info.target := htarget ▸ h.legal
  have hout := getFileUri_leaves answer hlegal
  rw [htarget, h.lookup hdb htable] at hout
  obtain ⟨hresult, hname, -⟩ := hout
  have hanswer : answerTarget answer info = (true, (getFileUri answer info).2) := by
    rw [answerTarget, htarget, h.file]
  rw [hserve, hanswer]
  change (getFileUri answer info).2.result = songPath song at hresult
  change (getFileUri answer info).2.target = song.songName at hname
  have hne : songPath song ≠ [] := by simp [songPath]
  simp only [Server.respond, Bool.true_eq_false, if_false, hresult, hne, hopen, hverb, hname]

end Songs

/-- A song that the target identifies can be fetched over any quiet connection; it is written to the
file of its name in the download directory, byte for byte, wherever that file may be opened, and to
no other file. -/
theorem song_is_delivered (server : Server) (handler : ServerHttpHandler) {d : Dialect}
    {answer : Text → PgResult} {songTable : List SongRow} {target : Text}
    (hdb : AnswersFrom d songTable answer target)
    (hnames : (songTable.map SongRow.songName).Nodup) {song : SongRow}
    (htarget : Identifies songTable target song) (hinsert : ComesToInsert handler answer)
    {content : Text} (hopen : server.openFile (songPath song) = .ok content)
    (hquote : '"' ∉ song.songName) (hnul : '\x00' ∉ song.songName) (caller : Caller)
    (hparse : Parseable (caller.request ('/' :: target))) :
    ∃ res, server.serve handler answer (caller.request ('/' :: target)) = some [res] ∧
      (∀ c : Conversation, c.Quiet → ∃ as t, (conversationMachine server caller).run c as = some t ∧
        t.exchanges = c.exchanges ++ [(caller.request ('/' :: target), res)]) ∧
      ∀ (s : DownloadSession) (place : Place) (text : Text),
        stored s res = some (place, text) ↔ text = content ∧ ∃ w, s.tree = .ok w ∧
          w.openToWrite s.mayOpen (joinPath s.pathToDwnldDir song.songName) = some place := by
  have hctext : cText song.songName = song.songName := by
    have happend := cText_append hnul []
    rwa [List.append_nil, show cText [] = [] from rfl, List.append_nil] at happend
  have hserved := htarget.served hdb hnames.of_map hinsert hopen caller
  refine ⟨_, hserved, fun c hquiet => ?_, fun s place text => ?_⟩
  · obtain ⟨t, ht, hexchanges, -⟩ := Conversation.exchange_run hquiet hparse hserved
    exact ⟨_, t, ht, hexchanges⟩
  · rw [stored_fileRes_iff s server _ hquote content, hctext]

/-- A song table with one song, and a server that holds its file. -/
def onlySong : SongRow := ⟨1, "ab.mp3".toList, "1842".toList, "/songs".toList⟩

def songServer : Server := { emptyServer with
  openFile path := if path = songPath onlySong then .ok "la".toList else .error [] }

def plainCaller : Caller := ⟨[], [], [], []⟩

def noEscapes : Dialect := ⟨fun _ => none, fun _ _ => False⟩

theorem onlySong_answersFrom : AnswersFrom noEscapes [onlySong]
    (findsRows "ab.mp3".toList [onlySong] []) "ab.mp3".toList := by
  have hplain : PlainTarget "ab.mp3".toList := by decide
  have hstem : ¬IsStem "ab.mp3".toList := by decide
  have hsimilar := similarTo_plain noEscapes hplain hstem
  refine ⟨fun _ => ⟨[], [onlySong], if_pos rfl, List.Subperm.refl _, fun row => ?_⟩,
    fun _ => ⟨[], [], if_neg (uidCommand_ne_nameCommand _ _), List.nil_subperm, fun row => ?_⟩⟩
  · rw [hsimilar, List.mem_singleton, iff_self_and]
    rintro rfl
    rfl
  · rw [hsimilar, List.mem_singleton]
    refine iff_of_false List.not_mem_nil ?_
    rintro ⟨rfl, huid⟩
    exact absurd huid (by decide)

theorem song_is_delivered_only_song :
    ∃ res, songServer.serve calmHandler (findsRows "ab.mp3".toList [onlySong] [])
        (plainCaller.request ('/' :: "ab.mp3".toList)) = some [res] ∧
      (∀ c : Conversation, c.Quiet → ∃ as t,
        (conversationMachine songServer plainCaller).run c as = some t ∧
          t.exchanges = c.exchanges ++ [(plainCaller.request ('/' :: "ab.mp3".toList), res)]) ∧
      ∀ (s : DownloadSession) (place : Place) (text : Text),
        stored s res = some (place, text) ↔ text = "la".toList ∧ ∃ w, s.tree = .ok w ∧
          w.openToWrite s.mayOpen (joinPath s.pathToDwnldDir "ab.mp3".toList) = some place := by
  refine song_is_delivered songServer calmHandler onlySong_answersFrom (List.nodup_singleton _) ?_
    (Or.inl (by decide)) (if_pos rfl) (by decide) (by decide) plainCaller ?_
  · refine ⟨by decide, by decide, by decide, by decide, by decide, List.mem_singleton_self _, ?_,
      by decide⟩
    intro row hrow
    rw [List.mem_singleton.mp hrow]
    exact iff_of_true (Or.inl rfl) rfl
  · simp [Parseable, Caller.request, isPathchar]

end PetProject.Exchange
