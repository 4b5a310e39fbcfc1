import PetProject.Handler.ServerHttpHandler

/-!
# Answering a request

`Handle_request::handle`: the vector is filled from the request, the handler works on it, and one
response is sent. A response with a `string_body` or a `file_body` is written with its body,
whatever the method of the request was.
-/

namespace PetProject.ServerHttp

open Framework Handler

/-- `req.method()`, as far as the server tells methods apart. -/
inductive Verb
  | get
  | head
  | other
  deriving DecidableEq, Repr

def verbOf (method : Text) : Verb :=
  if method = "GET".toList then .get
  else if method = "HEAD".toList then .head
  else .other

structure Request extends HttpRequest where
  version : Nat
  keepAlive : Bool

def Request.verb (req : Request) : Verb := verbOf req.method

inductive Status
  | ok
  | multipleChoices
  | badRequest
  | notFound
  | internalServerError
  deriving DecidableEq, Repr

structure Response where
  status : Status
  version : Nat
  server : Text
  contentType : Text
  contentDisposition : Option Text
  contentLength : Nat
  keepAlive : Bool
  body : Text
  deriving DecidableEq, Repr

/-- What `Handle_request` is constructed with, and the files of the server. Opening a file gives
its contents or the message of an error code. -/
structure Server where
  serverName : Text
  mimeType : Text → Text
  peer : Peer
  openFile : Text → Except Text Text

namespace Server

variable (server : Server)

/-- `string_body_res`. -/
def stringBodyRes (req : Request) (status : Status) (bodyContent : Text) : Response where
  status := status
  version := req.version
  server := server.serverName
  contentType := "text/plain".toList
  contentDisposition := none
  contentLength := bodyContent.length
  keepAlive := req.keepAlive
  body := bodyContent

/-- The response to a `HEAD` request for a table. -/
def emptyTableRes (req : Request) (bodySize : Nat) : Response where
  status := .ok
  version := req.version
  server := server.serverName
  contentType := "text/plain".toList
  contentDisposition := none
  contentLength := bodySize
  keepAlive := req.keepAlive
  body := []

/-- A response with the fields of `res_fill`. -/
def fileRes (req : Request) (target : Text) (size : Nat) (body : Text) : Response where
  status := .ok
  version := req.version
  server := server.serverName
  contentType := server.mimeType target
  contentDisposition := some ("attachment; filename=\"".toList ++ target ++ ['"'])
  contentLength := size
  keepAlive := req.keepAlive
  body := body

/-- The status that the first word of an error text stands for. -/
def errorStatus (whatIsWrong : Text) : Status :=
  if "Illegal request".toList <+: whatIsWrong then .badRequest
  else if "Several".toList <+: whatIsWrong then .multipleChoices
  else if "Database".toList <+: whatIsWrong then .internalServerError
  else .notFound

def unknownMethodRes (req : Request) : Response :=
  server.stringBodyRes req .badRequest "Unknown HTTP method".toList

/-- The responses that are sent once the handler has worked on the vector. -/
def respond (req : Request) (ifFile : Bool) (info : ReqInfo) : List Response :=
  if ifFile = false then
    match req.verb with
    | .head => [server.emptyTableRes req info.result.length]
    | .get => [server.stringBodyRes req .ok info.result]
    | .other => [server.unknownMethodRes req]
  else if info.result = [] then
    let whatIsWrong := info.error ++ ['\n']
    [server.stringBodyRes req (errorStatus whatIsWrong) whatIsWrong]
  else
    match server.openFile info.result with
    | .error message => [server.stringBodyRes req .internalServerError message]
    | .ok body =>
      match req.verb with
      | .head => [server.fileRes req info.target body.length []]
      | .get => [server.fileRes req info.target body.length body]
      | .other => [server.unknownMethodRes req]

/-- `Handle_request::handle`; the handler gives nothing when the program has lost itself in it. -/
def handle (handler : ReqInfo → Option (Bool × ReqInfo)) (req : Request) :
    Option (List Response) :=
  if req.verb = .other then some [server.unknownMethodRes req]
  else (handler (handlerVectorFill server.peer req.toHttpRequest)).map fun handled =>
    server.respond req handled.1 handled.2

theorem handle_of_verb {handler : ReqInfo → Option (Bool × ReqInfo)} {req : Request}
    (hverb : req.verb ≠ .other) : server.handle handler req =
      (handler (handlerVectorFill server.peer req.toHttpRequest)).map fun handled =>
        server.respond req handled.1 handled.2 :=
  if_neg hverb

end Server

/-! ## The method `HEAD` -/

def Request.withMethod (req : Request) (method : String) : Request :=
  { req with method := method.toList }

private theorem Request.verb_get (req : Request) : (req.withMethod "GET").verb = .get := by
  have hverb : verbOf "GET".toList = .get := by decide
  exact hverb

private theorem Request.verb_head (req : Request) : (req.withMethod "HEAD").verb = .head := by
  have hverb : verbOf "HEAD".toList = .head := by decide
  exact hverb

/-- A response without a body that says of itself what the other one says. -/
structure Response.Mirrors (head get : Response) : Prop where
  body : head.body = []
  status : head.status = get.status
  contentType : head.contentType = get.contentType
  contentDisposition : head.contentDisposition = get.contentDisposition
  contentLength : head.contentLength = get.contentLength

private theorem stringBodyRes_mirrors_iff (server : Server) (req : Request) (status : Status)
    (text : Text) :
    (server.stringBodyRes (req.withMethod "HEAD") status text).Mirrors
      (server.stringBodyRes (req.withMethod "GET") status text) ↔ text = [] :=
  ⟨fun h => h.body, fun h => ⟨h, rfl, rfl, rfl, rfl⟩⟩

/-- What the two methods bring about for one outcome of the handler. -/
def HeadMirrorsGet (server : Server) (req : Request) (ifFile : Bool) (info : ReqInfo) : Prop :=
  ∃ head get : Response,
    server.handle (fun _ => some (ifFile, info)) (req.withMethod "HEAD") = some [head] ∧
      server.handle (fun _ => some (ifFile, info)) (req.withMethod "GET") = some [get] ∧
      head.Mirrors get

private theorem headMirrorsGet_iff_of_respond {server : Server} {req : Request} {ifFile : Bool}
    {info : ReqInfo} {head get : Response}
    (hhead : server.respond (req.withMethod "HEAD") ifFile info = [head])
    (hget : server.respond (req.withMethod "GET") ifFile info = [get]) :
    HeadMirrorsGet server req ifFile info ↔ head.Mirrors get := by
  have hverb : (req.withMethod "HEAD").verb ≠ .other ∧ (req.withMethod "GET").verb ≠ .other := by
    rw [req.verb_head, req.verb_get]
    exact ⟨nofun, nofun⟩
  unfold HeadMirrorsGet
  rw [server.handle_of_verb hverb.1, server.handle_of_verb hverb.2, Option.map_some,
    Option.map_some, hhead, hget]
  constructor
  · rintro ⟨head', get', hhead', hget', hmirrors⟩
    simp only [Option.some.injEq, List.cons.injEq, and_true] at hhead' hget'
    rwa [hhead', hget']
  · exact fun h => ⟨head, get, rfl, rfl, h⟩

/-- `HEAD` mirrors `GET` exactly when no error text is to be sent: for a table, or for a file that
opens, unless the error code says nothing. -/
theorem head_mirrors_get_iff (server : Server) (req : Request) (ifFile : Bool) (info : ReqInfo) :
    HeadMirrorsGet server req ifFile info ↔
      (ifFile = true → info.result ≠ [] ∧
        ∀ message, server.openFile info.result = .error message → message = []) := by
  cases ifFile with
  | false =>
    have hhead : server.respond (req.withMethod "HEAD") false info =
        [server.emptyTableRes (req.withMethod "HEAD") info.result.length] := by
      simp only [Server.respond, if_true, req.verb_head]
    have hget : server.respond (req.withMethod "GET") false info =
        [server.stringBodyRes (req.withMethod "GET") .ok info.result] := by
      simp only [Server.respond, if_true, req.verb_get]
    rw [headMirrorsGet_iff_of_respond hhead hget]
    exact iff_of_true ⟨rfl, rfl, rfl, rfl, rfl⟩ nofun
  | true =>
    by_cases hresult : info.result = []
    · have herror : ∀ req, server.respond req true info =
          [server.stringBodyRes req (Server.errorStatus (info.error ++ ['\n']))
            (info.error ++ ['\n'])] := by
        intro req
        simp only [Server.respond, Bool.true_eq_false, if_false, hresult, if_true]
      rw [headMirrorsGet_iff_of_respond (herror _) (herror _), stringBodyRes_mirrors_iff]
      simp [hresult]
    · cases hopen : server.openFile info.result with
      | error message =>
        have herror : ∀ req, server.respond req true info =
            [server.stringBodyRes req .internalServerError message] := by
          intro req
          simp only [Server.respond, Bool.true_eq_false, if_false, hresult, hopen]
        rw [headMirrorsGet_iff_of_respond (herror _) (herror _), stringBodyRes_mirrors_iff]
        simp [hresult]
      | ok body =>
        have hhead : server.respond (req.withMethod "HEAD") true info =
            [server.fileRes (req.withMethod "HEAD") info.target body.length []] := by
          simp only [Server.respond, Bool.true_eq_false, if_false, hresult, hopen, req.verb_head]
        have hget : server.respond (req.withMethod "GET") true info =
            [server.fileRes (req.withMethod "GET") info.target body.length body] := by
          simp only [Server.respond, Bool.true_eq_false, if_false, hresult, hopen, req.verb_get]
        rw [headMirrorsGet_iff_of_respond hhead hget]
        exact iff_of_true ⟨rfl, rfl, rfl, rfl, rfl⟩ fun _ => ⟨hresult, nofun⟩

def emptyServer : Server where
  serverName := []
  mimeType _ := "application/octet-stream".toList
  peer := ⟨⟨[], by decide⟩, 0⟩
  openFile _ := .error "No such file or directory".toList

/-- A `HEAD` request for an illegal target is answered with the text of the error. -/
theorem head_carries_error_text :
    ¬∀ (server : Server) (req : Request) (ifFile : Bool) (info : ReqInfo),
      HeadMirrorsGet server req ifFile info := by
  intro hclaim
  let info : ReqInfo := { ReqInfo.blank with error := "Illegal request-target".toList }
  obtain ⟨head, get, hhead, -, hmirrors⟩ :=
    hclaim emptyServer ⟨⟨"/".toList, [], [], []⟩, 11, true⟩ true info
  have hbody : (emptyServer.handle (fun _ => some (true, info))
      ((⟨⟨"/".toList, [], [], []⟩, 11, true⟩ : Request).withMethod "HEAD")).any
        (fun sent => sent.all fun res => res.body ≠ []) = true := by
    decide +kernel
  rw [hhead] at hbody
  simp [hmirrors.body] at hbody

end PetProject.ServerHttp
