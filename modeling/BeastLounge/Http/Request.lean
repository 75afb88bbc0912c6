import Mathlib.Data.List.Infix

/-!
# Answering a request

`handle_request` of the HTTP session with the functions it calls. A response is what its `send`
receives. The file system is a parameter: opening a path gives the bytes of the file or an error.

So are the functions of Beast that the server calls (`Beast`), with what their documentation says of
them (`Beast.Documented`). Of the messages themselves it says that `keep_alive(b)` makes
`keep_alive()` return `b`, and this is how they are stored here.
-/

namespace BeastLounge.Http

inductive Verb
  | get
  | head
  | other
deriving DecidableEq

/-- A request as its parser releases it. -/
structure Request where
  method : Verb := .other
  target : String := ""
  version : Nat := 11
  /-- `keep_alive()` -/
  keepAlive : Bool := true
  /-- `websocket::is_upgrade` -/
  isUpgrade : Bool := false
deriving DecidableEq

inductive Status
  | ok
  | badRequest
  | notFound
  | internalServerError
deriving DecidableEq

inductive Body
  | empty
  | string (s : String)
  | file (bytes : List UInt8)
deriving DecidableEq

def Body.size : Body → Nat
  | empty => 0
  | string s => s.utf8ByteSize
  | file bytes => bytes.length

structure Response where
  status : Status
  version : Nat
  server : String
  contentType : String
  keepAlive : Bool
  contentLength : Option Nat := none
  body : Body
deriving DecidableEq

/-- The functions of Beast that are called for a response. -/
structure Beast where
  /-- `beast::iequals`, which disregards the case of letters. -/
  iequals : String → String → Bool
  /-- `prepare_payload()` -/
  preparePayload : Response → Response
  /-- `need_eof()` -/
  needEof : Response → Bool

structure Beast.Documented (B : Beast) : Prop where
  /-- The content length is set to the size of the body. -/
  preparePayload : ∀ res, B.preparePayload res = { res with contentLength := some res.body.size }
  /-- A response with a content length needs the end of the stream when it is not kept alive. -/
  needEof : ∀ res : Response, res.contentLength.isSome → B.needEof res = !res.keepAlive

/-- Why a file does not open. -/
inductive OpenError
  | noSuchFileOrDirectory
  | other (message : String)
deriving DecidableEq

/-- What is outside the request. -/
structure Env extends Beast where
  /-- `BOOST_BEAST_VERSION_STRING` -/
  beastVersion : String
  docRoot : String

/-- `body.open` with the contents of the file. -/
abbrev Files := String → Except OpenError (List UInt8)

/-! ### Paths -/

/-- The part of the path from its last dot on. -/
def extension (path : String) : String :=
  if '.' ∈ path.toList then
    String.ofList ('.' :: (path.toList.reverse.takeWhile (· ≠ '.')).reverse)
  else ""

def mimeTypes : List (String × String) :=
  [(".htm", "text/html"), (".html", "text/html"), (".php", "text/html"), (".css", "text/css"),
    (".txt", "text/plain"), (".js", "application/javascript"), (".json", "application/json"),
    (".xml", "application/xml"), (".swf", "application/x-shockwave-flash"),
    (".flv", "video/x-flv"), (".png", "image/png"), (".jpe", "image/jpeg"), (".jpeg", "image/jpeg"),
    (".jpg", "image/jpeg"), (".gif", "image/gif"), (".bmp", "image/bmp"),
    (".ico", "image/vnd.microsoft.icon"), (".tiff", "image/tiff"), (".tif", "image/tiff"),
    (".svg", "image/svg+xml"), (".svgz", "image/svg+xml")]

def mimeType (B : Beast) (path : String) : String :=
  match mimeTypes.find? fun m => B.iequals (extension path) m.1 with
  | some m => m.2
  | none => "application/text"

/-- `path_cat` on a platform whose separator is the slash. -/
def pathCat (base path : String) : String :=
  if base = "" then path
  else if base.toList.getLast? = some '/' then String.ofList base.toList.dropLast ++ path
  else base ++ path

/-- The file for a target. -/
def filePath (docRoot target : String) : String :=
  let path := pathCat docRoot target
  if target.toList.getLast? = some '/' then path ++ "index.html" else path

/-- The target is absolute and does not contain "..". -/
def legalTarget (target : String) : Bool :=
  target.toList.head? = some '/' && !decide (['.', '.'] <:+: target.toList)

/-! ### Responses -/

section responses
variable (env : Env) (req : Request)

/-- The responses with a text as their body. -/
def stringResponse (status : Status) (body : String) : Response :=
  env.preparePayload
    { status
      version := req.version
      server := env.beastVersion
      contentType := "text/html"
      keepAlive := req.keepAlive
      body := .string body }

def badRequest (why : String) : Response := stringResponse env req .badRequest why

def notFound (target : String) : Response :=
  stringResponse env req .notFound ("The resource '" ++ target ++ "' was not found.")

def serverError (what : String) : Response :=
  stringResponse env req .internalServerError ("An error occurred: '" ++ what ++ "'")

/-- The response to a request for a file of `size` bytes. -/
def fileResponse (path : String) (size : Nat) (body : Body) : Response where
  status := .ok
  version := req.version
  server := env.beastVersion
  contentType := mimeType env.toBeast path
  keepAlive := req.keepAlive
  contentLength := some size
  body := body

def handleRequest (files : Files) : Response :=
  if req.method ≠ .get ∧ req.method ≠ .head then badRequest env req "Unknown HTTP-method"
  else if !legalTarget req.target then badRequest env req "Illegal request-target"
  else
    let path := filePath env.docRoot req.target
    match files path with
    | .error .noSuchFileOrDirectory => notFound env req req.target
    | .error (.other message) => serverError env req message
    | .ok bytes =>
      let size := bytes.length
      if req.method = .head then fileResponse env req path size .empty
      else fileResponse env req path size (.file bytes)

/-! ### What every response has -/

/-- A response repeats the version and the keep-alive flag of its request, and has a length. -/
structure Answers (res : Response) : Prop where
  version : res.version = req.version
  keepAlive : res.keepAlive = req.keepAlive
  contentLength : res.contentLength.isSome

theorem answers_fileResponse (path : String) (size : Nat) (body : Body) :
    Answers req (fileResponse env req path size body) := ⟨rfl, rfl, rfl⟩

variable {env} (henv : env.Documented)

include henv

theorem answers_stringResponse (status : Status) (body : String) :
    Answers req (stringResponse env req status body) := by
  unfold stringResponse
  rw [henv.preparePayload]
  exact ⟨rfl, rfl, rfl⟩

theorem answers_handleRequest (files : Files) : Answers req (handleRequest env req files) := by
  unfold handleRequest
  split
  · exact answers_stringResponse req henv ..
  · split
    · exact answers_stringResponse req henv ..
    · simp only
      split
      · exact answers_stringResponse req henv ..
      · exact answers_stringResponse req henv ..
      · split
        · exact answers_fileResponse ..
        · exact answers_fileResponse ..

/-- So the connection can be used again exactly when the request asked for it. -/
theorem needEof_handleRequest (files : Files) :
    env.needEof (handleRequest env req files) = !req.keepAlive := by
  have h := answers_handleRequest req henv files
  rw [henv.needEof _ h.contentLength, h.keepAlive]

end responses

/-! ### An environment -/

/-- The functions as documented; without a content length the end of the stream ends the body. -/
def emptyRoot : Env where
  iequals a b := a.toList.map Char.toLower = b.toList.map Char.toLower
  preparePayload res := { res with contentLength := some res.body.size }
  needEof res := if res.contentLength.isSome then !res.keepAlive else true
  beastVersion := "Boost.Beast/248"
  docRoot := "/srv"

theorem documented_emptyRoot : emptyRoot.Documented where
  preparePayload _ := rfl
  needEof _ h := if_pos h

end BeastLounge.Http
