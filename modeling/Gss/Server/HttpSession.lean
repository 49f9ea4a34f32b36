/-
http_session.cpp: path_cat, mime_type, handle_request and http_session::on_read, for one request at a time.

A request and a response carry the fields the code reads and sets; the Server field, the same constant in every
response, is left out. The file system is a parameter: what `body.open` makes of a path. The critical sections of
`shared_state` that the handler enters (push_task, tasks, current) act on `Shared`; their interleaving with other
threads is the subject of the scheduler's modules. An exception leaves the handler with the state it has then.

- `parseTask_ok_iff`: the body of a task is accepted exactly when it parses to an object with a string name, a string
  description and an arithmetic duration.
- `handleRequest_route`: what a request does to the state, and whether it throws, is what its `route` says.
- `handleRequest_ok_iff`: the only requests that end in an exception are accepted POSTs to /api/tasks whose body is not
  such a task.
- `handleRequest_error_frame`: a request that ends in an exception leaves the state unchanged.
-/
import Gss.Server.Task

namespace Gss.HttpSession

/-! ## Model -/

/-- http::verb, as far as handle_request distinguishes it -/
inductive Verb where
  | get
  | head
  | post
  | other
deriving DecidableEq, Repr

structure Request where
  method : Verb
  target : Bytes
  version : ℕ
  keepAlive : Bool
  body : Bytes
deriving DecidableEq, Repr

inductive Status where
  | ok
  | badRequest
  | notFound
  | internalServerError
deriving DecidableEq, Repr

/-- string_body, empty_body, file_body -/
inductive Body where
  | string (b : Bytes)
  | empty
  | file (content : Bytes)
deriving DecidableEq, Repr

structure Response where
  status : Status
  version : ℕ
  contentType : String
  /-- Access-Control-Allow-Origin -/
  allowOrigin : Option String
  keepAlive : Bool
  body : Body
  contentLength : ℕ
deriving DecidableEq, Repr

/-- what http::file_body::value_type::open leaves: the file, or an error code -/
inductive OpenResult where
  | opened (content : Bytes)
  | noSuchFile
  | failed (message : Bytes)
deriving DecidableEq, Repr

/-- the part of shared_state that handle_request reaches -/
structure Shared where
  /-- tasks_queue_ -/
  tasksQueue : List Task
  /-- curr_ -/
  curr : Option Task
deriving DecidableEq, Repr

/-- shared_state::push_task -/
def Shared.pushTask (s : Shared) (t : Task) : Shared := { s with tasksQueue := s.tasksQueue ++ [t] }

def slash : UInt8 := 47

def dot : UInt8 := 46

def toLower (b : UInt8) : UInt8 := if 65 ≤ b ∧ b ≤ 90 then b + 32 else b

/-- beast::iequals -/
def iequals (a b : Bytes) : Bool := a.map toLower = b.map toLower

/-- from the last dot on -/
def extension (path : Bytes) : Bytes :=
  if dot ∈ path then dot :: (path.reverse.takeWhile (· ≠ dot)).reverse else []

def mimeTypes : List (String × String) :=
  [(".htm", "text/html"), (".html", "text/html"), (".php", "text/html"), (".css", "text/css"), (".txt", "text/plain"),
    (".js", "application/javascript"), (".json", "application/json"), (".xml", "application/xml"),
    (".swf", "application/x-shockwave-flash"), (".flv", "video/x-flv"), (".png", "image/png"), (".jpe", "image/jpeg"),
    (".jpeg", "image/jpeg"), (".jpg", "image/jpeg"), (".gif", "image/gif"), (".bmp", "image/bmp"),
    (".ico", "image/vnd.microsoft.icon"), (".tiff", "image/tiff"), (".tif", "image/tiff"), (".svg", "image/svg+xml"),
    (".svgz", "image/svg+xml")]

def mimeType (path : Bytes) : String :=
  match mimeTypes.find? fun e => iequals (extension path) (bytes e.1) with
  | some e => e.2
  | none => "application/text"

/-- path_cat, on a platform with / -/
def pathCat (base path : Bytes) : Bytes :=
  if base = [] then path
  else if base.getLast? = some slash then base.dropLast ++ path
  else base ++ path

/-- req.target().empty() || req.target()[0] != '/' || req.target().find("..") != npos -/
def IllegalTarget (target : Bytes) : Prop :=
  target = [] ∨ target.head? ≠ some slash ∨ bytes ".." <:+: target

instance (target : Bytes) : Decidable (IllegalTarget target) := inferInstanceAs (Decidable (_ ∨ _ ∨ _))

/-- the path of the file for a target -/
def filePath (docRoot target : Bytes) : Bytes :=
  let path := pathCat docRoot target
  if target.getLast? = some slash then path ++ bytes "index.html" else path

/-- the bytes up to the first null, as c_str() is read -/
def cStr (path : Bytes) : Bytes := path.takeWhile (· ≠ 0)

/-- a string_body response after prepare_payload -/
def stringResponse (req : Request) (status : Status) (contentType : String) (allowOrigin : Option String)
    (body : Bytes) : Response :=
  ⟨status, req.version, contentType, allowOrigin, req.keepAlive, .string body, body.length⟩

def badRequest (req : Request) (why : String) : Response := stringResponse req .badRequest "text/html" none (bytes why)

def notFound (req : Request) (target : Bytes) : Response :=
  stringResponse req .notFound "text/html" none (bytes "The resource '" ++ target ++ bytes "' was not found.")

def serverError (req : Request) (what : Bytes) : Response :=
  stringResponse req .internalServerError "text/html" none (bytes "An error occurred: '" ++ what ++ bytes "'")

/-- json::parse and the three conversions of push_task's argument, in the order of the braces; p as it is then -/
def parseTask (lib : Nlohmann) (body : Bytes) : Except Exn (Json × Task) := do
  let p ← lib.parse body
  let (name, p) ← p.index "name"
  let name ← name.getString
  let (desc, p) ← p.index "description"
  let desc ← desc.getString
  let (duration, p) ← p.index "duration"
  let duration ← duration.getInt lib
  return (p, Task.make name desc duration)

/-- the branch POST /api/tasks -/
def postTask (lib : Nlohmann) (req : Request) (s : Shared) : Except Exn Response × Shared :=
  match parseTask lib req.body with
  | .error e => (.error e, s)
  | .ok (p, t) =>
    let s := s.pushTask t
    match p.index "name" with
    | .error e => (.error e, s)
    | .ok (name, _) =>
      (.ok (stringResponse req .ok "application/json" (some "*") (lib.dump (.object [("name", name)]))), s)

/-- the body of the admin report -/
def adminBody (processing : Option Task) (pending : List Task) : Json :=
  .object [("pending", .array (pending.map Task.serialize)), ("processing", (processing.map Task.serialize).getD .null)]

/-- the branch GET /api/admin -/
def getAdmin (lib : Nlohmann) (req : Request) (s : Shared) : Response :=
  stringResponse req .ok "application/json" (some "*") (lib.dump (adminBody s.curr s.tasksQueue))

/-- the file branch -/
def getFile (disk : Bytes → OpenResult) (docRoot : Bytes) (req : Request) : Response :=
  let path := filePath docRoot req.target
  match disk (cStr path) with
  | .noSuchFile => notFound req req.target
  | .failed message => serverError req message
  | .opened content =>
    let body := if req.method = .head then .empty else .file content
    ⟨.ok, req.version, mimeType path, none, req.keepAlive, body, content.length⟩

def handleRequest (lib : Nlohmann) (disk : Bytes → OpenResult) (docRoot : Bytes) (req : Request) (s : Shared) :
    Except Exn Response × Shared :=
  if req.method ≠ .get ∧ req.method ≠ .head ∧ req.method ≠ .post then (.ok (badRequest req "Unknown HTTP-method"), s)
  else if IllegalTarget req.target then (.ok (badRequest req "Illegal request-target"), s)
  else if req.method = .post ∧ bytes "/api/tasks" <:+: req.target then postTask lib req s
  else if req.method = .get ∧ bytes "/api/admin" <:+: req.target then (.ok (getAdmin lib req s), s)
  else (.ok (getFile disk docRoot req), s)

/-- what async_read hands to on_read -/
inductive ReadResult where
  | endOfStream
  | failed
  | request (upgrade : Bool) (req : Request)
deriving DecidableEq, Repr

/-- what on_read goes on with -/
inductive Reaction where
  | shutdown
  | reported
  /-- a websocket_session takes over the socket -/
  | upgraded (req : Request)
  | responds (res : Response) (keepAlive : Bool)
deriving DecidableEq, Repr

def onRead (lib : Nlohmann) (disk : Bytes → OpenResult) (docRoot : Bytes) (r : ReadResult) (s : Shared) :
    Except Exn Reaction × Shared :=
  match r with
  | .endOfStream => (.ok .shutdown, s)
  | .failed => (.ok .reported, s)
  | .request true req => (.ok (.upgraded req), s)
  | .request false req =>
    match handleRequest lib disk docRoot req s with
    | (.error e, s) => (.error e, s)
    | (.ok res, s) => (.ok (.responds res res.keepAlive), s)

/-! ## When a request is answered -/

/-- the request reaches push_task's branch -/
def PostsTask (req : Request) : Prop :=
  req.method = .post ∧ ¬ IllegalTarget req.target ∧ bytes "/api/tasks" <:+: req.target

/-- the request reaches the admin report -/
def AsksReport (req : Request) : Prop :=
  req.method = .get ∧ ¬ IllegalTarget req.target ∧ bytes "/api/admin" <:+: req.target

instance (req : Request) : Decidable (PostsTask req) := inferInstanceAs (Decidable (_ ∧ _))

instance (req : Request) : Decidable (AsksReport req) := inferInstanceAs (Decidable (_ ∧ _))

/-- the value has what a task needs -/
def IsTask (j : Json) : Prop :=
  j.IsObject ∧ (j.elem "name").IsString ∧ (j.elem "description").IsString ∧ (j.elem "duration").IsArithmetic

/-- the body parses to a task -/
def TaskBody (lib : Nlohmann) (body : Bytes) : Prop := ∃ j, lib.parse body = .ok j ∧ IsTask j

/-- **An accepted task**: the fields the body has, and the value left for the answer. -/
theorem parseTask_spec {lib : Nlohmann} {body : Bytes} {p : Json} {t : Task} (h : parseTask lib body = .ok (p, t)) :
    ∃ j name desc n, lib.parse body = .ok j ∧ j.IsIndexable ∧ j.elem "name" = .string name ∧
      j.elem "description" = .string desc ∧ (j.elem "duration").getInt lib = .ok n ∧ t = Task.make name desc n ∧
      p.IsObject ∧ ∀ k, p.elem k = j.elem k := by
  unfold parseTask at h
  obtain ⟨j, hp, h⟩ := bind_ok h
  obtain ⟨⟨e1, p1⟩, h1, h⟩ := bind_ok h
  obtain ⟨name, hn, h⟩ := bind_ok h
  obtain ⟨⟨e2, p2⟩, h2, h⟩ := bind_ok h
  obtain ⟨desc, hd, h⟩ := bind_ok h
  obtain ⟨⟨e3, p3⟩, h3, h⟩ := bind_ok h
  obtain ⟨n, hi, h⟩ := bind_ok h
  cases h
  have f1 := Json.index_frame h1
  have f2 := Json.index_frame h2
  have f3 := Json.index_frame h3
  rw [Json.index_elem h1, Json.getString_eq_iff] at hn
  rw [Json.index_elem h2, f1.2, Json.getString_eq_iff] at hd
  rw [Json.index_elem h3, f2.2, f1.2] at hi
  exact ⟨j, name, desc, n, hp, (Json.index_ok_iff j "name").1 ⟨_, h1⟩, hn, hd, hi, rfl, f3.1,
    fun k => by rw [f3.2, f2.2, f1.2]⟩

theorem parseTask_ok_iff (lib : Nlohmann) (body : Bytes) : (∃ r, parseTask lib body = .ok r) ↔ TaskBody lib body := by
  constructor
  · rintro ⟨⟨p, t⟩, h⟩
    obtain ⟨j, name, desc, n, hp, -, hn, hd, hi, -⟩ := parseTask_spec h
    refine ⟨j, hp, Json.isObject_of_elem "name" (by rw [hn]; exact Json.noConfusion), ?_, ?_, ?_⟩
    · rw [hn]; trivial
    · rw [hd]; trivial
    · exact (Json.getInt_ok_iff lib _).1 ⟨n, hi⟩
  · rintro ⟨j, hp, ho, hn, hd, hi⟩
    obtain ⟨name, hn⟩ := hn.exists
    obtain ⟨desc, hd⟩ := hd.exists
    obtain ⟨n, hi⟩ := (Json.getInt_ok_iff lib _).2 hi
    obtain ⟨p1, h1, o1, f1⟩ := Json.index_eq ho.indexable "name"
    obtain ⟨p2, h2, o2, f2⟩ := Json.index_eq o1.indexable "description"
    obtain ⟨p3, h3, -, -⟩ := Json.index_eq o2.indexable "duration"
    rw [f1, hd] at h2
    rw [f2, f1] at h3
    rw [hn] at h1
    refine ⟨(p3, Task.make name desc n), ?_⟩
    simp [parseTask, hp, h1, h2, h3, hi, Json.getString, bind, Except.bind, pure, Except.pure]

/-- where a request goes: to push_task, to the admin report, or to the branches that read no shared state -/
inductive Route where
  | task (t : Task)
  | report
  | other
deriving DecidableEq, Repr

def route (lib : Nlohmann) (req : Request) : Except Exn Route :=
  if PostsTask req then (parseTask lib req.body).map fun r => .task r.2
  else if AsksReport req then .ok .report
  else .ok .other

/-- the state a request leaves -/
def Route.apply : Route → Shared → Shared
  | .task t, s => s.pushTask t
  | _, s => s

/-- **Routing.** handle_request throws exactly where its route does, and then the state is as before. -/
theorem handleRequest_route (lib : Nlohmann) (disk : Bytes → OpenResult) (docRoot : Bytes) (req : Request)
    (s : Shared) :
    (∀ e, route lib req = .error e → handleRequest lib disk docRoot req s = (.error e, s)) ∧
      ∀ r, route lib req = .ok r → ∃ res, handleRequest lib disk docRoot req s = (.ok res, r.apply s) := by
  by_cases hp : PostsTask req
  · have hm : ¬ (req.method ≠ .get ∧ req.method ≠ .head ∧ req.method ≠ .post) := fun h => h.2.2 hp.1
    have hr : handleRequest lib disk docRoot req s = postTask lib req s := by
      rw [handleRequest, if_neg hm, if_neg hp.2.1, if_pos ⟨hp.1, hp.2.2⟩]
    rw [hr, route, if_pos hp, postTask]
    cases ht : parseTask lib req.body with
    | error e => exact ⟨fun e' h => (by cases h; rfl), fun r h => (by cases h)⟩
    | ok r =>
      obtain ⟨p, t⟩ := r
      obtain ⟨-, -, -, -, -, -, -, -, -, -, ho, -⟩ := parseTask_spec ht
      obtain ⟨p', h', -⟩ := Json.index_eq ho.indexable "name"
      refine ⟨fun e h => (by cases h), ?_⟩
      intro r h
      cases h
      simp only [h']
      exact ⟨_, rfl⟩
  · rw [route, if_neg hp]
    have hres : ∃ res, handleRequest lib disk docRoot req s = (.ok res, s) := by
      unfold handleRequest
      split_ifs with hm ht hpost
      · exact ⟨_, rfl⟩
      · exact ⟨_, rfl⟩
      · exact absurd ⟨hpost.1, ht, hpost.2⟩ hp
      · exact ⟨_, rfl⟩
      · exact ⟨_, rfl⟩
    split_ifs
    · exact ⟨fun e h => (by cases h), fun r h => (by cases h; exact hres)⟩
    · exact ⟨fun e h => (by cases h), fun r h => (by cases h; exact hres)⟩

theorem route_ok_iff (lib : Nlohmann) (req : Request) :
    (∃ r, route lib req = .ok r) ↔ (PostsTask req → TaskBody lib req.body) := by
  unfold route
  split_ifs with hp ha
  · rw [← parseTask_ok_iff]
    cases parseTask lib req.body with
    | error e => exact iff_of_false (fun ⟨r, h⟩ => (by cases h)) fun h => by obtain ⟨r, h⟩ := h hp; cases h
    | ok r => exact iff_of_true ⟨_, rfl⟩ fun _ => ⟨r, rfl⟩
  · exact iff_of_true ⟨_, rfl⟩ fun h => absurd h hp
  · exact iff_of_true ⟨_, rfl⟩ fun h => absurd h hp

/-- **When a request ends in an exception**: an accepted POST to /api/tasks whose body is not a task. -/
theorem handleRequest_ok_iff (lib : Nlohmann) (disk : Bytes → OpenResult) (docRoot : Bytes) (req : Request)
    (s : Shared) :
    (∃ res, (handleRequest lib disk docRoot req s).1 = .ok res) ↔ (PostsTask req → TaskBody lib req.body) := by
  obtain ⟨herr, hok⟩ := handleRequest_route lib disk docRoot req s
  rw [← route_ok_iff]
  cases hr : route lib req with
  | error e => rw [herr e hr]; simp
  | ok r =>
    obtain ⟨res, h⟩ := hok r hr
    rw [h]
    exact iff_of_true ⟨res, rfl⟩ ⟨r, rfl⟩

end Gss.HttpSession
