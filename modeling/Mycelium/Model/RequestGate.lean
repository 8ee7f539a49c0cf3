import Mycelium.Model.RequestBodies
import Mycelium.Model.Sessions
import Mycelium.Model.Text

/-!
# The middleware of the web server

What a request passes before its handler: the session lookup, the login gate and the check of
the CSRF token, in this order. Between them other requests run, so each of them finds its own
session and user tables. Header values and bodies are their bytes; a header that is absent or
no text is `none`.

The counter of requests, the logs and the security headers of the response are left out.

SOURCE: crates/mycelium-web/src/middleware.rs, crates/mycelium-web/src/server.rs
-/

set_option autoImplicit false

namespace Mycelium.Model.RequestGate

open Mycelium.Model.Text Mycelium.Model.Sessions Mycelium.Model.Timestamps
open Mycelium.Model.RequestBodies

inductive Method where
  | get
  | head
  | options
  | post
  | put
  | delete
  | other
  deriving DecidableEq, Repr

structure Request where
  method : Method
  path : String
  cookie : Option String := none
  authorization : Option String := none
  contentType : List UInt8 := []
  contentLength : Option ℕ := none
  csrfHeader : Option (List UInt8) := none
  body : List UInt8 := []
  /-- The stream of the body fails before its end. -/
  breaks : Bool := false
  deriving DecidableEq, Repr

/-- SOURCE: rbac.rs:8-12 -/
inductive Role where
  | admin
  | user
  deriving DecidableEq, Repr

/-- SOURCE: rbac.rs:44-50 -/
structure SessionUser where
  userId : ℕ
  username : String
  role : Role
  deriving DecidableEq, Repr

/-- The session table when a lookup reads it, and the clock. -/
structure SessionsAt where
  table : Table
  now : Instant
  deletes : Bool := true

/-- What the middleware finds on its way. `bearerUser` is the user of an API key. -/
structure Env where
  crates : Crates
  parseUuid : String → Option ℕ
  toLowercase : List UInt8 → List UInt8
  atAuth : SessionsAt
  users : ℕ → Option SessionUser
  bearerUser : String → Option SessionUser
  mustChange : ℕ → Bool
  maxBookMib : ℕ
  atCheck : SessionsAt

/-- What the session lookup leaves on the request. -/
structure Extensions where
  user : Option SessionUser := none
  sessionId : Option ℕ := none
  bearer : Bool := false
  deriving DecidableEq, Repr

inductive Outcome where
  /-- The handler runs, with this body. -/
  | next (extensions : Extensions) (body : List UInt8)
  | redirect (location : String)
  | refused (status : ℕ) (message : String)
  | panicked
  deriving DecidableEq, Repr

/-! ## The session lookup -/

def Env.session (env : Env) (found : SessionsAt) (sessionId : ℕ) :
    Except SessionError SessionRecord :=
  (Sessions.get env.crates found.table sessionId found.now found.deletes).1

/-- The first cookie of the name decides. SOURCE: middleware.rs:16-25 -/
def sessionIdFromHeaders (parseUuid : String → Option ℕ) (cookies : String) : Option ℕ :=
  ((splitBy (· == ';') cookies.toList).findSome? fun part =>
    stripPrefix (String.ofList (trim part)) "myc2_session=").bind fun value =>
      parseUuid (String.ofList value)

/-- The session of the cookie with its user. -/
def sessionUser (env : Env) (request : Request) : Option (ℕ × SessionUser) := do
  let sessionId ← request.cookie.bind (sessionIdFromHeaders env.parseUuid)
  let session ← (env.session env.atAuth sessionId).toOption
  let user ← env.users session.userId
  return (sessionId, user)

/-- SOURCE: middleware.rs:71-93 -/
def bearerUser (env : Env) (request : Request) : Option SessionUser :=
  (request.authorization.bind fun auth => stripPrefix auth "Bearer ").bind fun token =>
    env.bearerUser (String.ofList token)

/-- SOURCE: middleware.rs:30-64 -/
def sessionAuth (env : Env) (request : Request) : Extensions :=
  match sessionUser env request with
  | some (sessionId, user) => { user := some user, sessionId := some sessionId }
  | none =>
    if request.path ≠ "/mcp" then
      match bearerUser env request with
      | some user => { user := some user, bearer := true }
      | none => {}
    else {}

/-! ## The login gate -/

/-- SOURCE: server.rs:209-220 -/
def isPublic (path : String) : Bool :=
  path = "/login" || path = "/setup" || path = "/logout" || startsWith path "/assets/" ||
    startsWith path "/api/v1/health" || startsWith path "/metrics" || startsWith path "/health" ||
    path = "/mcp"

/-- Where the gate sends a request that it does not let through. SOURCE: server.rs:203-250 -/
def requireLoginGate (env : Env) (request : Request) (extensions : Extensions) : Option String :=
  if isPublic request.path then none
  else
    match extensions.user with
    | none => some "/login"
    | some user =>
      if request.path ≠ "/account" ∧ request.path ≠ "/password" ∧ extensions.bearer = false ∧
          env.mustChange user.userId = true then some "/account?forced=1"
      else none

/-! ## The CSRF check -/

def isSafe : Method → Bool
  | .get | .head | .options => true
  | _ => false

/-- SOURCE: session.rs:159-169 -/
def constantTimeEq (a b : List UInt8) : Bool :=
  a.length == b.length && (List.zipWith (· ^^^ ·) a b).foldl (· ||| ·) 0 == 0

/-- The bytes of a text. -/
def utf8 (text : String) : List UInt8 := text.toUTF8.data.toList

/-- SOURCE: middleware.rs:354-366, session.rs:145-156 -/
def verifyAndContinue (env : Env) (extensions : Extensions) (sessionId : ℕ) (token : List UInt8)
    (body : List UInt8) : Outcome :=
  match env.session env.atCheck sessionId with
  | .error _ => .refused 401 "invalid session"
  | .ok session =>
    if constantTimeEq token (utf8 session.csrfToken) then .next extensions body
    else .refused 403 "CSRF token mismatch"

def smallMultipartMaxBytes : ℕ := 8 * 1024 * 1024

def formMaxBytes : ℕ := 2 * 1024 * 1024

/-- SOURCE: middleware.rs:133-152 -/
def multipartBufferCap (path : String) (bookCapBytes : ℕ) : ℕ :=
  if path = "/api/v1/ingest" then bookCapBytes else smallMultipartMaxBytes

/-- `axum::body::to_bytes`: the body, when it fits. -/
def toBytes (request : Request) (limit : ℕ) : Option (List UInt8) :=
  if request.breaks ∨ limit < request.body.length then none else some request.body

def csrfField : List UInt8 := ascii "csrf_token"

/-- The token a request presents, or the answer to a request that presents none.
SOURCE: middleware.rs:215-297 -/
def presentedToken (env : Env) (request : Request) : Except Outcome (List UInt8) :=
  match request.csrfHeader with
  | some token => .ok token
  | none =>
    if (ascii "application/x-www-form-urlencoded").isPrefixOf request.contentType then
      match toBytes request formMaxBytes with
      | none => .error (.refused 400 "body read failed")
      | some bytes =>
        match formUrlencodedGet bytes csrfField with
        | some token => .ok token
        | none => .error (.refused 403 "missing CSRF token")
    else if (ascii "multipart/form-data").isPrefixOf request.contentType then
      let cap := multipartBufferCap request.path ((env.maxBookMib + 1) * 1024 * 1024)
      if request.contentLength.any fun length => cap < length then
        .error (.refused 413 "body too large")
      else
        match toBytes request cap with
        | none => .error (.refused 400 "body read failed")
        | some bytes =>
          match multipartField env.toLowercase bytes request.contentType csrfField with
          | .error _ => .error .panicked
          | .ok (some token) => .ok token
          | .ok none => .error (.refused 403 "missing CSRF token")
    else .error (.refused 403 "missing CSRF token")

/-- SOURCE: middleware.rs:167-302 -/
def csrfProtect (env : Env) (request : Request) (extensions : Extensions) : Outcome :=
  if isSafe request.method || request.path = "/mcp" || extensions.bearer ||
      (request.path = "/login" || request.path = "/setup") then .next extensions request.body
  else
    match extensions.sessionId with
    | none => .refused 401 "unauthorized"
    | some sessionId =>
      match presentedToken env request with
      | .error answer => answer
      | .ok token => verifyAndContinue env extensions sessionId token request.body

/-- The layers around a handler. SOURCE: server.rs:181-194 -/
def serve (env : Env) (request : Request) : Outcome :=
  let extensions := sessionAuth env request
  match requireLoginGate env request extensions with
  | some location => .redirect location
  | none => csrfProtect env request extensions

end Mycelium.Model.RequestGate
