import Mdrj.Core.Dict
import Mdrj.L1Encoding.Flt
import Mdrj.L1Encoding.Sha256

/-!
# Authentication of requests

`build_app` puts two middlewares in front of every handler, the session
check outside and the signature check inside. Both let the public paths
through. Four of these are there for traffic between nodes, which the
comments leave to the signature check, and that check skips them too: a
request on one of them needs neither a session nor a signature
(`unsigned_batch_passes`). On every other path a write that reaches its
handler comes from an administrator (`write_authenticated_iff`). The nodes
themselves also use paths that are not public; once the receiver has a user,
those requests are turned away, signed or not (`peer_request_iff`).

A clock reading is an argument of each middleware. `build_app` always sets
`app["node"]`, so the branches for a missing node are left out.
-/
namespace Mdrj.L6
open Mdrj.Core Mdrj.L1

/-- mirrors mdrj/auth.py:83-89 -/
structure SessionRecord where
  token : String
  username : String
  role : String
  createdAt : Flt
  expiresAt : Flt

/-- The sessions by token. -/
abbrev SessionStore := Dict String SessionRecord

/-- What the middlewares read of the application and its node. -/
structure App where
  hmacKey : Option String
  usersCount : Nat
  sessionStore : SessionStore

/-- Header names compare without regard to case. -/
structure Request where
  method : String
  path : String
  headers : List (String × String) := []
  cookies : Dict String String := []
  body : Sha256.Bytes := []

def Request.header (req : Request) (name : String) : Option String :=
  (req.headers.find? fun p => p.1.toLower = name.toLower).map Prod.snd

/-- What becomes of a request. -/
inductive Outcome where
  | handled
  | found (location : String)
  | unauthorized (text : String)
  | forbidden (text : String)
  | internalError
  deriving DecidableEq

/-- The application after a request, and the outcome. -/
structure Response where
  app : App
  outcome : Outcome

def hmacHeader : String := "X-MDRJ-Sig"
def writeMethods : List String := ["POST", "PUT", "DELETE", "PATCH"]   -- and `HMAC_PROTECTED_METHODS`
def sessionCookieName : String := "mdrj_session"
def roleAdmin : String := "admin"

/-- mirrors mdrj/api.py:35-42 -/
def authPublicPaths : List String :=
  ["/auth/login", "/auth/logout", "/status", "/event/batch", "/gossip/frontier",
    "/checkpoint/propose"]

/-- mirrors mdrj/api.py:46-62 -/
def viewerReadPaths : List String :=
  ["/dag", "/dag/frontier", "/metrics", "/metrics/prometheus", "/metrics/history", "/peers",
    "/incidents", "/viz", "/viz/graph", "/viz/stream", "/checkpoint/list", "/checkpoint/verify",
    "/auth/me", "/notifier/status", "/catalog"]

/-- An expired session is dropped when it is looked up.
mirrors mdrj/auth.py:112-119 -/
def SessionStore.get (sessions : SessionStore) (token : String) (now : Flt) :
    SessionStore × Option SessionRecord :=
  match Dict.get sessions token with
  | none => (sessions, none)
  | some record =>
    if Flt.lt record.expiresAt now then (sessions.filter (·.1 ≠ token), none)
    else (sessions, some record)

/-- mirrors mdrj/api.py:104-112 -/
def resolveSession (app : App) (req : Request) (now : Flt) : App × Option SessionRecord :=
  match Dict.get req.cookies sessionCookieName with
  | none => (app, none)
  | some token =>
    if token = "" then (app, none)
    else
      let (sessions, record) := app.sessionStore.get token now
      ({ app with sessionStore := sessions }, record)

/-- Both texts must be ASCII.
mirrors `hmac.compare_digest` on `str` -/
def compareDigest (a b : String) : Option Bool :=
  if (a.toList ++ b.toList).all (·.toNat < 128) then some (a = b) else none

/-- mirrors mdrj/api.py:65-101 -/
def hmacAuthMiddleware (app : App) (req : Request) (now : Flt) (handler : App → Response) :
    Response :=
  let hmacKey := app.hmacKey.getD ""
  if hmacKey = "" ∨ req.method ∉ writeMethods then handler app
  else if req.path ∈ authPublicPaths then handler app
  else
    let (app, session) := resolveSession app req now
    if session.isSome then handler app
    else if app.usersCount = 0 then handler app
    else
      let provided := (req.header hmacHeader).getD ""
      if provided = "" then ⟨app, .unauthorized "missing X-MDRJ-Sig header"⟩
      else
        match compareDigest provided (Sha256.hmac (Sha256.encode hmacKey) req.body) with
        | none => ⟨app, .internalError⟩
        | some false => ⟨app, .unauthorized "invalid signature"⟩
        | some true => handler app

/-- `sub in text`. -/
def contains (text sub : String) : Bool :=
  text.toList.tails.any fun rest => sub.toList.isPrefixOf rest

/-- What a viewer may read.
mirrors mdrj/api.py:140-145 -/
def isReadPath (path : String) : Bool :=
  path ∈ viewerReadPaths || "/static/".toList.isPrefixOf path.toList || path = "/gossip/frontier" ||
    "/events/".toList.isPrefixOf path.toList

/-- mirrors mdrj/api.py:115-149 -/
def sessionAuthMiddleware (app : App) (req : Request) (now : Flt) (handler : App → Response) :
    Response :=
  if req.path ∈ authPublicPaths then handler app
  else if app.usersCount = 0 then handler app
  else
    match resolveSession app req now with
    | (app, none) =>
      if contains ((req.header "Accept").getD "") "text/html" ∧ req.method = "GET" then
        ⟨app, .found "/auth/login"⟩
      else ⟨app, .unauthorized "login required"⟩
    | (app, some session) =>
      if session.role ≠ roleAdmin ∧ req.method ∈ writeMethods ∧ req.path ≠ "/auth/logout" then
        ⟨app, .forbidden "admin role required"⟩
      else if session.role ≠ roleAdmin ∧ req.method = "GET" ∧ ¬ isReadPath req.path then
        ⟨app, .forbidden "not permitted for viewer role"⟩
      else handler app

/-- The two middlewares in the order of `build_app`, each with its clock
reading.
mirrors mdrj/api.py:7773-7776 -/
def dispatch (app : App) (req : Request) (now now' : Flt) : Response :=
  sessionAuthMiddleware app req now fun app =>
    hmacAuthMiddleware app req now' fun app => ⟨app, .handled⟩

/-! ## Authenticated writes -/

/-- The cookie names a session of an administrator that has not expired. -/
def AdminSession (app : App) (req : Request) (now : Flt) : Prop :=
  ∃ token record, Dict.get req.cookies sessionCookieName = some token ∧
    Dict.get app.sessionStore token = some record ∧ Flt.lt record.expiresAt now = false ∧
    record.role = roleAdmin

/-- The signature header is the HMAC of the body under the key. -/
def Signed (hmacKey : String) (req : Request) : Prop :=
  req.header hmacHeader = some (Sha256.hmac (Sha256.encode hmacKey) req.body)

/-- A key is set and a user exists. -/
structure Secured (app : App) (hmacKey : String) : Prop where
  key : app.hmacKey = some hmacKey
  set : hmacKey ≠ ""
  users : app.usersCount ≠ 0

/-- The public paths of traffic between nodes and of probes. -/
def interNodePaths : List String :=
  ["/status", "/event/batch", "/gossip/frontier", "/checkpoint/propose"]

section Admit
variable {app app' : App} {req : Request} {now now' : Flt} {session : SessionRecord}

theorem resolveSession_some (h : resolveSession app req now = (app', some session)) :
    ∃ token, Dict.get req.cookies sessionCookieName = some token ∧
      Dict.get app.sessionStore token = some session ∧ Flt.lt session.expiresAt now = false := by
  unfold resolveSession at h
  cases hc : Dict.get req.cookies sessionCookieName with
  | none => rw [hc] at h; cases h
  | some token =>
    rw [hc] at h
    dsimp only at h
    split at h
    · cases h
    · unfold SessionStore.get at h
      cases hs : Dict.get app.sessionStore token with
      | none => rw [hs] at h; cases h
      | some record =>
        rw [hs] at h
        dsimp only at h
        split at h
        · cases h
        · rename_i hlive
          obtain rfl : record = session := Option.some.inj (Prod.mk.inj h).2
          exact ⟨token, rfl, hs, by simpa using hlive⟩

/-- Off the public paths, with users, the session check alone admits only
the writes of administrators. -/
theorem dispatch_write (hwrite : req.method ∈ writeMethods) (hpath : req.path ∉ authPublicPaths)
    (husers : app.usersCount ≠ 0) (h : (dispatch app req now now').outcome = .handled) :
    AdminSession app req now := by
  unfold dispatch sessionAuthMiddleware at h
  rw [if_neg hpath, if_neg husers] at h
  cases hr : resolveSession app req now with
  | mk app' session =>
    rw [hr] at h
    cases session with
    | none =>
      dsimp only at h
      split at h <;> cases h
    | some session =>
      dsimp only at h
      obtain ⟨token, hcookie, hget, hlive⟩ := resolveSession_some hr
      by_cases hrole : session.role = roleAdmin
      · exact ⟨token, session, hcookie, hget, hlive, hrole⟩
      · have hlogout : req.path ≠ "/auth/logout" := by
          intro he
          exact hpath (he ▸ by decide)
        rw [if_pos ⟨hrole, hwrite, hlogout⟩] at h
        cases h

/-- On a public path both checks let everything through. -/
theorem dispatch_public (hpath : req.path ∈ authPublicPaths) :
    (dispatch app req now now').outcome = .handled := by
  unfold dispatch sessionAuthMiddleware hmacAuthMiddleware
  dsimp only
  rw [if_pos hpath, if_pos hpath]
  split <;> rfl

end Admit

/-- **Who may write.** With a key and a user, the writes that reach the
handler of a path other than login and logout are all authenticated exactly
when the path is not one of the four public paths between nodes. -/
theorem write_authenticated_iff {app : App} {hmacKey method path : String}
    (happ : Secured app hmacKey) (hwrite : method ∈ writeMethods) (hlogin : path ≠ "/auth/login")
    (hlogout : path ≠ "/auth/logout") :
    (∀ (req : Request) (now now' : Flt), req.method = method → req.path = path →
      (dispatch app req now now').outcome = .handled → AdminSession app req now ∨ Signed hmacKey req) ↔
    path ∉ interNodePaths := by
  constructor
  · intro h hpath
    -- a request without cookie and signature
    have hpublic : path ∈ authPublicPaths := by
      unfold authPublicPaths
      exact List.mem_cons_of_mem _ (List.mem_cons_of_mem _ hpath)
    rcases h ⟨method, path, [], [], []⟩ (.fin 0) (.fin 0) rfl rfl (dispatch_public hpublic) with hs | hs
    · obtain ⟨token, _, hcookie, -⟩ := hs
      cases hcookie
    · cases hs
  · intro hpath req now now' hm hp h
    have hprivate : req.path ∉ authPublicPaths := by
      rw [hp]
      unfold authPublicPaths
      simp only [List.mem_cons, not_or]
      exact ⟨hlogin, hlogout, by simpa [interNodePaths] using hpath⟩
    exact .inl (dispatch_write (hm ▸ hwrite) hprivate happ.users h)

/-- A node with a key, a user and one session, of an administrator. -/
def guardedApp : App := ⟨some "k", 1, [("t", ⟨"t", "root", "admin", .fin 0, .fin 9⟩)]⟩

/-- An event emitted from the browser of the administrator. -/
def browserEmit : Request := ⟨"POST", "/event/emit", [], [("mdrj_session", "t")], []⟩

theorem write_authenticated_browser :
    (dispatch guardedApp browserEmit (.fin 1) (.fin 1)).outcome = .handled ∧
      (AdminSession guardedApp browserEmit (.fin 1) ∨ Signed "k" browserEmit) := by
  have hpass : (dispatch guardedApp browserEmit (.fin 1) (.fin 1)).outcome = .handled := by decide +kernel
  refine ⟨hpass, (write_authenticated_iff (⟨rfl, by decide, by decide⟩ : Secured guardedApp "k") (by decide)
    ?_ ?_).2 ?_ browserEmit (.fin 1) (.fin 1) rfl rfl hpass⟩
  · decide
  · decide
  · decide

/-- A batch of events without cookie and signature reaches its handler. -/
theorem unsigned_batch_passes : ∃ req : Request, req.method = "POST" ∧ req.path = "/event/batch" ∧
    (dispatch guardedApp req (.fin 0) (.fin 0)).outcome = .handled ∧
    ¬ AdminSession guardedApp req (.fin 0) ∧ ¬ Signed "k" req := by
  refine ⟨⟨"POST", "/event/batch", [], [], []⟩, rfl, rfl, dispatch_public (by decide), ?_, fun h => ?_⟩
  · rintro ⟨token, _, hcookie, -⟩
    cases hcookie
  · cases h

/-! ## Requests between nodes -/

/-- The requests a node makes of a peer. A body is the JSON text the code
sends, any bytes here; an event id is one that URL syntax leaves alone. -/
inductive PeerRequest where
  | eventBatch (body : Sha256.Bytes)
  | checkpointPropose (body : Sha256.Bytes)
  | vizClear (body : Sha256.Bytes)
  | vizSimulationControl (body : Sha256.Bytes)
  | gossipFrontier
  | ancestry (eventId : String)
  | consensusDigest
  | status

/-- The headers for a body.
mirrors mdrj/utils.py:45-55 -/
def signedRequestHeaders (body : Sha256.Bytes) (hmacKey : Option String) : List (String × String) :=
  [("Content-Type", "application/json")] ++
    if hmacKey.getD "" = "" then []
    else [(hmacHeader, Sha256.hmac (Sha256.encode (hmacKey.getD "")) body)]

/-- What `aiohttp` adds that a middleware reads; the session of a node holds
no cookies. -/
def clientHeaders : List (String × String) := [("Accept", "*/*")]

/-- The request under the key of the sending node.
mirrors mdrj/gossip.py:133-144 and mdrj/node.py:645, 1539-1544, 1663-1665,
1697-1699, 2290-2292, 2399-2402, 2422-2425 -/
def PeerRequest.request (hmacKey : Option String) : PeerRequest → Request
  | .eventBatch body =>
    ⟨"POST", "/event/batch", signedRequestHeaders body hmacKey ++ clientHeaders, [], body⟩
  | .checkpointPropose body =>
    ⟨"POST", "/checkpoint/propose", ("Content-Type", "application/json") :: clientHeaders, [], body⟩
  | .vizClear body =>
    ⟨"POST", "/viz/clear", signedRequestHeaders body hmacKey ++ clientHeaders, [], body⟩
  | .vizSimulationControl body =>
    ⟨"POST", "/viz/simulation/control", signedRequestHeaders body hmacKey ++ clientHeaders, [], body⟩
  | .gossipFrontier => ⟨"GET", "/gossip/frontier", clientHeaders, [], []⟩
  | .ancestry eventId => ⟨"GET", "/events/" ++ eventId ++ "/ancestry", clientHeaders, [], []⟩
  | .consensusDigest => ⟨"GET", "/consensus/digest", clientHeaders, [], []⟩
  | .status => ⟨"GET", "/status", clientHeaders, [], []⟩

/-- The requests on paths that are open to everyone. -/
def PeerRequest.onPublicPath : PeerRequest → Bool
  | .eventBatch _ | .checkpointPropose _ | .gossipFrontier | .status => true
  | .vizClear _ | .vizSimulationControl _ | .ancestry _ | .consensusDigest => false

section BetweenNodes
variable {app : App} {req : Request} {now now' : Flt}

theorem resolveSession_no_cookie (h : req.cookies = []) : resolveSession app req now = (app, none) := by
  unfold resolveSession
  rw [h]
  rfl

/-- Without users both checks let everything through. -/
theorem dispatch_no_users (h : app.usersCount = 0) (hcookies : req.cookies = []) :
    (dispatch app req now now').outcome = .handled := by
  unfold dispatch sessionAuthMiddleware hmacAuthMiddleware
  simp only [resolveSession_no_cookie hcookies, h]
  simp

/-- With users, a request without a session gets past the session check on
the public paths only. -/
theorem dispatch_no_session (husers : app.usersCount ≠ 0) (hcookies : req.cookies = [])
    (hpath : req.path ∉ authPublicPaths) : (dispatch app req now now').outcome ≠ .handled := by
  unfold dispatch sessionAuthMiddleware
  rw [if_neg hpath, if_neg husers, resolveSession_no_cookie hcookies]
  dsimp only
  split <;> simp

theorem PeerRequest.cookies_request (hmacKey : Option String) (r : PeerRequest) :
    (r.request hmacKey).cookies = [] := by
  cases r <;> rfl

theorem ancestry_not_public (eventId : String) :
    "/events/" ++ eventId ++ "/ancestry" ∉ authPublicPaths := by
  have hstart : ∀ path ∈ authPublicPaths, path.toList.take 8 ≠ "/events/".toList := by decide
  intro h
  refine hstart _ h ?_
  rw [String.append_assoc, String.toList_append, List.take_left' (by decide)]

theorem PeerRequest.path_public (hmacKey : Option String) (r : PeerRequest) :
    (r.request hmacKey).path ∈ authPublicPaths ↔ r.onPublicPath = true := by
  cases r with
  | eventBatch _ => exact iff_of_true (show "/event/batch" ∈ authPublicPaths by decide) rfl
  | checkpointPropose _ => exact iff_of_true (show "/checkpoint/propose" ∈ authPublicPaths by decide) rfl
  | vizClear _ => exact iff_of_false (show "/viz/clear" ∉ authPublicPaths by decide) Bool.false_ne_true
  | vizSimulationControl _ =>
    exact iff_of_false (show "/viz/simulation/control" ∉ authPublicPaths by decide) Bool.false_ne_true
  | gossipFrontier => exact iff_of_true (show "/gossip/frontier" ∈ authPublicPaths by decide) rfl
  | ancestry eventId => exact iff_of_false (ancestry_not_public eventId) Bool.false_ne_true
  | consensusDigest =>
    exact iff_of_false (show "/consensus/digest" ∉ authPublicPaths by decide) Bool.false_ne_true
  | status => exact iff_of_true (show "/status" ∈ authPublicPaths by decide) rfl

end BetweenNodes

/-- **Nodes under user authentication.** A request of a node with the same key
reaches its handler exactly when the receiver has no users or the path is a
public one. -/
theorem peer_request_iff (app : App) (r : PeerRequest) (now now' : Flt) :
    (dispatch app (r.request app.hmacKey) now now').outcome = .handled ↔
      app.usersCount = 0 ∨ r.onPublicPath = true := by
  have hcookies := r.cookies_request app.hmacKey
  rw [← r.path_public app.hmacKey]
  constructor
  · intro h
    by_contra hno
    rw [not_or] at hno
    exact dispatch_no_session hno.1 hcookies hno.2 h
  · intro h
    rcases h with husers | hpath
    · exact dispatch_no_users husers hcookies
    · exact dispatch_public hpath

/-- A signed request to clear the journal is turned away as soon as the
receiver has a user. -/
theorem signed_clear_refused : ¬ ∀ (app : App) (r : PeerRequest) (now now' : Flt),
    (dispatch app (r.request app.hmacKey) now now').outcome = .handled := by
  intro h
  have hclear := h guardedApp (.vizClear []) (.fin 0) (.fin 0)
  exact dispatch_no_session (by decide) rfl (by decide) hclear

end Mdrj.L6
