import Mdrj.L4Node.Peers
import Mdrj.L6Api.Sessions

/-!
# Who changes the users

The users of a node are added and removed over HTTP and on the command line.
A request goes through the two middlewares, and what it asks for is done later
in a thread: the check of a password, the opening of a session, the adding and
the removal of a user may all happen in another order than they were asked
for, and with other requests in between.

Results:
* `users_change_traced`: what a request changes in the users goes back, step by
  step, to the password of a stored administrator, or to a moment at which no
  user was stored.
* `locked_out`: where no stored user is an administrator, the sessions of
  administrators are over and no job under way changes the users or opens such
  a session, no request ever changes the users again.

Left out: a clock that runs backwards within one request, and the two halves of
a removal, which no request comes between that could tell.
-/
namespace Mdrj.L6
open Mdrj.Core Mdrj.L1 Mdrj.L3 Mdrj.L4

/-- The entries of a JSON body as texts; a missing or false one is empty. -/
structure Form where
  username : String
  password : String
  role : String

/-- What is left to do for a request, in a thread and after it. -/
inductive Job where
  | checkLogin (username password : String)
  | openSession (stored username role : String)
  | addUser (username password role : String)
  | removeUser (username : String)
  deriving DecidableEq

/-- The part of a node that the requests about users read and write. -/
structure ApiServer where
  hmacKey : Option String
  uiEnabled : Bool
  accounts : Accounts
  jobs : List Job

/-- A step: a request with the clock readings of its two session checks, a part
of a job with what it draws, a user added or removed on the command line. -/
inductive ApiStep where
  | request (req : Request) (now now' : Flt)
  | perform (i : Nat) (passwordHash token : String) (now : Flt)
  | cliAdd (username role passwordHash : String) (now : Flt)
  | cliRemove (username : String)

section Steps
variable (lower : String → String) (verifyPassword : String → String → Bool) (form : Sha256.Bytes → Option Form)

/-- The job that the handler of the request starts. Without a body that is an
object, or without a name, it answers at once.
mirrors mdrj/api.py:7408-7418, 7577-7584, 7589-7595 -/
def requestedJob (req : Request) : Option Job :=
  if req.method ≠ "POST" then none
  else
    match form req.body with
    | none => none
    | some f =>
      let username := strip f.username
      if username = "" then none
      else if req.path = "/auth/login" then
        if f.password = "" then none else some (.checkLogin username f.password)
      else if req.path = "/users/add" then
        if f.password = "" then none else some (.addUser username f.password (orText f.role "viewer"))
      else if req.path = "/users/remove" then some (.removeUser username)
      else none

/-- The routes that touch the users and the sessions; a node without a user
interface has none of them.
mirrors mdrj/api.py:7433-7437, 7810-7836 -/
def routed (s : ApiServer) (req : Request) : ApiServer :=
  if !s.uiEnabled then s
  else if req.method = "POST" ∧ req.path = "/auth/logout" then
    { s with accounts := handleLogout s.accounts (Dict.get req.cookies sessionCookieName) }
  else { s with jobs := s.jobs ++ (requestedJob form req).toList }

/-- A node after its start. -/
def ApiServer.started (hmacKey : Option String) (uiEnabled : Bool) (users : Dict String UserRow) : ApiServer :=
  ⟨hmacKey, uiEnabled, .opened users, []⟩

def ApiServer.app (s : ApiServer) : App := ⟨s.hmacKey, s.accounts.users.length, s.accounts.sessions⟩

/-- The middlewares, then the handler. -/
def receive (s : ApiServer) (req : Request) (now now' : Flt) : ApiServer :=
  let response := dispatch s.app req now now'
  let s := { s with accounts := { s.accounts with sessions := response.app.sessionStore } }
  if response.outcome = .handled then routed form s req else s

/-- mirrors mdrj/api.py:7418-7421, 7585, 7595 -/
def finish (s : ApiServer) (job : Job) (passwordHash token : String) (now : Flt) : ApiServer :=
  match job with
  | .checkLogin username password =>
    match authenticate lower verifyPassword s.accounts username password with
    | none => s
    | some (stored, row) => { s with jobs := s.jobs ++ [.openSession stored username row.role] }
  | .openSession stored username role =>
    { s with accounts :=
      { s.accounts with
        sessions := (s.accounts.sessions.create lower username role token now).1
        issued := Dict.set s.accounts.issued token stored } }
  | .addUser username password role =>
    match addUser lower s.accounts username password role passwordHash now with
    | .ok (accounts, _) => { s with accounts := accounts }
    | .error _ => s
  | .removeUser username => { s with accounts := (removeUser lower s.accounts username).1 }

/-- mirrors mdrj/cli.py:194-213, 229-238 for the last two -/
def apiStep (s : ApiServer) : ApiStep → ApiServer
  | .request req now now' => receive form s req now now'
  | .perform i passwordHash token now =>
    match s.jobs[i]? with
    | none => s
    | some job => finish lower verifyPassword { s with jobs := s.jobs.eraseIdx i } job passwordHash token now
  | .cliAdd username role passwordHash now =>
    { s with accounts := { s.accounts with
      users := upsertUser s.accounts.users (normalizedName lower username) passwordHash (normalizeRole lower role) now } }
  | .cliRemove username =>
    { s with accounts := { s.accounts with users := (deleteUser s.accounts.users (normalizedName lower username)).1 } }

/-! ## Chains -/

/-- The password of a stored user is found right: its login as `username` gets
the role. -/
def ChecksLogin (username role : String) (s : ApiServer) : ApiStep → Prop
  | .perform i _ _ _ => ∃ password stored row, s.jobs[i]? = some (.checkLogin username password) ∧
    authenticate lower verifyPassword s.accounts username password = some (stored, row) ∧ row.role = role
  | _ => False

/-- The step opens this session after a login with this role. -/
def OpensSession (token role : String) (record : SessionRecord) (s : ApiServer) : ApiStep → Prop
  | .perform i _ token' now => token' = token ∧ ∃ stored username,
    s.jobs[i]? = some (.openSession stored username role) ∧
      record = ⟨token, username, normalizeRole lower role, now, now.add sessionTtlSeconds⟩
  | _ => False

def Job.WritesUsers : Job → Prop
  | .addUser _ _ _ | .removeUser _ => True
  | _ => False

variable (s₀ : ApiServer)

/-- The server after these steps. -/
def served (steps : List ApiStep) : ApiServer := run (apiStep lower verifyPassword form) s₀ steps

/-- The session was opened after the password of a user with its role was found
right. -/
def OpenedByLogin (token : String) (record : SessionRecord) (steps : List ApiStep) : Prop :=
  Happened (fun pre step => ∃ role,
    OpensSession lower token role record (served lower verifyPassword form s₀ pre) step ∧
    Happened (fun pre step =>
      ChecksLogin lower verifyPassword record.username role (served lower verifyPassword form s₀ pre) step) pre) steps

/-- The job was asked for when no user was stored, or by a request with the
session of an administrator who had logged in. -/
def AskedByAdmin (job : Job) (steps : List ApiStep) : Prop :=
  Happened (fun pre step => ∃ req now now', step = .request req now now' ∧ requestedJob form req = some job ∧
    ((served lower verifyPassword form s₀ pre).accounts.users = [] ∨
      ∃ token record, Dict.get req.cookies sessionCookieName = some token ∧
        record.role = roleAdmin ∧ Flt.lt record.expiresAt now = false ∧
        OpenedByLogin lower verifyPassword form s₀ token record pre)) steps

/-- The step does this job. -/
def Performs (job : Job) (s : ApiServer) : ApiStep → Prop
  | .perform i _ _ _ => s.jobs[i]? = some job
  | _ => False

def ApiStep.OnCommandLine : ApiStep → Prop
  | .cliAdd _ _ _ _ | .cliRemove _ => True
  | _ => False

end Steps

section Inversions
variable {lower : String → String} {verifyPassword : String → String → Bool} {form : Sha256.Bytes → Option Form}
  {s : ApiServer}

theorem SessionStore.get_subset (sessions : SessionStore) (token : String) (now : Flt) :
    ∀ p ∈ (sessions.get token now).1, p ∈ sessions := by
  obtain ⟨keep, hkeep⟩ := sessions.get_fst token now
  rw [hkeep]
  exact fun p hp => List.mem_of_mem_filter hp

theorem resolveSession_subset (app : App) (req : Request) (now : Flt) :
    ∀ p ∈ (resolveSession app req now).1.sessionStore, p ∈ app.sessionStore := by
  unfold resolveSession
  split
  · exact fun p hp => hp
  · split
    · exact fun p hp => hp
    · exact SessionStore.get_subset _ _ now

theorem hmacAuthMiddleware_subset (app : App) (req : Request) (now : Flt) :
    ∀ p ∈ (hmacAuthMiddleware app req now fun app => ⟨app, .handled⟩).app.sessionStore, p ∈ app.sessionStore := by
  have hresolve := resolveSession_subset app req now
  unfold hmacAuthMiddleware
  dsimp only
  split
  · exact fun p hp => hp
  · split
    · exact fun p hp => hp
    · generalize resolveSession app req now = resolved at hresolve ⊢
      obtain ⟨app', session⟩ := resolved
      dsimp only at hresolve ⊢
      split
      · exact hresolve
      · split
        · exact hresolve
        · split
          · exact hresolve
          · split
            · exact hresolve
            · exact hresolve
            · exact hresolve

/-- The middlewares open no session. -/
theorem dispatch_subset (app : App) (req : Request) (now now' : Flt) :
    ∀ p ∈ (dispatch app req now now').app.sessionStore, p ∈ app.sessionStore := by
  have hresolve := resolveSession_subset app req now
  have hmac := fun app => hmacAuthMiddleware_subset app req now'
  unfold dispatch sessionAuthMiddleware
  split
  · exact hmac app
  · split
    · exact hmac app
    · split
      · rename_i app' heq
        rw [heq] at hresolve
        split
        · exact hresolve
        · exact hresolve
      · rename_i app' session heq
        rw [heq] at hresolve
        split
        · exact hresolve
        · split
          · exact hresolve
          · exact fun p hp => hresolve p (hmac app' p hp)

/-! ### What a step can do -/

theorem handleLogout_users (accounts : Accounts) (token : Option String) :
    (handleLogout accounts token).users = accounts.users := by
  unfold handleLogout
  split
  · rfl
  · split
    · rfl
    · rfl

theorem handleLogout_subset (accounts : Accounts) (token : Option String) :
    ∀ p ∈ (handleLogout accounts token).sessions, p ∈ accounts.sessions := by
  unfold handleLogout
  split
  · exact fun p hp => hp
  · split
    · exact fun p hp => hp
    · exact fun p hp => List.mem_of_mem_filter hp

theorem routed_users (s : ApiServer) (req : Request) : (routed form s req).accounts.users = s.accounts.users := by
  unfold routed
  split
  · rfl
  · split
    · exact handleLogout_users _ _
    · rfl

theorem routed_subset (s : ApiServer) (req : Request) :
    ∀ p ∈ (routed form s req).accounts.sessions, p ∈ s.accounts.sessions := by
  unfold routed
  split
  · exact fun p hp => hp
  · split
    · exact handleLogout_subset _ _
    · exact fun p hp => hp

theorem routed_jobs {s : ApiServer} {req : Request} {job : Job} (h : job ∈ (routed form s req).jobs) :
    job ∈ s.jobs ∨ requestedJob form req = some job := by
  unfold routed at h
  split at h
  · exact .inl h
  · split at h
    · exact .inl h
    · rcases List.mem_append.1 h with h | h
      · exact .inl h
      · exact .inr (Option.mem_toList.1 h)

/-- A request changes no user, opens no session, and starts the job that it asks
for if the middlewares let it through. -/
theorem receive_users (req : Request) (now now' : Flt) :
    (receive form s req now now').accounts.users = s.accounts.users := by
  unfold receive
  dsimp only
  split
  · rw [routed_users]
  · rfl

theorem receive_subset (req : Request) (now now' : Flt) :
    ∀ p ∈ (receive form s req now now').accounts.sessions, p ∈ s.accounts.sessions := by
  have hdispatch := dispatch_subset s.app req now now'
  unfold receive
  dsimp only
  split
  · exact fun p hp => hdispatch p (routed_subset _ _ p hp)
  · exact hdispatch

theorem receive_jobs {req : Request} {now now' : Flt} {job : Job} (h : job ∈ (receive form s req now now').jobs) :
    job ∈ s.jobs ∨ (dispatch s.app req now now').outcome = .handled ∧ requestedJob form req = some job := by
  unfold receive at h
  dsimp only at h
  split at h
  · rename_i houtcome
    exact (routed_jobs h).imp id fun hjob => ⟨houtcome, hjob⟩
  · exact .inl h

theorem finish_users {job : Job} {passwordHash token : String} {now : Flt}
    (h : (finish lower verifyPassword s job passwordHash token now).accounts.users ≠ s.accounts.users) :
    job.WritesUsers := by
  unfold finish at h
  cases job with
  | checkLogin username password =>
    dsimp only at h
    split at h
    · exact absurd rfl h
    · exact absurd rfl h
  | openSession stored username role => exact absurd rfl h
  | addUser username password role => trivial
  | removeUser username => trivial

theorem removeUser_subset (accounts : Accounts) (username : String) :
    ∀ p ∈ (removeUser lower accounts username).1.sessions, p ∈ accounts.sessions := by
  unfold removeUser
  dsimp only
  split
  · exact fun p hp => List.mem_of_mem_filter hp
  · exact fun p hp => hp

theorem finish_sessions {job : Job} {passwordHash token : String} {now : Flt} {p : String × SessionRecord}
    (h : p ∈ (finish lower verifyPassword s job passwordHash token now).accounts.sessions) :
    p ∈ s.accounts.sessions ∨ ∃ stored username role, job = .openSession stored username role ∧
      p = (token, ⟨token, username, normalizeRole lower role, now, now.add sessionTtlSeconds⟩) := by
  unfold finish at h
  cases job with
  | checkLogin username password =>
    dsimp only at h
    split at h
    · exact .inl h
    · exact .inl h
  | openSession stored username role =>
    refine (Dict.mem_of_mem_set h).imp id fun heq => ⟨stored, username, role, rfl, heq⟩
  | addUser username password role =>
    dsimp only at h
    split at h
    · rename_i accounts _ hadd
      rw [(addUser_sessions hadd).1] at h
      exact .inl h
    · exact .inl h
  | removeUser username => exact .inl (removeUser_subset _ _ p h)

theorem finish_jobs {job job' : Job} {passwordHash token : String} {now : Flt}
    (h : job' ∈ (finish lower verifyPassword s job passwordHash token now).jobs) :
    job' ∈ s.jobs ∨ ∃ username password stored row, job = .checkLogin username password ∧
      authenticate lower verifyPassword s.accounts username password = some (stored, row) ∧
      job' = .openSession stored username row.role := by
  unfold finish at h
  cases job with
  | checkLogin username password =>
    dsimp only at h
    split at h
    · exact .inl h
    · rename_i stored row hauth
      rcases List.mem_append.1 h with h | h
      · exact .inl h
      · exact .inr ⟨username, password, stored, row, rfl, hauth, List.mem_singleton.1 h⟩
  | openSession stored username role => exact .inl h
  | addUser username password role =>
    dsimp only at h
    split at h
    · exact .inl h
    · exact .inl h
  | removeUser username => exact .inl h

end Inversions

/-! ## Chains of custody -/

section Custody
variable {lower : String → String} {verifyPassword : String → String → Bool} {form : Sha256.Bytes → Option Form}
  {s₀ : ApiServer}

theorem requestedJob_writes {req : Request} {job : Job} (h : requestedJob form req = some job) (hjob : job.WritesUsers) :
    req.method ∈ writeMethods ∧ req.path ∉ authPublicPaths := by
  unfold requestedJob at h
  split at h
  · cases h
  · rename_i hpost
    rw [not_not] at hpost
    refine ⟨hpost ▸ by decide, ?_⟩
    split at h
    · cases h
    · dsimp only at h
      split at h
      · cases h
      · split at h
        · split at h
          · cases h
          · cases h
            exact absurd hjob id
        · split at h
          · rename_i hpath
            rw [hpath]
            decide
          · split at h
            · rename_i hpath
              rw [hpath]
              decide
            · cases h

/-- No request asks for a session before the password is checked. -/
theorem requestedJob_ne_openSession {req : Request} {stored username role : String} :
    requestedJob form req ≠ some (.openSession stored username role) := by
  intro h
  unfold requestedJob at h
  split at h
  · cases h
  · split at h
    · cases h
    · dsimp only at h
      split at h
      · cases h
      · split at h
        · split at h
          · cases h
          · cases h
        · split at h
          · split at h
            · cases h
            · cases h
          · split at h
            · cases h
            · cases h

variable (hjobs : s₀.jobs = [])
include hjobs

/-- A session that waits to be opened belongs to a user whose password was found
right. -/
theorem openSession_checked {stored username role : String} (steps : List ApiStep)
    (h : .openSession stored username role ∈ (served lower verifyPassword form s₀ steps).jobs) :
    Happened (fun pre step =>
      ChecksLogin lower verifyPassword username role (served lower verifyPassword form s₀ pre) step) steps := by
  refine happened_of_holds (P := fun s : ApiServer => .openSession stored username role ∈ s.jobs)
    (by rw [hjobs]; exact List.not_mem_nil) (fun pre step hmem => ?_) steps h
  rw [run_concat] at hmem
  cases step with
  | request req now now' =>
    exact (receive_jobs hmem).imp id fun hasked => absurd hasked.2 requestedJob_ne_openSession
  | perform i passwordHash token now =>
    unfold apiStep at hmem
    dsimp only at hmem
    split at hmem
    · exact .inl hmem
    · rename_i job hjob
      rcases finish_jobs hmem with hold | ⟨username', password, stored', row, rfl, hauth, heq⟩
      · exact .inl (List.mem_of_mem_eraseIdx hold)
      · cases heq
        exact .inr ⟨password, stored, row, hjob, hauth, rfl⟩
  | cliAdd username role passwordHash now => exact .inl hmem
  | cliRemove username => exact .inl hmem

/-- An open session was opened after a login. -/
theorem session_opened (hsessions : s₀.accounts.sessions = []) {token : String} {record : SessionRecord}
    (steps : List ApiStep)
    (h : (token, record) ∈ (served lower verifyPassword form s₀ steps).accounts.sessions) :
    OpenedByLogin lower verifyPassword form s₀ token record steps := by
  refine happened_of_holds (P := fun s : ApiServer => (token, record) ∈ s.accounts.sessions)
    (by rw [hsessions]; exact List.not_mem_nil) (fun pre step hmem => ?_) steps h
  rw [run_concat] at hmem
  cases step with
  | request req now now' => exact .inl (receive_subset req now now' _ hmem)
  | perform i passwordHash token' now =>
    unfold apiStep at hmem
    dsimp only at hmem
    split at hmem
    · exact .inl hmem
    · rename_i job hjob
      rcases finish_sessions hmem with hold | ⟨stored, username, role, rfl, heq⟩
      · exact .inl hold
      · obtain ⟨rfl, rfl⟩ := Prod.mk.inj heq
        exact .inr ⟨role, ⟨rfl, stored, username, hjob, rfl⟩,
          openSession_checked hjobs pre (List.mem_of_getElem? hjob)⟩
  | cliAdd username role passwordHash now => exact .inl hmem
  | cliRemove username => exact .inl hmem

theorem job_asked (hsessions : s₀.accounts.sessions = []) {job : Job} (hwrites : job.WritesUsers)
    (steps : List ApiStep) (h : job ∈ (served lower verifyPassword form s₀ steps).jobs) :
    AskedByAdmin lower verifyPassword form s₀ job steps := by
  refine happened_of_holds (P := fun s : ApiServer => job ∈ s.jobs)
    (by rw [hjobs]; exact List.not_mem_nil) (fun pre step hmem => ?_) steps h
  rw [run_concat] at hmem
  cases step with
  | request req now now' =>
    refine (receive_jobs hmem).imp id fun hasked => ⟨req, now, now', rfl, hasked.2, ?_⟩
    by_cases husers : (served lower verifyPassword form s₀ pre).accounts.users = []
    · exact .inl husers
    · -- past the middlewares, it came from an administrator
      obtain ⟨hmethod, hpath⟩ := requestedJob_writes hasked.2 hwrites
      obtain ⟨token, record, hcookie, hget, hlive, hrole⟩ :=
        dispatch_write hmethod hpath (fun hlen => husers (List.length_eq_zero_iff.1 hlen)) hasked.1
      exact .inr ⟨token, record, hcookie, hrole, hlive, session_opened hjobs hsessions pre (Dict.mem_of_get hget)⟩
  | perform i passwordHash token now =>
    unfold apiStep at hmem
    dsimp only at hmem
    split at hmem
    · exact .inl hmem
    · rcases finish_jobs hmem with hold | ⟨_, _, _, _, _, _, rfl⟩
      · exact .inl (List.mem_of_mem_eraseIdx hold)
      · exact absurd hwrites id
  | cliAdd username role passwordHash now => exact .inl hmem
  | cliRemove username => exact .inl hmem

end Custody

/-- **Who changes the users.** In every run from the start of a node, a step
that changes the users is one of the command line, or does what a request asked
for: one that came when no user was stored, or one with the session, not yet
over, of a login whose password was found right while the user was stored as an
administrator. -/
theorem users_change_traced (lower : String → String) (verifyPassword : String → String → Bool)
    (form : Sha256.Bytes → Option Form) (hmacKey : Option String) (uiEnabled : Bool) (users : Dict String UserRow)
    (steps : List ApiStep) (step : ApiStep)
    (h : (served lower verifyPassword form (.started hmacKey uiEnabled users) (steps ++ [step])).accounts.users ≠
      (served lower verifyPassword form (.started hmacKey uiEnabled users) steps).accounts.users) :
    step.OnCommandLine ∨ ∃ job : Job, job.WritesUsers ∧
      Performs job (served lower verifyPassword form (.started hmacKey uiEnabled users) steps) step ∧
      AskedByAdmin lower verifyPassword form (.started hmacKey uiEnabled users) job steps := by
  unfold served at h
  rw [run_concat] at h
  cases step with
  | request req now now' => exact absurd (receive_users req now now') h
  | perform i passwordHash token now =>
    unfold apiStep at h
    dsimp only at h
    split at h
    · exact absurd rfl h
    · rename_i job hjob
      have hwrites := finish_users h
      exact .inr ⟨job, hwrites, hjob, job_asked rfl rfl hwrites steps (List.mem_of_getElem? hjob)⟩
  | cliAdd username role passwordHash now => exact .inl trivial
  | cliRemove username => exact .inl trivial

/-- The root of the run below logs in and adds a user. -/
def rootAdds : List ApiStep :=
  [.request ⟨"POST", "/auth/login", [], [], [1]⟩ (.fin 1) (.fin 1), .perform 0 "" "" (.fin 1),
    .perform 0 "" "t" (.fin 2), .request ⟨"POST", "/users/add", [], [("mdrj_session", "t")], [2]⟩ (.fin 3) (.fin 3)]

def rootForm (body : Sha256.Bytes) : Option Form :=
  if body = [1] then some ⟨"root", "pw", ""⟩ else if body = [2] then some ⟨"bob", "b", ""⟩ else none

def rootServed (steps : List ApiStep) : ApiServer :=
  served asciiLower plainVerify rootForm (.started (some "k") true [("root", ⟨"scrypt$pw", "admin", .fin 0⟩)]) steps

theorem users_change_traced_root : (ApiStep.perform 0 "scrypt$b" "" (.fin 3)).OnCommandLine ∨
    ∃ job : Job, job.WritesUsers ∧ Performs job (rootServed rootAdds) (.perform 0 "scrypt$b" "" (.fin 3)) ∧
      AskedByAdmin asciiLower plainVerify rootForm
        (.started (some "k") true [("root", ⟨"scrypt$pw", "admin", .fin 0⟩)]) job rootAdds := by
  refine users_change_traced asciiLower plainVerify rootForm (some "k") true
    [("root", ⟨"scrypt$pw", "admin", .fin 0⟩)] rootAdds (.perform 0 "scrypt$b" "" (.fin 3)) fun h => ?_
  exact absurd (congrArg List.length h) (by decide +kernel)

/-! ## Locked out -/

/-- No stored user is an administrator, no job under way writes a user or opens
an administrator's session, and those there are over at `t`. -/
structure LockedOut (lower : String → String) (t : Flt) (s : ApiServer) : Prop where
  users : s.accounts.users ≠ []
  roles : ∀ p ∈ s.accounts.users, normalizeRole lower p.2.role ≠ roleAdmin
  jobs : ∀ job ∈ s.jobs, ¬ job.WritesUsers
  waiting : ∀ stored username role, .openSession stored username role ∈ s.jobs → normalizeRole lower role ≠ roleAdmin
  sessions : ∀ p ∈ s.accounts.sessions, p.2.role = roleAdmin → Flt.lt p.2.expiresAt t = true

/-- The step comes over HTTP, not before `t`. -/
def ApiStep.NotBefore (t : Flt) : ApiStep → Prop
  | .request _ now _ => now ≠ .nan ∧ Flt.lt now t = false
  | .perform _ _ _ _ => True
  | _ => False

section Locked
variable {lower : String → String} {verifyPassword : String → String → Bool} {form : Sha256.Bytes → Option Form}
  {t : Flt} {s : ApiServer}

/-- Nobody gets past the middlewares with a session that is over. -/
theorem LockedOut.not_admin (h : LockedOut lower t s) {req : Request} {now : Flt} (hnan : now ≠ .nan)
    (hnow : Flt.lt now t = false) : ¬ AdminSession s.app req now := by
  rintro ⟨token, record, -, hget, hlive, hrole⟩
  have hover := h.sessions (token, record) (Dict.mem_of_get hget) hrole
  have hexpires : record.expiresAt ≠ .nan := by
    intro heq
    rw [heq] at hover
    cases hover
  have ht : t ≠ .nan := by
    intro heq
    rw [heq] at hover
    cases hexp : record.expiresAt <;> rw [hexp] at hover <;> cases hover
  have hnot := Flt.not_lt_trans hexpires hnan ht hlive hnow
  rw [hover] at hnot
  cases hnot

theorem LockedOut.receive (h : LockedOut lower t s) (req : Request) {now : Flt} (now' : Flt) (hnan : now ≠ .nan)
    (hnow : Flt.lt now t = false) : LockedOut lower t (receive form s req now now') where
  users := by rw [receive_users]; exact h.users
  roles := by rw [receive_users]; exact h.roles
  jobs job hjob hwrites := by
    rcases receive_jobs hjob with hold | ⟨houtcome, hasked⟩
    · exact h.jobs job hold hwrites
    · obtain ⟨hmethod, hpath⟩ := requestedJob_writes hasked hwrites
      exact h.not_admin hnan hnow
        (dispatch_write hmethod hpath (fun hlen => h.users (List.length_eq_zero_iff.1 hlen)) houtcome)
  waiting stored username role hjob := by
    rcases receive_jobs hjob with hold | ⟨-, hasked⟩
    · exact h.waiting stored username role hold
    · exact absurd hasked requestedJob_ne_openSession
  sessions p hp := h.sessions p (receive_subset req now now' p hp)

theorem LockedOut.finish (h : LockedOut lower t s) {i : Nat} {job : Job} (hjob : s.jobs[i]? = some job)
    (passwordHash token : String) (now : Flt) :
    (finish lower verifyPassword { s with jobs := s.jobs.eraseIdx i } job passwordHash token now).accounts.users =
        s.accounts.users ∧
      LockedOut lower t (finish lower verifyPassword { s with jobs := s.jobs.eraseIdx i } job passwordHash token now) := by
  have hmem := List.mem_of_getElem? hjob
  have husers : (L6.finish lower verifyPassword { s with jobs := s.jobs.eraseIdx i } job passwordHash token now).accounts.users =
      s.accounts.users := by
    by_contra hchange
    exact h.jobs job hmem (finish_users hchange)
  refine ⟨husers, ⟨husers ▸ h.users, husers ▸ h.roles, fun job' hjob' => ?_, fun stored username role hjob' => ?_,
    fun p hp hrole => ?_⟩⟩
  · rcases finish_jobs hjob' with hold | ⟨_, _, _, _, _, _, rfl⟩
    · exact h.jobs job' (List.mem_of_mem_eraseIdx hold)
    · exact id
  · rcases finish_jobs hjob' with hold | ⟨_, _, stored', row, rfl, hauth, heq⟩
    · exact h.waiting stored username role (List.mem_of_mem_eraseIdx hold)
    · cases heq
      exact h.roles (_, row) (Dict.mem_of_get (authenticate_some hauth).2)
  · rcases finish_sessions hp with hold | ⟨stored, username, role, rfl, rfl⟩
    · exact h.sessions p hold hrole
    · exact absurd hrole (h.waiting stored username role hmem)

theorem LockedOut.step (h : LockedOut lower t s) {step : ApiStep} (hstep : step.NotBefore t) :
    (apiStep lower verifyPassword form s step).accounts.users = s.accounts.users ∧
      LockedOut lower t (apiStep lower verifyPassword form s step) := by
  cases step with
  | request req now now' => exact ⟨receive_users req now now', h.receive req now' hstep.1 hstep.2⟩
  | perform i passwordHash token now =>
    unfold apiStep
    dsimp only
    split
    · exact ⟨rfl, h⟩
    · rename_i job hjob
      exact h.finish hjob passwordHash token now
  | cliAdd username role passwordHash now => exact absurd hstep id
  | cliRemove username => exact absurd hstep id

end Locked

/-- **Nobody is left to add an administrator.** Where users are stored, none of
them an administrator, the sessions of administrators are over and no job under
way adds or removes a user or opens such a session, no requests from then on,
and no jobs, ever change the users. -/
theorem locked_out (lower : String → String) (verifyPassword : String → String → Bool)
    (form : Sha256.Bytes → Option Form) {t : Flt} {s : ApiServer} (h : LockedOut lower t s) (steps : List ApiStep)
    (hsteps : ∀ step ∈ steps, step.NotBefore t) :
    (served lower verifyPassword form s steps).accounts.users = s.accounts.users := by
  have hrun : (served lower verifyPassword form s steps).accounts.users = s.accounts.users ∧
      LockedOut lower t (served lower verifyPassword form s steps) := by
    refine run_kept (I := fun s' : ApiServer => s'.accounts.users = s.accounts.users ∧ LockedOut lower t s')
      (fun s' step hstep hs' => ?_) hsteps ⟨rfl, h⟩
    have hnext : (apiStep lower verifyPassword form s' step).accounts.users = s'.accounts.users ∧
        LockedOut lower t (apiStep lower verifyPassword form s' step) := hs'.2.step hstep
    exact ⟨hnext.1.trans hs'.1, hnext.2⟩
  exact hrun.1

/-- A viewer is left, who is logging in, and the session of a removed
administrator is over. -/
def viewerLeft : ApiServer :=
  ⟨some "k", true, ⟨[("eve", ⟨"scrypt$pw", "viewer", .fin 0⟩)], [("t", ⟨"t", "Root", "admin", .fin 0, .fin 9⟩)], []⟩,
    [.checkLogin "eve" "pw"]⟩

theorem locked_out_viewer : (served asciiLower plainVerify rootForm viewerLeft
    [.request ⟨"POST", "/users/add", [], [("mdrj_session", "t")], [2]⟩ (.fin 10) (.fin 10),
      .perform 0 "" "" (.fin 11), .perform 0 "" "u" (.fin 11),
      .request ⟨"POST", "/users/add", [], [("mdrj_session", "u")], [2]⟩ (.fin 12) (.fin 12),
      .perform 0 "scrypt$b" "" (.fin 13)]).accounts.users = viewerLeft.accounts.users := by
  have hviewer : normalizeRole asciiLower "viewer" ≠ roleAdmin := by decide +kernel
  have hlocked : LockedOut asciiLower (.fin 10) viewerLeft := by
    refine ⟨by simp [viewerLeft], fun p hp => ?_, fun job hjob => ?_, fun _ _ _ hjob => ?_, fun p hp _ => ?_⟩
    · rw [List.mem_singleton.1 hp]
      exact hviewer
    · rw [List.mem_singleton.1 hjob]
      exact id
    · cases List.mem_singleton.1 hjob
    · rw [List.mem_singleton.1 hp]
      decide
  refine locked_out asciiLower plainVerify rootForm hlocked _ fun step hstep => ?_
  simp only [List.mem_cons, List.not_mem_nil, or_false] at hstep
  rcases hstep with rfl | rfl | rfl | rfl | rfl
  · exact ⟨by decide, by decide⟩
  · trivial
  · trivial
  · exact ⟨by decide, by decide⟩
  · trivial

end Mdrj.L6
