import Mdrj.Core.Runs
import Mdrj.L1Encoding.Json
import Mdrj.L3Store.Storage
import Mdrj.L6Api.Auth

/-!
# Users and their sessions

Adding, removing and authenticating a user all go by the trimmed, lower-cased
name. The login handler does not: it authenticates under that name and opens
the session under the name as it was typed, only trimmed. `remove_user` then
looks for sessions under the lower-cased name, and the session of a login
typed with a capital letter outlives its user (`removed_user_still_served`).

Main result: `removeUser_revokes_iff`. The removal of a user ends all of its
sessions, at every point of a run, exactly when each login as that user typed
the name as it is stored.

`str.lower` and the comparison with a stored password hash are parameters, of
which nothing is assumed. The hash of a new password, the token of a new
session and the clock readings are arguments of the calls. Calls are whole
here: a login does not overlap a removal.
-/
namespace Mdrj.L6
open Mdrj.Core Mdrj.L1 Mdrj.L3

/-- A row of the table, under its `username`.
mirrors mdrj/storage.py:646-667 -/
structure UserRow where
  passwordHash : String
  role : String
  createdAt : Flt

/-- The users and the sessions of a node. `issued` is not in the source: the
stored user each token was last issued to. -/
structure Accounts where
  users : Dict String UserRow
  sessions : SessionStore
  issued : Dict String String

/-- A node after its start; the users are in the database. -/
def Accounts.opened (users : Dict String UserRow) : Accounts := ⟨users, [], []⟩

def roleViewer : String := "viewer"
def sessionTtlSeconds : Flt := .fin 28800

/-- mirrors mdrj/auth.py:121-122 -/
def SessionStore.revoke (sessions : SessionStore) (token : String) : SessionStore :=
  sessions.filter (·.1 ≠ token)

/-- mirrors mdrj/auth.py:124-128 -/
def SessionStore.revokeUser (sessions : SessionStore) (username : String) : SessionStore :=
  sessions.filter (·.2.username ≠ username)

/-- The first insertion sets `created_at`.
mirrors mdrj/storage.py:646-652 -/
def upsertUser (users : Dict String UserRow) (username passwordHash role : String) (now : Flt) :
    Dict String UserRow :=
  match Dict.get users username with
  | some row => Dict.set users username { row with passwordHash := passwordHash, role := role }
  | none => Dict.set users username ⟨passwordHash, role, now⟩

/-- mirrors mdrj/storage.py:679-682 -/
def deleteUser (users : Dict String UserRow) (username : String) : Dict String UserRow × Bool :=
  (users.filter (·.1 ≠ username), (Dict.get users username).isSome)

/-- What a login answers. -/
inductive LoginReply where
  | badRequest (text : String)
  | unauthorized (text : String)
  | ok (username role token : String)
  deriving DecidableEq

/-- The calls. `request` is any request with a session cookie: the lookup may
drop an expired session. -/
inductive AccountOp where
  | addUser (username password role passwordHash : String) (now : Flt)
  | login (username password token : String) (now : Flt)
  | logout (token : Option String)
  | removeUser (username : String)
  | request (token : String) (now : Flt)

section Calls
variable (lower : String → String) (verifyPassword : String → String → Bool)

/-- `username.strip().lower()`. -/
def normalizedName (username : String) : String := lower (strip username)

/-- mirrors mdrj/auth.py:37-41 -/
def normalizeRole (value : String) : String :=
  let text := lower (strip value)
  if text = roleViewer ∨ text = roleAdmin then text else roleViewer

/-- mirrors mdrj/auth.py:98-110 -/
def SessionStore.create (sessions : SessionStore) (username role token : String) (now : Flt) :
    SessionStore × SessionRecord :=
  let record : SessionRecord :=
    ⟨token, username, normalizeRole lower role, now, now.add sessionTtlSeconds⟩
  (Dict.set sessions token record, record)

/-- The name and the role of the stored user. `hash_password` refuses the
empty password.
mirrors mdrj/node.py:469-480 -/
def addUser (s : Accounts) (username password role passwordHash : String) (now : Flt) :
    Except PyError (Accounts × String × String) :=
  let normalized := normalizedName lower username
  if normalized = "" then .error (.valueError "username required")
  else
    let normalizedRole := normalizeRole lower role
    if password = "" then .error (.valueError "password must not be empty")
    else .ok ({ s with users := upsertUser s.users normalized passwordHash normalizedRole now },
      normalized, normalizedRole)

/-- mirrors mdrj/node.py:482-487 -/
def removeUser (s : Accounts) (username : String) : Accounts × Bool :=
  let normalized := normalizedName lower username
  match deleteUser s.users normalized with
  | (users, true) => ({ s with users := users, sessions := s.sessions.revokeUser normalized }, true)
  | (users, false) => ({ s with users := users }, false)

/-- The stored name and the row.
mirrors mdrj/node.py:492-499 -/
def authenticate (s : Accounts) (username password : String) : Option (String × UserRow) :=
  let normalized := normalizedName lower username
  match Dict.get s.users normalized with
  | none => none
  | some row => if verifyPassword password row.passwordHash then some (normalized, row) else none

/-- The session is opened under the name that was typed.
mirrors mdrj/api.py:7408-7430 -/
def handleLogin (s : Accounts) (username password token : String) (now : Flt) :
    Accounts × LoginReply :=
  let username := strip username
  if username = "" ∨ password = "" then (s, .badRequest "username and password required")
  else
    match authenticate lower verifyPassword s username password with
    | none => (s, .unauthorized "invalid credentials")
    | some (stored, user) =>
      let (sessions, record) := s.sessions.create lower username user.role token now
      ({ s with sessions := sessions, issued := Dict.set s.issued record.token stored },
        .ok username user.role record.token)

/-- mirrors mdrj/api.py:7433-7437 -/
def handleLogout (s : Accounts) (token : Option String) : Accounts :=
  match token with
  | none => s
  | some token => if token = "" then s else { s with sessions := s.sessions.revoke token }

def accountStep (s : Accounts) : AccountOp → Accounts
  | .addUser username password role passwordHash now =>
    match addUser lower s username password role passwordHash now with
    | .ok (s, _) => s
    | .error _ => s
  | .login username password token now =>
    (handleLogin lower verifyPassword s username password token now).1
  | .logout token => handleLogout s token
  | .removeUser username => (removeUser lower s username).1
  | .request token now => { s with sessions := (s.sessions.get token now).1 }

/-! ## Removal and revocation -/

/-- If `u` is removed now, no token of a login as `u` resolves afterwards,
at any time. -/
def EndsSessions (u : String) (s : Accounts) : Prop :=
  ∀ username s', normalizedName lower username = u → removeUser lower s username = (s', true) →
    ∀ token now, Dict.get s'.issued token = some u → (s'.sessions.get token now).2 = none

/-- A login that authenticates as `u` types the name `u`, up to white space. -/
def SpelledAs (u : String) (s : Accounts) : AccountOp → Prop
  | .login username password _ _ => strip username ≠ "" → password ≠ "" →
    ∀ row, authenticate lower verifyPassword s (strip username) password = some (u, row) →
      strip username = u
  | _ => True

end Calls

section Revocation
variable {lower : String → String} {verifyPassword : String → String → Bool} {u : String} {s : Accounts}

/-- The open sessions of `u` are under the name `u`. -/
structure Traceable (u : String) (s : Accounts) : Prop where
  nodup : (Dict.keys s.sessions).Nodup
  named : ∀ token record, Dict.get s.sessions token = some record →
    Dict.get s.issued token = some u → record.username = u

theorem Traceable.opened (users : Dict String UserRow) : Traceable u (.opened users) :=
  ⟨List.nodup_nil, fun _ _ h => nomatch h⟩

/-- Other users and fewer sessions. -/
theorem Traceable.fewer (h : Traceable u s) (users : Dict String UserRow)
    (keep : String × SessionRecord → Bool) :
    Traceable u { s with users := users, sessions := s.sessions.filter keep } where
  nodup := Dict.nodup_filter h.nodup keep
  named := by
    intro token record hget
    exact h.named token record ((Dict.get_filter h.nodup keep token record).1 hget).1

/-- The session a login opens, under the name typed. -/
theorem Traceable.issue (h : Traceable u s) {token stored : String} {record : SessionRecord}
    (hspelled : stored = u → record.username = u) :
    Traceable u { s with
      sessions := Dict.set s.sessions token record
      issued := Dict.set s.issued token stored } where
  nodup := Dict.nodup_set h.nodup token record
  named := by
    intro token' record' hget hissued
    rw [Dict.get_set] at hget hissued
    split at hget
    · rename_i htoken
      rw [if_pos htoken] at hissued
      obtain rfl := Option.some.inj hget
      exact hspelled (Option.some.inj hissued)
    · rename_i htoken
      rw [if_neg htoken] at hissued
      exact h.named token' record' hget hissued

theorem SessionStore.get_fst (sessions : SessionStore) (token : String) (now : Flt) :
    ∃ keep, (sessions.get token now).1 = sessions.filter keep := by
  have hall : sessions = sessions.filter fun _ => true := (List.filter_true _).symm
  unfold SessionStore.get
  split
  · exact ⟨_, hall⟩
  · split
    · exact ⟨_, rfl⟩
    · exact ⟨_, hall⟩

/-- A session expires after its `expires_at`. -/
theorem SessionStore.get_at_expiry {sessions : SessionStore} {token : String} {record : SessionRecord}
    (h : Dict.get sessions token = some record) :
    (sessions.get token record.expiresAt).2 = some record := by
  unfold SessionStore.get
  rw [h]
  dsimp only
  rw [if_neg (by rw [Flt.lt_irrefl]; exact Bool.false_ne_true)]

/-- `true` means that the user was stored; then its sessions go. -/
theorem removeUser_true {username : String} {s' : Accounts} :
    removeUser lower s username = (s', true) ↔
      (Dict.get s.users (normalizedName lower username)).isSome = true ∧
      s' = { s with
        users := s.users.filter (·.1 ≠ normalizedName lower username)
        sessions := s.sessions.revokeUser (normalizedName lower username) } := by
  unfold removeUser deleteUser
  dsimp only
  cases Dict.get s.users (normalizedName lower username) with
  | none => simp
  | some row => simp [eq_comm]

theorem Traceable.ends (h : Traceable u s) : EndsSessions lower u s := by
  intro username s' hname hremove token now hissued
  obtain ⟨-, rfl⟩ := removeUser_true.1 hremove
  rw [hname]
  have hnone : Dict.get (s.sessions.revokeUser u) token = none := by
    rw [Option.eq_none_iff_forall_ne_some]
    intro record hget
    obtain ⟨hopen, hother⟩ := (Dict.get_filter h.nodup _ token record).1 hget
    exact of_decide_eq_true hother (h.named token record hopen hissued)
  unfold SessionStore.get
  dsimp only
  rw [hnone]

theorem authenticate_some {username password stored : String} {row : UserRow}
    (h : authenticate lower verifyPassword s username password = some (stored, row)) :
    normalizedName lower username = stored ∧ Dict.get s.users stored = some row := by
  unfold authenticate at h
  dsimp only at h
  split at h
  · cases h
  · rename_i row' hget
    split at h
    · obtain ⟨rfl, rfl⟩ := Prod.mk.inj (Option.some.inj h)
      exact ⟨rfl, hget⟩
    · cases h

/-- A login that is let in opens a session under the name typed. -/
theorem handleLogin_opens {username password stored : String} {row : UserRow} (token : String) (now : Flt)
    (hname : strip username ≠ "") (hpassword : password ≠ "")
    (hauth : authenticate lower verifyPassword s (strip username) password = some (stored, row)) :
    ∃ record : SessionRecord, record.username = strip username ∧
      (handleLogin lower verifyPassword s username password token now).1 =
        { s with
          sessions := Dict.set s.sessions token record
          issued := Dict.set s.issued token stored } := by
  unfold handleLogin
  dsimp only
  rw [if_neg (by simp [hname, hpassword]), hauth]
  exact ⟨_, rfl, rfl⟩

/-- A login that is not let in changes nothing. -/
theorem handleLogin_refused {username password token : String} {now : Flt}
    (h : strip username = "" ∨ password = "" ∨
      authenticate lower verifyPassword s (strip username) password = none) :
    (handleLogin lower verifyPassword s username password token now).1 = s := by
  unfold handleLogin
  dsimp only
  split
  · rfl
  · rename_i hgiven
    rw [not_or] at hgiven
    rcases h with h | h | h
    · exact absurd h hgiven.1
    · exact absurd h hgiven.2
    · rw [h]

/-- Users change, sessions do not. -/
theorem addUser_sessions {username password role passwordHash : String} {now : Flt} {s' : Accounts}
    {stored : String × String}
    (h : addUser lower s username password role passwordHash now = .ok (s', stored)) :
    s'.sessions = s.sessions ∧ s'.issued = s.issued := by
  unfold addUser at h
  dsimp only at h
  split at h
  · cases h
  · split at h
    · cases h
    · obtain rfl := (Prod.mk.inj (Except.ok.inj h)).1
      exact ⟨rfl, rfl⟩

theorem Traceable.congr (h : Traceable u s) {s' : Accounts} (hsessions : s'.sessions = s.sessions)
    (hissued : s'.issued = s.issued) : Traceable u s' := by
  refine ⟨?_, ?_⟩
  · rw [hsessions]; exact h.nodup
  · rw [hsessions, hissued]; exact h.named

theorem Traceable.login (h : Traceable u s) {username password token : String} {now : Flt}
    (hop : SpelledAs lower verifyPassword u s (.login username password token now)) :
    Traceable u (handleLogin lower verifyPassword s username password token now).1 := by
  by_cases hname : strip username = ""
  · rw [handleLogin_refused (.inl hname)]; exact h
  by_cases hpassword : password = ""
  · rw [handleLogin_refused (.inr (.inl hpassword))]; exact h
  cases hauth : authenticate lower verifyPassword s (strip username) password with
  | none => rw [handleLogin_refused (.inr (.inr hauth))]; exact h
  | some found =>
    obtain ⟨stored, row⟩ := found
    obtain ⟨record, htyped, heq⟩ := handleLogin_opens token now hname hpassword hauth
    rw [heq]
    refine h.issue fun hu => ?_
    subst hu
    rw [htyped]
    exact hop hname hpassword row hauth

theorem Traceable.step (h : Traceable u s) {op : AccountOp}
    (hop : SpelledAs lower verifyPassword u s op) :
    Traceable u (accountStep lower verifyPassword s op) := by
  cases op with
  | addUser username password role passwordHash now =>
    unfold accountStep
    dsimp only
    split
    · rename_i s' _ hadd
      exact h.congr (addUser_sessions hadd).1 (addUser_sessions hadd).2
    · exact h
  | login username password token now => exact h.login hop
  | logout token =>
    unfold accountStep handleLogout
    dsimp only
    split
    · exact h
    · split
      · exact h
      · exact h.fewer s.users _
  | removeUser username =>
    unfold accountStep removeUser
    dsimp only
    split
    · exact h.fewer _ _
    · exact h.congr rfl rfl
  | request token now =>
    obtain ⟨keep, hkeep⟩ := s.sessions.get_fst token now
    unfold accountStep
    dsimp only
    rw [hkeep]
    exact h.fewer s.users keep

/-- A login typed otherwise leaves a session that the removal misses. -/
theorem Traceable.missed (h : Traceable u s) {op : AccountOp}
    (hop : ¬ SpelledAs lower verifyPassword u s op) :
    ¬ EndsSessions lower u (accountStep lower verifyPassword s op) := by
  cases op with
  | login username password token now =>
    simp only [SpelledAs, not_forall] at hop
    obtain ⟨hname, hpassword, row, hauth, htyped⟩ := hop
    obtain ⟨record, hrecord, heq⟩ := handleLogin_opens token now hname hpassword hauth
    obtain ⟨rfl, hstored⟩ := authenticate_some hauth
    unfold accountStep
    dsimp only
    rw [heq]
    intro hends
    -- the removal under the name typed, and a lookup before the session expires
    have hgone := hends (strip username) _ rfl (removeUser_true.2 ⟨by rw [hstored]; rfl, rfl⟩) token
      record.expiresAt (Dict.get_set_self ..)
    have hkept : Dict.get ((Dict.set s.sessions token record).filter
        (·.2.username ≠ normalizedName lower (strip username))) token = some record := by
      rw [Dict.get_filter (Dict.nodup_set h.nodup token record)]
      exact ⟨Dict.get_set_self .., decide_eq_true (hrecord ▸ htyped)⟩
    rw [SessionStore.revokeUser, SessionStore.get_at_expiry hkept] at hgone
    cases hgone
  | addUser _ _ _ _ _ => exact absurd trivial hop
  | logout _ => exact absurd trivial hop
  | removeUser _ => exact absurd trivial hop
  | request _ _ => exact absurd trivial hop

end Revocation

/-- **Removal ends every session.** In a run from the start of a node, at
every point the removal of `u` would leave no session of a login as `u`,
exactly when all logins as `u` type the name `u`. -/
theorem removeUser_revokes_iff (lower : String → String) (verifyPassword : String → String → Bool)
    (u : String) (users : Dict String UserRow) (ops : List AccountOp) :
    (∀ pre, pre <+: ops →
      EndsSessions lower u (run (accountStep lower verifyPassword) (.opened users) pre)) ↔
    Admits (accountStep lower verifyPassword) (SpelledAs lower verifyPassword u) (.opened users) ops :=
  (admits_iff (I := Traceable u) (fun _ h => h.ends) (fun _ _ h hop => h.step hop)
    (fun _ _ h hop => h.missed hop) (.opened users)).symm

/-- `str.lower` on ASCII text. -/
def asciiLower (text : String) : String := String.ofList (text.toList.map Char.toLower)

/-- A password check for the runs below. -/
def plainVerify (password stored : String) : Bool := stored = "scrypt$" ++ password

/-- A user is added and logs in under the name given. -/
def aliceLogsIn (typed : String) : Accounts :=
  run (accountStep asciiLower plainVerify) (.opened [])
    [.addUser "alice" "pw" "admin" "scrypt$pw" (.fin 0), .login typed "pw" "t" (.fin 1)]

/-- The session of `Alice` is found after `alice` was removed. -/
theorem removed_user_still_served : ¬ EndsSessions asciiLower "alice" (aliceLogsIn "Alice") := by
  intro h
  have hremoved : removeUser asciiLower (aliceLogsIn "Alice") "alice" =
      ((removeUser asciiLower (aliceLogsIn "Alice") "alice").1, true) :=
    Prod.ext rfl (by decide +kernel)
  have hfound : ((removeUser asciiLower (aliceLogsIn "Alice") "alice").1.sessions.get "t"
      (.fin 2)).2.isSome = true := by decide +kernel
  have hgone := h "alice" (removeUser asciiLower (aliceLogsIn "Alice") "alice").1 (by decide +kernel)
    hremoved "t" (.fin 2) (by decide +kernel)
  rw [hgone] at hfound
  cases hfound

end Mdrj.L6
