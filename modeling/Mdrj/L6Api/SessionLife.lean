import Mdrj.L6Api.Sessions

/-!
# How long a session lives

A login opens a session for eight hours under the name typed, with the role
that the user has at that moment. Nothing but the lookup of an expired session,
a logout with its token, the removal of a stored user of that name and another
login that draws the same token touches it.

Main result: `session_live_iff`. A token resolves to a session at time `t`
exactly when the session was opened by a login that was let in, was not ended
since, and is not older than its eight hours at `t`. A change of the role or of
the password of the user does not end the session and does not change its role.
-/
namespace Mdrj.L6
open Mdrj.Core Mdrj.L1 Mdrj.L3

section Life
variable (lower : String → String) (verifyPassword : String → String → Bool)

/-- The login is let in, as the stored user with this row. -/
def LetIn (s : Accounts) (username password : String) (row : UserRow) : Prop :=
  strip username ≠ "" ∧ password ≠ "" ∧
    ∃ stored, authenticate lower verifyPassword s (strip username) password = some (stored, row)

/-- The session that a login opens.
mirrors mdrj/auth.py:98-110 -/
def openedSession (username role token : String) (now : Flt) : SessionRecord :=
  ⟨token, strip username, normalizeRole lower role, now, now.add sessionTtlSeconds⟩

/-- The call opens this session under this token. -/
def Opens (token : String) (record : SessionRecord) (s : Accounts) : AccountOp → Prop
  | .login username password token' now => token' = token ∧ ∃ row, LetIn lower verifyPassword s username password row ∧
    record = openedSession lower username row.role token now
  | _ => False

/-- The call ends the sessions under this token and name, or opens another
under the token. -/
def Ends (token username : String) (s : Accounts) : AccountOp → Prop
  | .login typed password token' _ => token' = token ∧ ∃ row, LetIn lower verifyPassword s typed password row
  | .logout token' => token' = some token ∧ token ≠ ""
  | .removeUser typed => normalizedName lower typed = username ∧ (Dict.get s.users username).isSome = true
  | _ => False

/-- The call looks the session up after its end. -/
def FindsExpired (token : String) (record : SessionRecord) : AccountOp → Prop
  | .request token' now => token' = token ∧ Flt.lt record.expiresAt now = true
  | _ => False

end Life

section Steps
variable {lower : String → String} {verifyPassword : String → String → Bool} {s : Accounts}

theorem handleLogin_letIn {username password token : String} {row : UserRow}
    (h : LetIn lower verifyPassword s username password row) (now : Flt) :
    (handleLogin lower verifyPassword s username password token now).1.sessions =
      Dict.set s.sessions token (openedSession lower username row.role token now) := by
  obtain ⟨hname, hpassword, stored, hauth⟩ := h
  unfold handleLogin
  dsimp only
  rw [if_neg (by simp [hname, hpassword]), hauth]
  rfl

theorem handleLogin_not_letIn {username password token : String} {now : Flt}
    (h : ¬ ∃ row, LetIn lower verifyPassword s username password row) :
    (handleLogin lower verifyPassword s username password token now).1 = s := by
  refine handleLogin_refused ?_
  by_contra hcon
  simp only [not_or] at hcon
  obtain ⟨hname, hpassword, hauth⟩ := hcon
  obtain ⟨⟨stored, row⟩, hfound⟩ := Option.ne_none_iff_exists'.1 hauth
  exact h ⟨row, hname, hpassword, stored, hfound⟩

/-- The sessions stay keyed by their tokens. -/
theorem accountStep_nodup (s : Accounts) (op : AccountOp) (h : (Dict.keys s.sessions).Nodup) :
    (Dict.keys (accountStep lower verifyPassword s op).sessions).Nodup := by
  unfold accountStep
  cases op with
  | addUser username password role passwordHash now =>
    dsimp only
    split
    · rename_i s' _ hadd
      rw [(addUser_sessions hadd).1]
      exact h
    · exact h
  | login username password token now =>
    dsimp only
    by_cases hin : ∃ row, LetIn lower verifyPassword s username password row
    · obtain ⟨row, hrow⟩ := hin
      rw [handleLogin_letIn hrow]
      exact Dict.nodup_set h _ _
    · rw [handleLogin_not_letIn hin]
      exact h
  | logout token =>
    unfold handleLogout
    dsimp only
    split
    · exact h
    · split
      · exact h
      · exact Dict.nodup_filter h _
  | removeUser username =>
    unfold removeUser
    dsimp only
    split
    · exact Dict.nodup_filter h _
    · exact h
  | request token now =>
    obtain ⟨keep, hkeep⟩ := s.sessions.get_fst token now
    dsimp only
    rw [hkeep]
    exact Dict.nodup_filter h _

/-- The lookup of another session, or before the end, drops nothing of this
one. -/
theorem get_after_request (hn : (Dict.keys s.sessions).Nodup) (token token' : String) (now : Flt)
    (record : SessionRecord) : Dict.get (s.sessions.get token' now).1 token = some record ↔
      Dict.get s.sessions token = some record ∧ ¬ FindsExpired token record (.request token' now) := by
  unfold SessionStore.get FindsExpired
  cases hget : Dict.get s.sessions token' with
  | none =>
    refine (and_iff_left_of_imp fun hopen hfinds => ?_).symm
    rw [← hfinds.1, hget] at hopen
    cases hopen
  | some record' =>
    dsimp only
    cases hexpired : Flt.lt record'.expiresAt now with
    | true =>
      rw [if_pos rfl, Dict.get_filter hn, decide_eq_true_eq]
      refine and_congr_right fun hopen => ?_
      constructor
      · exact fun hne hfinds => hne hfinds.1.symm
      · intro hfinds heq
        obtain rfl : token = token' := heq
        rw [hget] at hopen
        obtain rfl := Option.some.inj hopen
        exact hfinds ⟨rfl, hexpired⟩
    | false =>
      rw [if_neg Bool.false_ne_true]
      refine (and_iff_left_of_imp fun hopen hfinds => ?_).symm
      rw [← hfinds.1, hget] at hopen
      obtain rfl := Option.some.inj hopen
      rw [hfinds.2] at hexpired
      cases hexpired

/-- What one call does to the session under a token. -/
theorem get_step (token : String) (record : SessionRecord) (op : AccountOp) (hn : (Dict.keys s.sessions).Nodup) :
    Dict.get (accountStep lower verifyPassword s op).sessions token = some record ↔
      Opens lower verifyPassword token record s op ∨ Dict.get s.sessions token = some record ∧
        ¬ (Ends lower verifyPassword token record.username s op ∨ FindsExpired token record op) := by
  cases op with
  | addUser username password role passwordHash now =>
    have hsame : (accountStep lower verifyPassword s (.addUser username password role passwordHash now)).sessions =
        s.sessions := by
      unfold accountStep
      dsimp only
      split
      · rename_i s' _ hadd
        exact (addUser_sessions hadd).1
      · rfl
    rw [hsame]
    simp [Opens, Ends, FindsExpired]
  | login username password token' now =>
    unfold accountStep Opens Ends FindsExpired
    dsimp only
    by_cases hin : ∃ row, LetIn lower verifyPassword s username password row
    · obtain ⟨row, hrow⟩ := hin
      have hunique : ∀ row', LetIn lower verifyPassword s username password row' → row' = row := by
        intro row' hrow'
        obtain ⟨-, -, stored, hauth⟩ := hrow
        obtain ⟨-, -, stored', hauth'⟩ := hrow'
        exact (Prod.mk.inj (Option.some.inj (hauth'.symm.trans hauth))).2
      rw [handleLogin_letIn hrow, Dict.get_set]
      by_cases htoken : token' = token
      · subst htoken
        rw [if_pos rfl]
        constructor
        · exact fun heq => .inl ⟨rfl, row, hrow, (Option.some.inj heq).symm⟩
        · rintro (⟨-, row', hrow', rfl⟩ | ⟨-, hkept⟩)
          · rw [hunique row' hrow']
          · exact absurd (.inl ⟨rfl, row, hrow⟩) hkept
      · rw [if_neg htoken]
        simp [htoken]
    · rw [handleLogin_not_letIn hin]
      constructor
      · intro hopen
        refine .inr ⟨hopen, ?_⟩
        rintro (⟨-, hrow⟩ | hfinds)
        · exact hin hrow
        · exact hfinds
      · rintro (⟨-, row, hrow, -⟩ | ⟨hopen, -⟩)
        · exact absurd ⟨row, hrow⟩ hin
        · exact hopen
  | logout token' =>
    unfold accountStep handleLogout Opens Ends FindsExpired
    dsimp only
    cases token' with
    | none => simp
    | some token' =>
      dsimp only
      by_cases hempty : token' = ""
      · subst hempty
        simp only [if_true, Option.some.injEq, false_or, or_false]
        refine (and_iff_left fun h => ?_).symm
        exact h.2 h.1.symm
      · rw [if_neg hempty]
        unfold SessionStore.revoke
        dsimp only
        rw [Dict.get_filter hn, decide_eq_true_eq]
        simp only [Option.some.injEq, false_or, or_false]
        refine and_congr_right fun _ => ?_
        constructor
        · exact fun hne h => hne h.1.symm
        · exact fun hkept heq => hkept ⟨heq.symm, heq ▸ hempty⟩
  | removeUser typed =>
    unfold accountStep removeUser deleteUser Opens Ends FindsExpired
    dsimp only
    cases hstored : (Dict.get s.users (normalizedName lower typed)).isSome with
    | true =>
      unfold SessionStore.revokeUser
      dsimp only
      rw [Dict.get_filter hn, decide_eq_true_eq]
      simp only [false_or, or_false]
      refine and_congr_right fun _ => ?_
      constructor
      · exact fun hne h => hne h.1.symm
      · exact fun hkept heq => hkept ⟨heq.symm, heq ▸ hstored⟩
    | false =>
      dsimp only
      simp only [false_or, or_false]
      refine (and_iff_left fun h => ?_).symm
      rw [h.1, h.2] at hstored
      cases hstored
  | request token' now =>
    unfold accountStep
    dsimp only
    rw [get_after_request hn]
    simp [Opens, Ends]

end Steps

/-- **The life of a session.** After any calls from the start of a node, none
of which looked a session up later than `t`: the token resolves to the session
at `t` exactly when a login that was let in has opened it, no logout, removal
or login with its token has ended it since, and `t` is not after its end. -/
theorem session_live_iff (lower : String → String) (verifyPassword : String → String → Bool)
    (users : Dict String UserRow) (ops : List AccountOp) {t : Flt} (ht : t ≠ .nan)
    (hclock : ∀ token now, .request token now ∈ ops → now ≠ .nan ∧ Flt.lt t now = false)
    (token : String) (record : SessionRecord) :
    ((run (accountStep lower verifyPassword) (.opened users) ops).sessions.get token t).2 = some record ↔
      Since (accountStep lower verifyPassword) (Opens lower verifyPassword token record)
        (Ends lower verifyPassword token record.username) (.opened users) ops ∧
      Flt.lt record.expiresAt t = false := by
  have hsince : Dict.get (run (accountStep lower verifyPassword) (.opened users) ops).sessions token = some record ↔
      Since (accountStep lower verifyPassword) (Opens lower verifyPassword token record)
        (fun s op => Ends lower verifyPassword token record.username s op ∨ FindsExpired token record op)
        (.opened users) ops :=
    run_iff_since (I := fun s : Accounts => (Dict.keys s.sessions).Nodup)
      (P := fun s : Accounts => Dict.get s.sessions token = some record) accountStep_nodup
      (fun s op hn => get_step token record op hn) (s := .opened users) List.nodup_nil
      (fun h => by cases h) ops
  have hget : ((run (accountStep lower verifyPassword) (.opened users) ops).sessions.get token t).2 = some record ↔
      Dict.get (run (accountStep lower verifyPassword) (.opened users) ops).sessions token = some record ∧
        Flt.lt record.expiresAt t = false := by
    unfold SessionStore.get
    split
    · rename_i hnone
      simp [hnone]
    · rename_i record' hsome
      rw [hsome]
      split
      · rename_i hexpired
        constructor
        · exact fun h => by cases h
        · rintro ⟨heq, hlive⟩
          obtain rfl := Option.some.inj heq
          rw [hexpired] at hlive
          cases hlive
      · rename_i hlive
        constructor
        · intro heq
          obtain rfl := Option.some.inj heq
          exact ⟨rfl, Bool.eq_false_iff.2 hlive⟩
        · exact fun h => h.1
  rw [hget, hsince]
  refine and_congr_left fun hlive => ?_
  constructor
  · rintro ⟨pre, op, post, hops, hopens, hpost⟩
    exact ⟨pre, op, post, hops, hopens, hpost.imp fun s op _ hkept hends => hkept (.inl hends)⟩
  · rintro ⟨pre, op, post, hops, hopens, hpost⟩
    refine ⟨pre, op, post, hops, hopens, hpost.imp fun s op hop hkept => ?_⟩
    rintro (hends | hfinds)
    · exact hkept hends
    · -- what was looked up no later than `t` was not expired
      cases op with
      | request token' now =>
        obtain ⟨hnan, hle⟩ := hclock token' now (by rw [hops]; exact List.mem_append_right _ (List.mem_cons_of_mem _ hop))
        have hexpires : record.expiresAt ≠ .nan := by
          intro hnan'
          have hlt := hfinds.2
          rw [hnan'] at hlt
          cases hlt
        have hnot := Flt.not_lt_trans hexpires ht hnan hlive hle
        rw [hfinds.2] at hnot
        cases hnot
      | addUser | login | logout | removeUser => exact hfinds

/-- A session outlives a change of the user's role, with the old one. -/
theorem session_live_iff_demoted :
    ((run (accountStep asciiLower plainVerify) (.opened [])
      [.addUser "alice" "pw" "admin" "scrypt$pw" (.fin 0), .login "alice" "pw" "t" (.fin 1),
        .addUser "alice" "new" "viewer" "scrypt$new" (.fin 2)]).sessions.get "t" (.fin 28801)).2 =
      some ⟨"t", "alice", "admin", .fin 1, .fin 28801⟩ := by
  refine (session_live_iff asciiLower plainVerify [] _ (t := .fin 28801) (by decide) (by simp) "t" _).2 ⟨?_, by decide⟩
  refine ⟨[.addUser "alice" "pw" "admin" "scrypt$pw" (.fin 0)], .login "alice" "pw" "t" (.fin 1), _, rfl, ?_,
    fun h => h, trivial⟩
  refine ⟨rfl, ⟨"scrypt$pw", "admin", .fin 0⟩, ⟨by decide +kernel, by decide, "alice", ?_⟩, ?_⟩
  · rfl
  · have hrole : normalizeRole asciiLower "admin" = "admin" := by decide +kernel
    have hend : (Flt.fin 1).add sessionTtlSeconds = .fin 28801 := by decide +kernel
    unfold openedSession
    rw [hrole, hend]
    rfl

end Mdrj.L6
