import Mdrj.Core.Base64
import Mdrj.Core.LineFormat
import Mdrj.L4Node.ProcWatch
import Mdrj.L6Api.Sessions

/-!
# Passwords

A password is stored as one text: the parameters of `hashlib.scrypt`, the salt
and the key, with `$` between them and the bytes in base64. A login reads the
text and derives the key again.

Results:
* `accepts_hashPassword`: what was stored for a password accepts exactly the
  passwords with the same key under its salt.
* `login_iff_last_password`: in every run, the password that lets a name in is
  the one that was set last, if the user was not removed since.

`hashlib.scrypt` is a parameter. A password that UTF-8 cannot encode is left
out.
-/
namespace Mdrj.L6
open Mdrj.Core Mdrj.L1 Mdrj.L3 Mdrj.L4

/-- `hashlib.scrypt(password, salt=salt, n=n, r=r, p=p, dklen=dklen)`. -/
abbrev Scrypt := Sha256.Bytes → Sha256.Bytes → Int → Int → Int → Nat → Except PyError Sha256.Bytes

/-- The key has the length asked for, in bytes. -/
structure DerivesKeys (scrypt : Scrypt) : Prop where
  length : ∀ {password salt n r p dklen key}, scrypt password salt n r p dklen = .ok key → key.length = dklen
  bytes : ∀ {password salt n r p dklen key}, scrypt password salt n r p dklen = .ok key → ∀ b ∈ key, b < 256

/-- `int` knows the ASCII digits. -/
def ReadsDigits (host : Ingest.Host) : Prop := ∀ d : Fin 10, host.digit (Char.ofNat (48 + d)) = some d.val

section Format
variable (host : Ingest.Host) (scrypt : Scrypt)

def scryptN : Int := 16384
def scryptR : Int := 8
def scryptP : Int := 1
def scryptKeylen : Nat := 32

/-- The key of a password under a salt. -/
def derived (password : String) (salt : Sha256.Bytes) : Except PyError Sha256.Bytes :=
  scrypt (Sha256.encode password) salt scryptN scryptR scryptP scryptKeylen

/-- `salt` is what `os.urandom` gives.
mirrors mdrj/auth.py:45-58 -/
def hashPassword (password : String) (salt : Sha256.Bytes) : Except PyError String :=
  if password = "" then .error (.valueError "password must not be empty")
  else (derived scrypt password salt).map fun key =>
    String.ofList ("scrypt".toList ++ '$' :: ("16384".toList ++ '$' :: ("8".toList ++ '$' :: ("1".toList ++ '$' ::
      (Base64.encode salt ++ '$' :: Base64.encode key)))))

/-- `base64.b64decode(text)`. -/
def b64decode (text : List Char) : Option Sha256.Bytes :=
  if text.all fun c => c.toNat < 128 then Base64.decode text else none

/-- `int(text)`, or `ValueError`. -/
def intText (text : List Char) : Except PyError Int :=
  match ProcWatch.toInt host (strip (String.ofList text)).toList with
  | some n => .ok n
  | none => .error (.valueError "invalid literal for int() with base 10")

/-- The numbers are read outside the `try`.
mirrors mdrj/auth.py:61-79 -/
def verifyPassword (password stored : String) : Except PyError Bool :=
  if !"scrypt$".toList.isPrefixOf stored.toList then .ok false
  else
    match splitMax '$' 5 stored.toList with
    | [_, n, r, p, salt, key] =>
      match b64decode salt, b64decode key with
      | some salt, some expected => do
        let n ← intText host n
        let r ← intText host r
        let p ← intText host p
        let actual ← scrypt (Sha256.encode password) salt n r p expected.length
        pure (actual = expected)
      | _, _ => .ok false
    | _ => .ok false

/-- A login with this password gets past the check; an exception is no way in
either. -/
def accepts (password stored : String) : Bool :=
  match verifyPassword host scrypt password stored with
  | .ok b => b
  | .error _ => false

end Format

/-! ## The text of a password -/

section RoundTrip
variable {host : Ingest.Host} {scrypt : Scrypt}

theorem not_mem_encode (bytes : List Nat) : '$' ∉ Base64.encode bytes := by
  intro h
  rcases Base64.mem_encode h with h | h
  · exact absurd h (by decide)
  · exact absurd h (by decide)

theorem b64decode_encode {bytes : List Nat} (h : ∀ b ∈ bytes, b < 256) :
    b64decode (Base64.encode bytes) = some bytes := by
  have hascii : (Base64.encode bytes).all (fun c => c.toNat < 128) = true := by
    rw [List.all_eq_true]
    intro c hc
    have halphabet : Base64.alphabet.all (fun d => d.toNat < 128) = true := by decide +kernel
    rcases Base64.mem_encode hc with hc | rfl
    · exact List.all_eq_true.1 halphabet c hc
    · rfl
  unfold b64decode
  rw [if_pos hascii, Base64.decode_encode h]

/-- The sign of a digit. -/
def digitSign (d : Fin 10) : Char := Char.ofNat (48 + d)

theorem strip_digits (digits : List (Fin 10)) :
    (strip (String.ofList (digits.map digitSign))).toList = digits.map digitSign := by
  have hspace : ∀ d : Fin 10, isSpace (digitSign d) = false := by decide
  have hkept : ∀ ds : List (Fin 10), (ds.map digitSign).dropWhile isSpace = ds.map digitSign := fun ds => by
    cases ds with
    | nil => rfl
    | cons d ds => rw [List.map_cons, List.dropWhile_cons_of_neg (by rw [hspace d]; exact Bool.false_ne_true)]
  unfold strip
  rw [String.toList_ofList, String.toList_ofList, hkept, ← List.map_reverse, hkept, List.map_reverse,
    List.reverse_reverse]

/-- The digits of a number are read as the number. -/
theorem intText_digits (h : ReadsDigits host) (digits : List (Fin 10)) (hne : digits ≠ []) (hlen : digits.length ≤ 4300) :
    intText host (digits.map digitSign) = .ok (digits.foldl (fun n d => n * 10 + d.val) 0 : Nat) := by
  have hsign : ∀ c ∈ digits.map digitSign, c ≠ '_' ∧ c ≠ '-' ∧ c ≠ '+' := by
    have hall : ∀ d : Fin 10, digitSign d ≠ '_' ∧ digitSign d ≠ '-' ∧ digitSign d ≠ '+' := by decide
    intro c hc
    obtain ⟨d, -, rfl⟩ := List.mem_map.1 hc
    exact hall d
  have hhead : ∀ c, (digits.map digitSign).head? = some c → c ≠ '-' ∧ c ≠ '+' := fun c hc =>
    (hsign c (List.mem_of_mem_head? hc)).2
  have hgroups : (digits.map digitSign).splitOn '_' = [digits.map digitSign] :=
    List.splitOn_eq_singleton fun hc => (hsign '_' hc).1 rfl
  have hdigit : (digits.map digitSign).any (fun c => !Ingest.isDigit host c) = false := by
    rw [List.any_eq_false]
    intro c hc
    obtain ⟨d, -, rfl⟩ := List.mem_map.1 hc
    rw [Ingest.isDigit, digitSign, h d]
    exact Bool.false_ne_true
  have hvalue : (digits.map digitSign).foldl (fun n c => n * 10 + (host.digit c).getD 0) 0 =
      digits.foldl (fun n d => n * 10 + d.val) 0 := by
    rw [List.foldl_map]
    congr 1
    funext n d
    rw [digitSign, h d]
    rfl
  have hunsigned : (if (digits.map digitSign).head? = some '-' ∨ (digits.map digitSign).head? = some '+' then
      (digits.map digitSign).tail else digits.map digitSign) = digits.map digitSign := by
    refine if_neg fun hc => ?_
    rcases hc with hc | hc
    · exact (hhead _ hc).1 rfl
    · exact (hhead _ hc).2 rfl
  have haccepted : ¬ ([digits.map digitSign].any (·.isEmpty) = true ∨
      [digits.map digitSign].flatten.any (fun c => !Ingest.isDigit host c) = true ∨
        4300 < [digits.map digitSign].flatten.length) := by
    rw [List.flatten_singleton, hdigit, List.length_map]
    simp only [List.any_cons, List.any_nil, Bool.or_false, List.isEmpty_iff, List.map_eq_nil_iff, not_or]
    exact ⟨hne, Bool.false_ne_true, by omega⟩
  unfold intText ProcWatch.toInt
  dsimp only
  rw [strip_digits, hunsigned, hgroups, if_neg haccepted, List.flatten_singleton, hvalue,
    if_neg fun hc => (hhead _ hc).1 rfl]

theorem splitMax_hash (salt key : List Nat) :
    splitMax '$' 5 ("scrypt".toList ++ '$' :: ("16384".toList ++ '$' :: ("8".toList ++ '$' :: ("1".toList ++ '$' ::
      (Base64.encode salt ++ '$' :: Base64.encode key))))) =
      ["scrypt".toList, "16384".toList, "8".toList, "1".toList, Base64.encode salt, Base64.encode key] := by
  rw [splitMax_append (by decide), splitMax_append (by decide), splitMax_append (by decide),
    splitMax_append (by decide), splitMax_append (not_mem_encode salt)]
  rfl

/-- What is stored for a password is checked against its own key. -/
theorem verifyPassword_hashPassword (hdigits : ReadsDigits host) (hkeys : DerivesKeys scrypt)
    {password stored : String} {salt : Sha256.Bytes} (hsalt : ∀ b ∈ salt, b < 256)
    (h : hashPassword scrypt password salt = .ok stored) (candidate : String) :
    ∃ key, derived scrypt password salt = .ok key ∧
      verifyPassword host scrypt candidate stored =
        (derived scrypt candidate salt).map fun actual => decide (actual = key) := by
  unfold hashPassword at h
  split at h
  · cases h
  · cases hkey : derived scrypt password salt with
    | error e => rw [hkey] at h; cases h
    | ok key =>
      rw [hkey] at h
      injection h with h
      refine ⟨key, rfl, ?_⟩
      have hn : intText host "16384".toList = .ok scryptN :=
        intText_digits hdigits [1, 6, 3, 8, 4] (by decide) (by decide)
      have hr : intText host "8".toList = .ok scryptR :=
        intText_digits hdigits [8] (by decide) (by decide)
      have hp : intText host "1".toList = .ok scryptP :=
        intText_digits hdigits [1] (by decide) (by decide)
      have hlen : key.length = scryptKeylen := hkeys.length hkey
      have htext : stored.toList = "scrypt".toList ++ '$' :: ("16384".toList ++ '$' :: ("8".toList ++ '$' ::
          ("1".toList ++ '$' :: (Base64.encode salt ++ '$' :: Base64.encode key)))) := by
        rw [← h]
        exact String.toList_ofList
      have hword : "scrypt$".toList = "scrypt".toList ++ ['$'] := by decide
      have hstart : "scrypt$".toList <+: stored.toList := by
        rw [htext, hword]
        exact ⟨_, List.append_assoc _ _ _⟩
      have hinitial : (!"scrypt$".toList.isPrefixOf stored.toList) = false := by
        rw [List.isPrefixOf_iff_prefix.2 hstart]
        rfl
      unfold verifyPassword
      rw [hinitial, if_neg Bool.false_ne_true, htext, splitMax_hash]
      dsimp only
      rw [b64decode_encode hsalt, b64decode_encode (hkeys.bytes hkey), hn, hr, hp]
      dsimp only [derived, Bind.bind, Except.bind]
      rw [hlen]
      cases scrypt (Sha256.encode candidate) salt scryptN scryptR scryptP scryptKeylen <;> rfl

/-- **A password is accepted exactly when it has the key that is stored.** -/
theorem accepts_hashPassword (hdigits : ReadsDigits host) (hkeys : DerivesKeys scrypt)
    {password stored : String} {salt : Sha256.Bytes} (hsalt : ∀ b ∈ salt, b < 256)
    (h : hashPassword scrypt password salt = .ok stored) (candidate : String) :
    accepts host scrypt candidate stored = true ↔ derived scrypt candidate salt = derived scrypt password salt := by
  obtain ⟨key, hkey, hverify⟩ := verifyPassword_hashPassword hdigits hkeys hsalt h candidate
  unfold accepts
  rw [hverify, hkey]
  cases derived scrypt candidate salt with
  | error e => simp [Except.map]
  | ok actual => simp [Except.map]

end RoundTrip

/-! ## The password that was set last -/

section Runs
variable (lower : String → String) (host : Ingest.Host) (scrypt : Scrypt)

/-- The call stores the text of its password under some salt. -/
def Hashes : AccountOp → Prop
  | .addUser _ password _ stored _ => password ≠ "" → ∃ salt : Sha256.Bytes, (∀ b ∈ salt, b < 256) ∧
    hashPassword scrypt password salt = .ok stored
  | _ => True

/-- The call sets a password for this name with which `candidate` is let in. -/
def SetsPassword (name candidate : String) : AccountOp → Prop
  | .addUser username password _ stored _ => normalizedName lower username = name ∧ name ≠ "" ∧ password ≠ "" ∧
    ∃ salt : Sha256.Bytes, (∀ b ∈ salt, b < 256) ∧ hashPassword scrypt password salt = .ok stored ∧
      derived scrypt candidate salt = derived scrypt password salt
  | _ => False

/-- The call sets a password for this name, or removes the user. -/
def ReplacesPassword (name : String) : AccountOp → Prop
  | .addUser username password _ _ _ => normalizedName lower username = name ∧ name ≠ "" ∧ password ≠ ""
  | .removeUser username => normalizedName lower username = name
  | _ => False

end Runs

section Rows
variable {lower : String → String} {verify : String → String → Bool} {s : Accounts}

theorem upsertUser_get (users : Dict String UserRow) (name passwordHash role : String) (now : Flt) :
    ∃ row : UserRow, row.passwordHash = passwordHash ∧
      upsertUser users name passwordHash role now = Dict.set users name row := by
  unfold upsertUser
  split
  · exact ⟨_, rfl, rfl⟩
  · exact ⟨_, rfl, rfl⟩

/-- The row of a name accepts the password. -/
def RowAccepts (verify : String → String → Bool) (name candidate : String) (s : Accounts) : Prop :=
  ∃ row, Dict.get s.users name = some row ∧ verify candidate row.passwordHash = true

/-- The call stores a text that accepts the password. -/
def StoresAccepted (lower : String → String) (verify : String → String → Bool) (name candidate : String) :
    AccountOp → Prop
  | .addUser username password _ stored _ => normalizedName lower username = name ∧ name ≠ "" ∧ password ≠ "" ∧
    verify candidate stored = true
  | _ => False

theorem addUser_ok (verify : String → String → Bool) (s : Accounts) {username password : String}
    (role passwordHash : String) (now : Flt) (hname : normalizedName lower username ≠ "") (hpassword : password ≠ "") :
    ∃ row : UserRow, row.passwordHash = passwordHash ∧
      accountStep lower verify s (.addUser username password role passwordHash now) =
        { s with users := Dict.set s.users (normalizedName lower username) row } := by
  obtain ⟨row, hrow, hset⟩ := upsertUser_get s.users (normalizedName lower username) passwordHash
    (normalizeRole lower role) now
  refine ⟨row, hrow, ?_⟩
  unfold accountStep addUser
  dsimp only
  rw [if_neg hname, if_neg hpassword, hset]

theorem addUser_refused {username password role passwordHash : String} {now : Flt}
    (h : normalizedName lower username = "" ∨ password = "") :
    accountStep lower verify s (.addUser username password role passwordHash now) = s := by
  unfold accountStep addUser
  dsimp only
  by_cases hname : normalizedName lower username = ""
  · rw [if_pos hname]
  · rw [if_neg hname, if_pos (h.resolve_left hname)]

theorem removeUser_users (username : String) :
    (accountStep lower verify s (.removeUser username)).users =
      s.users.filter (·.1 ≠ normalizedName lower username) := by
  unfold accountStep removeUser deleteUser
  dsimp only
  cases (Dict.get s.users (normalizedName lower username)).isSome with
  | true => rfl
  | false => rfl

/-- Only these two calls touch the users. -/
theorem accountStep_users {op : AccountOp} (hadd : ∀ username password role stored now,
      op ≠ .addUser username password role stored now) (hremove : ∀ username, op ≠ .removeUser username) :
    (accountStep lower verify s op).users = s.users := by
  cases op with
  | addUser username password role stored now => exact absurd rfl (hadd _ _ _ _ _)
  | login username password token now =>
    unfold accountStep handleLogin
    dsimp only
    split
    · rfl
    · split
      · rfl
      · rfl
  | logout token =>
    unfold accountStep handleLogout
    dsimp only
    split
    · rfl
    · split
      · rfl
      · rfl
  | removeUser username => exact absurd rfl (hremove _)
  | request token now => rfl

theorem accountStep_users_nodup (s : Accounts) (op : AccountOp) (h : (Dict.keys s.users).Nodup) :
    (Dict.keys (accountStep lower verify s op).users).Nodup := by
  cases op with
  | addUser username password role stored now =>
    by_cases hgiven : normalizedName lower username = "" ∨ password = ""
    · rw [addUser_refused hgiven]
      exact h
    · rw [not_or] at hgiven
      obtain ⟨row, -, heq⟩ := addUser_ok verify s role stored now hgiven.1 hgiven.2
      rw [heq]
      exact Dict.nodup_set h _ _
  | removeUser username =>
    rw [removeUser_users]
    exact Dict.nodup_filter h _
  | login | logout | request =>
    rw [accountStep_users (by simp) (by simp)]
    exact h

theorem rowAccepts_step {name candidate : String} (op : AccountOp) (hn : (Dict.keys s.users).Nodup) :
    RowAccepts verify name candidate (accountStep lower verify s op) ↔
      StoresAccepted lower verify name candidate op ∨
        RowAccepts verify name candidate s ∧ ¬ ReplacesPassword lower name op := by
  cases op with
  | addUser username password role stored now =>
    by_cases hgiven : normalizedName lower username = "" ∨ password = ""
    · rw [addUser_refused hgiven]
      unfold StoresAccepted ReplacesPassword
      have hnot : ¬ (normalizedName lower username = name ∧ name ≠ "" ∧ password ≠ "") := by
        rintro ⟨rfl, hname, hpassword⟩
        exact hgiven.elim hname hpassword
      constructor
      · exact fun h => .inr ⟨h, hnot⟩
      · rintro (⟨hname, hne, hpassword, -⟩ | ⟨h, -⟩)
        · exact absurd ⟨hname, hne, hpassword⟩ hnot
        · exact h
    · rw [not_or] at hgiven
      obtain ⟨row, hrow, heq⟩ := addUser_ok verify s role stored now hgiven.1 hgiven.2
      rw [heq]
      unfold RowAccepts StoresAccepted ReplacesPassword
      rw [Dict.get_set]
      by_cases hname : normalizedName lower username = name
      · subst hname
        simp only [if_true, Option.some.injEq, exists_eq_left', hrow]
        simp [hgiven.1, hgiven.2]
      · rw [if_neg hname]
        simp [hname]
  | removeUser username =>
    unfold RowAccepts StoresAccepted ReplacesPassword
    rw [removeUser_users]
    simp only [Dict.get_filter hn, decide_eq_true_eq, false_or]
    constructor
    · rintro ⟨row, ⟨hget, hname⟩, haccepts⟩
      exact ⟨⟨row, hget, haccepts⟩, fun h => hname h.symm⟩
    · rintro ⟨⟨row, hget, haccepts⟩, hname⟩
      exact ⟨row, ⟨hget, fun h => hname h.symm⟩, haccepts⟩
  | login | logout | request =>
    unfold RowAccepts StoresAccepted ReplacesPassword
    rw [accountStep_users (by simp) (by simp)]
    simp

end Rows

/-- **The last password lets in.** In every run from no users, in which each
password is stored as a hash under some salt, a login as a user gets past the
check exactly when the password given has the same key as one that was set for
the name, and since then neither another password was set for it nor the user
was removed. -/
theorem login_iff_last_password (lower : String → String) {host : Ingest.Host} {scrypt : Scrypt}
    (hdigits : ReadsDigits host) (hkeys : DerivesKeys scrypt) {ops : List AccountOp}
    (hops : ∀ op ∈ ops, Hashes scrypt op) (username candidate : String) :
    (authenticate lower (accepts host scrypt) (run (accountStep lower (accepts host scrypt)) (.opened []) ops)
        username candidate).isSome = true ↔
      Since (accountStep lower (accepts host scrypt))
        (fun _ => SetsPassword lower scrypt (normalizedName lower username) candidate)
        (fun _ => ReplacesPassword lower (normalizedName lower username)) (.opened []) ops := by
  have hauth : (authenticate lower (accepts host scrypt)
      (run (accountStep lower (accepts host scrypt)) (.opened []) ops) username candidate).isSome = true ↔
      RowAccepts (accepts host scrypt) (normalizedName lower username) candidate
        (run (accountStep lower (accepts host scrypt)) (.opened []) ops) := by
    unfold authenticate RowAccepts
    dsimp only
    split
    · rename_i hnone
      simp [hnone]
    · rename_i row hrow
      rw [hrow]
      split
      · rename_i haccepts
        simp [haccepts]
      · rename_i hrefused
        simp [hrefused]
  have hsince : RowAccepts (accepts host scrypt) (normalizedName lower username) candidate
        (run (accountStep lower (accepts host scrypt)) (.opened []) ops) ↔
      Since (accountStep lower (accepts host scrypt))
        (fun _ => StoresAccepted lower (accepts host scrypt) (normalizedName lower username) candidate)
        (fun _ => ReplacesPassword lower (normalizedName lower username)) (.opened []) ops :=
    run_iff_since (s := .opened []) (I := fun s : Accounts => (Dict.keys s.users).Nodup) accountStep_users_nodup
      (fun s op hn => rowAccepts_step op hn) List.nodup_nil (by rintro ⟨row, hget, -⟩; cases hget) ops
  rw [hauth, hsince]
  constructor
  · rintro ⟨pre, op, post, hrun, hset, hpost⟩
    refine ⟨pre, op, post, hrun, ?_, hpost⟩
    have hhashed := hops op (by rw [hrun]; exact List.mem_append_right _ List.mem_cons_self)
    cases op with
    | addUser username' password role stored now =>
      obtain ⟨hname, hne, hpassword, haccepts⟩ := hset
      obtain ⟨salt, hsalt, hhash⟩ := hhashed hpassword
      exact ⟨hname, hne, hpassword, salt, hsalt, hhash,
        (accepts_hashPassword hdigits hkeys hsalt hhash candidate).1 haccepts⟩
    | login | logout | removeUser | request => exact hset
  · rintro ⟨pre, op, post, hrun, hset, hpost⟩
    refine ⟨pre, op, post, hrun, ?_, hpost⟩
    cases op with
    | addUser username' password role stored now =>
      obtain ⟨hname, hne, hpassword, salt, hsalt, hhash, hkey⟩ := hset
      exact ⟨hname, hne, hpassword, (accepts_hashPassword hdigits hkeys hsalt hhash candidate).2 hkey⟩
    | login | logout | removeUser | request => exact hset

/-- `hashlib.scrypt` at the password and the salt below. -/
def scryptOfPw : Scrypt := fun password salt n r p dklen =>
  if password = [112, 119] ∧ salt = List.replicate 16 0 ∧ n = 16384 ∧ r = 8 ∧ p = 1 ∧ dklen = 32 then
    .ok [191, 183, 66, 40, 146, 83, 89, 204, 3, 36, 35, 72, 4, 127, 212, 54, 199, 47, 198, 142, 203, 247, 183, 225,
      168, 185, 76, 20, 249, 111, 33, 161]
  else .error (.valueError "not computed")

def storedPw : String := "scrypt$16384$8$1$AAAAAAAAAAAAAAAAAAAAAA==$v7dCKJJTWcwDJCNIBH/UNscvxo7L97fhqLlMFPlvIaE="

theorem derivesKeys_scryptOfPw : DerivesKeys scryptOfPw where
  length h := by
    unfold scryptOfPw at h
    split at h
    · rename_i hinput
      cases h
      exact hinput.2.2.2.2.2.symm
    · cases h
  bytes h := by
    unfold scryptOfPw at h
    split at h
    · cases h
      decide
    · cases h

theorem login_iff_last_password_alice :
    (authenticate asciiLower (accepts ProcWatch.procHost scryptOfPw)
      (run (accountStep asciiLower (accepts ProcWatch.procHost scryptOfPw)) (.opened [])
        [.addUser "alice" "pw" "viewer" storedPw (.fin 0)]) "Alice" "pw").isSome = true := by
  have hhash : hashPassword scryptOfPw "pw" (List.replicate 16 0) = .ok storedPw := by decide +kernel
  have hdigits : ReadsDigits ProcWatch.procHost := by
    unfold ReadsDigits
    decide +kernel
  have hsalt : ∀ b ∈ List.replicate 16 0, b < 256 := by decide
  refine (login_iff_last_password asciiLower hdigits derivesKeys_scryptOfPw ?_ "Alice" "pw").2
    ⟨[], _, [], rfl, ⟨?_, ?_, ?_, List.replicate 16 0, hsalt, hhash, rfl⟩, trivial⟩
  · intro op hop
    rw [List.mem_singleton.1 hop]
    exact fun _ => ⟨List.replicate 16 0, hsalt, hhash⟩
  · decide +kernel
  · decide +kernel
  · decide

end Mdrj.L6
