import Mathlib
import Mdrj.Core.Dict
import Mdrj.Core.Patterns
import Mdrj.Core.Segments
import Mdrj.L1Encoding.Json
import Mdrj.L3Store.Storage

/-!
# The auth log ingestor

`LinuxAuthLogIngestor` reads what was appended to an auth log since the last
poll, line by line. An accepted SSH login of an administrator is reported, a
series of failed logins from one address, and a root session opened through
`sudo` or `su`.

Parameters of the model (`Host`): the Unicode classes `\d` and `\w`, the
user and group databases, and what `datetime` makes of a text or a number
(`none` where it raises). Carriage returns are left out: a log has none
(`AuthLog`), since after one `tell` returns an opaque number.
-/
namespace Mdrj.L4.Ingest
open Mdrj.Core Mdrj.L1 Mdrj.L3

/-! ## Text -/

/-- A sequence of UTF-8 bytes that is not complete: how many are missing,
the range of the next one, and the bits so far. -/
structure PendingChar where
  missing : Nat
  low : Nat
  high : Nat
  bits : Nat

def leadByte (b : Nat) : Option PendingChar :=
  if 0xc2 ≤ b ∧ b ≤ 0xdf then some ⟨1, 0x80, 0xbf, b - 0xc0⟩
  else if b = 0xe0 then some ⟨2, 0xa0, 0xbf, 0⟩
  else if b = 0xed then some ⟨2, 0x80, 0x9f, 0xd⟩
  else if 0xe1 ≤ b ∧ b ≤ 0xef then some ⟨2, 0x80, 0xbf, b - 0xe0⟩
  else if b = 0xf0 then some ⟨3, 0x90, 0xbf, 0⟩
  else if 0xf1 ≤ b ∧ b ≤ 0xf3 then some ⟨3, 0x80, 0xbf, b - 0xf0⟩
  else if b = 0xf4 then some ⟨3, 0x80, 0x8f, 4⟩
  else none

def replacement : Char := Char.ofNat 0xfffd

/-- A byte that does not continue a sequence. -/
def firstByte (b : Nat) : List Char × Option PendingChar :=
  if b < 0x80 then ([Char.ofNat b], none)
  else match leadByte b with
    | some pending => ([], some pending)
    | none => ([replacement], none)

/-- UTF-8 with `errors="replace"`: each broken sequence is one replacement
character. -/
def decodeFrom : Option PendingChar → List UInt8 → List Char
  | none, [] => []
  | some _, [] => [replacement]
  | none, b :: bytes => (firstByte b.toNat).1 ++ decodeFrom (firstByte b.toNat).2 bytes
  | some p, b :: bytes =>
    if p.low ≤ b.toNat ∧ b.toNat ≤ p.high then
      let bits := p.bits * 64 + (b.toNat - 0x80)
      if p.missing ≤ 1 then Char.ofNat bits :: decodeFrom none bytes
      else decodeFrom (some ⟨p.missing - 1, 0x80, 0xbf, bits⟩) bytes
    else replacement :: (firstByte b.toNat).1 ++ decodeFrom (firstByte b.toNat).2 bytes

def decode (bytes : List UInt8) : List Char := decodeFrom none bytes

/-- `line.rstrip("\n")`. -/
def rstripNewline (line : List Char) : List Char := (line.reverse.dropWhile (· = '\n')).reverse

def newline (b : UInt8) : Bool := b = 10

/-- What is in the log at last. -/
structure AuthLog where
  bytes : List UInt8
  noReturn : 13 ∉ bytes

/-! ## The host -/

/-- mirrors mdrj/config.py:47-56; `hostId` and `authLogPath` as `__init__`
sets them. -/
structure IngestConfig where
  nodeId : String
  hostId : String
  authLogPath : String
  sourceType : String := "auth_log_file"
  adminUsers : List String := []
  privilegedGroups : List String := []

/-- What the ingestor asks of the host. -/
structure Host where
  digit : Char → Option Nat                       -- `\d`, with the value of the digit
  wordChar : Char → Bool                          -- `\w`
  getpwnam : String → Option Nat                  -- the group id of a user
  getgrnam : String → Option (List String × Nat)  -- the members and the id of a group
  fromIsoFormat : String → Option String          -- `datetime.fromisoformat(..).isoformat(timespec="seconds")`
  fromTimestamp : Flt → Option String             -- `datetime.fromtimestamp(..).isoformat(timespec="seconds")`
  utcFromTimestamp : Flt → Option String

/-- What `datetime.now()` tells of the guessed date of a line: the year, and
whether this year's date is more than a day ahead. -/
structure Reading where
  year : Nat
  ahead : Bool

section Patterns
open Pattern
variable (host : Host)

def isDigit (c : Char) : Bool := (host.digit c).isSome
def nonSpace (c : Char) : Bool := !isSpace c
def accountChar (c : Char) : Bool := host.wordChar c || c ∈ ['.', '@', '-']
def addressChar (c : Char) : Bool :=
  ('0' ≤ c ∧ c ≤ '9') || ('a' ≤ c ∧ c ≤ 'f') || ('A' ≤ c ∧ c ≤ 'F') || c ∈ [':', '.']

def digits (lo : Nat) (hi : Option Nat) : Pattern := chars (isDigit host) lo hi
def spaces : Pattern := chars isSpace 1 none
def account (name : String) (lo : Nat) : Pattern := group name (chars (accountChar host) lo none)

/-- `(?:\[\d+\])?:\s+` after the name of a program. -/
def processId : Pattern :=
  sequence [optional (sequence [literal "[", digits host 1 none, literal "]"]), literal ":", spaces]

def sshd : Pattern := sequence [literal "sshd", optional (literal "-session"), processId host]

/-- `\s+from\s+<source_ip>\s+port\s+<port>`. -/
def fromAddress : Pattern :=
  sequence [spaces, literal "from", spaces, group "source_ip" (chars addressChar 1 none), spaces,
    literal "port", spaces, group "port" (digits host 1 none)]

/-- What follows the time in a line about an accepted login. -/
def accepted : Pattern :=
  sequence [spaces, group "host" (chars nonSpace 1 none), spaces, sshd host, literal "Accepted", spaces,
    group "method" (chars nonSpace 1 none), spaces, literal "for", spaces, account host "user" 1,
    fromAddress host]

/-- mirrors mdrj/linux_ingest.py:18-26 -/
def syslogSshAccepted : Pattern :=
  sequence [group "month" (sequence [chars (fun c => 'A' ≤ c ∧ c ≤ 'Z') 1 (some 1),
      chars (fun c => 'a' ≤ c ∧ c ≤ 'z') 2 (some 2)]), spaces,
    group "day" (digits host 1 (some 2)), spaces,
    group "clock" (sequence [digits host 2 (some 2), literal ":", digits host 2 (some 2), literal ":",
      digits host 2 (some 2)]), accepted host]

/-- mirrors mdrj/linux_ingest.py:28-34 -/
def isoSshAccepted : Pattern :=
  sequence [group "occurred_at" (sequence [digits host 4 (some 4), literal "-", digits host 2 (some 2),
      literal "-", digits host 2 (some 2), literal "T", chars nonSpace 1 none]), accepted host]

/-- mirrors mdrj/linux_ingest.py:39-43 -/
def sshFailed : Pattern :=
  sequence [sshd host, literal "Failed", spaces, literal "password", spaces, literal "for", spaces,
    optional (sequence [literal "invalid user", spaces]), account host "user" 1, fromAddress host]

/-- mirrors mdrj/linux_ingest.py:46-49 -/
def sudoSession : Pattern :=
  sequence [literal "sudo", processId host, literal "pam_unix(sudo:session):", spaces,
    literal "session opened for user", spaces, account host "target" 1,
    optional (sequence [literal "(uid=", digits host 1 none, literal ")"]), spaces, literal "by", spaces,
    account host "actor" 0]

/-- mirrors mdrj/linux_ingest.py:50-52, without the `\b` -/
def suSession : Pattern :=
  sequence [literal "su", processId host, literal "pam_unix(su", optional (literal "-l"), literal ":session):",
    spaces, literal "session opened for user", spaces, account host "target" 1]

/-- `\b` before a letter: the character before is no word character. -/
def wordStart (before : Option Char) : Bool := !(before.any host.wordChar)

end Patterns

/-! ## Payloads -/

/-- When a login occurred: a time with its date, or one whose year was
guessed. -/
inductive Occurred where
  | iso (text : String)
  | syslog (year : Nat) (rest : String)
  deriving DecidableEq, Repr

structure Login where
  hostId : String
  nodeId : String
  occurredAt : Occurred
  collectedAt : String
  principal : String
  sourceIp : String
  privilegeScope : String
  rawRef : String
  title : String
  description : String
  sourceType : String
  sshAuthMethod : String
  sshPort : Nat
  rawLine : String
  deriving DecidableEq, Repr

structure Burst where
  hostId : String
  nodeId : String
  collectedAt : String
  sourceIp : String
  failedCount : Nat
  windowSec : Flt
  rawRef : String
  title : String
  description : String
  sourceType : String
  rawLine : String
  deriving DecidableEq, Repr

structure Escalation where
  hostId : String
  nodeId : String
  collectedAt : String
  mechanism : String
  targetUser : String
  actorUser : String
  rawRef : String
  title : String
  description : String
  sourceType : String
  rawLine : String
  deriving DecidableEq, Repr

inductive Payload where
  | adminSshLoginSuccess (login : Login)
  | failedLoginBurst (burst : Burst)
  | privilegeEscalation (escalation : Escalation)
  deriving DecidableEq, Repr

def pad (width n : Nat) : String := String.ofList (List.replicate (width - (toString n).length) '0') ++ toString n

def Occurred.isoformat : Occurred → String
  | .iso text => text
  | .syslog year rest => pad 4 year ++ "-" ++ rest

def Payload.eventKind : Payload → String
  | .adminSshLoginSuccess _ => "admin_ssh_login_success"
  | .failedLoginBurst _ => "failed_login_burst"
  | .privilegeEscalation _ => "privilege_escalation"

/-- mirrors mdrj/linux_ingest.py:167-189, 213-233, 253-272 -/
def Payload.toJson : Payload → Json
  | .adminSshLoginSuccess p =>
    .obj [("event_kind", .str "admin_ssh_login_success"), ("class", .str "A"), ("host_id", .str p.hostId),
      ("node_id", .str p.nodeId), ("occurred_at", .str p.occurredAt.isoformat),
      ("collected_at", .str p.collectedAt), ("principal", .str p.principal), ("source_ip", .str p.sourceIp),
      ("target_service", .str "sshd"), ("result", .str "success"), ("privilege_scope", .str p.privilegeScope),
      ("raw_ref", .str p.rawRef), ("title", .str p.title), ("description", .str p.description),
      ("category", .str "authentication"),
      ("context", .obj [("source_type", .str p.sourceType), ("ssh_auth_method", .str p.sshAuthMethod),
        ("ssh_port", .int p.sshPort), ("raw_line", .str p.rawLine)])]
  | .failedLoginBurst p =>
    .obj [("event_kind", .str "failed_login_burst"), ("class", .str "A"), ("host_id", .str p.hostId),
      ("node_id", .str p.nodeId), ("collected_at", .str p.collectedAt), ("source_ip", .str p.sourceIp),
      ("target_service", .str "sshd"), ("result", .str "failure"), ("failed_count", .int p.failedCount),
      ("window_sec", .float p.windowSec), ("raw_ref", .str p.rawRef), ("title", .str p.title),
      ("description", .str p.description), ("category", .str "authentication"),
      ("context", .obj [("source_type", .str p.sourceType), ("raw_line", .str p.rawLine)])]
  | .privilegeEscalation p =>
    .obj [("event_kind", .str "privilege_escalation"), ("class", .str "A"), ("host_id", .str p.hostId),
      ("node_id", .str p.nodeId), ("collected_at", .str p.collectedAt), ("mechanism", .str p.mechanism),
      ("target_user", .str p.targetUser), ("actor_user", .str p.actorUser), ("raw_ref", .str p.rawRef),
      ("title", .str p.title), ("description", .str p.description), ("category", .str "authentication"),
      ("context", .obj [("source_type", .str p.sourceType), ("raw_line", .str p.rawLine)])]

/-! ## Privileges and dates -/

section Parsing
variable (host : Host) (config : IngestConfig)

/-- The entries of a set of names in the configuration. -/
def configured (names : List String) : List String := (names.map strip).filter (· ≠ "")

/-- mirrors mdrj/linux_ingest.py:284-296 -/
def principalInPrivilegedGroup (principal : String) : Bool :=
  match host.getpwnam principal with
  | none => false
  | some gid => (configured config.privilegedGroups).any fun name =>
    match host.getgrnam name with
    | none => false
    | some (members, id) => principal ∈ members || id = gid

/-- mirrors mdrj/linux_ingest.py:275-282 -/
def privilegeScope (principal : String) : Option String :=
  if principal = "root" then some "root"
  else if principal ∈ configured config.adminUsers then some "configured_admin_user"
  else if configured config.privilegedGroups ≠ [] ∧ principalInPrivilegedGroup host config principal then
    some "privileged_group"
  else none

def months : List String :=
  ["Jan", "Feb", "Mar", "Apr", "May", "Jun", "Jul", "Aug", "Sep", "Oct", "Nov", "Dec"]

def leapYear (year : Nat) : Bool := year % 4 = 0 ∧ (year % 100 ≠ 0 ∨ year % 400 = 0)

def daysIn (year month : Nat) : Nat :=
  if month = 2 then (if leapYear year then 29 else 28) else if month ∈ [4, 6, 9, 11] then 30 else 31

/-- A field of `strptime` with two digits, the first of which is among `tens`. -/
def twoDigits (tens : List Char) : List Char → Option Nat
  | [a, b] => if a ∈ tens then (host.digit b).map fun d => (a.toNat - 48) * 10 + d else none
  | _ => none

/-- `%d`: `3[0-1]|[1-2]\d|0[1-9]|[1-9]`. -/
def dayField : List Char → Option Nat
  | [a] => if '1' ≤ a ∧ a ≤ '9' then some (a.toNat - 48) else none
  | ['3', b] => if b = '0' ∨ b = '1' then some (30 + (b.toNat - 48)) else none
  | ['0', b] => if '1' ≤ b ∧ b ≤ '9' then some (b.toNat - 48) else none
  | text => twoDigits host ['1', '2'] text

/-- `%H`: `2[0-3]|[0-1]\d`. -/
def hourField : List Char → Option Nat
  | ['2', b] => if '0' ≤ b ∧ b ≤ '3' then some (20 + (b.toNat - 48)) else none
  | text => twoDigits host ['0', '1'] text

/-- `%M`, and `%S` of a second that `datetime` has. -/
def sixtyField (text : List Char) : Option Nat := twoDigits host ['0', '1', '2', '3', '4', '5'] text

/-- Month, day and time of day of a syslog line, as `isoformat` writes them. -/
def syslogDate (month day clock : String) : Option (Nat × Nat × String) := do
  let m ← months.findIdx? (· = month)
  let d ← dayField host day.toList
  let time := clock.toList
  let hour ← hourField host (time.take 2)
  let minute ← sixtyField host ((time.drop 3).take 2)
  let second ← sixtyField host ((time.drop 6).take 2)
  some (m + 1, d, pad 2 (m + 1) ++ "-" ++ pad 2 d ++ "T" ++ pad 2 hour ++ ":" ++ pad 2 minute ++ ":" ++ pad 2 second)

/-- mirrors mdrj/linux_ingest.py:298-309 -/
def parseTimestamp (reading : Reading) : Groups × Bool → Except PyError Occurred
  | (groups, true) =>
    match host.fromIsoFormat (groups.named "occurred_at") with
    | some text => .ok (.iso text)
    | none => .error (.valueError "Invalid isoformat string")
  | (groups, false) =>
    match syslogDate host (groups.named "month") (groups.named "day") (groups.named "clock") with
    | none => .error (.valueError "time data does not match format")
    | some (month, day, rest) =>
      -- this year's date has to be one even if the line is dated to the last year
      if daysIn reading.year month < day then .error (.valueError "day is out of range for month")
      else if reading.ahead then
        if daysIn (reading.year - 1) month < day then .error (.valueError "day is out of range for month")
        else .ok (.syslog (reading.year - 1) rest)
      else .ok (.syslog reading.year rest)

/-- `int(text)` of decimal digits; more than 4300 of them are refused. -/
def intOfDigits (text : String) : Except PyError Nat :=
  if 4300 < text.length then .error (.valueError "Exceeds the limit (4300 digits) for integer string conversion")
  else .ok (text.toList.foldl (fun n c => n * 10 + (host.digit c).getD 0) 0)

/-! ## Lines -/

/-- An accepted login, in either format (`true` for ISO). -/
def acceptedLogin (line : List Char) : Option (Groups × Bool) :=
  match (isoSshAccepted host).match? line with
  | some groups => some (groups, true)
  | none => ((syslogSshAccepted host).match? line).map (·, false)

def rawRef (lineOffset : Nat) : String := config.authLogPath ++ ":" ++ toString lineOffset

/-- The report of an accepted login. -/
def loginPayload (line : List Char) (lineOffset : Nat) (groups : Groups) (scope : String) (occurredAt : Occurred)
    (sshPort : Nat) (collectedAt : String) : Login :=
  let principal := groups.named "user"
  let sourceIp := groups.named "source_ip"
  { hostId := config.hostId, nodeId := config.nodeId, occurredAt, collectedAt := collectedAt ++ "Z", principal,
    sourceIp, privilegeScope := scope, rawRef := rawRef config lineOffset
    title := "Успешный административный SSH-вход: " ++ principal
    description := "Подтверждён вход по SSH под административной учётной записью " ++ principal ++
      " с адреса " ++ sourceIp ++ "."
    sourceType := config.sourceType, sshAuthMethod := groups.named "method", sshPort
    rawLine := String.ofList line }

/-- The times of failed logins by address, and the time of the last burst. -/
structure Bursts where
  failedWindow : Dict String (List Flt) := []
  emittedAt : Dict String Flt := []

def burstThreshold : Nat := 5
def burstWindow : Flt := .fin 120

/-- One more failed login of an address: how many there are, if they are
reported.
mirrors mdrj/linux_ingest.py:201-212 -/
def Bursts.failed (bursts : Bursts) (ip : String) (ts : Flt) : Bursts × Option Nat :=
  let cutoff := ts.sub burstWindow
  let window := ((Dict.get bursts.failedWindow ip).getD [] ++ [ts]).filter fun t => !t.lt cutoff
  if burstThreshold ≤ window.length then
    let lastEmit := (Dict.get bursts.emittedAt ip).getD (.fin 0)
    if (ts.sub lastEmit).lt burstWindow then
      ({ bursts with failedWindow := Dict.set bursts.failedWindow ip window }, none)
    else
      ({ failedWindow := Dict.set bursts.failedWindow ip [], emittedAt := Dict.set bursts.emittedAt ip ts },
        some window.length)
  else ({ bursts with failedWindow := Dict.set bursts.failedWindow ip window }, none)

def burstPayload (line : List Char) (lineOffset : Nat) (ip : String) (count : Nat) (collectedAt : String) : Burst :=
  { hostId := config.hostId, nodeId := config.nodeId, collectedAt := collectedAt ++ "Z", sourceIp := ip
    failedCount := count, windowSec := burstWindow, rawRef := rawRef config lineOffset
    title := "Серия неудачных входов с " ++ ip
    description := "Зафиксировано ≥5 неудачных SSH-входов с адреса " ++ ip ++
      " за 120с — признак автоматизированного подбора пароля."
    sourceType := config.sourceType, rawLine := String.ofList line }

/-- A session opened through `sudo` or `su`: mechanism, target and actor.
mirrors mdrj/linux_ingest.py:237-251 -/
def openedSession (line : List Char) : Option (String × String × String) :=
  match (sudoSession host).search line with
  | some groups => some ("sudo", groups.named "target", groups.named "actor")
  | none =>
    ((suSession host).searchAfter (wordStart host) none line).map fun groups => ("su", groups.named "target", "")

def escalationPayload (line : List Char) (lineOffset : Nat) (mechanism actor : String) (collectedAt : String) :
    Escalation :=
  { hostId := config.hostId, nodeId := config.nodeId, collectedAt := collectedAt ++ "Z", mechanism
    targetUser := "root", actorUser := actor, rawRef := rawRef config lineOffset
    title := "Повышение привилегий через " ++ mechanism ++ " до root"
    description := "Открыта привилегированная сессия (" ++ mechanism ++ ") для root" ++
      (if actor ≠ "" then " пользователем " ++ actor else "") ++ "."
    sourceType := config.sourceType, rawLine := String.ofList line }

/-- mirrors mdrj/linux_ingest.py:191-273 -/
def parseOther (bursts : Bursts) (line : List Char) (lineOffset : Nat) (ts : Flt) :
    Except PyError (Bursts × Option Payload) :=
  match host.fromTimestamp ts with
  | none => .error (.valueError "year is out of range")
  | some collectedAt =>
    match (sshFailed host).search line with
    | some groups =>
      let ip := groups.named "source_ip"
      match bursts.failed ip ts with
      | (bursts, some count) =>
        .ok (bursts, some (.failedLoginBurst (burstPayload config line lineOffset ip count collectedAt)))
      | (bursts, none) => .ok (bursts, none)
    | none =>
      match openedSession host line with
      | some (mechanism, target, actor) =>
        if target = "root" then
          .ok (bursts, some (.privilegeEscalation (escalationPayload config line lineOffset mechanism actor collectedAt)))
        else .ok (bursts, none)
      | none => .ok (bursts, none)

/-- mirrors mdrj/linux_ingest.py:135-189 -/
def parseLine (bursts : Bursts) (line : List Char) (lineOffset : Nat) (ts : Flt) (reading : Reading) :
    Except PyError (Bursts × Option Payload) :=
  match acceptedLogin host line with
  | none => parseOther host config bursts line lineOffset ts
  | some found =>
    match privilegeScope host config (found.1.named "user") with
    | none => .ok (bursts, none)
    | some scope => do
      let occurredAt ← parseTimestamp host reading found
      let sshPort ← intOfDigits host (found.1.named "port")
      match host.utcFromTimestamp ts with
      | none => .error (.valueError "year is out of range")
      | some collectedAt =>
        .ok (bursts, some (.adminSshLoginSuccess
          (loginPayload config line lineOffset found.1 scope occurredAt sshPort collectedAt)))

/-! ## Polls -/

/-- The state of an ingestor: `_state` and the bursts. -/
structure Ingestor where
  inode : Nat := 0
  offset : Nat := 0
  bursts : Bursts := {}

/-- The lines of a poll, up to the first that raises; what the lines before it
did to the bursts stays. -/
def readLines (now : Flt) (readings : Nat → Reading) :
    Bursts → List (Nat × List UInt8) → Bursts × Except PyError (List Payload)
  | bursts, [] => (bursts, .ok [])
  | bursts, (lineOffset, line) :: rest =>
    match parseLine host config bursts (rstripNewline (decode line)) lineOffset now (readings lineOffset) with
    | .error e => (bursts, .error e)
    | .ok (bursts, payload) =>
      match readLines now readings bursts rest with
      | (bursts, .ok payloads) => (bursts, .ok (payload.toList ++ payloads))
      | (bursts, .error e) => (bursts, .error e)

/-- The lines of a file from an offset on. -/
def linesFrom (offset : Nat) (content : List UInt8) : List (Nat × List UInt8) :=
  segments newline (fun _ => false) offset (content.drop offset)

/-- A poll of a file. The state is set only if no line raises.
mirrors mdrj/linux_ingest.py:106-133 -/
def Ingestor.poll (s : Ingestor) (inode : Nat) (content : List UInt8) (now : Flt) (readings : Nat → Reading) :
    Ingestor × Except PyError (List Payload) :=
  let offset := if s.inode ≠ inode ∨ content.length < s.offset then 0 else s.offset
  match readLines host config now readings s.bursts (linesFrom offset content) with
  | (bursts, .ok payloads) => ({ inode, offset := content.length, bursts }, .ok payloads)
  | (bursts, .error e) => ({ s with bursts }, .error e)

end Parsing
end Mdrj.L4.Ingest
