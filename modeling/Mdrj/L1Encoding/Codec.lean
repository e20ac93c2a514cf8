import Mdrj.L1Encoding.Event

/-!
# The codecs of an event

`to_dict` and `from_dict` take an envelope to JSON and back, for the wire;
`to_record` and `from_record` take an event to the columns of its row and
back, for the database. Both readers fill in what is missing, and by Python's
`or` a falsy value counts as missing. No value that an event can have is lost
that way (`codecs_lossless`).

A reader is `none` where the source raises, and where it would keep a value
that is not of the field's type, such as a number for an id. `loads` is
`json.loads`; a dict has no order in Python, so what it reads is compared up
to the order of keys (`Json.normal`, `Event.normal`).
-/
namespace Mdrj.L1
open Mdrj.Core

/-- An envelope as JSON carries it: a hop is any object.
mirrors mdrj/models.py:230-233 -/
structure JsonEnvelope where
  event : Event
  pathMeta : List (Dict String Json)

/-! ## Writing JSON -/

def Json.ofOption {α : Type} (f : α → Json) : Option α → Json
  | none => .null
  | some a => f a

def Json.ofClock (clock : Dict String Int) : Json := .obj (clock.map fun p => (p.1, .int p.2))

def Json.ofStrings (items : List String) : Json := .arr (items.map .str)

/-- mirrors mdrj/models.py:199-227 -/
def Event.toDict (e : Event) : Json :=
  .obj [
    ("id", .str e.id),
    ("cls", .str e.cls.value),
    ("source", .str e.source),
    ("creator", .str e.creator),
    ("ts_local", .float e.tsLocal),
    ("vclock", .ofClock e.vclock),
    ("parents", .ofStrings e.parents),
    ("self_parent_id", .ofOption .str e.selfParentId),
    ("other_parent_id", .ofOption .str e.otherParentId),
    ("payload", e.payload),
    ("sig", .ofOption .str e.sig),
    ("consensus_ts", .ofOption .float e.consensusTs),
    ("lamport_ts", .ofOption .int e.lamportTs),
    ("round", .ofOption .int e.round),
    ("round_received", .ofOption .int e.roundReceived),
    ("is_witness", .bool e.isWitness),
    ("is_famous_witness", .bool e.isFamousWitness),
    ("fame_decided", .bool e.fameDecided),
    ("fame_decision_round", .ofOption .int e.fameDecisionRound),
    ("fame_decision_kind", .str e.fameDecisionKind),
    ("fame_needs_coin", .bool e.fameNeedsCoin),
    ("fame_coin_used", .bool e.fameCoinUsed),
    ("fame_coin_round", .ofOption .int e.fameCoinRound),
    ("fame_vote_round", .ofOption .int e.fameVoteRound),
    ("fame_vote_yes", .int e.fameVoteYes),
    ("fame_vote_no", .int e.fameVoteNo)]

/-- mirrors mdrj/models.py:241-245 -/
def JsonEnvelope.toDict (envelope : JsonEnvelope) : Json :=
  .obj [("event", envelope.event.toDict), ("path_meta", .arr (envelope.pathMeta.map .obj))]

/-- A hop with the entries the node reads. -/
def Hop.toObject (hop : Hop) : Dict String Json :=
  (hop.node.map fun node => ("node", Json.str node)).toList ++
    (hop.ts.map fun ts => ("ts", Json.float ts)).toList

def Envelope.toJson (envelope : Envelope) : JsonEnvelope where
  event := envelope.event
  pathMeta := envelope.pathMeta.map Hop.toObject

/-- The size of an envelope on the wire; the text is ASCII, so it has a byte
for each character.
mirrors mdrj/utils.py:95-97 -/
def Envelope.bytesCost (envelope : Envelope) : Nat := (canonicalChars envelope.toJson.toDict).length

/-! ## Reading JSON -/

/-- `data.get(key)`; `None` and a missing key read alike here. -/
def Json.entry (data : Json) (key : String) : Json :=
  match data with
  | .obj fields => (Dict.get fields key).getD .null
  | _ => .null

def EventClass.fromStr (value : String) : Option EventClass :=
  if value = "A" then some .A else if value = "B" then some .B else if value = "C" then some .C else none

namespace Json

def asString : Json → Option String
  | .str s => some s
  | _ => none

def asInt : Json → Option Int
  | .int n => some n
  | _ => none

/-- `float(x)`; a number written as a text is left out. -/
def asFloat : Json → Option Flt
  | .float x => some x
  | .int n => Flt.ofInt n
  | .bool b => some (.fin (if b then 1 else 0))
  | _ => none

def asOption {α : Type} (read : Json → Option α) : Json → Option (Option α)
  | .null => some none
  | j => (read j).map some

/-- `dict(x)` of an object. -/
def asObject : Json → Option (Dict String Json)
  | .obj fields => some fields
  | _ => none

def asClock : Json → Option (Dict String Int)
  | .obj fields => fields.mapM fun p => p.2.asInt.map fun n => (p.1, n)
  | _ => none

/-- `list(x)` of an array of texts. -/
def asStrings : Json → Option (List String)
  | .arr items => items.mapM asString
  | _ => none

/-- `int(x or 0)`. -/
def asCount (j : Json) : Option Int :=
  if j.truthy then
    match j with
    | .int n => some n
    | .float x => x.trunc
    | .bool _ => some 1
    | _ => none
  else some 0

/-- `x or y`, of a text. -/
def textOr (j : Json) (fallback : String) : Option String :=
  if j.truthy then j.asString else some fallback

/-- `x or parents[i]`, `None` when there is no such parent. -/
def parentOr (j : Json) (parent : Option String) : Option (Option String) :=
  if j.truthy then j.asString.map some else some parent

end Json

/-- mirrors mdrj/models.py:248-277 -/
def Event.fromDict (data : Json) : Option Event := do
  let id ← (data.entry "id").asString
  let cls ← (data.entry "cls").asString >>= EventClass.fromStr
  let source ← (data.entry "source").asString
  let creator ← (data.entry "creator").textOr source
  let tsLocal ← (data.entry "ts_local").asFloat
  let vclock ← (data.entry "vclock").asClock
  let parents ← (data.entry "parents").asStrings
  let selfParentId ← (data.entry "self_parent_id").parentOr parents[0]?
  let otherParentId ← (data.entry "other_parent_id").parentOr parents[1]?
  let payload ← (data.entry "payload").asObject
  let sig ← (data.entry "sig").asOption Json.asString
  let consensusTs ← (data.entry "consensus_ts").asOption Json.asFloat
  let lamportTs ← (data.entry "lamport_ts").asOption Json.asInt
  let round ← (data.entry "round").asOption Json.asInt
  let roundReceived ← (data.entry "round_received").asOption Json.asInt
  let fameDecisionRound ← (data.entry "fame_decision_round").asOption Json.asInt
  let fameDecisionKind ← (data.entry "fame_decision_kind").textOr FameDecisionKind.pending.value
  let fameCoinRound ← (data.entry "fame_coin_round").asOption Json.asInt
  let fameVoteRound ← (data.entry "fame_vote_round").asOption Json.asInt
  let fameVoteYes ← (data.entry "fame_vote_yes").asCount
  let fameVoteNo ← (data.entry "fame_vote_no").asCount
  return {
    id, cls, source, creator, tsLocal, vclock, parents, selfParentId, otherParentId,
    payload := .obj payload, sig, consensusTs, lamportTs, round, roundReceived,
    isWitness := (data.entry "is_witness").truthy
    isFamousWitness := (data.entry "is_famous_witness").truthy
    fameDecided := (data.entry "fame_decided").truthy
    fameDecisionRound, fameDecisionKind
    fameNeedsCoin := (data.entry "fame_needs_coin").truthy
    fameCoinUsed := (data.entry "fame_coin_used").truthy
    fameCoinRound, fameVoteRound, fameVoteYes, fameVoteNo }

/-- `[dict(hop) for hop in data.get("path_meta", [])]`. -/
def Json.asHops : Option Json → Option (List (Dict String Json))
  | none => some []
  | some (.arr hops) => hops.mapM Json.asObject
  | some (.str "") => some []
  | some (.obj []) => some []
  | some _ => none

/-- mirrors mdrj/models.py:247-278 -/
def JsonEnvelope.fromDict : Json → Option JsonEnvelope
  | .obj fields => do
    let event ← Dict.get fields "event" >>= Event.fromDict
    let pathMeta ← Json.asHops (Dict.get fields "path_meta")
    return { event, pathMeta }
  | _ => none

/-! ## From JSON back -/

/-- The parent ids are such as `Event.create` sets: an id it was given, or the
parent at that place.
mirrors mdrj/models.py:92-96 -/
def Event.LinksSet (e : Event) : Prop :=
  ∃ selfId otherId : Option String, selfId ≠ some "" ∧ otherId ≠ some "" ∧
    e.selfParentId = selfId.or e.parents[0]? ∧ e.otherParentId = otherId.or e.parents[1]?

theorem EventClass.fromStr_value (cls : EventClass) : EventClass.fromStr cls.value = some cls := by
  cases cls <;> decide

namespace Json

theorem mapM_map {α β : Type} {f : α → β} {read : β → Option α} (h : ∀ a, read (f a) = some a)
    (items : List α) : (items.map f).mapM read = some items := by
  induction items with
  | nil => rfl
  | cons a items ih => simp [h, ih]

theorem asClock_ofClock (clock : Dict String Int) : (ofClock clock).asClock = some clock :=
  mapM_map (f := fun p : String × Int => (p.1, Json.int p.2)) (fun _ => rfl) clock

theorem asStrings_ofStrings (items : List String) : (ofStrings items).asStrings = some items :=
  mapM_map (f := Json.str) (fun _ => rfl) items

theorem asOption_ofOption {α : Type} {f : α → Json} {read : Json → Option α} (h : ∀ a, read (f a) = some a)
    (hnull : ∀ a, f a ≠ .null) (x : Option α) : (ofOption f x).asOption read = some x := by
  cases x with
  | none => rfl
  | some a =>
    have heq : ∀ j : Json, j ≠ .null → j.asOption read = (read j).map some := by
      intro j hj
      cases j <;> first | rfl | exact absurd rfl hj
    rw [ofOption, heq _ (hnull a), h, Option.map_some]

theorem asOption_str (x : Option String) : (ofOption .str x).asOption asString = some x :=
  asOption_ofOption (f := .str) (fun _ => rfl) (fun _ => by simp) x

theorem asOption_float (x : Option Flt) : (ofOption .float x).asOption asFloat = some x :=
  asOption_ofOption (f := .float) (fun _ => rfl) (fun _ => by simp) x

theorem asOption_int (x : Option Int) : (ofOption .int x).asOption asInt = some x :=
  asOption_ofOption (f := .int) (fun _ => rfl) (fun _ => by simp) x

theorem asCount_int (n : Int) : (Json.int n).asCount = some n := by
  by_cases hn : n = 0
  · subst hn; rfl
  · simp [asCount, truthy, hn]

theorem textOr_str {s : String} (hs : s ≠ "") (fallback : String) : (Json.str s).textOr fallback = some s := by
  simp [textOr, truthy, hs, asString]

/-- An id that was given comes back as it is; one taken from the parents is
taken from them again. -/
theorem parentOr_ofOption {given parent : Option String} (hg : given ≠ some "") :
    (ofOption .str (given.or parent)).parentOr parent = some (given.or parent) := by
  have htext : ∀ s : String, s ≠ "" → (Json.str s).parentOr parent = some (some s) := by
    intro s hs
    simp [parentOr, truthy, hs, asString]
  cases given with
  | some s => exact htext s fun h => hg (congrArg some h)
  | none =>
    cases parent with
    | none => rfl
    | some s =>
      by_cases hs : s = ""
      · subst hs; rfl
      · exact htext s hs

end Json

theorem Event.fromDict_toDict {e : Event} (hcreator : e.creator ≠ "") (hlinks : e.LinksSet)
    (hpayload : ∃ fields, e.payload = .obj fields) (hkind : e.fameDecisionKind ≠ "") :
    Event.fromDict e.toDict = some e := by
  obtain ⟨fields, hfields⟩ := hpayload
  obtain ⟨selfId, otherId, hself, hother, hselfEq, hotherEq⟩ := hlinks
  obtain ⟨id, cls, source, creator, tsLocal, vclock, parents, selfParentId, otherParentId, payload⟩ := e
  dsimp only at hfields hselfEq hotherEq hcreator hkind
  subst hfields hselfEq hotherEq
  simp [Event.fromDict, Event.toDict, Json.entry, Dict.get, Json.asString, EventClass.fromStr_value,
    Json.textOr_str hcreator, Json.textOr_str hkind, Json.asFloat, Json.asClock_ofClock,
    Json.asStrings_ofStrings, Json.parentOr_ofOption hself, Json.parentOr_ofOption hother,
    Json.asObject, Json.asCount_int, Json.truthy, Json.asOption_str, Json.asOption_float, Json.asOption_int]

theorem JsonEnvelope.fromDict_toDict {envelope : JsonEnvelope} (hcreator : envelope.event.creator ≠ "")
    (hlinks : envelope.event.LinksSet) (hpayload : ∃ fields, envelope.event.payload = .obj fields)
    (hkind : envelope.event.fameDecisionKind ≠ "") :
    JsonEnvelope.fromDict envelope.toDict = some envelope := by
  have hevent := Event.fromDict_toDict hcreator hlinks hpayload hkind
  have hhops : (envelope.pathMeta.map Json.obj).mapM Json.asObject = some envelope.pathMeta :=
    Json.mapM_map (f := Json.obj) (fun _ => rfl) _
  simp [JsonEnvelope.fromDict, JsonEnvelope.toDict, Dict.get, hevent, Json.asHops, hhops]

/-! ## Columns -/

/-- A row of `events` as a query returns it; any column may be `NULL`.
mirrors mdrj/models.py:121-149 -/
structure EventRecord where
  id : Option String
  cls : Option String
  source : Option String
  creator : Option String
  tsLocal : Option Flt
  vclock : Option String
  parents : Option String
  selfParentId : Option String
  otherParentId : Option String
  payload : Option String
  sig : Option String
  consensusTs : Option Flt
  lamportTs : Option Int
  round : Option Int
  roundReceived : Option Int
  isWitness : Option Int
  isFamousWitness : Option Int
  fameDecided : Option Int
  fameDecisionRound : Option Int
  fameDecisionKind : Option String
  fameNeedsCoin : Option Int
  fameCoinUsed : Option Int
  fameCoinRound : Option Int
  fameVoteRound : Option Int
  fameVoteYes : Option Int
  fameVoteNo : Option Int

/-- `int(bool(x))`. -/
def flag (b : Bool) : Option Int := some (if b then 1 else 0)

/-- mirrors mdrj/models.py:121-149 -/
def Event.toRecord (e : Event) : EventRecord where
  id := some e.id
  cls := some e.cls.value
  source := some e.source
  creator := some e.creator
  tsLocal := some e.tsLocal
  vclock := some (canonicalJson (.ofClock e.vclock))
  parents := some (canonicalJson (.ofStrings e.parents))
  selfParentId := e.selfParentId
  otherParentId := e.otherParentId
  payload := some (canonicalJson e.payload)
  sig := e.sig
  consensusTs := e.consensusTs
  lamportTs := e.lamportTs
  round := e.round
  roundReceived := e.roundReceived
  isWitness := flag e.isWitness
  isFamousWitness := flag e.isFamousWitness
  fameDecided := flag e.fameDecided
  fameDecisionRound := e.fameDecisionRound
  fameDecisionKind := some e.fameDecisionKind
  fameNeedsCoin := flag e.fameNeedsCoin
  fameCoinUsed := flag e.fameCoinUsed
  fameCoinRound := e.fameCoinRound
  fameVoteRound := e.fameVoteRound
  fameVoteYes := some e.fameVoteYes
  fameVoteNo := some e.fameVoteNo

/-- `column or fallback`, of a text. -/
def columnOr (column : Option String) (fallback : String) : String :=
  match column with
  | none | some "" => fallback
  | some s => s

/-- `bool(column)`. -/
def columnFlag (column : Option Int) : Bool := decide (column.getD 0 ≠ 0)

/-- mirrors mdrj/models.py:157-161 -/
def loadJsonField (loads : String → Option Json) (column : Option String) (default : Json) : Option Json :=
  match column with
  | none | some "" => some default
  | some raw => loads raw

/-- mirrors mdrj/models.py:151-197 -/
def Event.fromRecord (loads : String → Option Json) (r : EventRecord) : Option Event := do
  let parents ← loadJsonField loads r.parents (.arr []) >>= Json.asStrings
  let cls ← EventClass.fromStr (columnOr r.cls EventClass.C.value)
  let source := columnOr r.source "unknown"
  let vclock ← loadJsonField loads r.vclock (.obj []) >>= Json.asClock
  let payload ← loadJsonField loads r.payload (.obj [])
  return {
    id := columnOr r.id ""
    cls, source
    creator := columnOr r.creator source
    tsLocal := r.tsLocal.getD (.fin 0)
    vclock, parents
    selfParentId := r.selfParentId.or parents[0]?
    otherParentId := r.otherParentId.or parents[1]?
    payload
    sig := r.sig
    consensusTs := r.consensusTs
    lamportTs := r.lamportTs
    round := r.round
    roundReceived := r.roundReceived
    isWitness := columnFlag r.isWitness
    isFamousWitness := columnFlag r.isFamousWitness
    fameDecided := columnFlag r.fameDecided
    fameDecisionRound := r.fameDecisionRound
    fameDecisionKind := columnOr r.fameDecisionKind FameDecisionKind.pending.value
    fameNeedsCoin := columnFlag r.fameNeedsCoin
    fameCoinUsed := columnFlag r.fameCoinUsed
    fameCoinRound := r.fameCoinRound
    fameVoteRound := r.fameVoteRound
    fameVoteYes := r.fameVoteYes.getD 0
    fameVoteNo := r.fameVoteNo.getD 0 }

/-! ## From the columns back -/

/-- The event with its dicts in the order of their keys: events with one
normal form are equal in Python. -/
def Event.normal (e : Event) : Event :=
  { e with
    vclock := e.vclock.insertionSort fun a b => a.1 ≤ b.1
    payload := e.payload.normal }

/-- What was encoded is decoded, up to the order of keys. -/
def Decodes (loads : String → Option Json) (j : Json) : Prop :=
  ∃ j', loads (canonicalJson j) = some j' ∧ j'.normal = j.normal

namespace Json

@[simp] theorem normal_int (n : Int) : (Json.int n).normal = .int n := by simp [normal]

@[simp] theorem normal_str (s : String) : (Json.str s).normal = .str s := by simp [normal]

theorem eq_of_normal_int {j : Json} {n : Int} (h : j.normal = .int n) : j = .int n := by
  cases j <;> simp_all [normal]

theorem eq_of_normal_str {j : Json} {s : String} (h : j.normal = .str s) : j = .str s := by
  cases j <;> simp_all [normal]

theorem normalItems_eq (items : List Json) : normalItems items = items.map normal := by
  induction items with
  | nil => rw [normalItems]; rfl
  | cons j items ih => rw [normalItems, ih, List.map_cons]

theorem normalFields_eq (fields : List (String × Json)) :
    normalFields fields = fields.map fun p => (p.1, p.2.normal) := by
  induction fields with
  | nil => rw [normalFields]; rfl
  | cons p fields ih => rw [normalFields, ih, List.map_cons]

theorem normalItems_strings {items : List Json} {texts : List String} :
    items.map normal = (texts.map .str).map normal → items = texts.map .str := by
  induction items generalizing texts with
  | nil => intro h; cases texts with
    | nil => rfl
    | cons s texts => cases h
  | cons j items ih =>
    intro h
    cases texts with
    | nil => cases h
    | cons s texts =>
      obtain ⟨hj, hrest⟩ := List.cons.inj h
      rw [normal_str] at hj
      rw [eq_of_normal_str hj, ih hrest, List.map_cons]

/-- A list of texts has no keys to be ordered. -/
theorem eq_ofStrings {j : Json} {texts : List String} (h : j.normal = (ofStrings texts).normal) :
    j = ofStrings texts := by
  unfold ofStrings at h ⊢
  cases j with
  | arr items =>
    rw [normal, normal, normalItems_eq, normalItems_eq] at h
    rw [normalItems_strings (Json.arr.inj h)]
  | _ => simp [normal] at h

/-- Fields whose values are all integers are those of a clock. -/
theorem exists_clock {fields : List (String × Json)} :
    (∀ p ∈ fields, ∃ n, p.2 = .int n) → ∃ clock : Dict String Int, .obj fields = ofClock clock := by
  unfold ofClock
  induction fields with
  | nil => intro _; exact ⟨[], rfl⟩
  | cons p fields ih =>
    intro h
    obtain ⟨n, hn⟩ := h p List.mem_cons_self
    obtain ⟨clock, hclock⟩ := ih fun q hq => h q (List.mem_cons_of_mem _ hq)
    refine ⟨(p.1, n) :: clock, ?_⟩
    rw [List.map_cons, ← Json.obj.inj hclock, ← hn]

theorem normal_ofClock (clock : Dict String Int) :
    (ofClock clock).normal = ofClock (clock.insertionSort fun a b => a.1 ≤ b.1) := by
  unfold ofClock
  rw [normal, normalFields_eq, List.map_map]
  refine congrArg Json.obj ?_
  rw [List.map_insertionSort _ (fun a b : String × Json => a.1 ≤ b.1) _ _ fun _ _ _ _ => Iff.rfl]
  simp [Function.comp_def]

theorem ofClock_inj {clock clock' : Dict String Int} (h : ofClock clock = ofClock clock') : clock = clock' := by
  refine List.map_injective_iff.2 (fun p q hpq => ?_) (Json.obj.inj h)
  obtain ⟨hkey, hvalue⟩ := Prod.mk.inj hpq
  exact Prod.ext hkey (Json.int.inj hvalue)

/-- What reads like a clock is a clock with the same entries. -/
theorem eq_ofClock {j : Json} {clock : Dict String Int} (h : j.normal = (ofClock clock).normal) :
    ∃ clock', j = ofClock clock' ∧
      clock'.insertionSort (fun a b => a.1 ≤ b.1) = clock.insertionSort fun a b => a.1 ≤ b.1 := by
  cases j with
  | obj fields =>
    have hint : ∀ p ∈ fields, ∃ n, p.2 = .int n := by
      intro p hp
      have hsort := h
      rw [normal_ofClock, normal, normalFields_eq] at hsort
      have hmem : (p.1, p.2.normal) ∈ fields.map fun p => (p.1, p.2.normal) := List.mem_map_of_mem hp
      rw [← List.mem_insertionSort (r := fun a b : String × Json => a.1 ≤ b.1), Json.obj.inj hsort] at hmem
      obtain ⟨q, -, hq⟩ := List.mem_map.1 hmem
      exact ⟨q.2, eq_of_normal_int (Prod.mk.inj hq).2.symm⟩
    obtain ⟨clock', hclock⟩ := exists_clock hint
    refine ⟨clock', hclock, ?_⟩
    rw [hclock, normal_ofClock, normal_ofClock] at h
    exact ofClock_inj h
  | _ => simp [ofClock, normal] at h

theorem canonicalJson_ne_empty {j : Json} (h : (∃ items, j = .arr items) ∨ ∃ fields, j = .obj fields) :
    canonicalJson j ≠ "" := by
  intro hempty
  have hnil : canonicalChars j = [] := by
    have := congrArg String.toList hempty
    simpa [canonicalJson] using this
  rcases h with ⟨items, rfl⟩ | ⟨fields, rfl⟩
  · rw [canonicalChars] at hnil; cases hnil
  · rw [canonicalChars] at hnil; cases hnil

end Json

theorem loadJsonField_some {loads : String → Option Json} {raw : String} (h : raw ≠ "") (default : Json) :
    loadJsonField loads (some raw) default = loads raw := by
  unfold loadJsonField
  split
  · rename_i heq; cases heq
  · rename_i heq; exact absurd (Option.some.inj heq) h
  · rename_i heq; rw [Option.some.inj heq]

theorem columnOr_some {s : String} (h : s ≠ "") (fallback : String) : columnOr (some s) fallback = s := by
  unfold columnOr
  split
  · rename_i heq; cases heq
  · rename_i heq; exact absurd (Option.some.inj heq) h
  · rename_i heq; exact (Option.some.inj heq).symm

theorem columnFlag_flag (b : Bool) : columnFlag (flag b) = b := by cases b <;> rfl

theorem Event.fromRecord_toRecord {e : Event} (hid : e.id ≠ "") (hsource : e.source ≠ "")
    (hcreator : e.creator ≠ "") (hlinks : e.LinksSet) (hpayload : ∃ fields, e.payload = .obj fields)
    (hkind : e.fameDecisionKind ≠ "") {loads : String → Option Json}
    (hclock : Decodes loads (.ofClock e.vclock)) (hparents : Decodes loads (.ofStrings e.parents))
    (hdecodes : Decodes loads e.payload) :
    ∃ e', Event.fromRecord loads e.toRecord = some e' ∧ e'.normal = e.normal := by
  obtain ⟨jc, hjc, hnc⟩ := hclock
  obtain ⟨jp, hjp, hnp⟩ := hparents
  obtain ⟨payload, hpl, hnpl⟩ := hdecodes
  obtain ⟨clock, rfl, hsorted⟩ := Json.eq_ofClock hnc
  obtain rfl := Json.eq_ofStrings hnp
  obtain ⟨selfId, otherId, -, -, hself, hother⟩ := hlinks
  have hor : ∀ given parent : Option String, (given.or parent).or parent = given.or parent := by
    intro given parent
    cases given <;> cases parent <;> rfl
  have hparents : loadJsonField loads e.toRecord.parents (.arr []) = some (.ofStrings e.parents) := by
    rw [← hjp]
    exact loadJsonField_some (Json.canonicalJson_ne_empty (.inl ⟨_, rfl⟩)) _
  have hclock : loadJsonField loads e.toRecord.vclock (.obj []) = some (.ofClock clock) := by
    rw [← hjc]
    exact loadJsonField_some (Json.canonicalJson_ne_empty (.inr ⟨_, rfl⟩)) _
  have hload : loadJsonField loads e.toRecord.payload (.obj []) = some payload := by
    rw [← hpl]
    exact loadJsonField_some (Json.canonicalJson_ne_empty (.inr hpayload)) _
  have hcls : columnOr (some e.cls.value) EventClass.C.value = e.cls.value := by
    cases e.cls <;> rfl
  refine ⟨{ e with vclock := clock, payload := payload }, ?_, ?_⟩
  · unfold Event.fromRecord
    rw [hparents, hclock, hload]
    simp [Event.toRecord, Json.asStrings_ofStrings, Json.asClock_ofClock, hcls, EventClass.fromStr_value,
      columnOr_some hid, columnOr_some hsource, columnOr_some hcreator, columnOr_some hkind,
      columnFlag_flag, hself, hother, hor]
  · unfold Event.normal
    rw [hsorted, hnpl]

/-- **The codecs lose nothing.** An envelope whose event has an id, a source,
a creator and a kind of fame decision, parent ids as `create` sets them and an
object as its payload comes back from JSON as it was, whatever else it holds
and whatever its hops are; and its event comes back from its columns. -/
theorem codecs_lossless (envelope : JsonEnvelope) (hid : envelope.event.id ≠ "")
    (hsource : envelope.event.source ≠ "") (hcreator : envelope.event.creator ≠ "")
    (hlinks : envelope.event.LinksSet) (hpayload : ∃ fields, envelope.event.payload = .obj fields)
    (hkind : envelope.event.fameDecisionKind ≠ "") (loads : String → Option Json)
    (hclock : Decodes loads (.ofClock envelope.event.vclock))
    (hparents : Decodes loads (.ofStrings envelope.event.parents))
    (hdecodes : Decodes loads envelope.event.payload) :
    JsonEnvelope.fromDict envelope.toDict = some envelope ∧
    ∃ event, Event.fromRecord loads envelope.event.toRecord = some event ∧
      event.normal = envelope.event.normal :=
  ⟨JsonEnvelope.fromDict_toDict hcreator hlinks hpayload hkind,
    Event.fromRecord_toRecord hid hsource hcreator hlinks hpayload hkind hclock hparents hdecodes⟩

/-- An event all of whose values are falsy, with a hop that is empty. -/
def falsy : JsonEnvelope where
  event := { Event.linked "x" "a" [] with
    vclock := [("b", 0), ("a", 0)], sig := some "", consensusTs := some (.fin 0), lamportTs := some 0,
    round := some 0, roundReceived := some 0, fameDecisionRound := some 0, fameVoteRound := some 0 }
  pathMeta := [[]]

/-- `json.loads` on the texts of `falsy`. -/
def loadsFalsy (text : String) : Option Json :=
  if text = "[]" then some (.arr [])
  else if text = "\x7b\x7d" then some (.obj [])
  else if text = "\x7b\"a\":0,\"b\":0\x7d" then some (.obj [("a", .int 0), ("b", .int 0)])
  else none

theorem codecs_lossless_falsy : JsonEnvelope.fromDict falsy.toDict = some falsy ∧
    ∃ event, Event.fromRecord loadsFalsy falsy.event.toRecord = some event ∧
      event.normal = falsy.event.normal := by
  have hclock : canonicalJson (.ofClock falsy.event.vclock) = "\x7b\"a\":0,\"b\":0\x7d" := by decide +kernel
  have hparents : canonicalJson (.ofStrings falsy.event.parents) = "[]" := by decide +kernel
  have hpayload : canonicalJson falsy.event.payload = "\x7b\x7d" := by decide +kernel
  refine codecs_lossless falsy (by decide) (by decide) (by decide)
    ⟨none, none, by simp, by simp, rfl, rfl⟩ ⟨[], rfl⟩ (by decide) loadsFalsy ?_ ?_ ?_
  · refine ⟨.obj [("a", .int 0), ("b", .int 0)], by rw [hclock]; rfl, ?_⟩
    exact (Json.normal_ofClock [("a", 0), ("b", 0)]).trans (Json.normal_ofClock falsy.event.vclock).symm
  · exact ⟨.arr [], by rw [hparents]; rfl, rfl⟩
  · exact ⟨.obj [], by rw [hpayload]; rfl, rfl⟩

end Mdrj.L1
