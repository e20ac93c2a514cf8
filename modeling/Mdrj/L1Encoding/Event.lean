import Mdrj.L1Encoding.Json

/-!
# Events and envelopes

The data model of mdrj/models.py. An event carries what its author wrote
(class, source, clock, parents, payload) and the consensus columns the node
fills in later; an envelope adds the hops it travelled. A hop is read
through its two entries `node` and `ts`, a text and a number that may each
be missing.
-/
namespace Mdrj.L1
open Mdrj.Core

/-- mirrors mdrj/models.py:26-36 -/
inductive EventClass where
  | A | B | C
  deriving DecidableEq, Repr

def EventClass.value : EventClass → String
  | .A => "A"
  | .B => "B"
  | .C => "C"

/-- mirrors mdrj/models.py:14-16 -/
inductive FameDecisionKind where
  | pending | vote | coinSurrogate
  deriving DecidableEq, Repr

def FameDecisionKind.value : FameDecisionKind → String
  | .pending => "pending"
  | .vote => "vote"
  | .coinSurrogate => "coin_surrogate"

/-- mirrors mdrj/models.py:48-76 -/
structure Event where
  id : String
  cls : EventClass
  source : String
  creator : String
  tsLocal : Flt
  vclock : Dict String Int
  parents : List String
  selfParentId : Option String
  otherParentId : Option String
  payload : Json
  sig : Option String := none
  consensusTs : Option Flt := none
  lamportTs : Option Int := none
  round : Option Int := none
  roundReceived : Option Int := none
  isWitness : Bool := false
  isFamousWitness : Bool := false
  fameDecided : Bool := false
  fameDecisionRound : Option Int := none
  fameDecisionKind : String := FameDecisionKind.pending.value
  fameNeedsCoin : Bool := false
  fameCoinUsed : Bool := false
  fameCoinRound : Option Int := none
  fameVoteRound : Option Int := none
  fameVoteYes : Int := 0
  fameVoteNo : Int := 0

/-- `event.creator or event.source`, the author consensus goes by. -/
def Event.author (e : Event) : String := if e.creator = "" then e.source else e.creator

/-- An event given by its links. -/
def Event.linked (id creator : String) (parents : List String) : Event where
  id := id
  cls := .B
  source := creator
  creator := creator
  tsLocal := .fin 0
  vclock := []
  parents := parents
  selfParentId := parents[0]?
  otherParentId := parents[1]?
  payload := .obj []

/-- The event without the columns consensus fills in. -/
def Event.static (e : Event) : Event :=
  { e with
    consensusTs := none, round := none, roundReceived := none, isWitness := false,
    isFamousWitness := false, fameDecided := false, fameDecisionRound := none,
    fameDecisionKind := FameDecisionKind.pending.value, fameNeedsCoin := false,
    fameCoinUsed := false, fameCoinRound := none, fameVoteRound := none,
    fameVoteYes := 0, fameVoteNo := 0 }

/-- What is hashed into the id: everything the author wrote but the
signature.
mirrors mdrj/models.py:97-103 -/
def Event.header (cls : EventClass) (source : String) (tsLocal : Flt) (vclock : Dict String Int)
    (parents : List String) : Json :=
  .obj [("cls", .str cls.value), ("source", .str source), ("ts_local", .float tsLocal),
    ("vclock", .obj (vclock.map fun p => (p.1, .int p.2))), ("parents", .arr (parents.map .str))]

/-- mirrors mdrj/models.py:78-119 -/
def Event.create (cls : EventClass) (source : String) (tsLocal : Flt) (vclock : Dict String Int)
    (parents : List String) (payload : Json) (sig creator selfParentId otherParentId : Option String) :
    Event where
  id := computeEventId (Event.header cls source tsLocal vclock parents) payload
  cls := cls
  source := source
  creator := match creator with
    | some c => if c = "" then source else c
    | none => source
  tsLocal := tsLocal
  vclock := vclock
  parents := parents
  selfParentId := selfParentId.or parents[0]?
  otherParentId := otherParentId.or parents[1]?
  payload := payload
  sig := sig
  lamportTs := some (vclock.map Prod.snd).sum

structure Hop where
  node : Option String
  ts : Option Flt
  deriving DecidableEq, Repr

/-- mirrors mdrj/models.py:230-233 -/
structure Envelope where
  event : Event
  pathMeta : List Hop

end Mdrj.L1
