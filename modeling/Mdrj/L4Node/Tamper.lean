import Mdrj.L1Encoding.Reading
import Mdrj.L4Node.Retention

/-!
# What a root commits to

A checkpoint's root is a digest of the leaf digests, and a leaf digest one of
seven fields, the payload among them as a digest of its own. Where SHA-256
does not collide on these texts the root determines the set of the covered
fields (`merkleRoot_identifies`), so a change of a covered event is reported
exactly if it shows in a covered field (`edit_detected_iff`). The leaf has
the event's id, but the id is not computed again: the local time, the clock
and (beside a creator) the source of a row can be edited without a trace.
-/
namespace Mdrj.L4
open Mdrj.Core Mdrj.L1 Mdrj.L2 Mdrj.L3

/-! ## Reading a leaf -/

theorem value_inj {c c' : EventClass} (h : c.value = c'.value) : c = c' := by
  cases c <;> cases c' <;> first | rfl | (revert h; decide)

def timeJson (ts : Option Flt) : Json := ts.elim .null .float

/-- The text of a received round. -/
def roundText (round : Option Int) : List Char := canonicalChars (round.elim .null .int)

theorem sortKeys_leaf (a b c d e f g : List Char) :
    L1.sortKeys [("id", a), ("cls", b), ("creator", c), ("parents", d), ("consensus_ts", e),
      ("round_received", f), ("payload_hash", g)] =
      [("cls", b), ("consensus_ts", e), ("creator", c), ("id", a), ("parents", d),
        ("payload_hash", g), ("round_received", f)] := by
  have h1 : ¬ ("round_received" : String) ≤ "payload_hash" := by decide
  have h2 : ("consensus_ts" : String) ≤ "payload_hash" := by decide
  have h3 : ¬ ("parents" : String) ≤ "consensus_ts" := by decide
  have h4 : ("parents" : String) ≤ "payload_hash" := by decide
  have h5 : ¬ ("creator" : String) ≤ "consensus_ts" := by decide
  have h6 : ("creator" : String) ≤ "parents" := by decide
  have h7 : ("cls" : String) ≤ "consensus_ts" := by decide
  have h8 : ¬ ("id" : String) ≤ "cls" := by decide
  have h9 : ¬ ("id" : String) ≤ "consensus_ts" := by decide
  have h10 : ¬ ("id" : String) ≤ "creator" := by decide
  have h11 : ("id" : String) ≤ "parents" := by decide
  simp [L1.sortKeys, List.insertionSort, List.orderedInsert, h1, h2, h3, h4, h5, h6, h7, h8, h9, h10, h11]

/-- The text of a leaf, field by field. -/
theorem canonicalChars_leafBody (e : Event) : canonicalChars (leafBody e) =
    '\x7b' :: (quote "cls" ++ ':' :: (quote e.cls.value ++ ',' ::
      (quote "consensus_ts" ++ ':' :: (canonicalChars (timeJson e.consensusTs) ++ ',' ::
        (quote "creator" ++ ':' :: (quote e.creator ++ ',' ::
          (quote "id" ++ ':' :: (quote e.id ++ ',' ::
            (quote "parents" ++ ':' :: (stringsText e.parents ++ ',' ::
              (quote "payload_hash" ++ ':' :: (quote (Sha256.hexdigest (canonicalJson e.payload)) ++ ',' ::
                (quote "round_received" ++ ':' :: (roundText e.roundReceived ++ ['\x7d'])))))))))))))) := by
  unfold leafBody
  rw [canonicalChars]
  simp only [canonicalFields]
  rw [sortKeys_leaf]
  simp only [canonicalChars, canonicalItems_str, List.map_cons, List.map_nil, commaSeparated,
    List.intercalate_cons_cons, List.intercalate_singleton, List.append_assoc, List.cons_append,
    List.nil_append, timeJson, stringsText, roundText]

theorem timeJson_inNumber (ts : Option Flt) : ∀ c ∈ canonicalChars (timeJson ts), inNumber c = true := by
  cases ts with
  | none => simp [timeJson, canonicalChars, inNumber]
  | some x =>
    intro c hc
    simp only [timeJson, Option.elim_some, canonicalChars] at hc
    exact token_inNumber x c hc

theorem int_text_ne_null (n : Int) : (toString n).toList ≠ ['n', 'u', 'l', 'l'] := by
  have hnat : ∀ m : Nat, 'n' ∉ (toString m).toList := by
    intro m hm
    rw [Nat.toString_eq_repr, Nat.toList_repr] at hm
    exact absurd (Nat.isDigit_of_mem_toDigits (by decide) (by decide) hm) (by decide)
  intro h
  cases n with
  | ofNat m =>
    have htext : (toString m).toList = ['n', 'u', 'l', 'l'] := h
    exact hnat m (by rw [htext]; simp)
  | negSucc m =>
    have htext : (toString (Int.negSucc m)).toList = '-' :: (toString (m + 1)).toList :=
      String.toList_append
    rw [htext] at h
    exact absurd (List.cons.inj h).1 (by decide)

theorem roundText_inj {r r' : Option Int} (h : roundText r = roundText r') : r = r' := by
  unfold roundText at h
  cases r with
  | none =>
    cases r' with
    | none => rfl
    | some n' =>
      simp only [Option.elim_none, Option.elim_some, canonicalChars] at h
      exact absurd h.symm (int_text_ne_null n')
  | some n =>
    cases r' with
    | none =>
      simp only [Option.elim_none, Option.elim_some, canonicalChars] at h
      exact absurd h (int_text_ne_null n)
    | some n' =>
      simp only [Option.elim_some, canonicalChars] at h
      rw [Int.repr_injective (String.toList_inj.1 h)]

/-- What the text of a leaf tells. -/
structure SameLeaf (e f : Event) : Prop where
  id : e.id = f.id
  cls : e.cls = f.cls
  creator : e.creator = f.creator
  parents : e.parents = f.parents
  time : canonicalJson (timeJson e.consensusTs) = canonicalJson (timeJson f.consensusTs)
  round : e.roundReceived = f.roundReceived
  payload : Sha256.hexdigest (canonicalJson e.payload) = Sha256.hexdigest (canonicalJson f.payload)

theorem SameLeaf.symm {e f : Event} (h : SameLeaf e f) : SameLeaf f e :=
  ⟨h.id.symm, h.cls.symm, h.creator.symm, h.parents.symm, h.time.symm, h.round.symm, h.payload.symm⟩

theorem leafBody_inj {e f : Event} (h : canonicalJson (leafBody e) = canonicalJson (leafBody f)) :
    SameLeaf e f := by
  have hcomma : inNumber ',' = false := by decide
  have h := String.ofList_injective h
  rw [canonicalChars_leafBody, canonicalChars_leafBody] at h
  obtain ⟨hcls, h⟩ := quote_readable _ _ _ _ (field_inj (List.cons.inj h).2)
  obtain ⟨htime, h⟩ := eq_of_append_stop (timeJson_inNumber e.consensusTs)
    (timeJson_inNumber f.consensusTs) hcomma hcomma (field_inj (List.cons.inj h).2)
  obtain ⟨hcreator, h⟩ := quote_readable _ _ _ _ (field_inj (List.cons.inj h).2)
  obtain ⟨hid, h⟩ := quote_readable _ _ _ _ (field_inj (List.cons.inj h).2)
  obtain ⟨hparents, h⟩ := stringsText_readable _ _ _ _ (field_inj (List.cons.inj h).2)
  obtain ⟨hpayload, h⟩ := quote_readable _ _ _ _ (field_inj (List.cons.inj h).2)
  have hround := List.append_cancel_right (field_inj (List.cons.inj h).2)
  exact ⟨hid, value_inj hcls, hcreator, hparents, by unfold canonicalJson; rw [htime],
    roundText_inj hround, hpayload⟩

/-- Nothing else enters the text. -/
theorem SameLeaf.text_eq {e f : Event} (h : SameLeaf e f) :
    canonicalJson (leafBody e) = canonicalJson (leafBody f) := by
  have htime := String.ofList_injective h.time
  unfold canonicalJson
  rw [canonicalChars_leafBody, canonicalChars_leafBody, h.id, h.cls, h.creator, h.parents, htime,
    h.round, h.payload]

/-! ## The root -/

/-- Texts of one length can be told apart in their concatenation. -/
theorem join_inj : ∀ {ls ls' : List String}, (∀ s ∈ ls, s.length = 64) → (∀ s ∈ ls', s.length = 64) →
    String.join ls = String.join ls' → ls = ls' := by
  intro ls
  induction ls with
  | nil =>
    intro ls' _ h' heq
    have hlen := congrArg String.length heq
    rw [join_length ls' h', join_length [] (by simp)] at hlen
    exact (List.eq_nil_of_length_eq_zero (by simpa using hlen.symm)).symm
  | cons s ls ih =>
    intro ls' h h' heq
    cases ls' with
    | nil =>
      have hlen := congrArg String.length heq
      rw [join_length _ h, join_length [] (by simp)] at hlen
      simp at hlen
    | cons s' ls' =>
      rw [List.forall_mem_cons] at h h'
      rw [String.join_cons, String.join_cons] at heq
      have hchars := congrArg String.toList heq
      rw [String.toList_append, String.toList_append] at hchars
      have hlen : s.toList.length = s'.toList.length := by
        rw [String.length_toList, String.length_toList, h.1, h'.1]
      obtain ⟨hs, hrest⟩ := List.append_inj hchars hlen
      rw [String.toList_inj.1 hs, ih h.2 h'.2 (String.toList_inj.1 hrest)]

/-- SHA-256 does not collide on these texts. -/
def CollisionFree (texts : List String) : Prop := ∀ a ∈ texts, ∀ b ∈ texts, ¬ Collides a b

theorem CollisionFree.eq {texts : List String} (h : CollisionFree texts) {a b : String} (ha : a ∈ texts)
    (hb : b ∈ texts) (hab : Sha256.hexdigest a = Sha256.hexdigest b) : a = b := by
  by_contra hne
  exact h a ha b hb ⟨hne, hab⟩

/-- What is hashed for the root of a list of events. -/
def hashedTexts (events : List Event) : List String :=
  merkleText events :: events.flatMap fun e => [canonicalJson (leafBody e), canonicalJson e.payload]

theorem mem_hashedTexts {l : List Event} {t : String} : t ∈ hashedTexts l ↔
    t = merkleText l ∨ ∃ e ∈ l, t = canonicalJson (leafBody e) ∨ t = canonicalJson e.payload := by
  unfold hashedTexts
  simp only [List.mem_cons, List.mem_flatMap, List.not_mem_nil, or_false]

/-- The leaf digests can be read back from the hashed text. -/
theorem leaves_of_merkleText {l l' : List Event} (h : merkleText l = merkleText l') :
    (l.insertionSort leafLe).map eventLeafHash = (l'.insertionSort leafLe).map eventLeafHash := by
  have hlen : ∀ l : List Event, ∀ s ∈ (l.insertionSort leafLe).map eventLeafHash, s.length = 64 := by
    intro l s hs
    obtain ⟨e, -, rfl⟩ := List.mem_map.1 hs
    exact Sha256.hexdigest_length _
  exact join_inj (hlen l) (hlen l') h

section Identifies
variable {l l' : List Event} (hcf : CollisionFree (hashedTexts l ++ hashedTexts l'))
include hcf

theorem leaves_of_root (h : computeMerkleRoot l = computeMerkleRoot l') :
    (l.insertionSort leafLe).map eventLeafHash = (l'.insertionSort leafLe).map eventLeafHash :=
  leaves_of_merkleText (hcf.eq (List.mem_append_left _ (mem_hashedTexts.2 (.inl rfl)))
    (List.mem_append_right _ (mem_hashedTexts.2 (.inl rfl))) h)

/-- Events of the two lists with one leaf digest agree on what it covers. -/
theorem sameLeaf_of_hash {e f : Event} (he : e ∈ l) (hf : f ∈ l')
    (h : eventLeafHash e = eventLeafHash f) :
    SameLeaf e f ∧ canonicalJson e.payload = canonicalJson f.payload := by
  have hleaf := leafBody_inj (hcf.eq
    (List.mem_append_left _ (mem_hashedTexts.2 (.inr ⟨e, he, .inl rfl⟩)))
    (List.mem_append_right _ (mem_hashedTexts.2 (.inr ⟨f, hf, .inl rfl⟩))) h)
  exact ⟨hleaf, hcf.eq (List.mem_append_left _ (mem_hashedTexts.2 (.inr ⟨e, he, .inr rfl⟩)))
    (List.mem_append_right _ (mem_hashedTexts.2 (.inr ⟨f, hf, .inr rfl⟩))) hleaf.payload⟩

end Identifies

/-- What a leaf covers; the payload up to the order of keys. -/
def leafFields (e : Event) :
    String × EventClass × String × List String × Option Flt × Option Int × Json :=
  (e.id, e.cls, e.creator, e.parents, e.consensusTs, e.roundReceived, e.payload.normal)

/-- `canonical_json` is injective, up to the order of keys, on the payloads
and timestamps of the events. -/
def Faithful (events : List Event) : Prop :=
  ∀ j ∈ events.flatMap (fun e => [e.payload, timeJson e.consensusTs]),
    ∀ j' ∈ events.flatMap (fun e => [e.payload, timeJson e.consensusTs]),
      canonicalJson j = canonicalJson j' → j.normal = j'.normal

theorem timeJson_inj {ts ts' : Option Flt} (h : (timeJson ts).normal = (timeJson ts').normal) :
    ts = ts' := by
  cases ts <;> cases ts' <;> simp_all [timeJson, Json.normal]

theorem leafFields_of_hash {l l' : List Event} (hcf : CollisionFree (hashedTexts l ++ hashedTexts l'))
    (hj : Faithful (l ++ l')) {e f : Event} (he : e ∈ l) (hf : f ∈ l')
    (h : eventLeafHash e = eventLeafHash f) : leafFields e = leafFields f := by
  obtain ⟨hleaf, hpayload⟩ := sameLeaf_of_hash hcf he hf h
  have hmem : ∀ {e j}, e ∈ l ++ l' → j ∈ [e.payload, timeJson e.consensusTs] →
      j ∈ (l ++ l').flatMap fun e => [e.payload, timeJson e.consensusTs] :=
    fun he hj => List.mem_flatMap.2 ⟨_, he, hj⟩
  have he' := List.mem_append_left l' he
  have hf' := List.mem_append_right l hf
  have hnormal := hj _ (hmem he' (by simp)) _ (hmem hf' (by simp)) hpayload
  have htime := timeJson_inj (hj _ (hmem he' (by simp)) _ (hmem hf' (by simp)) hleaf.time)
  unfold leafFields
  rw [hleaf.id, hleaf.cls, hleaf.creator, hleaf.parents, htime, hleaf.round, hnormal]

/-- **The root identifies the covered set.** For events with distinct ids it
does not depend on their order, and without a collision lists with one root
have the same leaf fields. -/
theorem merkleRoot_identifies {l l' : List Event} (hn : (l.map Event.id).Nodup) :
    (l.Perm l' → computeMerkleRoot l = computeMerkleRoot l') ∧
    (CollisionFree (hashedTexts l ++ hashedTexts l') → Faithful (l ++ l') →
      computeMerkleRoot l = computeMerkleRoot l' → (l.map leafFields).Perm (l'.map leafFields)) := by
  refine ⟨fun hperm => ?_, fun hcf hj hroot => ?_⟩
  · unfold computeMerkleRoot
    rw [merkleText_perm hperm hn]
  · have hsame : (l.insertionSort leafLe).map leafFields = (l'.insertionSort leafLe).map leafFields := by
      refine map_eq_map (leaves_of_root hcf hroot) fun e he f hf => ?_
      exact leafFields_of_hash hcf hj ((List.mem_insertionSort _).1 he) ((List.mem_insertionSort _).1 hf)
    refine ((List.perm_insertionSort leafLe l).symm.map leafFields).trans ?_
    rw [hsame]
    exact (List.perm_insertionSort leafLe l').map leafFields

/-- The digest of a text as characters. -/
def digestChars (text : List Char) : List Char :=
  Sha256.hexChars (Sha256.digest (Sha256.encodeChars text))

theorem hexdigest_ofList (text : List Char) :
    Sha256.hexdigest (String.ofList text) = String.ofList (digestChars text) := by
  unfold Sha256.hexdigest Sha256.hex digestChars
  rw [Sha256.encode_ofList]

theorem merkleText_eq (events : List Event) : merkleText events =
    String.ofList ((events.insertionSort leafLe).flatMap fun e => digestChars (canonicalChars (leafBody e))) := by
  have hjoin : ∀ l : List Event, String.join (l.map eventLeafHash) =
      String.ofList (l.flatMap fun e => digestChars (canonicalChars (leafBody e))) := by
    intro l
    induction l with
    | nil => rfl
    | cons e l ih =>
      rw [List.map_cons, String.join_cons, ih, List.flatMap_cons, String.ofList_append,
        ← hexdigest_ofList]
      rfl
  exact hjoin _

/-- Distinct digests are enough. -/
theorem collisionFree_of_digests {texts : List String} (chars : List (List Char))
    (hsub : ∀ t ∈ texts, ∃ c ∈ chars, t = String.ofList c) (hn : (chars.map digestChars).Nodup) :
    CollisionFree texts := by
  rintro a ha b hb ⟨hne, heq⟩
  obtain ⟨c, hc, rfl⟩ := hsub a ha
  obtain ⟨d, hd, rfl⟩ := hsub b hb
  rw [hexdigest_ofList, hexdigest_ofList] at heq
  exact hne (by rw [List.inj_on_of_nodup_map hn hc hd (String.ofList_injective heq)])

/-- Two finalized events of one node. -/
def settledPair : List Event :=
  [{ Event.linked "a0" "a" [] with roundReceived := some 0 },
    { Event.linked "a1" "a" ["a0"] with roundReceived := some 1, consensusTs := some (.fin 5) }]

/-- The texts hashed for it, in either order. -/
def settledPairTexts : List (List Char) :=
  settledPair.flatMap (fun e => digestChars (canonicalChars (leafBody e))) ::
    canonicalChars (.obj []) :: settledPair.map fun e => canonicalChars (leafBody e)

theorem settledPair_texts {t : String} (ht : t ∈ hashedTexts settledPair) :
    ∃ c ∈ settledPairTexts, t = String.ofList c := by
  rcases mem_hashedTexts.1 ht with rfl | ⟨e, he, rfl | rfl⟩
  · have hsort : settledPair.insertionSort leafLe = settledPair := rfl
    exact ⟨_, List.mem_cons_self, by rw [merkleText_eq, hsort]⟩
  · exact ⟨_, List.mem_cons_of_mem _ (List.mem_cons_of_mem _ (List.mem_map_of_mem he)), rfl⟩
  · have hpayload : e.payload = .obj [] := by
      simp only [settledPair, List.mem_cons, List.not_mem_nil, or_false] at he
      rcases he with rfl | rfl <;> rfl
    exact ⟨_, List.mem_cons_of_mem _ List.mem_cons_self, by rw [hpayload]; rfl⟩

theorem merkleRoot_identifies_pair :
    computeMerkleRoot settledPair = computeMerkleRoot settledPair.reverse ∧
      (settledPair.map leafFields).Perm (settledPair.reverse.map leafFields) := by
  have hperm : settledPair.Perm settledPair.reverse := (List.reverse_perm _).symm
  have hn : (settledPair.map Event.id).Nodup := by decide
  have hcf : CollisionFree (hashedTexts settledPair ++ hashedTexts settledPair.reverse) := by
    refine collisionFree_of_digests settledPairTexts (fun t ht => ?_) (by decide +kernel)
    rcases List.mem_append.1 ht with ht | ht
    · exact settledPair_texts ht
    · rw [mem_hashedTexts, ← merkleText_perm hperm hn] at ht
      simp only [List.mem_reverse] at ht
      exact settledPair_texts (mem_hashedTexts.2 ht)
  have hfaithful : Faithful (settledPair ++ settledPair.reverse) := by
    have hvalues : ∀ j ∈ (settledPair ++ settledPair.reverse).flatMap
        (fun e => [e.payload, timeJson e.consensusTs]),
        j = .obj [] ∨ j = .null ∨ j = .float (.fin 5) := by
      simp [settledPair, Event.linked, timeJson]
    intro j hj j' hj' heq
    have hchars := String.ofList_injective heq
    rcases hvalues j hj with rfl | rfl | rfl <;> rcases hvalues j' hj' with rfl | rfl | rfl <;>
      first | rfl | exact absurd hchars (by decide +kernel)
  have h := @merkleRoot_identifies settledPair settledPair.reverse hn
  exact ⟨h.1 hperm, h.2 hcf hfaithful (h.1 hperm)⟩

/-! ## Editing a covered row -/

/-- New values for the columns that the author of an event wrote. -/
structure Edit where
  cls : EventClass
  source : String
  tsLocal : Flt
  vclock : Dict String Int
  parents : List String
  payload : Json

def Edit.apply (edit : Edit) (event : Event) : Event :=
  { event with
    cls := edit.cls, source := edit.source, tsLocal := edit.tsLocal, vclock := edit.vclock,
    parents := edit.parents, payload := edit.payload }

def Edit.row (edit : Edit) (x : String) (row : EventRow) : EventRow :=
  if row.event.id = x then { row with event := edit.apply row.event } else row

/-- `UPDATE events SET ... WHERE id = x` behind the node's back. -/
def Node.edited (n : Node) (x : String) (edit : Edit) : Node :=
  { n with storage := { n.storage with events := n.storage.events.map (edit.row x) } }

/-- `str(record["source"] or "unknown")`. -/
def shownSource (source : String) : String := if source = "" then "unknown" else source

/-- The edit changes what the leaf of the event is made of: class, parents,
canonical payload, or the source of an event without a creator. -/
def Edit.Shows (edit : Edit) (event : Event) : Prop :=
  edit.cls ≠ event.cls ∨ edit.parents ≠ event.parents ∨
    canonicalJson edit.payload ≠ canonicalJson event.payload ∨
    event.creator = "" ∧ shownSource edit.source ≠ shownSource event.source

section Edited
variable {n : Node} {r : Int} {x : String} {edit : Edit} {stored : EventRow}

theorem Edit.row_covered (edit : Edit) (x : String) (row : EventRow) :
    covered r (edit.row x row) = covered r row := by
  unfold Edit.row
  split <;> rfl

theorem Edit.load_id (edit : Edit) (x : String) (row : EventRow) :
    (DAGStorage.loadEvent (edit.row x row)).id = (DAGStorage.loadEvent row).id := by
  unfold Edit.row
  split <;> rfl

/-- An edit moves no leaf. -/
theorem Edit.leafLe_iff (edit : Edit) (x : String) (a b : EventRow) :
    leafLe (DAGStorage.loadEvent (edit.row x a)) (DAGStorage.loadEvent (edit.row x b)) ↔
      leafLe (DAGStorage.loadEvent a) (DAGStorage.loadEvent b) := by
  have hround : ∀ row : EventRow, (DAGStorage.loadEvent (edit.row x row)).roundReceived =
      (DAGStorage.loadEvent row).roundReceived := by
    intro row
    unfold Edit.row
    split <;> rfl
  unfold leafLe
  rw [hround, hround, edit.load_id, edit.load_id]

theorem edited_perm (n : Node) (r : Int) (x : String) (edit : Edit) :
    ((n.edited x edit).eventsUpToRoundReceived r).Perm
      ((n.storage.events.filter (covered r)).map fun row => DAGStorage.loadEvent (edit.row x row)) := by
  refine (eventsUpToRoundReceived_perm (n.edited x edit) r).trans ?_
  show List.Perm (((n.storage.events.map (edit.row x)).filter (covered r)).map DAGStorage.loadEvent) _
  have hcov : covered r ∘ edit.row x = covered r := funext fun row => edit.row_covered x row
  rw [List.filter_map, hcov, List.map_map]
  rfl

/-- The covered rows in the order of their leaves. -/
def leafRows (n : Node) (r : Int) : List EventRow :=
  (n.storage.events.filter (covered r)).insertionSort fun a b =>
    leafLe (DAGStorage.loadEvent a) (DAGStorage.loadEvent b)

theorem mem_leafRows {row : EventRow} :
    row ∈ leafRows n r ↔ row ∈ n.storage.events ∧ covered r row = true := by
  unfold leafRows
  rw [List.mem_insertionSort, List.mem_filter]

theorem nodup_covered (hn : n.storage.ids.Nodup) :
    ((n.storage.events.filter (covered r)).map fun row => row.event.id).Nodup :=
  hn.sublist (List.filter_sublist.map _)

theorem merkleText_leafRows (hn : n.storage.ids.Nodup) : merkleText (n.eventsUpToRoundReceived r) =
    String.join ((leafRows n r).map fun row => eventLeafHash (DAGStorage.loadEvent row)) := by
  have hperm := eventsUpToRoundReceived_perm n r
  have hids : ((n.eventsUpToRoundReceived r).map Event.id).Nodup := by
    rw [(hperm.map Event.id).nodup_iff, List.map_map]
    exact nodup_covered hn
  rw [merkleText_perm hperm hids]
  unfold merkleText leafRows
  rw [← List.map_insertionSort (fun a b => leafLe (DAGStorage.loadEvent a) (DAGStorage.loadEvent b))
    leafLe DAGStorage.loadEvent _ (fun _ _ _ _ => Iff.rfl), List.map_map]
  rfl

theorem merkleText_edited (hn : n.storage.ids.Nodup) (x : String) (edit : Edit) :
    merkleText ((n.edited x edit).eventsUpToRoundReceived r) =
      String.join ((leafRows n r).map fun row =>
        eventLeafHash (DAGStorage.loadEvent (edit.row x row))) := by
  have hperm := edited_perm n r x edit
  have hids : (((n.edited x edit).eventsUpToRoundReceived r).map Event.id).Nodup := by
    rw [(hperm.map Event.id).nodup_iff, List.map_map]
    refine Eq.subst (motive := List.Nodup) ?_ (nodup_covered (r := r) hn)
    exact List.map_congr_left fun row _ => (edit.load_id x row).symm
  rw [merkleText_perm hperm hids]
  unfold merkleText leafRows
  rw [← List.map_insertionSort (fun a b => leafLe (DAGStorage.loadEvent a) (DAGStorage.loadEvent b))
    leafLe (fun row => DAGStorage.loadEvent (edit.row x row)) _
    (fun a _ b _ => (edit.leafLe_iff x a b).symm), List.map_map]
  rfl

/-- The text of the root stays if and only if the edited row's leaf does. -/
theorem merkleText_edited_iff (hn : n.storage.ids.Nodup) (hrow : stored ∈ n.storage.events)
    (hcov : covered r stored = true) (edit : Edit) :
    merkleText ((n.edited stored.event.id edit).eventsUpToRoundReceived r) =
        merkleText (n.eventsUpToRoundReceived r) ↔
      eventLeafHash (DAGStorage.loadEvent (edit.row stored.event.id stored)) =
        eventLeafHash (DAGStorage.loadEvent stored) := by
  rw [merkleText_edited hn, merkleText_leafRows hn]
  have hmem : stored ∈ leafRows n r := mem_leafRows.2 ⟨hrow, hcov⟩
  constructor
  · intro h
    have hlen : ∀ g : EventRow → Event, ∀ s ∈ (leafRows n r).map fun row => eventLeafHash (g row),
        s.length = 64 := by
      intro g s hs
      obtain ⟨row, -, rfl⟩ := List.mem_map.1 hs
      exact Sha256.hexdigest_length _
    have hmap := join_inj (hlen fun row => DAGStorage.loadEvent (edit.row stored.event.id row))
      (hlen DAGStorage.loadEvent) h
    exact List.map_inj_left.1 hmap stored hmem
  · intro h
    refine congrArg String.join (List.map_congr_left fun row hrow' => ?_)
    by_cases hid : row.event.id = stored.event.id
    · rw [List.inj_on_of_nodup_map hn (mem_leafRows.1 hrow').1 hrow hid]
      exact h
    · unfold Edit.row
      rw [if_neg hid]

/-- What shows of an edit, on the loaded events. -/
theorem shows_iff (edit : Edit) (stored : EventRow) : edit.Shows stored.event ↔
    ¬ (SameLeaf (DAGStorage.loadEvent (edit.row stored.event.id stored)) (DAGStorage.loadEvent stored) ∧
      canonicalJson edit.payload = canonicalJson stored.event.payload) := by
  have hedited : edit.row stored.event.id stored = { stored with event := edit.apply stored.event } := by
    unfold Edit.row
    rw [if_pos rfl]
  have hcreator : (DAGStorage.loadEvent (edit.row stored.event.id stored)).creator =
      (DAGStorage.loadEvent stored).creator ↔
        (stored.event.creator = "" → shownSource edit.source = shownSource stored.event.source) := by
    rw [hedited]
    show (if stored.event.creator = "" then shownSource edit.source else stored.event.creator) =
      (if stored.event.creator = "" then shownSource stored.event.source else stored.event.creator) ↔ _
    by_cases hc : stored.event.creator = ""
    · simp [hc]
    · simp [hc]
  have hleaf : SameLeaf (DAGStorage.loadEvent (edit.row stored.event.id stored))
      (DAGStorage.loadEvent stored) ∧ canonicalJson edit.payload = canonicalJson stored.event.payload ↔
      edit.cls = stored.event.cls ∧ edit.parents = stored.event.parents ∧
        canonicalJson edit.payload = canonicalJson stored.event.payload ∧
        (stored.event.creator = "" → shownSource edit.source = shownSource stored.event.source) := by
    rw [← hcreator, hedited]
    constructor
    · rintro ⟨h, hpayload⟩
      exact ⟨h.cls, h.parents, hpayload, h.creator⟩
    · rintro ⟨hcls, hparents, hpayload, hcreator⟩
      exact ⟨⟨rfl, hcls, hcreator, hparents, rfl, rfl, congrArg Sha256.hexdigest hpayload⟩, hpayload⟩
  rw [hleaf]
  unfold Edit.Shows
  simp only [not_and_or, Classical.not_imp, ne_eq]

section NoCollision
variable (hrow : stored ∈ n.storage.events) (hcov : covered r stored = true)
  (hcf : CollisionFree (hashedTexts (n.eventsUpToRoundReceived r) ++
    hashedTexts ((n.edited stored.event.id edit).eventsUpToRoundReceived r)))
include hrow hcov

theorem edited_mem : DAGStorage.loadEvent (edit.row stored.event.id stored) ∈
    (n.edited stored.event.id edit).eventsUpToRoundReceived r :=
  (edited_perm n r stored.event.id edit).mem_iff.2 (List.mem_map.2 ⟨stored,
    List.mem_filter.2 ⟨hrow, hcov⟩, rfl⟩)

include hcf

theorem root_edited_iff (hn : n.storage.ids.Nodup) :
    computeMerkleRoot ((n.edited stored.event.id edit).eventsUpToRoundReceived r) =
        computeMerkleRoot (n.eventsUpToRoundReceived r) ↔
      eventLeafHash (DAGStorage.loadEvent (edit.row stored.event.id stored)) =
        eventLeafHash (DAGStorage.loadEvent stored) := by
  rw [← merkleText_edited_iff hn hrow hcov edit]
  constructor
  · intro h
    exact (hcf.eq (List.mem_append_left _ (mem_hashedTexts.2 (.inl rfl)))
      (List.mem_append_right _ (mem_hashedTexts.2 (.inl rfl))) h.symm).symm
  · intro h
    unfold computeMerkleRoot
    rw [h]

theorem leaf_edited_iff : eventLeafHash (DAGStorage.loadEvent (edit.row stored.event.id stored)) =
    eventLeafHash (DAGStorage.loadEvent stored) ↔ ¬ edit.Shows stored.event := by
  have hmem : DAGStorage.loadEvent stored ∈ n.eventsUpToRoundReceived r :=
    (eventsUpToRoundReceived_perm n r).mem_iff.2
      (List.mem_map_of_mem (List.mem_filter.2 ⟨hrow, hcov⟩))
  rw [shows_iff, not_not]
  constructor
  · intro h
    obtain ⟨hleaf, hpayload⟩ := sameLeaf_of_hash hcf hmem (edited_mem hrow hcov) h.symm
    refine ⟨hleaf.symm, ?_⟩
    unfold Edit.row at hpayload
    rw [if_pos rfl] at hpayload
    exact hpayload.symm
  · rintro ⟨h, -⟩
    unfold eventLeafHash
    rw [h.text_eq]

end NoCollision

/-- A confirmed checkpoint is reported exactly if its root is another one. -/
theorem reported_iff {row : CheckpointRow} (hfit : fitsInt64 r = true)
    (hget : Dict.get n.storage.checkpoints r = some row) (hst : row.status = .confirmed)
    (hne : n.eventsUpToRoundReceived r ≠ []) :
    (∃ report, n.verifyCheckpoint r = .ok report ∧ report.hasTamperEvidence = true) ↔
      computeMerkleRoot (n.eventsUpToRoundReceived r) ≠ row.merkleRoot := by
  obtain ⟨report, hv, hm, ht⟩ := verifyCheckpoint_iff hfit hget hst
  rw [and_iff_right hne] at hm
  rw [Ne, ← hm]
  constructor
  · rintro ⟨report', hv', ht'⟩ hmatch
    obtain rfl := Except.ok.inj (hv.symm.trans hv')
    rw [ht, hmatch] at ht'
    cases ht'
  · intro h
    rw [Bool.not_eq_true] at h
    exact ⟨report, hv, by rw [ht, h]; rfl⟩

/-- **What verification detects.** At a confirmed checkpoint that verifies,
and without a collision among the texts hashed before and after, an edit of
the author's columns of one covered row is reported if and only if it shows
in the row's leaf. -/
theorem edit_detected_iff {row : CheckpointRow} (hn : n.storage.ids.Nodup)
    (hget : Dict.get n.storage.checkpoints r = some row) (hst : row.status = .confirmed)
    {report : Node.CheckpointVerificationReport} (hv : n.verifyCheckpoint r = .ok report)
    (hm : report.matchesMerkle = true) (hrow : stored ∈ n.storage.events)
    (hcov : covered r stored = true) (edit : Edit)
    (hcf : CollisionFree (hashedTexts (n.eventsUpToRoundReceived r) ++
      hashedTexts ((n.edited stored.event.id edit).eventsUpToRoundReceived r))) :
    (∃ report', (n.edited stored.event.id edit).verifyCheckpoint r = .ok report' ∧
      report'.hasTamperEvidence = true) ↔ edit.Shows stored.event := by
  have hfit := fits_of_verify hv
  obtain ⟨report₀, hv₀, hm₀, -⟩ := verifyCheckpoint_iff hfit hget hst
  obtain rfl := Except.ok.inj (hv.symm.trans hv₀)
  obtain ⟨-, hroot⟩ := hm₀.1 hm
  have hne : (n.edited stored.event.id edit).eventsUpToRoundReceived r ≠ [] :=
    List.ne_nil_of_mem (edited_mem hrow hcov)
  have hreported := reported_iff (n := n.edited stored.event.id edit) hfit hget hst hne
  rw [← hroot] at hreported
  have hshows : ¬ edit.Shows stored.event ↔
      computeMerkleRoot ((n.edited stored.event.id edit).eventsUpToRoundReceived r) =
        computeMerkleRoot (n.eventsUpToRoundReceived r) :=
    ((root_edited_iff hrow hcov hcf hn).trans (leaf_edited_iff hrow hcov hcf)).symm
  refine hreported.trans ?_
  rw [Ne, ← hshows, not_not]

end Edited

/-! ## Two edits -/

theorem hashedTexts_singleton {e : Event} {t : String} (ht : t ∈ hashedTexts [e]) :
    ∃ c ∈ [digestChars (canonicalChars (leafBody e)), canonicalChars (leafBody e),
      canonicalChars e.payload], t = String.ofList c := by
  rcases mem_hashedTexts.1 ht with rfl | ⟨f, hf, h⟩
  · refine ⟨digestChars (canonicalChars (leafBody e)), by simp, ?_⟩
    rw [merkleText_eq]
    simp
  · obtain rfl := List.mem_singleton.1 hf
    rcases h with rfl | rfl
    · exact ⟨canonicalChars (leafBody f), by simp, rfl⟩
    · exact ⟨canonicalChars f.payload, by simp, rfl⟩

/-- The event of `anchored`. -/
def anchorEvent : Event := { Event.linked "a0" "a" [] with roundReceived := some 0 }

/-- The event with its class and its local time edited. -/
def editAnchor (cls : EventClass) (tsLocal : Flt) : Edit := ⟨cls, "a", tsLocal, [], [], .obj []⟩

theorem anchored_edited (cls : EventClass) (tsLocal : Flt) :
    (anchored.edited "a0" (editAnchor cls tsLocal)).eventsUpToRoundReceived 0 =
      [(editAnchor cls tsLocal).apply anchorEvent] := rfl

/-- The texts hashed for the event, in its class B and in class A. -/
def anchorTexts : List (List Char) :=
  canonicalChars (.obj []) ::
    [anchorEvent, (editAnchor .A (.fin 0)).apply anchorEvent].flatMap fun e =>
      [digestChars (canonicalChars (leafBody e)), canonicalChars (leafBody e)]

theorem anchorTexts_digests : (anchorTexts.map digestChars).Nodup := by decide +kernel

theorem anchorTexts_mem {cls : EventClass} (hcls : cls ≠ .C) (tsLocal : Flt) {t : String}
    (ht : t ∈ hashedTexts [(editAnchor cls tsLocal).apply anchorEvent]) :
    ∃ c ∈ anchorTexts, t = String.ofList c := by
  obtain ⟨c, hc, rfl⟩ := hashedTexts_singleton ht
  refine ⟨c, ?_, rfl⟩
  -- the leaf does not show the local time
  have hleaf : leafBody ((editAnchor cls tsLocal).apply anchorEvent) = leafBody anchorEvent ∨
      leafBody ((editAnchor cls tsLocal).apply anchorEvent) =
        leafBody ((editAnchor .A (.fin 0)).apply anchorEvent) := by
    cases cls with
    | A => exact .inr rfl
    | B => exact .inl rfl
    | C => exact absurd rfl hcls
  have hpayload : ((editAnchor cls tsLocal).apply anchorEvent).payload = .obj [] := rfl
  rw [hpayload] at hc
  unfold anchorTexts
  rcases hleaf with hleaf | hleaf
  · rw [hleaf] at hc
    simp only [List.mem_cons, List.not_mem_nil, or_false] at hc
    rcases hc with rfl | rfl | rfl <;> simp
  · rw [hleaf] at hc
    simp only [List.mem_cons, List.not_mem_nil, or_false] at hc
    rcases hc with rfl | rfl | rfl <;> simp

theorem anchored_collisionFree {cls : EventClass} (hcls : cls ≠ .C) (tsLocal : Flt) :
    CollisionFree (hashedTexts (anchored.eventsUpToRoundReceived 0) ++
      hashedTexts ((anchored.edited "a0" (editAnchor cls tsLocal)).eventsUpToRoundReceived 0)) := by
  have hevents : anchored.eventsUpToRoundReceived 0 =
      [(editAnchor .B (.fin 0)).apply anchorEvent] := rfl
  rw [hevents, anchored_edited]
  refine collisionFree_of_digests anchorTexts (fun t ht => ?_) anchorTexts_digests
  rcases List.mem_append.1 ht with ht | ht
  · exact anchorTexts_mem (by decide) _ ht
  · exact anchorTexts_mem hcls _ ht

theorem edit_detected_raised : ∃ report',
    (anchored.edited "a0" (editAnchor .A (.fin 0))).verifyCheckpoint 0 = .ok report' ∧
      report'.hasTamperEvidence = true := by
  obtain ⟨report, hv, hm⟩ := anchored_matches
  have hrow : ⟨anchorEvent, .fin 0⟩ ∈ anchored.storage.events := List.mem_cons_self
  refine (edit_detected_iff (by decide) rfl rfl hv hm hrow rfl (editAnchor .A (.fin 0)) ?_).2
    (.inl (by decide))
  exact anchored_collisionFree (by decide) (.fin 0)

/-- Another local time goes unnoticed. -/
theorem edit_unnoticed : ∃ (n : Node) (r : Int) (row : CheckpointRow) (stored : EventRow) (edit : Edit),
    n.storage.ids.Nodup ∧ Dict.get n.storage.checkpoints r = some row ∧ row.status = .confirmed ∧
      (∃ report, n.verifyCheckpoint r = .ok report ∧ report.matchesMerkle = true) ∧
      stored ∈ n.storage.events ∧ covered r stored = true ∧
      (edit.apply stored.event).tsLocal ≠ stored.event.tsLocal ∧
      CollisionFree (hashedTexts (n.eventsUpToRoundReceived r) ++
        hashedTexts ((n.edited stored.event.id edit).eventsUpToRoundReceived r)) ∧
      ¬ ∃ report', (n.edited stored.event.id edit).verifyCheckpoint r = .ok report' ∧
        report'.hasTamperEvidence = true := by
  refine ⟨anchored, 0, _, ⟨anchorEvent, .fin 0⟩, editAnchor .B (.fin 1), by decide, rfl, rfl,
    anchored_matches, List.mem_cons_self, rfl, by decide, anchored_collisionFree (by decide) _, ?_⟩
  have hne : (anchored.edited "a0" (editAnchor .B (.fin 1))).eventsUpToRoundReceived 0 ≠ [] := by
    rw [anchored_edited]
    exact List.cons_ne_nil _ _
  have hroot : computeMerkleRoot [(editAnchor .B (.fin 1)).apply anchorEvent] =
      computeMerkleRoot [anchorEvent] := by
    rw [computeMerkleRoot_singleton, computeMerkleRoot_singleton]
    rfl
  intro h
  refine (reported_iff (n := anchored.edited "a0" (editAnchor .B (.fin 1))) (r := 0) rfl rfl rfl hne).1 h ?_
  rw [anchored_edited]
  exact hroot

end Mdrj.L4
