import Mdrj.L4Node.Progress

/-!
# Proposals without the key

`ingest_checkpoint_proposal` checks a signature only when there is one, so a
payload whose `signature` is missing or empty is recorded unchecked. Among
the payloads that do not carry the HMAC of their body these are the only ones
with an effect (`unauthentic_unchanged_iff`), if SQLite can bind their texts;
one of them is enough to confirm a checkpoint and to have retention delete what
it covers (`unsigned_payload_deletes`).
-/
namespace Mdrj.L4
open Mdrj.Core Mdrj.L1 Mdrj.L3

/-- mirrors mdrj/checkpoint.py:100-102 -/
def signWire (p : WireProposal) (hmacKey : String) : String :=
  Sha256.hmac (Sha256.encode hmacKey) (Sha256.encode (String.ofList p.canonicalBody))

/-- The payload carries the HMAC of its own body. -/
def Authentic (hmacKey : String) (payload : WirePayload) : Prop :=
  ∃ p, WireProposal.fromDict payload = .ok p ∧ p.signature = signWire p hmacKey

/-- The payload parses, its signature is missing or empty, and its round and
texts fit the columns. -/
def Unsigned (payload : WirePayload) : Prop :=
  ∃ p, WireProposal.fromDict payload = .ok p ∧ p.signature = "" ∧ fitsInt64 p.roundReceived = true ∧
    p.bound.isSome = true

/-- The process after the payloads, each with the clock reading of its call. -/
def Process.feed (s : Process) (payloads : List (WirePayload × Flt)) : Process :=
  payloads.foldl (fun s p => (s.ingestCheckpointProposal p.1 p.2).1) s

section Feed
variable {s : Process} {payload : WirePayload} {now : Flt}

theorem recordProposalSignature_overflow {p : WireProposal}
    (hfit : fitsInt64 p.roundReceived = false) : (s.recordProposalSignature p now).1 = s := by
  unfold Process.recordProposalSignature DAGStorage.getCheckpoint
  rw [hfit]
  rfl

/-- A text that cannot be bound stops the write, after the count. -/
theorem recordProposalSignature_unbound {p : WireProposal} (hbound : p.bound = none) :
    (s.recordProposalSignature p now).1.node = s.node := by
  unfold Process.recordProposalSignature
  split
  · rfl
  · split
    · rfl
    · rw [hbound]

/-- A payload that is neither authentic nor unsigned raises, and the tables
stay as they are. -/
theorem ingest_unchanged (hkey : s.node.config.hmacKey ≠ "") (ha : ¬ Authentic s.node.config.hmacKey payload)
    (hu : ¬ Unsigned payload) : (s.ingestCheckpointProposal payload now).1.node = s.node := by
  unfold Process.ingestCheckpointProposal Process.checkedProposal
  cases hp : WireProposal.fromDict payload with
  | error err => rfl
  | ok p =>
    dsimp only
    by_cases hsig : s.node.config.hmacKey ≠ "" ∧ p.signature ≠ ""
    · have hbad : signWire p s.node.config.hmacKey ≠ p.signature := fun h => ha ⟨p, hp, h.symm⟩
      rw [if_pos hsig]
      by_cases hascii : p.signature.toList.all (·.toNat < 128) = true
      · have hfalse : p.verifySignature s.node.config.hmacKey = .ok false := by
          unfold WireProposal.verifySignature
          rw [if_pos hascii]
          exact congrArg Except.ok (decide_eq_false hbad)
        rw [hfalse]
      · have herror : p.verifySignature s.node.config.hmacKey = .error .typeError := by
          unfold WireProposal.verifySignature
          rw [if_neg hascii]
        rw [herror]
    · have hempty : p.signature = "" := by
        by_contra hne
        exact hsig ⟨hkey, hne⟩
      rw [if_neg hsig]
      dsimp only
      cases hfit : fitsInt64 p.roundReceived with
      | false => rw [recordProposalSignature_overflow hfit]
      | true =>
        refine recordProposalSignature_unbound ?_
        rw [← Option.not_isSome_iff_eq_none]
        exact fun hbound => hu ⟨p, hp, hempty, hfit, hbound⟩

theorem feed_unchanged {payloads : List (WirePayload × Flt)} (hkey : s.node.config.hmacKey ≠ "")
    (ha : ∀ p ∈ payloads, ¬ Authentic s.node.config.hmacKey p.1)
    (hu : ∀ p ∈ payloads, ¬ Unsigned p.1) : (s.feed payloads).node = s.node := by
  induction payloads generalizing s with
  | nil => rfl
  | cons p payloads ih =>
    have hfirst : (s.ingestCheckpointProposal p.1 p.2).1.node = s.node :=
      ingest_unchanged hkey (ha p List.mem_cons_self) (hu p List.mem_cons_self)
    unfold Process.feed at ih ⊢
    rw [List.foldl_cons, ih (hfirst.symm ▸ hkey) (fun q hq => hfirst.symm ▸ ha q (List.mem_cons_of_mem _ hq))
      fun q hq => hu q (List.mem_cons_of_mem _ hq)]
    exact hfirst

/-- No call removes a row. -/
theorem record_keys {p : WireProposal} {r : Int} (h : r ∈ Dict.keys s.node.storage.checkpoints) :
    r ∈ Dict.keys (s.recordProposalSignature p now).1.node.storage.checkpoints := by
  unfold Process.recordProposalSignature
  split
  · exact h
  · split
    · exact h
    · dsimp only
      split
      · exact h
      · exact Dict.mem_keys_set.2 (.inr h)

theorem ingest_keys {r : Int} (h : r ∈ Dict.keys s.node.storage.checkpoints) :
    r ∈ Dict.keys (s.ingestCheckpointProposal payload now).1.node.storage.checkpoints := by
  unfold Process.ingestCheckpointProposal
  split
  · exact h
  · exact record_keys h

theorem feed_keys (payloads : List (WirePayload × Flt)) :
    ∀ {s : Process} {r : Int}, r ∈ Dict.keys s.node.storage.checkpoints →
      r ∈ Dict.keys (s.feed payloads).node.storage.checkpoints := by
  induction payloads with
  | nil => intro s r h; exact h
  | cons p payloads ih => intro s r h; exact ih (ingest_keys h)

/-- After an unsigned payload its round has a row. -/
theorem ingest_unsigned {p : WireProposal} (hp : WireProposal.fromDict payload = .ok p)
    (hsig : p.signature = "") (hfit : fitsInt64 p.roundReceived = true) (hbound : p.bound.isSome = true) :
    p.roundReceived ∈ Dict.keys (s.ingestCheckpointProposal payload now).1.node.storage.checkpoints := by
  have hchecked : Process.checkedProposal s.node.config.hmacKey payload = .ok p := by
    unfold Process.checkedProposal
    rw [hp]
    dsimp only
    rw [if_neg fun h => h.2 hsig]
  obtain ⟨q, hq⟩ := Option.isSome_iff_exists.1 hbound
  obtain rfl : p = q.wire := WireProposal.bound_eq_some.1 hq
  unfold Process.ingestCheckpointProposal
  rw [hchecked]
  unfold Process.recordProposalSignature DAGStorage.getCheckpoint
  dsimp only
  rw [if_pos hfit]
  dsimp only
  split
  · rename_i hmismatch
    obtain ⟨row, hrow, -⟩ := (Option.any_eq_true _ _).1 hmismatch
    exact Dict.mem_keys.2 ⟨row, hrow⟩
  · rw [hq]
    exact Dict.mem_keys_set.2 (.inl rfl)

theorem feed_unsigned {payloads : List (WirePayload × Flt)} {q : WirePayload × Flt} (hq : q ∈ payloads)
    (hu : Unsigned q.1) (s : Process) : (s.feed payloads).node.storage.checkpoints ≠ [] := by
  obtain ⟨p, hp, hsig, hfit, hbound⟩ := hu
  obtain ⟨before, after, rfl⟩ := List.append_of_mem hq
  have hmem : p.roundReceived ∈ Dict.keys (s.feed (before ++ q :: after)).node.storage.checkpoints := by
    unfold Process.feed
    rw [List.foldl_append, List.foldl_cons]
    exact feed_keys after (ingest_unsigned hp hsig hfit hbound)
  intro hnil
  rw [hnil] at hmem
  cases hmem

end Feed

/-- What the payloads must not do to a node: change its checkpoints, or what
the next retention pass returns and leaves. -/
def Harmless (s : Process) (payloads : List (WirePayload × Flt)) : Prop :=
  (s.feed payloads).node.storage.checkpoints = s.node.storage.checkpoints ∧
    ∀ now, ((s.feed payloads).node.runRetentionOnce now).result = (s.node.runRetentionOnce now).result ∧
      ((s.feed payloads).node.runRetentionOnce now).node.storage.events =
        (s.node.runRetentionOnce now).node.storage.events

/-- **Only unsigned payloads get through.** Payloads without the HMAC of
their body leave every node with the key alone exactly when none of them is
unsigned. -/
theorem unauthentic_unchanged_iff {hmacKey : String} (hkey : hmacKey ≠ "")
    {payloads : List (WirePayload × Flt)} (ha : ∀ p ∈ payloads, ¬ Authentic hmacKey p.1) :
    (∀ s : Process, s.node.config.hmacKey = hmacKey → Harmless s payloads) ↔
      ∀ p ∈ payloads, ¬ Unsigned p.1 := by
  constructor
  · intro h p hp hu
    have hempty := (h ⟨{ config := { nodeId := "", hmacKey := hmacKey }, membership := ⟨[], ""⟩ }, 0⟩ rfl).1
    exact feed_unsigned hp hu _ hempty
  · rintro hu s rfl
    unfold Harmless
    rw [feed_unchanged hkey ha hu]
    exact ⟨rfl, fun _ => ⟨rfl, rfl⟩⟩

/-- A proposal as a forger sends it, with the given root and signature. -/
def forged (root : Text) (signature : Option (Except PyError String)) : WirePayload where
  roundReceived := some (.ok 0)
  merkleRoot := some (.ok root)
  membersSnapshotHash := some (.ok (.plain ""))
  proposerNodeId := some (.ok "a")
  signature := signature

theorem forged_unauthentic {root : Text} {signature : Option (Except PyError String)} {text : String}
    (ht : Payload.optional signature = .ok text) (hlen : text.length ≠ 64) (hmacKey : String) :
    ¬ Authentic hmacKey (forged root signature) := by
  rintro ⟨p, hp, hsig⟩
  have hp' : p = ⟨0, root, .plain "", "a", text⟩ := by
    unfold WireProposal.fromDict forged at hp
    simp only [Payload.required, ht] at hp
    exact (Except.ok.inj hp).symm
  subst hp'
  refine hlen ?_
  show String.length text = 64
  rw [show text = _ from hsig, signWire, Sha256.hmac_length]

/-- A node with one old event, and retention on. -/
def guarded : Node where
  config := { nodeId := "a", hmacKey := "k", retention := { enabled := true, maxAgeDays := 0 } }
  membership := ⟨[⟨"a", "", "node", true⟩], "h"⟩
  storage := { events := [⟨{ Event.linked "a0" "a" [] with roundReceived := some 0 }, .fin 0⟩] }

/-- A wrong signature, and no signature beside a root that cannot be bound. -/
def harmless : List (WirePayload × Flt) :=
  [(forged (.plain "") (some (.ok "00")), .fin 0), (forged (.lone "\\ud800".toList) none, .fin 1)]

theorem unauthentic_unchanged_wrong_signature : Harmless ⟨guarded, 0⟩ harmless := by
  have hunauthentic : ∀ p ∈ harmless, ¬ Authentic "k" p.1 := by
    intro p hp
    rcases List.mem_pair.1 hp with rfl | rfl
    · exact forged_unauthentic rfl (by decide) "k"
    · exact forged_unauthentic rfl (by decide) "k"
  refine (unauthentic_unchanged_iff (show "k" ≠ "" by decide) hunauthentic).2 (fun p hp => ?_) ⟨guarded, 0⟩ rfl
  rcases List.mem_pair.1 hp with rfl | rfl
  · rintro ⟨q, hq, hsig, -⟩
    obtain rfl := Except.ok.inj hq
    exact absurd hsig (by decide)
  · rintro ⟨q, hq, -, -, hbound⟩
    obtain rfl := Except.ok.inj hq
    exact absurd hbound (by decide)

/-- One payload without a signature, and the event is gone. -/
theorem unsigned_payload_deletes : ∃ (s : Process) (payload : WirePayload) (now now' : Flt),
    s.node.config.hmacKey ≠ "" ∧ ¬ Authentic s.node.config.hmacKey payload ∧
      (s.feed [(payload, now)]).node.storage.checkpoints ≠ s.node.storage.checkpoints ∧
      (s.node.runRetentionOnce now').node.storage.ids = ["a0"] ∧
      ((s.feed [(payload, now)]).node.runRetentionOnce now').node.storage.ids = [] := by
  refine ⟨⟨guarded, 0⟩, forged (.plain "") none, .fin 0, .fin 1, by decide, forged_unauthentic rfl (by decide) _,
    feed_unsigned List.mem_cons_self ⟨_, rfl, rfl, rfl, rfl⟩ _, by decide +kernel, by decide +kernel⟩

end Mdrj.L4
