import Mdrj.Core.Runs
import Mdrj.L2Consensus.Timestamps
import Mdrj.L3Store.Writes

/-!
# Replicas converge

Two stores that receive the same envelopes, in any order and with any
repetition, hold the same events, edges and hops (`replicas_converge`), and
give every event the same timestamp. Equal ids are taken to carry equal
content. Three things are asked of the envelopes. No hop has the timestamp
NaN: the lists of hops differ in their order, and a member whose first hop is
NaN keeps it (`nan_hop_diverges`). The consensus rounds an envelope carries
fit SQLite, and a link with a lone surrogate comes with a `consensus_ts`:
without these an envelope is refused when its event is new and merged when the
event is known (`lone_link_diverges`).

A refused envelope leaves the store as it is. One whose id, source, parents or
signature has a lone surrogate is refused whatever the store holds, and is
left out.
-/
namespace Mdrj.L3
open Mdrj.Core Mdrj.L1 Mdrj.L2

/-- What the author of an event wrote, and what is derived from it alone. -/
structure Content where
  id : String
  cls : EventClass
  source : String
  tsLocal : Flt
  vclock : Dict String Int
  parents : List String
  payload : Json
  sig : Option String
  lamportTs : Option Int

def content (event : Event) : Content :=
  ⟨event.id, event.cls, event.source, event.tsLocal, event.vclock, event.parents, event.payload,
    event.sig, event.lamportTs⟩

/-- An envelope handed to `store_envelope`, with the clock at that moment. -/
structure Delivery extends Incoming where
  consensusTs : Option Flt
  now : Flt

def deliver (s : DAGStorage) (d : Delivery) : DAGStorage :=
  match s.storeIncoming d.toIncoming d.consensusTs d.now with
  | .ok (s, _) => s
  | .error _ => s

/-- Equal ids carry equal content. -/
def SameContent (envelopes : List Envelope) : Prop :=
  ∀ e ∈ envelopes, ∀ e' ∈ envelopes, e.event.id = e'.event.id → content e.event = content e'.event

/-- The rounds fit a column, no hop has the timestamp NaN, and a link that
cannot be bound comes with a timestamp. -/
structure Plain (d : Delivery) : Prop where
  rounds : ∀ r, r = d.envelope.event.round ∨ r = d.envelope.event.roundReceived → r.all fitsInt64 = true
  hops : NoNan d.envelope.pathMeta
  links : d.loneLink = true → d.consensusTs.isSome = true ∨ d.hugeTimestamp = true

/-- SQLite takes the event where it is new. -/
structure Incoming.Storable (incoming : Incoming) : Prop where
  link : incoming.loneLink = false
  timestamp : incoming.hugeTimestamp = false
  row : DAGStorage.insertError incoming.envelope.event = none

/-- The two stores hold the same events, edges and hops, and the same
timestamps come out. -/
structure Converged (s s' : DAGStorage) : Prop where
  events : ∀ c, (∃ row ∈ s.events, content row.event = c) ↔ ∃ row ∈ s'.events, content row.event = c
  edges : ∀ e, e ∈ s.edges ↔ e ∈ s'.edges
  hops : ∀ x hop, hop ∈ (Dict.get s.envelopes x).getD [] ↔ hop ∈ (Dict.get s'.envelopes x).getD []
  timestamps : ∀ x members quorum, consensusTimestamp x members quorum s.envelopes =
    consensusTimestamp x members quorum s'.envelopes

/-! ## One delivery -/

section Deliver
variable {s : DAGStorage} {d : Delivery}

theorem unfilled_content : DAGStorage.Unfilled fun row => content row.event := fun _ _ _ _ => rfl

theorem get_mergePathMeta (s : DAGStorage) (x y : String) (hops : List Hop) (hop : Hop) :
    hop ∈ (Dict.get (s.mergePathMeta x hops).envelopes y).getD [] ↔
      hop ∈ (Dict.get s.envelopes y).getD [] ∨ y = x ∧ hop ∈ hops := by
  unfold DAGStorage.mergePathMeta
  dsimp only
  rw [Dict.get_set]
  split
  · rename_i h
    subst h
    rw [Option.getD_some, DAGStorage.mem_mergeHops]
    simp
  · rename_i h
    have : y ≠ x := fun e => h e.symm
    simp [this]

/-- With rounds that fit, whether SQLite takes a row is a matter of its
content. -/
theorem insertError_of_content {d d' : Delivery} (hd : Plain d) (hd' : Plain d')
    (hc : content d.envelope.event = content d'.envelope.event) :
    DAGStorage.insertError d.envelope.event = DAGStorage.insertError d'.envelope.event := by
  have hl : d.envelope.event.lamportTs = d'.envelope.event.lamportTs := congrArg Content.lamportTs hc
  have ht : d.envelope.event.tsLocal = d'.envelope.event.tsLocal := congrArg Content.tsLocal hc
  have key : ∀ d : Delivery, Plain d →
      ([d.envelope.event.lamportTs, d.envelope.event.round, d.envelope.event.roundReceived].filterMap id).any
        (!fitsInt64 ·) = d.envelope.event.lamportTs.any (!fitsInt64 ·) := by
    intro d hd
    have h1 := hd.rounds _ (.inl rfl)
    have h2 := hd.rounds _ (.inr rfl)
    cases hl : d.envelope.event.lamportTs <;> cases hr : d.envelope.event.round <;>
      cases hrr : d.envelope.event.roundReceived <;> simp_all
  unfold DAGStorage.insertError
  rw [key d hd, key d' hd', hl, ht]

/-- A delivery leaves the store as it is, merges into a known event, or
inserts a new one. -/
theorem deliver_cases (s : DAGStorage) (d : Delivery) :
    deliver s d = s ∨
    (d.envelope.event.id ∈ s.ids ∧ deliver s d = { s.mergePathMeta d.envelope.event.id d.envelope.pathMeta with
      events := s.events.map (DAGStorage.fillRow d.envelope.event d.consensusTs) }) ∨
    (d.envelope.event.id ∉ s.ids ∧ d.Storable ∧
      deliver s d = { s.mergePathMeta d.envelope.event.id d.envelope.pathMeta with
        events := s.events ++ [⟨DAGStorage.insertColumns d.envelope.event d.consensusTs, d.now⟩]
        edges := d.envelope.event.parents.foldl
          (fun edges parent => DAGStorage.addEdge edges (parent, d.envelope.event.id)) s.edges }) := by
  unfold deliver
  cases hbind : s.bindError d.toIncoming d.consensusTs with
  | some err =>
    left
    unfold DAGStorage.storeIncoming
    rw [hbind]
  | none =>
    rw [DAGStorage.storeIncoming_bound hbind]
    by_cases hid : d.envelope.event.id ∈ s.ids
    · rw [DAGStorage.storeEnvelope_known hid]
      exact .inr (.inl ⟨hid, rfl⟩)
    · cases hins : DAGStorage.insertError d.envelope.event with
      | some err =>
        rw [DAGStorage.storeEnvelope_refused hid hins]
        exact .inl rfl
      | none =>
        obtain ⟨htime, hlink⟩ := (DAGStorage.bindError_new hid).1 hbind
        rw [DAGStorage.storeEnvelope_new hid hins]
        exact .inr (.inr ⟨hid, ⟨hlink, htime, hins⟩, rfl⟩)

theorem deliver_known (hid : d.envelope.event.id ∈ s.ids) (hd : d.Storable) :
    deliver s d = { s.mergePathMeta d.envelope.event.id d.envelope.pathMeta with
      events := s.events.map (DAGStorage.fillRow d.envelope.event d.consensusTs) } := by
  unfold deliver
  rw [DAGStorage.storeIncoming_bound (DAGStorage.bindError_plain hd.link hd.timestamp),
    DAGStorage.storeEnvelope_known hid]

theorem deliver_new (hid : d.envelope.event.id ∉ s.ids) (hd : d.Storable) :
    deliver s d = { s.mergePathMeta d.envelope.event.id d.envelope.pathMeta with
      events := s.events ++ [⟨DAGStorage.insertColumns d.envelope.event d.consensusTs, d.now⟩]
      edges := d.envelope.event.parents.foldl
        (fun edges parent => DAGStorage.addEdge edges (parent, d.envelope.event.id)) s.edges } := by
  unfold deliver
  rw [DAGStorage.storeIncoming_bound (DAGStorage.bindError_plain hd.link hd.timestamp),
    DAGStorage.storeEnvelope_new hid hd.row]

/-- What SQLite would not take as new is refused, unless it is known and only
its row would not fit. -/
theorem deliver_refused (hplain : Plain d) (hd : ¬ d.Storable)
    (hrow : d.envelope.event.id ∈ s.ids → DAGStorage.insertError d.envelope.event = none) :
    deliver s d = s := by
  rcases deliver_cases s d with heq | ⟨hid, -⟩ | ⟨-, hstorable, -⟩
  · exact heq
  · have hbind : s.bindError d.toIncoming d.consensusTs ≠ none := by
      intro hnone
      obtain ⟨htime, hlink⟩ := (DAGStorage.bindError_known hid).1 hnone
      have hlone : d.loneLink = false := by
        rw [Bool.eq_false_iff]
        intro hlone
        rcases hplain.links hlone with hts | hhuge
        · rw [hlink hlone] at hts
          cases hts
        · rw [htime] at hhuge
          cases hhuge
      exact hd ⟨hlone, htime, hrow hid⟩
    obtain ⟨err, herr⟩ := Option.ne_none_iff_exists'.1 hbind
    unfold deliver DAGStorage.storeIncoming
    rw [herr]
  · exact absurd hstorable hd

end Deliver

/-! ## A run of deliveries -/

/-- The envelope has been taken: it is among those delivered and SQLite does
not refuse its event. -/
def Taken (incoming : List Incoming) (e : Incoming) : Prop := e ∈ incoming ∧ e.Storable

/-- The store holds what the taken envelopes say. -/
structure Holds (s : DAGStorage) (incoming : List Incoming) : Prop where
  ids : ∀ x, x ∈ s.ids ↔ ∃ e, Taken incoming e ∧ e.envelope.event.id = x
  rows : ∀ row ∈ s.events, ∃ e, Taken incoming e ∧ content row.event = content e.envelope.event
  edges : ∀ p, p ∈ s.edges ↔
    ∃ e, Taken incoming e ∧ p.1 ∈ e.envelope.event.parents ∧ p.2 = e.envelope.event.id
  hops : ∀ x hop, hop ∈ (Dict.get s.envelopes x).getD [] ↔
    ∃ e, Taken incoming e ∧ e.envelope.event.id = x ∧ hop ∈ e.envelope.pathMeta

theorem taken_append {incoming : List Incoming} {e e' : Incoming} :
    Taken (incoming ++ [e]) e' ↔ Taken incoming e' ∨ e' = e ∧ e.Storable := by
  unfold Taken
  rw [List.mem_append, List.mem_singleton, or_and_right]
  refine or_congr_right ⟨?_, ?_⟩
  · rintro ⟨rfl, h⟩; exact ⟨rfl, h⟩
  · rintro ⟨rfl, h⟩; exact ⟨rfl, h⟩

section Run
variable {s : DAGStorage} {d : Delivery} {incoming : List Incoming}

/-- A fact about the taken envelopes after one more is taken. -/
theorem exists_taken {P : Incoming → Prop} (hd : d.Storable) :
    (∃ e, Taken (incoming ++ [d.toIncoming]) e ∧ P e) ↔
      (∃ e, Taken incoming e ∧ P e) ∨ P d.toIncoming := by
  constructor
  · rintro ⟨e, he, hP⟩
    rcases taken_append.1 he with he | ⟨rfl, -⟩
    · exact .inl ⟨e, he, hP⟩
    · exact .inr hP
  · rintro (⟨e, he, hP⟩ | hP)
    · exact ⟨e, taken_append.2 (.inl he), hP⟩
    · exact ⟨d.toIncoming, taken_append.2 (.inr ⟨rfl, hd⟩), hP⟩

theorem Holds.hops_merged (h : Holds s incoming) (hd : d.Storable)
    (x : String) (hop : Hop) :
    hop ∈ (Dict.get (s.mergePathMeta d.envelope.event.id d.envelope.pathMeta).envelopes x).getD [] ↔
      ∃ e, Taken (incoming ++ [d.toIncoming]) e ∧ e.envelope.event.id = x ∧ hop ∈ e.envelope.pathMeta := by
  rw [get_mergePathMeta, exists_taken hd, ← h.hops, eq_comm]

theorem Holds.known (h : Holds s incoming) (hid : d.envelope.event.id ∈ s.ids)
    (hd : d.Storable)
    (hsame : ∀ e, Taken incoming e → e.envelope.event.id = d.envelope.event.id →
      content e.envelope.event = content d.envelope.event) :
    Holds (deliver s d) (incoming ++ [d.toIncoming]) := by
  obtain ⟨e₀, he₀, hid₀⟩ := (h.ids _).1 hid
  have hc := hsame e₀ he₀ hid₀
  rw [deliver_known hid hd]
  refine ⟨fun x => ?_, fun row hrow => ?_, fun p => ?_, fun x hop => ?_⟩
  · rw [exists_taken hd, ← h.ids]
    unfold DAGStorage.ids
    dsimp only
    rw [DAGStorage.ids_fillRows]
    exact ⟨.inl, fun hx => hx.elim id fun he => he ▸ hid⟩
  · obtain ⟨row₀, hrow₀, rfl⟩ := List.mem_map.1 hrow
    obtain ⟨e, he, hce⟩ := h.rows row₀ hrow₀
    exact ⟨e, taken_append.2 (.inl he), (unfilled_content.fillRow _ _).trans hce⟩
  · rw [exists_taken hd, ← h.edges]
    refine ⟨.inl, fun hp => hp.elim id fun ⟨hpar, he⟩ => ?_⟩
    have hpar' : p.1 ∈ (content e₀.envelope.event).parents := by rw [hc]; exact hpar
    exact (h.edges p).2 ⟨e₀, he₀, hpar', he.trans hid₀.symm⟩
  · exact h.hops_merged hd x hop

theorem Holds.insert (h : Holds s incoming) (hid : d.envelope.event.id ∉ s.ids)
    (hd : d.Storable) :
    Holds (deliver s d) (incoming ++ [d.toIncoming]) := by
  rw [deliver_new hid hd]
  refine ⟨fun x => ?_, fun row hrow => ?_, fun p => ?_, fun x hop => ?_⟩
  · rw [exists_taken hd, ← h.ids]
    unfold DAGStorage.ids
    dsimp only
    rw [List.map_append, List.mem_append, List.map_singleton, List.mem_singleton]
    exact or_congr_right ⟨fun e => e.symm, fun e => e.symm⟩
  · rcases List.mem_append.1 hrow with hrow | hrow
    · obtain ⟨e, he, hce⟩ := h.rows row hrow
      exact ⟨e, taken_append.2 (.inl he), hce⟩
    · obtain rfl := List.mem_singleton.1 hrow
      exact ⟨d.toIncoming, taken_append.2 (.inr ⟨rfl, hd⟩), rfl⟩
  · rw [exists_taken hd, ← h.edges]
    dsimp only
    rw [DAGStorage.mem_addEdges]
    refine or_congr_right ⟨?_, fun ⟨hpar, he⟩ => ⟨p.1, hpar, Prod.ext rfl he⟩⟩
    rintro ⟨q, hq, rfl⟩
    exact ⟨hq, rfl⟩
  · exact h.hops_merged hd x hop

theorem Holds.refuse (h : Holds s incoming) (hd : ¬ d.Storable) : Holds s (incoming ++ [d.toIncoming]) := by
  have htaken : ∀ e, Taken (incoming ++ [d.toIncoming]) e ↔ Taken incoming e := fun e =>
    taken_append.trans (or_iff_left fun hc => hd hc.2)
  refine ⟨fun x => ?_, fun row hrow => ?_, fun p => ?_, fun x hop => ?_⟩
  · simp only [htaken]; exact h.ids x
  · simp only [htaken]; exact h.rows row hrow
  · simp only [htaken]; exact h.edges p
  · simp only [htaken]; exact h.hops x hop

end Run

/-- **What a store holds.** After any deliveries to an empty store. -/
theorem run_holds (deliveries : List Delivery) (hsame : SameContent (deliveries.map fun d => d.envelope))
    (hplain : ∀ d ∈ deliveries, Plain d) :
    Holds (run deliver {} deliveries) (deliveries.map Delivery.toIncoming) := by
  induction deliveries using List.reverseRecOn with
  | nil =>
    refine ⟨fun x => ?_, fun row hrow => absurd hrow List.not_mem_nil, fun p => ?_, fun x hop => ?_⟩
    · simp [run, DAGStorage.ids, Taken]
    · simp [run, Taken]
    · simp [run, Taken]
  | append_singleton deliveries d ih =>
    have hmem : ∀ d' ∈ deliveries, d'.envelope ∈ (deliveries ++ [d]).map fun d => d.envelope :=
      fun d' hd' => List.mem_map_of_mem (List.mem_append_left _ hd')
    have hlast : d.envelope ∈ (deliveries ++ [d]).map fun d => d.envelope :=
      List.mem_map_of_mem (List.mem_append_right _ (List.mem_singleton_self _))
    have hsub : ∀ e ∈ deliveries.map fun d => d.envelope, e ∈ (deliveries ++ [d]).map fun d => d.envelope := by
      intro e he
      obtain ⟨d', hd', rfl⟩ := List.mem_map.1 he
      exact hmem d' hd'
    have hplain' : ∀ d' ∈ deliveries, Plain d' := fun d' hd' => hplain d' (List.mem_append_left _ hd')
    have hplast := hplain d (List.mem_append_right _ (List.mem_singleton_self _))
    have h := ih (fun e he e' he' => hsame e (hsub e he) e' (hsub e' he')) hplain'
    have hrun : run deliver {} (deliveries ++ [d]) = deliver (run deliver {} deliveries) d :=
      List.foldl_append
    -- the content of a stored id is that of this envelope
    have hsame' : ∀ e, Taken (deliveries.map Delivery.toIncoming) e →
        e.envelope.event.id = d.envelope.event.id → content e.envelope.event = content d.envelope.event := by
      rintro e ⟨he, -⟩ hid
      obtain ⟨d', hd', rfl⟩ := List.mem_map.1 he
      exact hsame _ (hmem d' hd') _ hlast hid
    rw [hrun, List.map_append, List.map_singleton]
    by_cases hd : d.Storable
    · by_cases hid : d.envelope.event.id ∈ (run deliver {} deliveries).ids
      · exact h.known hid hd hsame'
      · exact h.insert hid hd
    · rw [deliver_refused hplast hd fun hid => ?_]
      · exact h.refuse hd
      · -- the event was taken before, so its row fits
        obtain ⟨e, ⟨he, hstorable⟩, hid'⟩ := (h.ids _).1 hid
        have hc := hsame' e ⟨he, hstorable⟩ hid'
        obtain ⟨d', hd', rfl⟩ := List.mem_map.1 he
        rw [← insertError_of_content (hplain' d' hd') hplast hc]
        exact hstorable.row

/-- **Replicas converge.** Two runs of deliveries of the same envelopes, in
any order and with any repetition, leave stores with the same events, edges
and hops, and with the same timestamps for every membership. -/
theorem replicas_converge {incoming : List Incoming} (hsame : SameContent (incoming.map Incoming.envelope))
    {deliveries deliveries' : List Delivery} (hplain : ∀ d ∈ deliveries, Plain d)
    (hplain' : ∀ d ∈ deliveries', Plain d)
    (hd : ∀ e, e ∈ deliveries.map Delivery.toIncoming ↔ e ∈ incoming)
    (hd' : ∀ e, e ∈ deliveries'.map Delivery.toIncoming ↔ e ∈ incoming) :
    Converged (run deliver {} deliveries) (run deliver {} deliveries') := by
  have hrun : ∀ ds : List Delivery, (∀ d ∈ ds, Plain d) →
      (∀ e, e ∈ ds.map Delivery.toIncoming ↔ e ∈ incoming) → Holds (run deliver {} ds) incoming := by
    intro ds hplain hds
    have hmem : ∀ e ∈ ds.map fun d => d.envelope, e ∈ incoming.map Incoming.envelope := by
      intro e he
      obtain ⟨d, hd, rfl⟩ := List.mem_map.1 he
      exact List.mem_map_of_mem ((hds _).1 (List.mem_map_of_mem hd))
    have hh := run_holds ds (fun e he e' he' => hsame e (hmem e he) e' (hmem e' he')) hplain
    have htaken : ∀ e, Taken (ds.map Delivery.toIncoming) e ↔ Taken incoming e := fun e =>
      and_congr_left fun _ => hds e
    refine ⟨fun x => ?_, fun row hrow => ?_, fun p => ?_, fun x hop => ?_⟩
    · simp only [← htaken]; exact hh.ids x
    · simp only [← htaken]; exact hh.rows row hrow
    · simp only [← htaken]; exact hh.edges p
    · simp only [← htaken]; exact hh.hops x hop
  have h := hrun deliveries hplain hd
  have h' := hrun deliveries' hplain' hd'
  have hevents : ∀ {s s' : DAGStorage}, Holds s incoming → Holds s' incoming → ∀ c,
      (∃ row ∈ s.events, content row.event = c) → ∃ row ∈ s'.events, content row.event = c := by
    rintro s s' hs hs' c ⟨row, hrow, rfl⟩
    obtain ⟨e, he, hce⟩ := hs.rows row hrow
    obtain ⟨row', hrow', hid'⟩ := List.mem_map.1 ((hs'.ids e.envelope.event.id).2 ⟨e, he, rfl⟩)
    obtain ⟨e', he', hce'⟩ := hs'.rows row' hrow'
    have hids : e'.envelope.event.id = e.envelope.event.id := (congrArg Content.id hce').symm.trans hid'
    have hsame' := hsame _ (List.mem_map_of_mem he'.1) _ (List.mem_map_of_mem he.1) hids
    exact ⟨row', hrow', hce'.trans (hsame'.trans hce.symm)⟩
  have hhops : ∀ x hop, hop ∈ (Dict.get (run deliver {} deliveries).envelopes x).getD [] ↔
      hop ∈ (Dict.get (run deliver {} deliveries').envelopes x).getD [] := fun x hop =>
    (h.hops x hop).trans (h'.hops x hop).symm
  refine ⟨fun c => ⟨hevents h h' c, hevents h' h c⟩, fun e => (h.edges e).trans (h'.edges e).symm,
    hhops, fun x members quorum => consensusTimestamp_eq_of_hops (hhops x) ?_ members quorum⟩
  intro hop hmem
  obtain ⟨e, ⟨he, -⟩, -, hope⟩ := (h.hops x hop).1 hmem
  obtain ⟨d, hdmem, rfl⟩ := List.mem_map.1 ((hd e).2 he)
  exact (hplain d hdmem).hops hop hope

/-- One event with a single hop. -/
def hopped (node : String) (ts : Flt) : Delivery where
  envelope := ⟨Event.linked "x" "a" [], [⟨some node, some ts⟩]⟩
  consensusTs := none
  now := .fin 0

theorem hopped_sameContent (deliveries : List Delivery)
    (h : ∀ d ∈ deliveries, d.envelope.event = Event.linked "x" "a" []) :
    SameContent (deliveries.map fun d => d.envelope) := by
  intro e he e' he' _
  obtain ⟨d, hd, rfl⟩ := List.mem_map.1 he
  obtain ⟨d', hd', rfl⟩ := List.mem_map.1 he'
  rw [h d hd, h d' hd']

theorem replicas_converge_hopped :
    Converged (run deliver {} [hopped "a" (.fin 1), hopped "b" (.fin 2)])
      (run deliver {} [hopped "b" (.fin 2), hopped "a" (.fin 1), hopped "b" (.fin 2)]) := by
  have hplain : ∀ {node ts}, ts ≠ .nan → Plain (hopped node ts) := by
    intro node ts hts
    refine ⟨?_, ?_, nofun⟩
    · rintro r (rfl | rfl) <;> rfl
    · intro hop hhop
      obtain rfl := List.mem_singleton.1 hhop
      exact fun h => hts (Option.some.inj h)
  have ha : Plain (hopped "a" (.fin 1)) := hplain nofun
  have hb : Plain (hopped "b" (.fin 2)) := hplain nofun
  have hsame : SameContent ([(hopped "a" (.fin 1)).toIncoming, (hopped "b" (.fin 2)).toIncoming].map
      Incoming.envelope) :=
    hopped_sameContent [hopped "a" (.fin 1), hopped "b" (.fin 2)] (by simp [hopped])
  refine replicas_converge hsame ?_ ?_ (fun e => Iff.rfl) fun e => ?_
  · exact List.forall_mem_cons.2 ⟨ha, List.forall_mem_singleton.2 hb⟩
  · exact List.forall_mem_cons.2 ⟨hb, List.forall_mem_cons.2 ⟨ha, List.forall_mem_singleton.2 hb⟩⟩
  · simp only [List.map_cons, List.map_nil, List.mem_cons, List.not_mem_nil, or_false]
    exact ⟨fun h => by tauto, fun h => by tauto⟩

/-- With a NaN the order of arrival decides. -/
theorem nan_hop_diverges : ∃ d d' : Delivery, SameContent [d.envelope, d'.envelope] ∧
    consensusTimestamp "x" ["a"] 1 (run deliver {} [d, d']).envelopes ≠
      consensusTimestamp "x" ["a"] 1 (run deliver {} [d', d]).envelopes := by
  refine ⟨hopped "a" .nan, hopped "a" (.fin 1),
    hopped_sameContent [hopped "a" .nan, hopped "a" (.fin 1)] (by simp [hopped]), by decide +kernel⟩

/-- The same goes for a link that cannot be bound: the hop of `a` is recorded
only where the event is known already. -/
theorem lone_link_diverges : ∃ d d' : Delivery, SameContent [d.envelope, d'.envelope] ∧
    NoNan d.envelope.pathMeta ∧ NoNan d'.envelope.pathMeta ∧
    consensusTimestamp "x" ["a"] 1 (run deliver {} [d, d']).envelopes ≠
      consensusTimestamp "x" ["a"] 1 (run deliver {} [d', d]).envelopes := by
  refine ⟨{ hopped "a" (.fin 1) with loneLink := true }, hopped "b" (.fin 2),
    hopped_sameContent [hopped "a" (.fin 1), hopped "b" (.fin 2)] (by simp [hopped]), by decide, by decide,
    by decide +kernel⟩

end Mdrj.L3
