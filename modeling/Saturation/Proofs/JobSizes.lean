import Saturation.Proofs.Model
import Saturation.Proofs.Steps

/-!
What profiles over job sizes are built from. Counting packets by their whole job sizes and sorting flows
by their averages are different ways to come to the same thing: contributions in the order of their
keys, with the keys of all jobs and no others. For flows this is so because whole parts keep the order that
the averages are sorted in.
-/

set_option autoImplicit false

namespace Saturation

section

variable {α : Type} [Scalar α]

/-- What a policy serves by job size, each under its key: packets, which count as whole jobs, or flows
with all their jobs, under their averages. -/
def Policy.jobs (policy : Policy) (ps : List (Packet α)) : List (Nat × α) :=
  match policy with
  | .sjf => ps.map fun p => (Model.jobSizeKey p.jobSize, Scalar.ofNat (Model.jobSizeKey p.jobSize))
  | .sjfInorder =>
    (FlowTable.ofPackets ps).map fun f => (Model.jobSizeKey f.2.averageJobSize, f.2.jobSize)
  | .fcfs | .fq | .wsjf | .wsjfInorder => []

/-- What the profile of a policy adds up for a number of packets. -/
def Policy.contributions (policy : Policy) (packets : Nat) (ps : List (Packet α)) : List (Nat × α) :=
  match policy with
  | .sjf => (Histogram.ofKeys (ps.map fun p => Model.jobSizeKey p.jobSize)).map
      fun h => (h.1, Scalar.ofNat h.2 / Scalar.ofNat packets * Scalar.ofNat h.1)
  | .sjfInorder => ((FlowTable.ofPackets ps).sortedBy Flow.jobRank).map
      fun f => (Model.jobSizeKey f.averageJobSize, f.jobSize / Scalar.ofNat packets)
  | .fcfs | .fq | .wsjf | .wsjfInorder => []

variable {policy : Policy} {ps : List (Packet α)}

theorem Model.ofPackets_jobSizes (hpolicy : policy ∈ [Policy.sjf, .sjfInorder])
    (stats : Statistics α) (ps : List (Packet α)) :
    ∃ ranking, ofPackets policy stats ps =
      .ok (.byJobSize ranking
        (JobSizeProfile.ofSorted (policy.contributions stats.totalPackets ps))) := by
  cases policy with
  | fcfs | fq | wsjf | wsjfInorder => simp at hpolicy
  | sjf | sjfInorder => exact ⟨_, rfl⟩

theorem Policy.mem_contributions {packets k : Nat} :
    k ∈ (policy.contributions packets ps).map Prod.fst ↔ k ∈ (policy.jobs ps).map Prod.fst := by
  cases policy with
  | fcfs | fq | wsjf | wsjfInorder => exact Iff.rfl
  | sjf =>
    rw [contributions, jobs, List.map_map, List.map_map]
    exact Histogram.mem_keys
  | sjfInorder =>
    rw [contributions, jobs, List.map_map, List.map_map,
      ((FlowTable.sortedBy_perm Flow.jobRank _).map _).mem_iff, List.map_map]
    exact Iff.rfl

theorem Policy.contributions_pairwise [Scalar.IsOrdered α] (policy : Policy)
    (hjob : ∀ p ∈ ps, Scalar.IsNonneg p.jobSize) (packets : Nat) :
    (policy.contributions packets ps).Pairwise fun c d => c.1 ≤ d.1 := by
  cases policy with
  | fcfs | fq | wsjf | wsjfInorder => exact .nil
  | sjf =>
    rw [contributions, List.pairwise_map]
    exact (Histogram.ofKeys_ascending _).imp fun h => h.le
  | sjfInorder =>
    rw [contributions, List.pairwise_map]
    exact FlowTable.jobSizeKey_pairwise (FlowTable.isSound hjob)

/-- The keys of a profile are those of all jobs, each one once and in ascending order. -/
structure JobSizeProfile.HasKeys (p : JobSizeProfile α) (jobs : List (Nat × α)) : Prop where
  ascending : Ascending p.points
  mem_iff : ∀ k, k ∈ p.points.map Prod.fst ↔ k ∈ jobs.map Prod.fst

theorem Policy.contributions_holds [Scalar.IsOrdered α] (policy : Policy)
    (hjob : ∀ p ∈ ps, Scalar.IsNonneg p.jobSize) (packets : Nat) :
    Profile.Holds (JobSizeProfile.ofSorted (policy.contributions packets ps)).points
      (policy.contributions packets ps) :=
  JobSizeProfile.ofSorted_holds (policy.contributions_pairwise hjob packets)

theorem Policy.contributions_hasKeys [Scalar.IsOrdered α] (policy : Policy)
    (hjob : ∀ p ∈ ps, Scalar.IsNonneg p.jobSize) (packets : Nat) :
    (JobSizeProfile.ofSorted (policy.contributions packets ps)).HasKeys (policy.jobs ps) :=
  ⟨JobSizeProfile.ofSorted_ascending (policy.contributions_pairwise hjob packets),
    fun k => ((policy.contributions_holds hjob packets).keys k).trans mem_contributions⟩

end

end Saturation
