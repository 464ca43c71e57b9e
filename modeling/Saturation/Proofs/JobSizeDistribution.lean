import Saturation.Proofs.Distribution
import Saturation.Proofs.JobSizes

/-!
A profile over job sizes is a cumulative distribution. Its keys are those of all jobs, and in exact arithmetic
its value at a key is the share that each packet has of the jobs up to this key. No value falls behind
another one, on doubles neither.
-/

set_option autoImplicit false

namespace Saturation

open Exact (number)

/-- The jobs up to a key count as often as they occur. -/
theorem Histogram.sum_upTo (keys : List Nat) (key : Nat) :
    (((ofKeys keys).filter fun s => s.1 ≤ key).map fun s => s.2 * s.1).sum =
      (keys.filter fun k => k ≤ key).sum := by
  have h := sum_ofKeys keys fun k => if k ≤ key then k else 0
  simpa only [mul_ite, mul_zero, List.sum_map_ite, List.map_const', List.sum_replicate, smul_zero,
    add_zero, List.map_id'] using h

namespace Policy

variable {ps : List (Packet Exact)} {n : Nat}

theorem contributions_isAmount (policy : Policy) (hjob : ∀ p ∈ ps, p.jobSize.IsAmount) (hn : 0 < n) :
    ∀ c ∈ policy.contributions n ps, c.2.IsAmount := by
  have hn' : (0 : ℚ) < n := Nat.cast_pos.mpr hn
  cases policy with
  | fcfs | fq | wsjf | wsjfInorder => simp [contributions]
  | sjf =>
    exact List.forall_mem_map.mpr fun h _ =>
      ((Exact.isAmount_ofNat _).div hn').mul (Exact.isAmount_ofNat _)
  | sjfInorder =>
    refine List.forall_mem_map.mpr fun f hf => ?_
    obtain ⟨_, hf⟩ := FlowTable.mem_sortedBy hf
    exact (FlowTable.isSum hjob _ hf).jobSize.div hn'

/-- Up to every key, contributions are the share of the jobs. -/
theorem contributed_upTo (policy : Policy) (hjob : ∀ p ∈ ps, p.jobSize.IsAmount) (hn : 0 < n)
    (key : Nat) : contributed ((policy.contributions n ps).filter fun c => c.1 ≤ key) =
      contributed ((policy.jobs ps).filter fun j => j.1 ≤ key) / n := by
  have hn' : (n : ℚ) ≠ 0 := Nat.cast_ne_zero.mpr hn.ne'
  cases policy with
  | fcfs | fq | wsjf | wsjfInorder => simp [contributions, jobs, contributed]
  | sjf =>
    have hshare : ∀ s : Nat × Nat, (Scalar.ofNat s.2 / Scalar.ofNat n * Scalar.ofNat s.1 : Exact) =
        number (s.2 * s.1 : Nat) / number n := by
      intro s
      simp only [Exact.ofNat_eq, Exact.number_div _ hn', Exact.number_mul]
      push_cast
      rw [div_mul_eq_mul_div]
    have hsum := Histogram.sum_upTo (ps.map fun p => Model.jobSizeKey p.jobSize) key
    rw [List.filter_map] at hsum
    have hcast := congrArg (Nat.cast : Nat → ℚ) hsum
    rw [Nat.cast_list_sum, Nat.cast_list_sum, List.map_map, List.map_map] at hcast
    rw [contributions, jobs]
    simp only [hshare, List.filter_map]
    rw [contributed_div (fun s _ => Exact.isAmount_ofNat _) _ hn', contributed, List.map_map]
    exact congrArg (· / (n : ℚ)) hcast
  | sjfInorder =>
    have hamount : ∀ f ∈ (FlowTable.ofPackets ps).sortedBy Flow.jobRank, f.jobSize.IsAmount := by
      intro f hf
      obtain ⟨_, hf⟩ := FlowTable.mem_sortedBy hf
      exact (FlowTable.isSum hjob _ hf).jobSize
    rw [contributions, jobs, List.filter_map, Exact.ofNat_eq,
      contributed_div (fun f hf => hamount f (List.mem_of_mem_filter hf)) _ hn',
      (((FlowTable.sortedBy_perm Flow.jobRank _).filter _).map _).sum_eq, List.filter_map,
      List.map_map, contributed, List.filter_map, List.map_map]
    rfl

end Policy

/-- No key occurs more often than there are keys. -/
theorem Histogram.count_le (keys : List Nat) : ∀ s ∈ ofKeys keys, s.2 ≤ keys.length := by
  intro s hs
  have hsum := sum_ofKeys keys fun _ => 1
  simp only [mul_one, List.map_const', List.sum_replicate, smul_eq_mul] at hsum
  rw [← hsum]
  exact List.le_sum_of_mem (List.mem_map_of_mem hs)

theorem Policy.contributions_isNonneg (policy : Policy) {ps : List (Packet Float)}
    (hjob : ∀ p ∈ ps, Scalar.IsNonneg p.jobSize) (hpos : 0 < ps.length) (hlt : ps.length < 2 ^ 64) :
    ∀ c ∈ policy.contributions ps.length ps, Scalar.IsNonneg c.2 := by
  have htotal : Double.IsAmount (Scalar.ofNat ps.length) := Double.isAmount_ofNat hlt
  cases policy with
  | fcfs | fq | wsjf | wsjfInorder => simp [contributions]
  | sjf =>
    refine List.forall_mem_map.mpr fun h hh => ?_
    have hcount := Histogram.count_le _ h hh
    rw [List.length_map] at hcount
    have hkey : h.1 < 2 ^ 64 := by
      obtain ⟨p, -, hp⟩ := List.mem_map.mp (Histogram.mem_keys.mp (List.mem_map_of_mem hh))
      exact hp ▸ UInt64.toNat_lt _
    exact Double.isNonneg_mul (Double.isAmount_div (Double.isAmount_ofNat (hcount.trans_lt hlt))
      htotal (Double.ofNat_mono hpos)) (Double.isAmount_ofNat hkey)
  | sjfInorder =>
    refine List.forall_mem_map.mpr fun f hf => ?_
    obtain ⟨_, hf⟩ := FlowTable.mem_sortedBy hf
    exact Double.isNonneg_div_of_one_le (FlowTable.isSound hjob _ hf).isNonneg htotal
      (Double.ofNat_mono hpos)

/-! ### Traces -/

namespace Analysis

variable {bytes : List UInt8} {summary : TraceSummary} {policy : Policy}

/-- The profile of an accepted trace is built from what its policy contributes. -/
theorem ofTrace_jobSizes (hread : (Trace.read bytes).2 = .ok summary)
    (hpolicy : policy ∈ [Policy.sjf, .sjfInorder]) (bounds : AttackBounds Float) :
    ∃ z ranking, ofTrace bytes [policy] bounds = .ok ⟨summary, [z]⟩ ∧
      z.model = .byJobSize ranking (JobSizeProfile.ofSorted
        (policy.contributions (Trace.read bytes).1.length
          ((Trace.read bytes).1.map Record.packet))) := by
  obtain ⟨htotal, -⟩ := Statistics.totalPackets_eq (Trace.outcome_ok (Trace.read_outcome hread))
  obtain ⟨ranking, hmodel⟩ := Model.ofPackets_jobSizes hpolicy summary.statistics
    ((Trace.read bytes).1.map Record.packet)
  rw [htotal, List.length_map] at hmodel
  refine ⟨⟨policy, summary.statistics, bounds, _⟩, ranking, ?_, rfl⟩
  rw [ofTrace_single, alone, Analyzer.ofPackets, hmodel]
  exact ⟨hread, rfl⟩

theorem exact_jobSizes (hread : (Trace.read bytes).2 = .ok summary)
    (hpolicy : policy ∈ [Policy.sjf, .sjfInorder]) (bounds : AttackBounds Exact) :
    ∃ z ranking, exact bytes policy bounds = .ok z ∧
      z.model = .byJobSize ranking (JobSizeProfile.ofSorted
        (policy.contributions (Trace.read bytes).1.length
          ((Trace.read bytes).1.map Record.exact))) := by
  obtain ⟨z, hz⟩ := exact_isOk (by rw [hread]; rfl) bounds fun stats => by
    obtain ⟨ranking, hmodel⟩ := Model.ofPackets_jobSizes hpolicy stats
      ((Trace.read bytes).1.map Record.exact)
    exact ⟨_, hmodel⟩
  obtain ⟨hstats, rfl, -, hof⟩ := exact_packets hz
  obtain ⟨htotal, -⟩ := Statistics.totalPackets_eq hstats
  obtain ⟨ranking, hmodel⟩ := Model.ofPackets_jobSizes hpolicy z.statistics
    ((Trace.read bytes).1.map Record.exact)
  rw [hof, htotal, List.length_map] at hmodel
  exact ⟨z, ranking, hz, Except.ok.inj hmodel⟩

end Analysis

namespace JobSizeProfile

/-- At the key of each job, the share that each of some packets has of the jobs up to this key. -/
structure IsDistribution (p : JobSizeProfile Exact) (jobs : List (Nat × Exact)) (packets : Nat) :
    Prop where
  hasKeys : p.HasKeys jobs
  value_eq : ∀ s ∈ p.points,
    s.2 = number (contributed (jobs.filter fun j => j.1 ≤ s.1) / packets)
  climbing : p.points.Pairwise fun s t => s.2 ≤ t.2

theorem ofSorted_isDistribution {ps : List (Packet Exact)} (hjob : ∀ p ∈ ps, p.jobSize.IsAmount)
    (hpos : 0 < ps.length) (policy : Policy) :
    (ofSorted (policy.contributions ps.length ps)).IsDistribution (policy.jobs ps) ps.length := by
  have hnonneg : ∀ p ∈ ps, Scalar.IsNonneg p.jobSize := fun p hp => (hjob p hp).isNonneg
  have hamount := policy.contributions_isAmount hjob hpos
  have hkeys := policy.contributions_hasKeys hnonneg ps.length
  refine ⟨hkeys, fun s hs => ?_, (ofSorted_isRunning hamount).climbing⟩
  rw [← policy.contributed_upTo hjob hpos]
  exact (policy.contributions_holds hnonneg ps.length).value_eq hkeys.ascending
    (policy.contributions_pairwise hnonneg ps.length) hamount s hs

/-- On doubles the running totals do not fall either, as long as all packets can be counted. -/
theorem ofSorted_climbing {ps : List (Packet Float)} (hjob : ∀ p ∈ ps, Scalar.IsNonneg p.jobSize)
    (hpos : 0 < ps.length) (hlt : ps.length < 2 ^ 64) (policy : Policy) :
    (ofSorted (policy.contributions ps.length ps)).points.Pairwise fun s t => s.2 ≤ t.2 := by
  have hholds := policy.contributions_holds hjob ps.length
  have hascending := (policy.contributions_hasKeys hjob ps.length).ascending
  refine hascending.imp_of_mem fun {s t} hs ht hst => ?_
  rw [← Profile.valueAt_of_mem hascending hs, ← Profile.valueAt_of_mem hascending ht,
    hholds.valueAt, hholds.valueAt]
  exact Profile.totalUpTo_mono (policy.contributions_isNonneg hjob hpos hlt) hst.le

/-- The profile of a policy for an accepted trace has the keys of its jobs. Its values do not fall, and in
exact arithmetic they are the shares of the jobs up to each key. -/
theorem profiles_are_distributions {bytes : List UInt8} {summary : TraceSummary} {policy : Policy}
    (hread : (Trace.read bytes).2 = .ok summary) (hpolicy : policy ∈ [Policy.sjf, .sjfInorder]) :
    (∀ bounds : AttackBounds Float, ∃ z ranking p,
      Analysis.ofTrace bytes [policy] bounds = .ok ⟨summary, [z]⟩ ∧ z.model = .byJobSize ranking p ∧
        p.HasKeys (policy.jobs ((Trace.read bytes).1.map Record.packet)) ∧
        ((Trace.read bytes).1.length < 2 ^ 64 → p.points.Pairwise fun s t => s.2 ≤ t.2)) ∧
    ∀ bounds : AttackBounds Exact, ∃ z ranking p,
      Analysis.exact bytes policy bounds = .ok z ∧ z.model = .byJobSize ranking p ∧
        p.IsDistribution (policy.jobs ((Trace.read bytes).1.map Record.exact))
          (Trace.read bytes).1.length := by
  have hrecords := Trace.read_forall
    (P := fun r => Scalar.IsNonneg r.packet.jobSize ∧ r.exact.jobSize.IsAmount)
    (fun _ _ _ hr => ⟨Record.jobSize_isNonneg hr, Record.jobSize_isAmount hr⟩) bytes
  have hpos : 0 < (Trace.read bytes).1.length :=
    List.length_pos_iff.mpr (Trace.read_nonempty (by rw [hread]; rfl))
  constructor
  · intro bounds
    have hjob : ∀ p ∈ (Trace.read bytes).1.map Record.packet, Scalar.IsNonneg p.jobSize :=
      List.forall_mem_map.mpr fun r hr => (hrecords r hr).1
    obtain ⟨z, ranking, hz, hmodel⟩ := Analysis.ofTrace_jobSizes hread hpolicy bounds
    refine ⟨z, ranking, _, hz, hmodel, policy.contributions_hasKeys hjob _, fun hlt => ?_⟩
    have hclimbing := ofSorted_climbing hjob (by rwa [List.length_map]) (by rwa [List.length_map])
      policy
    rwa [List.length_map] at hclimbing
  · intro bounds
    have hjob : ∀ p ∈ (Trace.read bytes).1.map Record.exact, p.jobSize.IsAmount :=
      List.forall_mem_map.mpr fun r hr => (hrecords r hr).2
    obtain ⟨z, ranking, hz, hmodel⟩ := Analysis.exact_jobSizes hread hpolicy bounds
    have hdist := ofSorted_isDistribution hjob (by rwa [List.length_map]) policy
    rw [List.length_map] at hdist
    exact ⟨z, ranking, _, hz, hmodel, hdist⟩

theorem profiles_are_distributions_twoPackets :
    (∃ a z ranking p, Analysis.ofTrace twoPackets [.sjfInorder] ⟨1000.0, 8192⟩ = .ok a ∧
      z ∈ a.analyzers ∧ z.model = .byJobSize ranking p ∧
      p.HasKeys (Policy.sjfInorder.jobs ((Trace.read twoPackets).1.map Record.packet)) ∧
      p.points.Pairwise fun s t => s.2 ≤ t.2) ∧
    ∃ z ranking p, Analysis.exact twoPackets .sjfInorder ⟨number 1000, 8192⟩ = .ok z ∧
      z.model = .byJobSize ranking p ∧
      p.IsDistribution (Policy.sjfInorder.jobs ((Trace.read twoPackets).1.map Record.exact)) 2 := by
  have hisOk : (Trace.read twoPackets).2.isOk = true := by decide +kernel
  have hlength : (Trace.read twoPackets).1.length = 2 := by decide +kernel
  cases hread : (Trace.read twoPackets).2 with
  | error e => simp [hread, Except.isOk, Except.toBool] at hisOk
  | ok summary =>
    obtain ⟨hdoubles, hexact⟩ := profiles_are_distributions hread
      (by decide : Policy.sjfInorder ∈ [Policy.sjf, .sjfInorder])
    obtain ⟨z, ranking, p, ha, hmodel, hkeys, hclimbing⟩ := hdoubles ⟨1000.0, 8192⟩
    rw [hlength] at hclimbing hexact
    exact ⟨⟨_, z, ranking, p, ha, List.mem_singleton_self z, hmodel, hkeys, hclimbing (by decide)⟩,
      hexact ⟨number 1000, 8192⟩⟩

end JobSizeProfile

end Saturation
