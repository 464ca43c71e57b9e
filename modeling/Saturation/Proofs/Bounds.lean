import Saturation.Proofs.Attack
import Saturation.Proofs.JobSizes

/-!
The longest job that the adversary may have. Arrival order and fair shares emit this job; the other
policies never look at the bound, so it is kept only where the job that their scans settle on is
within it anyway.
-/

set_option autoImplicit false

namespace Saturation

open Exact (number infinite undefined)

section

variable {α : Type} [Scalar α]

/-- The emitted job is one that the adversary may have. -/
def Strategy.KeepsMaxJobSize (s : Strategy α) (max : α) : Prop :=
  Scalar.IsNonneg s.actualJobSize ∧ Scalar.atMost s.actualJobSize max = true

/-- Some point with a candidate within the bound saturates, or no point does and the longest job of
the trace is within the bound. -/
def JobSizeProfile.FitsWithin (p : JobSizeProfile α) (rates : Rates α) (stats : Statistics α)
    (max : α) : Prop :=
  (∃ s ∈ p.points, isSaturated (workAt rates stats s) = true ∧
      Scalar.atMost (candidate s.1) max = true) ∨
    (∀ s ∈ p.points, isSaturated (workAt rates stats s) = false) ∧
      Scalar.atMost stats.maximumJobSize max = true

instance (p : JobSizeProfile α) (rates : Rates α) (stats : Statistics α) (max : α) :
    Decidable (p.FitsWithin rates stats max) := inferInstanceAs (Decidable (_ ∨ _))

/-- What it takes at some rates that the emitted job is within a bound. -/
def Analyzer.FitsWithin (z : Analyzer α) (rates : Rates α) (max : α) : Prop :=
  match z.model with
  | .arrival | .shares _ => Scalar.IsNonneg max
  | .byJobSize _ profile => profile.FitsWithin rates z.statistics max
  | .byCostRatio _ profile => ∀ slot, profile.IsLimit rates z.statistics slot →
      Scalar.atMost (Attack.ofCostRatio (slotRatio slot) z.bounds.minPacketSize).jobSize max = true

theorem Totals.jobMax_isNonneg {ps : List (Packet α)} (h : ∀ p ∈ ps, Scalar.IsNonneg p.jobSize) :
    ∀ t : Totals α, Scalar.IsNonneg t.jobMax → Scalar.IsNonneg (ps.foldl add t).jobMax := by
  induction ps with
  | nil => exact fun _ ht => ht
  | cons p ps ih =>
    intro t ht
    exact ih (fun q hq => h q (List.mem_cons_of_mem _ hq)) _ (ht.larger (h p (by simp)))

variable [Scalar.IsOrdered α]

theorem Statistics.maximumJobSize_isNonneg {ps : List (Packet α)}
    (h : ∀ p ∈ ps, Scalar.IsNonneg p.jobSize) {stats : Statistics α}
    (hs : ofPackets ps = .ok stats) : Scalar.IsNonneg stats.maximumJobSize := by
  obtain ⟨-, hs⟩ := ofPackets_ok hs
  unfold Totals.statistics at hs
  split at hs
  · cases hs
  · cases hs
    exact Totals.jobMax_isNonneg h Totals.empty (Scalar.isNonneg_ofNat 0)

theorem Attack.jobSize_isNonneg (ratio : α) (minSize : UInt64) :
    Scalar.IsNonneg (ofCostRatio ratio minSize).jobSize := by
  unfold ofCostRatio
  dsimp only
  split <;> exact Scalar.isNonneg_ofNat _

namespace JobSizeProfile

variable {p : JobSizeProfile α} {rates : Rates α} {stats : Statistics α} {max : α}

theorem threshold_isNonneg (h : Scalar.IsNonneg stats.maximumJobSize) :
    Scalar.IsNonneg (p.threshold rates stats).limit := by
  unfold threshold
  split
  · exact Scalar.isNonneg_ofNat _
  · exact h

theorem threshold_atMost_iff (hp : Ascending p.points) :
    Scalar.atMost (p.threshold rates stats).limit max = true ↔ p.FitsWithin rates stats max := by
  unfold threshold FitsWithin
  cases h : p.points.find? fun s => isSaturated (workAt rates stats s) with
  | none =>
    rw [List.find?_eq_none] at h
    simp only [Bool.not_eq_true] at h
    constructor
    · exact fun hle => .inr ⟨h, hle⟩
    · rintro (⟨s, hs, hsat, -⟩ | ⟨-, hle⟩)
      · simp [h s hs] at hsat
      · exact hle
  | some s =>
    obtain ⟨hsat, before, behind, hpoints, hbefore⟩ := List.find?_eq_some_iff_append.mp h
    constructor
    · exact fun hle => .inl ⟨s, List.mem_of_find?_eq_some h, hsat, hle⟩
    · rintro (⟨t, ht, htsat, hle⟩ | ⟨hnone, -⟩)
      · -- The first point that saturates has the least candidate.
        have hst : s.1 ≤ t.1 := by
          rw [Ascending, hpoints, List.pairwise_append] at hp
          rw [hpoints] at ht
          rcases List.mem_append.mp ht with ht | ht
          · have hno := hbefore t ht
            simp [htsat] at hno
          · rcases List.mem_cons.mp ht with rfl | ht
            · exact le_rfl
            · exact ((List.pairwise_cons.mp hp.2.1).1 t ht).le
        exact Scalar.IsOrdered.atMost_trans
          (Scalar.IsOrdered.ofNat_mono (Nat.sub_le_sub_right hst 1)) hle
      · simp [hnone s (List.mem_of_find?_eq_some h)] at hsat

end JobSizeProfile

namespace Analyzer

/-- The bound is kept exactly where the model of the policy has room for it. -/
theorem keepsMaxJobSize_iff_fitsWithin {z : Analyzer α} {ps : List (Packet α)}
    (h : ∀ p ∈ ps, Scalar.IsNonneg p.jobSize)
    (hstats : Statistics.ofPackets ps = .ok z.statistics)
    (hm : Model.ofPackets z.policy z.statistics ps = .ok z.model) (rates : Rates α) :
    (z.strategy rates).KeepsMaxJobSize z.bounds.maxJobSize ↔
      z.FitsWithin rates z.bounds.maxJobSize := by
  have hascending := Model.ofPackets_isAscending h hm
  have hmax := Statistics.maximumJobSize_isNonneg h hstats
  unfold Strategy.KeepsMaxJobSize strategy FitsWithin
  cases hmodel : z.model with
  | arrival | shares flows =>
    exact ⟨And.left, fun h => ⟨h, Scalar.IsOrdered.isNumber_of_atMost h⟩⟩
  | byJobSize ranking profile =>
    rw [hmodel] at hascending
    exact (and_iff_right (JobSizeProfile.threshold_isNonneg hmax)).trans
      (JobSizeProfile.threshold_atMost_iff hascending)
  | byCostRatio ranking profile =>
    rw [hmodel] at hascending
    obtain ⟨slot, hslot, hlimit⟩ := profile.threshold_isLimit hascending rates z.statistics
    refine (and_iff_right (Attack.jobSize_isNonneg _ _)).trans ?_
    dsimp only [Attack.strategy]
    rw [hlimit]
    exact ⟨fun hle slot' hslot' => hslot.unique hslot' ▸ hle, fun hall => hall slot hslot⟩

end Analyzer

end

theorem Analysis.mem_of_analyzer? {bytes : List UInt8} {policies : List Policy}
    {bounds : AttackBounds Float} {policy : Policy} {z : Analyzer Float}
    (h : (ofTrace bytes policies bounds).toOption.bind (·.analyzer? policy) = some z) :
    ∃ a, ofTrace bytes policies bounds = .ok a ∧ z ∈ a.analyzers := by
  obtain ⟨a, ha, hz⟩ := Option.bind_eq_some_iff.mp h
  exact ⟨a, ok_of_toOption ha, List.mem_of_find?_eq_some hz⟩

namespace Analyzer

/-- In every analysis of a trace, at all rates, the bound is kept exactly where the model of the
policy has room for it. -/
theorem keepsMaxJobSize_iff {bytes : List UInt8} {policies : List Policy}
    {bounds : AttackBounds Float} {a : Analysis}
    (ha : Analysis.ofTrace bytes policies bounds = .ok a) {z : Analyzer Float}
    (hz : z ∈ a.analyzers) (rates : Rates Float) :
    (z.strategy rates).KeepsMaxJobSize bounds.maxJobSize ↔
      z.FitsWithin rates bounds.maxJobSize := by
  obtain ⟨ps, hjobs, hstats, rfl, hm⟩ := Analysis.ofTrace_mem ha hz
  exact keepsMaxJobSize_iff_fitsWithin hjobs hstats hm rates

/-- Two jobs of 5000 ns. -/
def longJobs : List UInt8 := "0;1;a;x;1000;5000\n2;3;b;x;1000;5000\n".toUTF8.toList

/-- The analyzer of a policy for these jobs. -/
def ofLongJobs (policy : Policy) (maxJobSize : Float) : Option (Analyzer Float) :=
  (Analysis.ofTrace longJobs [policy] ⟨maxJobSize, 8192⟩).toOption.bind (·.analyzer? policy)

theorem ofLongJobs_mem {policy : Policy} {maxJobSize : Float} {z : Analyzer Float}
    (h : ofLongJobs policy maxJobSize = some z) :
    ∃ a, Analysis.ofTrace longJobs [policy] ⟨maxJobSize, 8192⟩ = .ok a ∧ z ∈ a.analyzers :=
  Analysis.mem_of_analyzer? h

theorem keepsMaxJobSize_iff_longJobs : ∃ z, ofLongJobs .sjf 5000.0 = some z ∧
    (z.strategy ⟨0.05, 0.05⟩).KeepsMaxJobSize 5000.0 := by
  have hfits : (ofLongJobs .sjf 5000.0).map (fun z => match z.model with
      | .byJobSize _ profile => decide (profile.FitsWithin ⟨0.05, 0.05⟩ z.statistics 5000.0)
      | _ => false) = some true := by
    decide +kernel
  obtain ⟨z, hz, hfits⟩ := Option.map_eq_some_iff.mp hfits
  obtain ⟨a, ha, hmem⟩ := ofLongJobs_mem hz
  refine ⟨z, hz, (keepsMaxJobSize_iff ha hmem _).mpr ?_⟩
  unfold FitsWithin
  cases hm : z.model with
  | arrival | shares _ | byCostRatio _ _ => simp [hm] at hfits
  | byJobSize ranking profile => simpa [hm] using hfits

/-- Ranking by job size takes a job of 5000 ns where 1000 ns are allowed. -/
theorem not_keepsMaxJobSize : ¬ ∀ (bytes : List UInt8) (policies : List Policy)
    (bounds : AttackBounds Float) (a : Analysis) (z : Analyzer Float) (rates : Rates Float),
    Analysis.ofTrace bytes policies bounds = .ok a → z ∈ a.analyzers →
      (z.strategy rates).KeepsMaxJobSize bounds.maxJobSize := by
  intro h
  have hjob : (ofLongJobs .sjf 1000.0).map
      (fun z => (z.strategy ⟨0.05, 0.05⟩).actualJobSize) = some 5000.0 := by
    decide +kernel
  obtain ⟨z, hz, hjob⟩ := Option.map_eq_some_iff.mp hjob
  obtain ⟨a, ha, hmem⟩ := ofLongJobs_mem hz
  have hle := (h _ _ _ a z ⟨0.05, 0.05⟩ ha hmem).2
  rw [hjob] at hle
  revert hle
  decide +kernel

end Analyzer

/-! ### All rates -/

/-- No key of a job exceeds the longest job of the trace. -/
theorem Policy.key_le {ps : List (Packet Exact)} (h : Traffic ps) (policy : Policy) :
    ∀ j ∈ policy.jobs ps, (j.1 : ℚ) ≤ longestJob ps := by
  cases policy with
  | fcfs | fq | wsjf | wsjfInorder => simp [jobs]
  | sjf =>
    refine List.forall_mem_map.mpr fun p hp => ?_
    obtain ⟨q, hq0, hq⟩ := h.jobSize_isAmount p hp
    dsimp only
    rw [hq]
    exact (Model.jobSizeKey_le hq0).trans (jobSize_le_longestJob hp hq)
  | sjfInorder =>
    refine List.forall_mem_map.mpr fun f hf => ?_
    obtain ⟨q, hq0, hq, hf⟩ := (FlowTable.isSum h.jobSize_isAmount f hf).averageJobSize
    dsimp only
    rw [hf]
    exact (Model.jobSizeKey_le hq0).trans hq

theorem Model.key_le {ps : List (Packet Exact)} (h : Traffic ps) {policy : Policy}
    {stats : Statistics Exact} {ranking : Ranking Exact} {profile : JobSizeProfile Exact}
    (hm : ofPackets policy stats ps = .ok (.byJobSize ranking profile)) :
    ∀ s ∈ profile.points, (s.1 : ℚ) ≤ longestJob ps := by
  intro s hs
  have hpolicy : policy ∈ [Policy.sjf, .sjfInorder] := by
    cases policy with
    | fcfs | fq => cases hm
    | wsjf | wsjfInorder =>
      obtain ⟨_, _, h⟩ := byCostRatio_of_policy (by simp) hm
      cases h
    | sjf | sjfInorder => simp
  obtain ⟨_, hmodel⟩ := ofPackets_jobSizes hpolicy stats ps
  rw [hmodel] at hm
  cases hm
  have hkeys := policy.contributions_hasKeys (fun p hp => (h.jobSize_isAmount p hp).isNonneg)
    stats.totalPackets
  obtain ⟨j, hj, hkey⟩ := List.mem_map.mp ((hkeys.mem_iff s.1).mp (List.mem_map_of_mem hs))
  rw [← hkey]
  exact policy.key_le h j hj

/-- No job that a scan over job sizes settles on is longer than the longest job of the trace. -/
theorem Model.candidate_le {ps : List (Packet Exact)} (h : Traffic ps) {policy : Policy}
    {stats : Statistics Exact} {ranking : Ranking Exact} {profile : JobSizeProfile Exact}
    (hm : ofPackets policy stats ps = .ok (.byJobSize ranking profile)) :
    ∀ s ∈ profile.points, (JobSizeProfile.candidate s.1 : Exact) ≤ number (longestJob ps) := by
  intro s hs
  rw [candidate_eq, Exact.number_le]
  exact (Nat.cast_le.mpr (Nat.sub_le s.1 1)).trans (key_le h hm s hs)

/-! ### Which thresholds are reached -/

variable {stats : Statistics Exact}

theorem innocentWork_idle (hs : stats.IsSound) {x : Exact} (hx : x.IsAmount) (a : Exact) :
    innocentWork ⟨number 0, a⟩ stats x = number 0 := by
  obtain ⟨q, -, rfl⟩ := hx
  rw [innocentWork_number hs.size_pos, zero_div, zero_mul]

/-- Without any traffic a scan over job sizes is exhausted. -/
theorem JobSizeProfile.threshold_idle (hs : stats.IsSound) {p : JobSizeProfile Exact}
    (hp : p.IsCost) :
    (p.threshold ⟨number 0, number 0⟩ stats).limit = stats.maximumJobSize := by
  have hnone : p.points.find?
      (fun s => isSaturated (workAt ⟨number 0, number 0⟩ stats s)) = none := by
    rw [List.find?_eq_none]
    intro s hmem
    rw [isSaturated_iff, workAt, innocentWork_idle hs (hp.isAmount s hmem), candidate_eq,
      jobSizeAttackWork_number, Exact.number_add, Exact.number_le]
    norm_num
  rw [threshold, hnone]
  rfl

/-- Every slot of a table is the limit of some attack without innocent traffic. -/
theorem RatioProfile.exists_isLimit (hs : stats.IsSound) {p : RatioProfile Exact}
    (hp : p.IsCost) {slot : Nat} (h : slot ≤ p.size - 1) :
    ∃ a : ℚ, 0 ≤ a ∧ p.IsLimit ⟨number 0, number a⟩ stats slot := by
  have hwork : ∀ (a : ℚ) (i : Nat), isSaturated (p.workAt ⟨number 0, number a⟩ stats i) =
      decide (4096 ≤ a * i) := by
    intro a i
    rw [Bool.eq_iff_iff, isSaturated_iff, decide_eq_true_iff, workAt,
      innocentWork_idle hs (valueAt_isAmount hp.isAmount i), slotRatio_eq,
      costRatioAttackWork_number, Exact.number_add, Exact.number_le, zero_add, ← mul_div_assoc,
      le_div_iff₀ (by norm_num), one_mul]
  rcases h.eq_or_lt with rfl | hlt
  · refine ⟨0, le_rfl, le_rfl, .inr fun i _ => ?_, by omega⟩
    rw [hwork]
    norm_num
  · -- The work of this attack saturates from the slot behind on.
    have hpos : (0 : ℚ) < (slot + 1 : Nat) := Nat.cast_pos.mpr (Nat.succ_pos slot)
    have hsat : ∀ i : Nat, isSaturated
        (p.workAt ⟨number 0, number (4096 / (slot + 1 : Nat))⟩ stats i) = decide (slot + 1 ≤ i) := by
      intro i
      rw [hwork, decide_eq_decide, div_mul_eq_mul_div, le_div_iff₀ hpos,
        mul_le_mul_iff_of_pos_left (by norm_num), Nat.cast_le]
    refine ⟨4096 / (slot + 1 : Nat), by positivity, h, .inr fun i hi => ?_, fun _ => .inr ?_⟩
    · rw [hsat, decide_eq_false_iff_not]
      omega
    · rw [hsat, decide_eq_true_iff]

namespace Analyzer

/-- In exact arithmetic: when the bound is kept at all rates. -/
theorem keepsMaxJobSize_forall_iff {bytes : List UInt8} {policy : Policy}
    {bounds : AttackBounds Exact} {z : Analyzer Exact}
    (hz : Analysis.exact bytes policy bounds = .ok z) :
    (∀ r a : ℚ, 0 ≤ r → 0 ≤ a →
        (z.strategy ⟨number r, number a⟩).KeepsMaxJobSize bounds.maxJobSize) ↔
      match z.model with
      | .arrival | .shares _ => number 0 ≤ bounds.maxJobSize
      | .byJobSize _ _ => z.statistics.maximumJobSize ≤ bounds.maxJobSize
      | .byCostRatio _ profile => ∀ slot ≤ profile.size - 1,
          (Attack.ofCostRatio (slotRatio slot) bounds.minPacketSize).jobSize ≤ bounds.maxJobSize := by
  obtain ⟨ps, hps, hstats, rfl, rfl, hmodel, hof⟩ := Analysis.exact_ok hz
  have hs := hps.statistics_isSound hstats
  obtain ⟨-, -, -, hlongest, -⟩ := hps.statistics hstats
  have hiff : ∀ r a : ℚ, (z.strategy ⟨number r, number a⟩).KeepsMaxJobSize z.bounds.maxJobSize ↔
      z.FitsWithin ⟨number r, number a⟩ z.bounds.maxJobSize :=
    fun r a => keepsMaxJobSize_iff_fitsWithin
      (fun p hp => (hps.jobSize_isAmount p hp).isNonneg) hstats hof _
  simp only [hiff, FitsWithin]
  cases hm : z.model with
  | arrival | shares flows =>
    simp only [Scalar.IsNonneg, Exact.zero_eq, Exact.atMost_iff]
    exact ⟨fun h => h 0 0 le_rfl le_rfl, fun h _ _ _ _ => h⟩
  | byJobSize ranking profile =>
    rw [hm] at hmodel hof
    simp only [← JobSizeProfile.threshold_atMost_iff hmodel.2.ascending, Exact.atMost_iff]
    constructor
    · intro h
      have := h 0 0 le_rfl le_rfl
      rwa [JobSizeProfile.threshold_idle hs hmodel.2] at this
    · intro h r a _ _
      unfold JobSizeProfile.threshold
      split
      · rename_i s hfind
        have hle := Model.candidate_le hps hof s (List.mem_of_find?_eq_some hfind)
        exact Exact.le_trans (hlongest ▸ hle) h
      · exact h
  | byCostRatio ranking profile =>
    rw [hm] at hmodel
    simp only [Exact.atMost_iff]
    constructor
    · intro h slot hslot
      obtain ⟨a, ha, hlimit⟩ := RatioProfile.exists_isLimit hs hmodel.2 hslot
      exact h 0 a le_rfl ha slot hlimit
    · intro h r a _ _ slot hslot
      exact h slot hslot.le

end Analyzer

end Saturation
