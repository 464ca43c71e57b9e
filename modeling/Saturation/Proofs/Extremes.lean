import Saturation.Proofs.Admission
import Saturation.Proofs.JobSizes
import Saturation.Proofs.Unattacked

/-!
The two ends of what an attack does. Beside an attack that the whole profile fits, all that is ranked is
served, and nothing is displaced. An attack that alone saturates the first point that can be told from an
empty one is in front of all that is ranked, and displaces all of it: the exact values that admission
looks at are never below the whole keys that a scan goes through.
-/

set_option autoImplicit false

namespace Saturation

open Exact (number infinite undefined)

theorem Exact.not_le_of_lt {x y : Exact} (h : x < y) : ¬ y ≤ x := by
  have h : Scalar.below x y = true := h
  rw [Scalar.below, Bool.and_eq_true, Bool.not_eq_true'] at h
  exact ne_true_of_eq_false h.2

/-- What a goodput leaves of the ideal one is displaced, for each unit of the attack. -/
theorem Estimate.displacement_ofGoodput (stats : Statistics Exact) (r a : ℚ) (g : Exact) :
    (ofGoodput ⟨number r, number a⟩ stats g).displacement =
      number ((stats.rMax.cap r - g.cap (stats.rMax.cap r)) / a) := by
  have hzero : Scalar.isZero (number a) = decide (a = 0) := by
    rw [Bool.eq_iff_iff, decide_eq_true_iff, Scalar.isZero, Bool.and_eq_true, Exact.zero_eq,
      Exact.atMost_iff, Exact.atMost_iff, Exact.number_le, Exact.number_le]
    exact le_antisymm_iff.symm
  have hloss : stats.idealGoodput (number r) - Scalar.smaller g (stats.idealGoodput (number r)) =
      number (stats.rMax.cap r - g.cap (stats.rMax.cap r)) := by
    rw [idealGoodput_eq, Exact.smaller_number_right]
    rfl
  unfold ofGoodput
  dsimp only
  rw [hzero, hloss, Exact.zero_eq, Exact.larger_number,
    max_eq_left (sub_nonneg.mpr (Exact.cap_le g _))]
  by_cases ha : a = 0
  · simp [ha]
  · simp [ha, Exact.number_div]

/-! ### What is ranked -/

section

variable {α : Type} [Scalar α]

/-- No slot of what a table is built from is behind the last one of the table. -/
theorem RatioProfile.build_last (rest : List (α × α)) :
    ∀ (made : List (Nat × α)) (sum : α) (steps : List (Nat × α)), build made sum rest = .ok steps →
      ∀ k, (∃ s ∈ made.head?, k ≤ s.1) ∨ (∃ c ∈ rest, k ≤ ratioSlot c.1) →
        ∃ s ∈ steps.getLast?, k ≤ s.1 := by
  induction rest with
  | nil =>
    rintro made sum steps ⟨⟩ k (h | ⟨c, hc, -⟩)
    · rwa [List.getLast?_reverse]
    · exact absurd hc List.not_mem_nil
  | cons c rest ih =>
    obtain ⟨ratio, contribution⟩ := c
    intro made sum steps h k hk
    simp only [List.exists_mem_cons_iff, ← or_assoc] at hk
    unfold build at h
    dsimp only at h
    split at h
    · cases h
    · cases made with
      | nil => exact ih _ _ _ h k (hk.imp_left fun hk => ⟨_, rfl, by simpa using hk⟩)
      | cons s below =>
        obtain ⟨last, value⟩ := s
        dsimp only at h
        -- The last slot made so far is not below this one, or this one becomes the last.
        split at h <;> refine ih _ _ _ h k (hk.imp_left fun hk => ⟨_, rfl, ?_⟩) <;>
          simp only [List.head?_cons, Option.mem_def, Option.some.injEq, exists_eq_left'] at hk ⊢ <;>
          omega

theorem RatioProfile.ofSorted_size {contributions : List (α × α)} {p : RatioProfile α}
    (h : ofSorted contributions = .ok p) : ∀ c ∈ contributions, ratioSlot c.1 < p.size := by
  intro c hc
  unfold ofSorted at h
  split at h
  · rename_i steps hsteps
    cases h
    obtain ⟨s, hs, hle⟩ := build_last contributions [] _ steps hsteps _ (.inr ⟨c, hc, le_rfl⟩)
    rw [size, hs, Option.elim_some]
    exact Nat.lt_succ_of_le hle
  · cases h

namespace Model

variable {policy : Policy} {stats : Statistics α} {ps : List (Packet α)} {model : Model α}

/-- A policy that ranks has a ranking. -/
theorem exists_ranking (hpolicy : policy ∈ [Policy.sjf, .sjfInorder, .wsjf, .wsjfInorder])
    (hm : ofPackets policy stats ps = .ok model) :
    ∃ ranking, model.ranking? = some ranking ∧ ranking.Perm (policy.items ps) := by
  refine (ranking_cases hm).resolve_right fun ⟨_, hnone⟩ => ?_
  cases policy <;> simp at hpolicy hnone

/-- A table has a slot for each ratio that is ranked. -/
theorem exists_table (hpolicy : policy ∈ [Policy.wsjf, .wsjfInorder])
    (hm : ofPackets policy stats ps = .ok model) :
    ∃ ranking profile, model = .byCostRatio ranking profile ∧
      ∀ x ∈ ranking, ratioSlot x.1 < profile.size := by
  cases policy with
  | fcfs | fq | sjf | sjfInorder => simp at hpolicy
  | wsjf =>
    dsimp only [ofPackets, ofCostRatios] at hm
    split at hm
    · rename_i profile hp
      cases hm
      have hsize := RatioProfile.ofSorted_size hp
      rw [List.forall_mem_map] at hsize
      exact ⟨_, profile, rfl, List.forall_mem_map.mpr hsize⟩
    · cases hm
  | wsjfInorder =>
    dsimp only [ofPackets, ofFlowCostRatios, ofTableCostRatios] at hm
    split at hm
    · rename_i profile hp
      cases hm
      have hsize := RatioProfile.ofSorted_size hp
      rw [List.forall_mem_map] at hsize
      exact ⟨_, profile, rfl, List.forall_mem_map.mpr hsize⟩
    · cases hm

end Model

theorem Policy.map_jobs_eq {policy : Policy} (hpolicy : policy ∈ [Policy.sjf, .sjfInorder])
    (ps : List (Packet α)) :
    (policy.jobs ps).map Prod.fst = (policy.items ps).map fun x => Model.jobSizeKey x.1 := by
  cases policy with
  | fcfs | fq | wsjf | wsjfInorder => simp at hpolicy
  | sjf => simp [jobs, items, Function.comp_def]
  | sjfInorder => simp [jobs, items, Function.comp_def]

end

theorem Model.Covers.bits_eq {total : Nat} {model : Model Exact} (h : model.Covers total)
    {ranking : Ranking Exact} (hr : model.ranking? = some ranking) : ranking.bits = total := by
  cases model with
  | arrival | shares flows => cases hr
  | byJobSize _ profile | byCostRatio _ profile =>
    cases hr
    exact h.1

theorem Policy.items_isAmount {policy : Policy} (hpolicy : policy ∈ [Policy.sjf, .sjfInorder])
    {ps : List (Packet Exact)} (h : ∀ p ∈ ps, p.jobSize.IsAmount) :
    ∀ x ∈ policy.items ps, x.1.IsAmount := by
  cases policy with
  | fcfs | fq | wsjf | wsjfInorder => simp at hpolicy
  | sjf => exact List.forall_mem_map.mpr h
  | sjfInorder =>
    simp only [items, List.forall_mem_map]
    intro f hf
    obtain ⟨q, hq, -, hf⟩ := (FlowTable.isSum h f hf).averageJobSize
    exact ⟨q, hq, hf⟩

/-! ### Scans that fit -/

namespace Analyzer

variable {z : Analyzer Exact} {r a : ℚ}

theorem strategy_rankedEstimate (hs : z.statistics.IsSound) {ranking : Ranking Exact}
    {t : Threshold Exact} (hr : z.model.ranking? = some ranking)
    (ht : z.threshold? ⟨number r, number a⟩ = some t) :
    let ideal := z.statistics.rMax.cap r
    let goodput := min (r * z.servedShare ranking t) ideal
    (z.strategy ⟨number r, number a⟩).expectedGoodput = number goodput ∧
      (z.strategy ⟨number r, number a⟩).expectedDisplacement = number ((ideal - goodput) / a) := by
  obtain ⟨hgoodput, hdisplacement⟩ := strategy_estimate hr ht
  have hestimate := rankedEstimate_eq (r := r) hs ranking (number a) t
  rw [rankedEstimate] at hestimate
  rw [hgoodput, hdisplacement, hestimate, Estimate.goodput_ofGoodput,
    Estimate.displacement_ofGoodput]
  exact ⟨rfl, rfl⟩

/-- Every policy that ranks has a threshold at all rates. If the scan of it is exhausted, then innocent
traffic has the ideal goodput and nothing is displaced; so what is displaced at all is displaced by a
scan that saturates. -/
theorem displaces_nothing_of_exhausted {bytes : List UInt8} {policy : Policy}
    {bounds : AttackBounds Exact}
    (hpolicy : policy ∈ [Policy.sjf, .sjfInorder, .wsjf, .wsjfInorder])
    (hz : Analysis.exact bytes policy bounds = .ok z) (hr : 0 ≤ r) (a : ℚ) :
    ∃ t, z.threshold? ⟨number r, number a⟩ = some t ∧
      let s := z.strategy ⟨number r, number a⟩
      (∀ l, t = .exhausted l →
        s.expectedGoodput = Scalar.smaller (number r) z.statistics.rMax ∧
          s.expectedDisplacement = number 0) ∧
      (number 0 < s.expectedDisplacement → ∃ l, t = .saturated l) := by
  obtain ⟨ps, hps, hstats, rfl, rfl, hmodel, hof⟩ := Analysis.exact_ok hz
  have hs := hps.statistics_isSound hstats
  obtain ⟨ranking, hranking, -⟩ := Model.exists_ranking hpolicy hof
  obtain ⟨t, ht⟩ := exists_threshold hranking ⟨number r, number a⟩
  obtain ⟨hgoodput, hdisplacement⟩ := strategy_rankedEstimate hs hranking ht
  have hnothing : ∀ l, t = .exhausted l →
      (z.strategy ⟨number r, number a⟩).expectedGoodput =
          Scalar.smaller (number r) z.statistics.rMax ∧
        (z.strategy ⟨number r, number a⟩).expectedDisplacement = number 0 := by
    rintro l rfl
    have hall := ideal_le_exhausted hps hstats (hmodel.bits_eq hranking) hr l
    rw [Estimate.idealGoodput_eq, Exact.number_le] at hall
    rw [hgoodput, hdisplacement, min_eq_right hall, sub_self, zero_div, Exact.smaller_number_left]
    exact ⟨rfl, rfl⟩
  refine ⟨t, ht, hnothing, fun hpos => ?_⟩
  cases t with
  | saturated l => exact ⟨l, rfl⟩
  | exhausted l =>
    rw [(hnothing l rfl).2, Exact.number_lt] at hpos
    exact absurd hpos (lt_irrefl 0)

theorem displaces_nothing_of_exhausted_smallPackets :
    ∃ z, Analysis.exact smallPackets .sjf ⟨number 1000, 8192⟩ = .ok z ∧
      z.threshold? ⟨number (1 / 2), number (1 / 2)⟩ = some (.exhausted z.statistics.maximumJobSize) ∧
      let s := z.strategy ⟨number (1 / 2), number (1 / 2)⟩
      s.expectedGoodput = Scalar.smaller (number (1 / 2)) z.statistics.rMax ∧
        s.expectedDisplacement = number 0 := by
  obtain ⟨z, hz⟩ := Analysis.exact_smallPackets ⟨number 1000, 8192⟩
  obtain ⟨t, ht, hnothing, -⟩ := displaces_nothing_of_exhausted (by decide) hz
    (r := 1 / 2) (by norm_num) (1 / 2)
  have hfits : z.threshold? ⟨number (1 / 2), number (1 / 2)⟩ =
      some (.exhausted z.statistics.maximumJobSize) := by
    obtain ⟨hstats, hpolicy, -, hof⟩ := Analysis.exact_packets hz
    rw [hpolicy] at hof
    have hmem : Policy.sjf ∈ [Policy.sjf, .sjfInorder] := by decide
    obtain ⟨_, hm⟩ := Model.ofPackets_jobSizes hmem z.statistics
      ((Trace.read smallPackets).1.map Record.exact)
    rw [hof, Except.ok.injEq] at hm
    rw [threshold?, hm]
    refine congrArg some (JobSizeProfile.threshold_of_fits fun s hs => ?_)
    have hwork : (Statistics.ofPackets ((Trace.read smallPackets).1.map Record.exact)
        |>.toOption.map fun stats =>
          (JobSizeProfile.ofSorted (Policy.sjf.contributions stats.totalPackets
            ((Trace.read smallPackets).1.map Record.exact))).points.all fun s =>
              !isSaturated (JobSizeProfile.workAt ⟨number (1 / 2), number (1 / 2)⟩ stats s)) =
        some true := by
      decide +kernel
    rw [hstats] at hwork
    simpa using List.all_eq_true.mp (Option.some.inj hwork) s hs
  rw [hfits] at ht
  cases ht
  exact ⟨z, hz, hfits, hnothing _ rfl⟩

end Analyzer

/-! ### Scans that stop at once -/

section

variable {stats : Statistics Exact} {r a : ℚ}

/-- An attack that uses up the scheduler with jobs just small enough for a key stops a scan at this key. -/
theorem JobSizeProfile.threshold_below {p : JobSizeProfile Exact} (hp : p.IsCost) (hs : stats.IsSound)
    (hr : 0 ≤ r) {j : Nat} (hj : j ∈ p.points.map Prod.fst) (hle : 2 ≤ j)
    (ha : 512 / ((j : ℚ) - 1) ≤ a) :
    ∃ k < j, p.threshold ⟨number r, number a⟩ stats = .saturated (number (k : ℚ)) := by
  obtain ⟨s, hmem, rfl⟩ := List.mem_map.mp hj
  have hpred : ((s.1 - 1 : Nat) : ℚ) = s.1 - 1 := by
    rw [Nat.cast_sub (by omega), Nat.cast_one]
  have hpos : (0 : ℚ) < s.1 - 1 := by
    rw [← hpred, Nat.cast_pos]
    omega
  have hsaturated : isSaturated (workAt ⟨number r, number a⟩ stats s) = true := by
    obtain ⟨v, hv, hvalue⟩ := hp.isAmount s hmem
    rw [isSaturated_iff, workAt, hvalue, innocentWork_number hs.size_pos, candidate_eq,
      jobSizeAttackWork_number, Exact.number_add, Exact.number_le, hpred]
    have hattack : 512 ≤ a * (s.1 - 1) := (div_le_iff₀ hpos).mp ha
    have hinnocent : 0 ≤ r / stats.averagePacketSize.toNat * v := by positivity
    linarith
  obtain ⟨t, hfind, ht⟩ := find?_le (p := fun t => isSaturated (workAt _ stats t)) hp.ascending hmem
    hsaturated
  refine ⟨t.1 - 1, ?_, threshold_of_find hfind⟩
  rcases ht with rfl | ht
  · omega
  · omega

/-- An attack that uses up the scheduler with the ratio of slot 1 leaves the ratio of slot 0. -/
theorem RatioProfile.threshold_zero {p : RatioProfile Exact} (hp : p.IsCost) (hs : stats.IsSound)
    (hr : 0 ≤ r) (hsize : 1 < p.size) (ha : 4096 ≤ a) :
    p.threshold ⟨number r, number a⟩ stats = .saturated (number 0) := by
  have hsaturated : isSaturated (p.workAt ⟨number r, number a⟩ stats 1) = true := by
    obtain ⟨v, hv, hvalue⟩ := valueAt_isAmount hp.isAmount 1
    rw [isSaturated_iff, workAt, hvalue, innocentWork_number hs.size_pos, slotRatio_eq,
      costRatioAttackWork_number, Exact.number_add, Exact.number_le, Nat.cast_one]
    have hinnocent : 0 ≤ r / stats.averagePacketSize.toNat * v := by positivity
    linarith
  obtain ⟨slot, hfind, hslot⟩ := find?_le (p := fun slot => isSaturated (p.workAt _ stats slot))
    List.pairwise_lt_range (List.mem_range.mpr hsize) hsaturated
  have hlimit : (slotRatio (slot - 1) : Exact) = number 0 := by
    rw [show slot - 1 = 0 by omega, slotRatio_eq, Nat.cast_zero, zero_div]
  rw [threshold, firstSaturated_eq p hp.ascending, hfind]
  exact congrArg Threshold.saturated hlimit

end

namespace Analyzer

variable {z : Analyzer Exact} {r a : ℚ}

/-- Innocent traffic gets nothing, and all that it would have had is displaced. -/
structure Starves (z : Analyzer Exact) (r a : ℚ) : Prop where
  goodput : (z.strategy ⟨number r, number a⟩).expectedGoodput = number 0
  displacement : (z.strategy ⟨number r, number a⟩).expectedDisplacement =
    Scalar.smaller (number r) z.statistics.rMax / number a

theorem starves_of_rejected (hs : z.statistics.IsSound) (hr : 0 ≤ r) (ha : 0 < a)
    {ranking : Ranking Exact} {l : Exact} (hranking : z.model.ranking? = some ranking)
    (ht : z.threshold? ⟨number r, number a⟩ = some (.saturated l))
    (hl : ∀ x ∈ ranking, l < x.1) : z.Starves r a := by
  obtain ⟨hgoodput, hdisplacement⟩ := strategy_rankedEstimate hs hranking ht
  have hnone : ranking.takeWhile (fun x => (Threshold.saturated l).admits x.1) = [] := by
    rw [List.takeWhile_eq_nil_iff]
    exact fun hpos hadmits => Exact.not_le_of_lt (hl _ (List.getElem_mem hpos)) hadmits
  have hshare : z.servedShare ranking (.saturated l) = 0 := by
    rw [servedShare, servedSize, hnone]
    simp
  have hnothing : min (r * z.servedShare ranking (.saturated l)) (z.statistics.rMax.cap r) = 0 := by
    rw [hshare, mul_zero]
    exact min_eq_left (hs.ideal_nonneg hr)
  rw [hnothing] at hgoodput hdisplacement
  refine ⟨hgoodput, ?_⟩
  rw [hdisplacement, sub_zero, Exact.smaller_number_left, Exact.number_div _ ha.ne']

/-- The threshold is below the least key, and no job is below its key. -/
theorem jobSizes_starve {ps : List (Packet Exact)} {policy : Policy}
    (hpolicy : policy ∈ [Policy.sjf, .sjfInorder]) (hps : Traffic ps) (hs : z.statistics.IsSound)
    (hmodel : z.model.Covers (bits ps))
    (hof : Model.ofPackets policy z.statistics ps = .ok z.model) (hr : 0 ≤ r) {j : Nat}
    (hj : ((policy.items ps).map fun x => Model.jobSizeKey x.1).min? = some j) (hle : 2 ≤ j)
    (ha : 512 / ((j : ℚ) - 1) ≤ a) : z.Starves r a := by
  obtain ⟨hmem, hleast⟩ := List.min?_eq_some_iff.mp hj
  obtain ⟨ranking, hranking, hperm⟩ :=
    Model.exists_ranking (List.mem_append_left [.wsjf, .wsjfInorder] hpolicy) hof
  obtain ⟨_, hm⟩ := Model.ofPackets_jobSizes hpolicy z.statistics ps
  rw [hof, Except.ok.injEq] at hm
  have hkeys := policy.contributions_hasKeys (fun p hp => (hps.jobSize_isAmount p hp).isNonneg)
    z.statistics.totalPackets
  rw [← Policy.map_jobs_eq hpolicy, ← hkeys.mem_iff] at hmem
  rw [hm] at hmodel
  obtain ⟨k, hk, ht⟩ := JobSizeProfile.threshold_below hmodel.2 hs hr hmem hle ha
  have hthreshold : z.threshold? ⟨number r, number a⟩ = some (.saturated (number (k : ℚ))) := by
    rw [threshold?, hm, ← ht]
  have hpos : (0 : ℚ) < j - 1 := by
    have : (2 : ℚ) ≤ j := by exact_mod_cast hle
    linarith
  refine starves_of_rejected hs hr ((div_pos (by norm_num) hpos).trans_le ha) hranking hthreshold
    fun x hx => ?_
  have hitem := hperm.mem_iff.mp hx
  obtain ⟨q, hq, hvalue⟩ := Policy.items_isAmount hpolicy hps.jobSize_isAmount x hitem
  have hkey := hleast _ (List.mem_map_of_mem hitem)
  rw [hvalue] at hkey ⊢
  rw [Exact.number_lt]
  calc (k : ℚ) < j := Nat.cast_lt.mpr hk
    _ ≤ Model.jobSizeKey (number q) := Nat.cast_le.mpr hkey
    _ ≤ q := Model.jobSizeKey_le hq

theorem costRatios_starve {ps : List (Packet Exact)} {policy : Policy}
    (hpolicy : policy ∈ [Policy.wsjf, .wsjfInorder]) (hs : z.statistics.IsSound)
    (hmodel : z.model.Covers (bits ps))
    (hof : Model.ofPackets policy z.statistics ps = .ok z.model) (hr : 0 ≤ r)
    (hpos : ∀ x ∈ policy.items ps, number 0 < x.1) (hslot : ∃ x ∈ policy.items ps, 1 ≤ ratioSlot x.1)
    (ha : 4096 ≤ a) : z.Starves r a := by
  obtain ⟨ranking, hranking, hperm⟩ :=
    Model.exists_ranking (List.mem_append_right [.sjf, .sjfInorder] hpolicy) hof
  obtain ⟨_, profile, hm, hsize⟩ := Model.exists_table hpolicy hof
  rw [hm] at hmodel hranking
  cases hranking
  obtain ⟨x, hx, hone⟩ := hslot
  have ht := RatioProfile.threshold_zero hmodel.2 hs hr
    (hone.trans_lt (hsize x (hperm.mem_iff.mpr hx))) ha
  have hthreshold : z.threshold? ⟨number r, number a⟩ = some (.saturated (number 0)) := by
    rw [threshold?, hm, ← ht]
  exact starves_of_rejected hs hr (by linarith) (by rw [hm]; rfl) hthreshold
    fun x hx => hpos x (hperm.mem_iff.mp hx)

/-- For a policy over job sizes, an attack that uses up the scheduler with jobs just below the least key
starves all innocent traffic. For a policy over cost ratios, one that uses it up at the ratio of slot 1
does, if all ratios are positive and not all have slot 0. -/
theorem overwhelming_attack_starves {bytes : List UInt8} {policy : Policy}
    {bounds : AttackBounds Exact} (hz : Analysis.exact bytes policy bounds = .ok z) (hr : 0 ≤ r) :
    let items := policy.items ((Trace.read bytes).1.map Record.exact)
    (policy ∈ [Policy.sjf, .sjfInorder] →
      ∀ j, (items.map fun x => Model.jobSizeKey x.1).min? = some j → 2 ≤ j →
        ∀ a : ℚ, 512 / ((j : ℚ) - 1) ≤ a → z.Starves r a) ∧
      (policy ∈ [Policy.wsjf, .wsjfInorder] → (∀ x ∈ items, number 0 < x.1) →
        (∃ x ∈ items, 1 ≤ ratioSlot x.1) → ∀ a : ℚ, 4096 ≤ a → z.Starves r a) := by
  have hps := Analysis.exact_traffic hz
  obtain ⟨hstats, rfl, -, hof⟩ := Analysis.exact_packets hz
  have hs := hps.statistics_isSound hstats
  have hmodel := Model.ofPackets_covers hps hs.total_pos hof
  exact ⟨fun hpolicy j hj hle a ha => jobSizes_starve hpolicy hps hs hmodel hof hr hj hle ha,
    fun hpolicy hpos hslot a ha => costRatios_starve hpolicy hs hmodel hof hr hpos hslot ha⟩

theorem overwhelming_attack_starves_leastKey :
    (∃ z, Analysis.exact smallPackets .sjf ⟨number 1000, 8192⟩ = .ok z ∧ z.Starves 3 (512 / 127)) ∧
      ∃ z, Analysis.exact twoPackets .wsjf ⟨number 1000, 8192⟩ = .ok z ∧ z.Starves 3 4096 := by
  constructor
  · obtain ⟨z, hz⟩ := Analysis.exact_smallPackets ⟨number 1000, 8192⟩
    refine ⟨z, hz, (overwhelming_attack_starves hz (by norm_num)).1 (by decide)
      128 (by decide +kernel) (by decide) _ (by norm_num)⟩
  · obtain ⟨z, hz⟩ := Analysis.exact_twoPackets ⟨number 1000, 8192⟩
    exact ⟨z, hz, (overwhelming_attack_starves hz (by norm_num)).2 (by decide)
      (by decide +kernel) (by decide +kernel) _ le_rfl⟩

end Analyzer

end Saturation
