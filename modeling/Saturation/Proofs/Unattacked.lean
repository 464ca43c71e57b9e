import Saturation.Proofs.OperatingPoint

/-!
Innocent traffic without an attack. Nothing is displaced, and as long as traffic leaves capacity it is
served at its own rate. Beyond that only fair shares always reach the ideal goodput: jobs in order
of arrival miss it by the fraction of the average packet size, and a scan that innocent traffic alone
saturates counts as lost all that is ranked behind the point at which it stops.
-/

set_option autoImplicit false

namespace Saturation

open Exact (number infinite undefined)

namespace Exact

theorem cap_eq_iff {x : Exact} {i : ℚ} : x.cap i = i ↔ ∀ q, x = number q → i ≤ q := by
  cases x with
  | number q => simp [cap]
  | infinite | undefined => simp [cap]

theorem cap_one_div {c : ℚ} (hc : 0 ≤ c) :
    (number 1 / number c).cap 1 = if c ≤ 1 then 1 else 1 / c := by
  rcases hc.eq_or_lt with rfl | hpos
  · rw [number_div_zero one_pos, if_pos zero_le_one]
    rfl
  · rw [number_div 1 hpos.ne']
    show min (1 / c) 1 = _
    split
    · rename_i h
      exact min_eq_right ((one_le_div hpos).mpr h)
    · rename_i h
      exact min_eq_left ((div_le_one hpos).mpr (not_le.mp h).le)

/-- Traffic beyond the capacity gets the rate of the size `a`, which is the ideal one only if `a` is
the size `s` that the ideal rate is taken from. -/
theorem cap_le_overloaded_iff {r a s j : ℚ} (ha : 0 < a) (has : a ≤ s) (hj : 0 ≤ j)
    (h : 1 < r / a * j) :
    (number s / number j).cap r ≤ r * (1 / (r / a * j)) ↔
      number s / number j = number a / number j := by
  have hj' : 0 < j := hj.lt_of_ne (by rintro rfl; norm_num at h)
  have hload : a / j < r := by
    rw [div_lt_iff₀ hj']
    rwa [div_mul_eq_mul_div, one_lt_div ha] at h
  have hr : r ≠ 0 := (lt_trans (div_pos ha hj') hload).ne'
  have hrate : r * (1 / (r / a * j)) = a / j := by field_simp
  rw [hrate, number_div s hj'.ne', number_div a hj'.ne', number.injEq]
  show min (s / j) r ≤ a / j ↔ _
  rw [min_le_iff, or_iff_left hload.not_ge]
  exact ⟨fun hle => hle.antisymm (by gcongr), fun heq => heq.le⟩

end Exact

theorem Estimate.displacement_unattacked (i : Exact) (stats : Statistics Exact) (g : Exact) :
    (ofGoodput ⟨i, number 0⟩ stats g).displacement = number 0 := by
  have h0 : Scalar.isZero (number 0) = true := by decide
  unfold ofGoodput
  rw [h0, Exact.zero_eq]
  rfl

/-- Without an attack there is no work of an attack, unless its jobs have no size. -/
theorem jobSizeAttackWork_unattacked (r x : Exact) :
    (∃ m, x = number m) ∧ jobSizeAttackWork ⟨r, number 0⟩ x = number 0 ∨
      (∀ m, x ≠ number m) ∧ jobSizeAttackWork ⟨r, number 0⟩ x = undefined := by
  have hdiv : number 0 / number ((512 : Nat) : ℚ) = number 0 := by
    rw [Exact.number_div _ (by norm_num), zero_div]
  have hwork : jobSizeAttackWork ⟨r, number 0⟩ x = number 0 * x := congrArg (· * x) hdiv
  rw [hwork]
  cases x with
  | number m => exact .inl ⟨⟨m, rfl⟩, by rw [Exact.number_mul, zero_mul]⟩
  | infinite => exact .inr ⟨by simp, rfl⟩
  | undefined => exact .inr ⟨by simp, rfl⟩

namespace Analyzer

/-- The share of the offered bits that is served at a threshold. -/
def servedShare (z : Analyzer Exact) (ranking : Ranking Exact) (t : Threshold Exact) : ℚ :=
  (servedSize t.admits ranking).toNat /
    (z.statistics.totalPackets * z.statistics.averagePacketSize.toNat)

/-- What it takes that innocent traffic alone reaches the ideal goodput. In order of arrival: an
average load within the capacity, or an average packet size without a fraction (a longest job that is
no number bounds nothing). For a scan: no point that saturates, or enough in front of the first. -/
def ServesIdeal (z : Analyzer Exact) (r : ℚ) : Prop :=
  let rates : Rates Exact := ⟨number r, number 0⟩
  let s := z.statistics
  match z.model with
  | .arrival => (∀ m, z.bounds.maxJobSize ≠ number m) ∨
      innocentWork rates s s.averageJobSize ≤ number 1 ∨
      s.rMax = Scalar.ofWord s.averagePacketSize / s.averageJobSize
  | .shares _ => True
  | .byJobSize ranking profile => (∀ p ∈ profile.points, innocentWork rates s p.2 < number 1) ∨
      s.idealGoodput (number r) ≤ number (r * z.servedShare ranking (profile.threshold rates s))
  | .byCostRatio ranking profile => (∀ p ∈ profile.steps, innocentWork rates s p.2 < number 1) ∨
      s.idealGoodput (number r) ≤ number (r * z.servedShare ranking (profile.threshold rates s))

variable {z : Analyzer Exact} {ps : List (Packet Exact)} {r : ℚ}

theorem goodput_eq_ideal_iff (stats : Statistics Exact) (r : ℚ) (a g : Exact) :
    (Estimate.ofGoodput ⟨number r, a⟩ stats g).goodput = stats.idealGoodput (number r) ↔
      ∀ q, g = number q → stats.idealGoodput (number r) ≤ number q := by
  rw [Estimate.goodput_ofGoodput, Estimate.idealGoodput_eq, Exact.number.injEq, Exact.cap_eq_iff]
  simp only [Exact.number_le]

theorem arrivalGoodput_unattacked (hps : Traffic ps)
    (hstats : Statistics.ofPackets ps = .ok z.statistics) (hr : 0 ≤ r)
    (hz : z.model = .arrival) :
    (∀ q, z.arrivalGoodput ⟨number r, number 0⟩ = number q →
      z.statistics.idealGoodput (number r) ≤ number q) ↔ z.ServesIdeal r := by
  obtain ⟨-, hsize, hjob, -, hmax⟩ := hps.statistics hstats
  have hpos := (hps.statistics_isSound hstats).size_pos
  have hideal : z.statistics.rMax.cap r ≤ r := Exact.cap_le _ r
  have hgoodput : z.arrivalGoodput ⟨number r, number 0⟩ = number (r * Exact.cap (number 1 /
      (jobSizeAttackWork ⟨number r, number 0⟩ z.bounds.maxJobSize +
        number (r / z.statistics.averagePacketSize.toNat * meanJob ps))) 1) := by
    show number r * Scalar.smaller (Scalar.one / (innocentWork _ _ _ + jobSizeAttackWork _ _))
      Scalar.one = _
    rw [hjob, innocentWork_number hpos, Exact.add_comm, Exact.one_eq,
      Exact.smaller_number_right, Exact.number_mul]
  simp only [hgoodput, Exact.number.injEq, forall_eq', ServesIdeal, hz, Estimate.idealGoodput_eq,
    Exact.number_le, hjob, innocentWork_number hpos]
  rcases jobSizeAttackWork_unattacked (number r) z.bounds.maxJobSize with
    ⟨⟨m, hm⟩, hwork⟩ | ⟨hm, hwork⟩
  · rw [hwork, Exact.number_add, zero_add, hm, or_iff_right (by simp)]
    have hA : (0 : ℚ) < z.statistics.averagePacketSize.toNat := Nat.cast_pos.mpr hpos
    have hle : (z.statistics.averagePacketSize.toNat : ℚ) ≤ meanSize ps :=
      hsize ▸ Nat.cast_div_le
    have hload : 0 ≤ r / z.statistics.averagePacketSize.toNat * meanJob ps :=
      mul_nonneg (div_nonneg hr hA.le) hps.meanJob_nonneg
    rw [Exact.cap_one_div hload]
    split
    · rename_i hc
      rw [mul_one]
      exact ⟨fun _ => .inl hc, fun _ => hideal⟩
    · rename_i hc
      rw [or_iff_right hc, hmax, Exact.ofWord_eq]
      exact Exact.cap_le_overloaded_iff hA hle hps.meanJob_nonneg (not_le.mp hc)
  · rw [hwork, Exact.undefined_add, Exact.div_undefined]
    simpa [Exact.cap, hm] using hideal

theorem sharesGoodput_unattacked (hs : z.statistics.IsSound) {flows : Nat} (hflows : 0 < flows)
    {q : ℚ} (hq : z.sharesGoodput flows ⟨number r, number 0⟩ = number q) :
    z.statistics.idealGoodput (number r) ≤ number q := by
  have hk : (0 : ℚ) < flows := Nat.cast_pos.mpr hflows
  have hgoodput : z.sharesGoodput flows ⟨number r, number 0⟩ = number (Exact.cap
      (number flows * z.statistics.rMax /
        (jobSizeAttackWork ⟨number r, number 0⟩ z.bounds.maxJobSize + number flows)) r) :=
    Exact.smaller_number_left _ r
  rw [hgoodput, Exact.number.injEq] at hq
  rw [Estimate.idealGoodput_eq, Exact.number_le, ← hq]
  rcases jobSizeAttackWork_unattacked (number r) z.bounds.maxJobSize with ⟨-, hwork⟩ | ⟨-, hwork⟩
  · rw [hwork, Exact.number_add, zero_add]
    rcases hs.rMax_isAmount with hmax | ⟨m, -, hmax⟩
    · rw [hmax, Exact.number_mul_infinite hk, Exact.infinite_div hk.le]
    · rw [hmax, Exact.number_mul, Exact.number_div _ hk.ne', mul_div_cancel_left₀ m hk.ne']
  · rw [hwork, Exact.undefined_add, Exact.div_undefined]
    exact Exact.cap_le _ r

/-- The goodput of a scan is the rate's share of what is served. -/
theorem rankedEstimate_eq (hs : z.statistics.IsSound) (ranking : Ranking Exact) (a : Exact)
    (t : Threshold Exact) :
    z.rankedEstimate ranking ⟨number r, a⟩ t =
      Estimate.ofGoodput ⟨number r, a⟩ z.statistics (number (r * z.servedShare ranking t)) := by
  have hoffered : (0 : ℚ) < z.statistics.totalPackets * z.statistics.averagePacketSize.toNat :=
    mul_pos (Nat.cast_pos.mpr hs.total_pos) (Nat.cast_pos.mpr hs.size_pos)
  rw [servedShare, ← mul_div_assoc, ← Exact.number_div _ hoffered.ne']
  rfl

theorem rankedGoodput_unattacked (hs : z.statistics.IsSound) (ranking : Ranking Exact)
    (t : Threshold Exact) :
    (z.rankedEstimate ranking ⟨number r, number 0⟩ t).goodput =
        z.statistics.idealGoodput (number r) ↔
      z.statistics.idealGoodput (number r) ≤ number (r * z.servedShare ranking t) := by
  rw [rankedEstimate_eq hs, goodput_eq_ideal_iff]
  simp

/-- All that is ranked has at least the average size for each packet. -/
theorem ideal_le_exhausted (hps : Traffic ps)
    (hstats : Statistics.ofPackets ps = .ok z.statistics) {ranking : Ranking Exact}
    (hbits : ranking.bits = bits ps) (hr : 0 ≤ r) (l : Exact) :
    z.statistics.idealGoodput (number r) ≤ number (r * z.servedShare ranking (.exhausted l)) := by
  obtain ⟨htotal, hsize, -⟩ := hps.statistics hstats
  have hs := hps.statistics_isSound hstats
  have hoffered : (0 : ℚ) < z.statistics.totalPackets * z.statistics.averagePacketSize.toNat :=
    mul_pos (Nat.cast_pos.mpr hs.total_pos) (Nat.cast_pos.mpr hs.size_pos)
  have hall : ranking.takeWhile (fun item => (Threshold.exhausted l).admits item.1) = ranking :=
    List.takeWhile_eq_self_iff.mpr fun _ _ => rfl
  have hshare : 1 ≤ z.servedShare ranking (.exhausted l) := by
    rw [servedShare, toNat_servedSize _ (hbits ▸ hps.bits_lt), hall, hbits, one_le_div hoffered,
      htotal, hsize]
    exact_mod_cast Nat.mul_div_le (bits ps) ps.length
  rw [Estimate.idealGoodput_eq, Exact.number_le]
  calc z.statistics.rMax.cap r ≤ r := Exact.cap_le _ r
    _ ≤ r * z.servedShare ranking (.exhausted l) := le_mul_of_one_le_right hr hshare

end Analyzer

/-! ### Scans without an attack -/

section

variable {stats : Statistics Exact} {r : ℚ}

theorem not_saturated_unattacked (hs : stats.IsSound) {v : Exact} (hv : v.IsAmount)
    (h : innocentWork ⟨number r, number 0⟩ stats v < number 1) {x : Exact} (hx : x = number 0) :
    isSaturated (innocentWork ⟨number r, number 0⟩ stats v + x) = false := by
  obtain ⟨q, -, rfl⟩ := hv
  rw [innocentWork_number hs.size_pos, Exact.number_lt] at h
  rw [hx, innocentWork_number hs.size_pos, Exact.number_add, add_zero, Bool.eq_false_iff, ne_eq,
    isSaturated_iff, Exact.number_le, not_le]
  exact h

theorem JobSizeProfile.threshold_unattacked (hs : stats.IsSound) {p : JobSizeProfile Exact}
    (hp : p.IsCost) (h : ∀ s ∈ p.points, innocentWork ⟨number r, number 0⟩ stats s.2 < number 1) :
    p.threshold ⟨number r, number 0⟩ stats = .exhausted stats.maximumJobSize := by
  refine threshold_of_fits fun s hmem => ?_
  refine not_saturated_unattacked hs (hp.isAmount s hmem) (h s hmem) ?_
  rw [candidate_eq, jobSizeAttackWork_number, zero_div, zero_mul]

theorem RatioProfile.threshold_unattacked (hs : stats.IsSound) {p : RatioProfile Exact}
    (hp : p.IsCost) (h : ∀ s ∈ p.steps, innocentWork ⟨number r, number 0⟩ stats s.2 < number 1) :
    p.threshold ⟨number r, number 0⟩ stats = .exhausted p.maxRatio := by
  have hnone : (List.range p.size).find? (fun slot => isSaturated
      (p.workAt ⟨number r, number 0⟩ stats slot)) = none := by
    rw [List.find?_eq_none]
    intro slot _
    rw [Bool.not_eq_true]
    refine not_saturated_unattacked hs (valueAt_isAmount hp.isAmount slot) ?_ ?_
    · rcases p.valueAt_cases slot with h0 | ⟨s, hmem, hv⟩
      · rw [h0, Exact.zero_eq, innocentWork_number hs.size_pos, mul_zero, Exact.number_lt]
        exact one_pos
      · rw [hv]
        exact h s hmem
    · rw [slotRatio_eq, costRatioAttackWork_number, zero_mul]
  rw [threshold, firstSaturated_eq p hp.ascending, hnone]

end

namespace Analyzer

variable {z : Analyzer Exact} {ps : List (Packet Exact)} {r : ℚ}

theorem goodput_unattacked_iff (hps : Traffic ps)
    (hstats : Statistics.ofPackets ps = .ok z.statistics)
    (hmodel : z.model.Covers (bits ps)) (hr : 0 ≤ r) :
    (z.strategy ⟨number r, number 0⟩).expectedGoodput = z.statistics.idealGoodput (number r) ↔
      z.ServesIdeal r := by
  have hs := hps.statistics_isSound hstats
  unfold strategy
  cases hm : z.model with
  | arrival =>
    exact (goodput_eq_ideal_iff _ _ _ _).trans (arrivalGoodput_unattacked hps hstats hr hm)
  | shares flows =>
    rw [hm] at hmodel
    refine (goodput_eq_ideal_iff _ _ _ _).trans ?_
    simp only [ServesIdeal, hm, iff_true]
    exact fun q hq => sharesGoodput_unattacked hs hmodel hq
  | byJobSize ranking profile =>
    rw [hm] at hmodel
    refine (rankedGoodput_unattacked hs ranking _).trans ?_
    simp only [ServesIdeal, hm]
    refine ⟨.inr, ?_⟩
    rintro (hfits | hle)
    · rw [JobSizeProfile.threshold_unattacked hs hmodel.2 hfits]
      exact ideal_le_exhausted hps hstats hmodel.1 hr _
    · exact hle
  | byCostRatio ranking profile =>
    rw [hm] at hmodel
    refine (rankedGoodput_unattacked hs ranking _).trans ?_
    simp only [ServesIdeal, hm]
    refine ⟨.inr, ?_⟩
    rintro (hfits | hle)
    · rw [RatioProfile.threshold_unattacked hs hmodel.2 hfits]
      exact ideal_le_exhausted hps hstats hmodel.1 hr _
    · exact hle

/-- Innocent traffic that leaves capacity at its mean job is served ideally. -/
theorem servesIdeal_of_capacity (hs : z.statistics.IsSound) (hr : 0 ≤ r) {m : ℚ}
    (hrunning : IsRunning z.model.steps m) (hmodel : z.model.Covers (bits ps))
    (h : innocentWork ⟨number r, number 0⟩ z.statistics (number m) < number 1)
    (hjob : z.statistics.averageJobSize = number m) : z.ServesIdeal r := by
  have hfits : ∀ s ∈ z.model.steps, s.2.IsAmount →
      innocentWork ⟨number r, number 0⟩ z.statistics s.2 < number 1 := by
    intro s hmem hv
    have hle := hrunning.le_sum s hmem
    obtain ⟨v, -, hv⟩ := hv
    rw [innocentWork_number hs.size_pos, Exact.number_lt] at h
    rw [hv, Exact.number_le] at hle
    rw [hv, innocentWork_number hs.size_pos, Exact.number_lt]
    calc r / z.statistics.averagePacketSize.toNat * v
        ≤ r / z.statistics.averagePacketSize.toNat * m := by gcongr
      _ < 1 := h
  unfold ServesIdeal
  cases hm : z.model with
  | arrival =>
    rw [innocentWork_number hs.size_pos, Exact.number_lt] at h
    dsimp only
    rw [hjob, innocentWork_number hs.size_pos, Exact.number_le]
    exact .inr (.inl h.le)
  | shares flows => trivial
  | byJobSize ranking profile =>
    rw [hm] at hmodel hfits
    exact .inl fun s hmem => hfits s hmem (hmodel.2.isAmount s hmem)
  | byCostRatio ranking profile =>
    rw [hm] at hmodel hfits
    exact .inl fun s hmem => hfits s hmem (hmodel.2.isAmount s hmem)

/-- The ideal goodput of traffic that leaves capacity is its own rate. -/
theorem idealGoodput_of_capacity (hps : Traffic ps)
    (hstats : Statistics.ofPackets ps = .ok z.statistics)
    (h : innocentWork ⟨number r, number 0⟩ z.statistics (number (meanJob ps)) < number 1) :
    z.statistics.idealGoodput (number r) = number r := by
  obtain ⟨-, hsize, -, -, hmax⟩ := hps.statistics hstats
  have hpos := (hps.statistics_isSound hstats).size_pos
  have hA : (0 : ℚ) < z.statistics.averagePacketSize.toNat := Nat.cast_pos.mpr hpos
  have hle : (z.statistics.averagePacketSize.toNat : ℚ) ≤ meanSize ps := hsize ▸ Nat.cast_div_le
  rw [innocentWork_number hpos, Exact.number_lt, div_mul_eq_mul_div, div_lt_one hA] at h
  rw [Estimate.idealGoodput_eq, Exact.number.injEq, Exact.cap_eq_iff, hmax]
  rcases hps.meanJob_nonneg.eq_or_lt with h0 | hj
  · intro q hq
    rw [← h0, Exact.number_div_zero (hA.trans_le hle)] at hq
    cases hq
  · intro q hq
    rw [Exact.number_div _ hj.ne', Exact.number.injEq] at hq
    rw [← hq, le_div_iff₀ hj]
    exact h.le.trans hle

/-- Without an attack nothing is displaced; the goodput is the ideal one exactly where the policy
serves all that the ideal one needs, and it is the innocent rate itself wherever traffic of that rate
leaves capacity. -/
theorem unattacked_goodput {bytes : List UInt8} {policy : Policy} {bounds : AttackBounds Exact}
    (hz : Analysis.exact bytes policy bounds = .ok z) (hr : 0 ≤ r) :
    let s := z.strategy ⟨number r, number 0⟩
    s.expectedDisplacement = number 0 ∧
      (s.expectedGoodput = Scalar.smaller (number r) z.statistics.rMax ↔ z.ServesIdeal r) ∧
      (innocentWork ⟨number r, number 0⟩ z.statistics z.statistics.averageJobSize < number 1 →
        s.expectedGoodput = number r) := by
  obtain ⟨ps, hps, hstats, rfl, rfl, hmodel, hof⟩ := Analysis.exact_ok hz
  obtain ⟨htotal, -, hjob, -, -⟩ := hps.statistics hstats
  have hiff := goodput_unattacked_iff hps hstats hmodel hr
  refine ⟨?_, hiff, fun h => ?_⟩
  · unfold strategy
    cases z.model <;> simp only [Attack.strategy, rankedEstimate, Estimate.ofServedSize,
      Estimate.displacement_unattacked]
  · rw [hjob] at h
    have hserves := servesIdeal_of_capacity (hps.statistics_isSound hstats) hr
      (Model.ofPackets_isRunning hps htotal hof) hmodel h hjob
    exact (hiff.mpr hserves).trans (idealGoodput_of_capacity hps hstats h)

theorem unattacked_goodput_smallPackets :
    ∃ z, Analysis.exact smallPackets .sjf ⟨number 1000, 8192⟩ = .ok z ∧
      let s := z.strategy ⟨number 3, number 0⟩
      s.expectedDisplacement = number 0 ∧
        (s.expectedGoodput = Scalar.smaller (number 3) z.statistics.rMax ↔ z.ServesIdeal 3) ∧
        (innocentWork ⟨number 3, number 0⟩ z.statistics z.statistics.averageJobSize < number 1 →
          s.expectedGoodput = number 3) := by
  obtain ⟨z, hz⟩ := Analysis.exact_smallPackets ⟨number 1000, 8192⟩
  exact ⟨z, hz, unattacked_goodput hz (by norm_num)⟩

end Analyzer

/-- The model of packets that are in ascending order of their jobs already. -/
def Model.ofSortedJobs {α : Type} [Scalar α] (stats : Statistics α) (ps : List (Packet α)) : Model α :=
  byJobSize (ps.map fun p => (p.jobSize, p.size))
    (JobSizeProfile.ofSorted ((Histogram.ofKeys (ps.map fun p => jobSizeKey p.jobSize)).map
      fun h => (h.1, Scalar.ofNat h.2 / Scalar.ofNat stats.totalPackets * Scalar.ofNat h.1)))

theorem Model.ofJobSizes_of_sorted {α : Type} [Scalar α] (stats : Statistics α)
    {ps : List (Packet α)} (h : ps.Pairwise fun p q =>
      (Computed.given p.jobSize).precedes (.given q.jobSize) = true) :
    ofJobSizes stats ps = ofSortedJobs stats ps := by
  unfold ofJobSizes ofJobSizeCounts ofSortedJobs sortedBy
  rw [List.mergeSort_of_pairwise h]

namespace Analyzer

/-- Innocent traffic at rate 3, of which the scheduler can serve 2, gets 3 / 2: the scan stops in front
of the jobs of 384 ns and counts them as lost. -/
theorem not_unattacked_goodput : ¬ ∀ (bytes : List UInt8) (policy : Policy)
    (bounds : AttackBounds Exact) (z : Analyzer Exact) (r : ℚ),
      Analysis.exact bytes policy bounds = .ok z → 0 ≤ r →
      (z.strategy ⟨number r, number 0⟩).expectedDisplacement = number 0 ∧
        (z.strategy ⟨number r, number 0⟩).expectedGoodput =
          Scalar.smaller (number r) z.statistics.rMax := by
  intro h
  obtain ⟨z, hz⟩ := Analysis.exact_smallPackets ⟨number 1000, 8192⟩
  obtain ⟨hstats, hpolicy, hbounds, hof⟩ := Analysis.exact_packets hz
  have heq := (h _ _ _ z 3 hz (by norm_num)).2
  obtain ⟨policy, stats, bounds, model⟩ := z
  cases hpolicy
  cases hbounds
  obtain rfl : model = Model.ofJobSizes stats _ := (Except.ok.inj hof).symm
  rw [Model.ofJobSizes_of_sorted stats (by decide +kernel)] at heq
  have hgoodput : (Statistics.ofPackets ((Trace.read smallPackets).1.map Record.exact)
      |>.toOption.map fun stats =>
        let z : Analyzer Exact := ⟨.sjf, stats, ⟨number 1000, 8192⟩,
          Model.ofSortedJobs stats ((Trace.read smallPackets).1.map Record.exact)⟩
        decide ((z.strategy ⟨number 3, number 0⟩).expectedGoodput =
          Scalar.smaller (number 3) stats.rMax)) = some false := by
    decide +kernel
  rw [hstats] at hgoodput
  exact of_decide_eq_false (Option.some.inj hgoodput) heq

end Analyzer

end Saturation
