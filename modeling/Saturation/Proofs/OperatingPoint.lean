import Saturation.Proofs.Bounds
import Saturation.Proofs.Cumulative

/-!
What the threshold over job sizes leaves. A scan tests, at each point, the cost of the point's own
jobs together with a job just small enough to be served in front of them, but an attack at that job
only competes with the points in front. So the threshold is the operating point of an attack only
where what is in front of it leaves capacity; it is never too small.
-/

set_option autoImplicit false

namespace Saturation

open Exact (number)

namespace JobSizeProfile

section

variable {α : Type} [Scalar α]

/-- The value at the greatest key that is not above a job size, or 0. -/
def expectationAt (p : JobSizeProfile α) (jobSize : α) : α :=
  (p.points.filter fun s => Scalar.atMost (Scalar.ofNat s.1) jobSize).getLast?.elim Scalar.zero Prod.snd

/-- The work of an attack at a job size and of what is served in front of it. -/
def loadAt (p : JobSizeProfile α) (rates : Rates α) (stats : Statistics α) (jobSize : α) : α :=
  innocentWork rates stats (p.expectationAt jobSize) + jobSizeAttackWork rates jobSize

/-- Capacity is left by the attack that a scan settles on: in front of the first point that
saturates, which is no point of empty jobs, or by the longest job behind a profile that fits. -/
def LeavesCapacity (p : JobSizeProfile α) (rates : Rates α) (stats : Statistics α) : Prop :=
  (∃ before s behind, p.points = before ++ s :: behind ∧
      (∀ t ∈ before, isSaturated (workAt rates stats t) = false) ∧
      isSaturated (workAt rates stats s) = true ∧ 0 < s.1 ∧
      isSaturated (innocentWork rates stats (JobSizeProfile.mk before).total +
        jobSizeAttackWork rates (candidate s.1)) = false) ∨
    (∀ s ∈ p.points, isSaturated (workAt rates stats s) = false) ∧
      isSaturated (innocentWork rates stats p.total +
        jobSizeAttackWork rates stats.maximumJobSize) = false

theorem expectationAt_append {p : JobSizeProfile α} {before behind : List (Nat × α)} {jobSize : α}
    (hp : p.points = before ++ behind)
    (hbefore : ∀ s ∈ before, Scalar.atMost (Scalar.ofNat s.1) jobSize = true)
    (hbehind : ∀ s ∈ behind, Scalar.atMost (Scalar.ofNat s.1) jobSize = false) :
    p.expectationAt jobSize = (JobSizeProfile.mk before).total := by
  have hnone : behind.filter (fun s => Scalar.atMost (Scalar.ofNat s.1) jobSize) = [] := by
    rw [List.filter_eq_nil_iff]
    exact fun s hs => by simp [hbehind s hs]
  rw [expectationAt, hp, List.filter_append, hnone, List.append_nil,
    List.filter_eq_self.mpr hbefore, total]

end

variable {p : JobSizeProfile Exact} {before behind : List (Nat × Exact)} {s : Nat × Exact}

/-- A job just small enough for a key meets the points in front of this key. -/
theorem expectationAt_candidate (hp : Ascending p.points) (hsplit : p.points = before ++ s :: behind)
    (hs : 0 < s.1) : p.expectationAt (candidate s.1) = (JobSizeProfile.mk before).total := by
  rw [Ascending, hsplit, List.pairwise_append] at hp
  obtain ⟨-, hbehind, hbefore⟩ := hp
  have hatMost : ∀ t : Nat × Exact, Scalar.atMost (Scalar.ofNat t.1) (candidate s.1 : Exact) =
      decide (t.1 ≤ s.1 - 1) := by
    intro t
    rw [Bool.eq_iff_iff, Exact.atMost_iff, candidate_eq, Exact.ofNat_eq, Exact.number_le,
      Nat.cast_le, decide_eq_true_iff]
  refine expectationAt_append hsplit (fun t ht => ?_) (fun t ht => ?_)
  · have := hbefore t ht s List.mem_cons_self
    rw [hatMost, decide_eq_true_iff]
    omega
  · rw [hatMost, decide_eq_false_iff_not]
    rcases List.mem_cons.mp ht with rfl | ht
    · omega
    · have := (List.pairwise_cons.mp hbehind).1 t ht
      omega

/-- At and behind a point the expectation has at least the value of the point. -/
theorem le_expectationAt (hp : p.points.Pairwise fun s t => s.2 ≤ t.2) (hs : s ∈ p.points)
    (hrefl : s.2 ≤ s.2) {jobSize : Exact} (h : number s.1 ≤ jobSize) :
    s.2 ≤ p.expectationAt jobSize := by
  have hmem : s ∈ p.points.filter fun s => Scalar.atMost (Scalar.ofNat s.1) jobSize :=
    List.mem_filter.mpr ⟨hs, h⟩
  have hclimb := hp.filter fun s => Scalar.atMost (Scalar.ofNat s.1) jobSize
  unfold expectationAt
  cases hl : (p.points.filter fun s => Scalar.atMost (Scalar.ofNat s.1) jobSize).getLast? with
  | none =>
    rw [List.getLast?_eq_none_iff] at hl
    rw [hl] at hmem
    exact absurd hmem List.not_mem_nil
  | some t =>
    obtain ⟨front, hfront⟩ := List.getLast?_eq_some_iff.mp hl
    rw [hfront] at hmem hclimb
    rw [List.pairwise_append] at hclimb
    rcases List.mem_append.mp hmem with hmem | hmem
    · exact hclimb.2.2 s hmem t (List.mem_singleton.mpr rfl)
    · rw [← List.mem_singleton.mp hmem]
      exact hrefl

theorem expectationAt_isAmount (p : JobSizeProfile Exact) (h : ∀ s ∈ p.points, s.2.IsAmount) (jobSize : Exact) :
    (p.expectationAt jobSize).IsAmount := by
  unfold expectationAt
  cases hlast : (p.points.filter fun s => Scalar.atMost (Scalar.ofNat s.1) jobSize).getLast? with
  | none => exact Exact.isAmount_ofNat 0
  | some s => exact h s (List.mem_of_mem_filter (List.mem_of_getLast? hlast))

theorem expectationAt_empty (hp : Ascending p.points) (hs : s ∈ p.points) (h0 : s.1 = 0) :
    p.expectationAt (candidate s.1) = s.2 := by
  obtain ⟨before, behind, hsplit⟩ := List.append_of_mem hs
  rw [Ascending, hsplit, List.pairwise_append] at hp
  have hsplit' : p.points = (before ++ [s]) ++ behind := by rw [hsplit, List.append_cons]
  rw [expectationAt_append hsplit', total, List.getLast?_concat, Option.elim_some]
  · intro t ht
    rw [Exact.atMost_iff, candidate_eq, Exact.ofNat_eq, Exact.number_le, Nat.cast_le]
    rcases List.mem_append.mp ht with ht | ht
    · have := hp.2.2 t ht s List.mem_cons_self
      omega
    · rw [List.mem_singleton.mp ht]
      omega
  · intro t ht
    have := (List.pairwise_cons.mp hp.2.1).1 t ht
    rw [Bool.eq_false_iff, ne_eq, Exact.atMost_iff, candidate_eq, Exact.ofNat_eq, Exact.number_le,
      Nat.cast_le]
    omega

variable {rates : Rates Exact} {stats : Statistics Exact}

theorem threshold_of_find {s : Nat × Exact}
    (h : p.points.find? (fun t => isSaturated (workAt rates stats t)) = some s) :
    p.threshold rates stats = .saturated (candidate s.1) := by
  rw [threshold, h]

theorem threshold_of_fits (h : ∀ s ∈ p.points, isSaturated (workAt rates stats s) = false) :
    p.threshold rates stats = .exhausted stats.maximumJobSize := by
  have hnone : p.points.find? (fun t => isSaturated (workAt rates stats t)) = none := by
    rw [List.find?_eq_none]
    exact fun s hs => by simp [h s hs]
  rw [threshold, hnone]

theorem loadAt_longest (h : ∀ s ∈ p.points, number s.1 ≤ stats.maximumJobSize) :
    p.loadAt rates stats stats.maximumJobSize =
      innocentWork rates stats p.total + jobSizeAttackWork rates stats.maximumJobSize := by
  rw [loadAt, expectationAt_append (List.append_nil p.points).symm h (by simp)]

theorem leavesCapacity_iff (hp : Ascending p.points)
    (hkeys : ∀ s ∈ p.points, number s.1 ≤ stats.maximumJobSize) :
    isSaturated (p.loadAt rates stats (p.threshold rates stats).limit) = false ↔
      p.LeavesCapacity rates stats := by
  constructor
  · intro h
    cases hfind : p.points.find? fun s => isSaturated (workAt rates stats s) with
    | none =>
      have hfits : ∀ s ∈ p.points, isSaturated (workAt rates stats s) = false := by
        simpa only [List.find?_eq_none, Bool.not_eq_true] using hfind
      rw [threshold_of_fits hfits, Threshold.limit, loadAt_longest hkeys] at h
      exact .inr ⟨hfits, h⟩
    | some s =>
      rw [threshold_of_find hfind, Threshold.limit, loadAt] at h
      obtain ⟨hsat, before, behind, hsplit, hbefore⟩ := List.find?_eq_some_iff_append.mp hfind
      rcases Nat.eq_zero_or_pos s.1 with h0 | hpos
      · -- The point itself is met, and it saturates.
        rw [expectationAt_empty hp (List.mem_of_find?_eq_some hfind) h0] at h
        exact absurd hsat (by simpa [workAt] using h)
      · rw [expectationAt_candidate hp hsplit hpos] at h
        exact .inl ⟨before, s, behind, hsplit, by simpa using hbefore, hsat, hpos, h⟩
  · rintro (⟨before, s, behind, hsplit, hbefore, hsat, hpos, h⟩ | ⟨hfits, h⟩)
    · have hfind : p.points.find? (fun t => isSaturated (workAt rates stats t)) = some s :=
        List.find?_eq_some_iff_append.mpr ⟨hsat, before, behind, hsplit, by simpa using hbefore⟩
      rw [threshold_of_find hfind, Threshold.limit, loadAt, expectationAt_candidate hp hsplit hpos]
      exact h
    · rw [threshold_of_fits hfits, Threshold.limit, loadAt_longest hkeys]
      exact h

theorem loadAt_lt_one_iff (hamount : ∀ s ∈ p.points, s.2.IsAmount)
    (hsize : 0 < stats.averagePacketSize.toNat) {r a : ℚ} {jobSize : Exact}
    (hjob : jobSize.IsAmount) :
    p.loadAt ⟨number r, number a⟩ stats jobSize < number 1 ↔
      isSaturated (p.loadAt ⟨number r, number a⟩ stats jobSize) = false := by
  obtain ⟨w, -, hw⟩ := p.expectationAt_isAmount hamount jobSize
  obtain ⟨j, -, rfl⟩ := hjob
  rw [loadAt, hw, innocentWork_number hsize, jobSizeAttackWork_number, Exact.number_add,
    Exact.number_lt, Bool.eq_false_iff, ne_eq, isSaturated_iff, Exact.number_le, not_le]

/-- Behind a threshold in front of a point, no whole job size leaves capacity. -/
theorem saturated_behind (hp : p.points.Pairwise fun s t => s.2 ≤ t.2)
    (hamount : ∀ s ∈ p.points, s.2.IsAmount) (hsize : 0 < stats.averagePacketSize.toNat)
    {r a : ℚ} (hr : 0 ≤ r) (ha : 0 ≤ a) {l : Exact}
    (hl : p.threshold ⟨number r, number a⟩ stats = .saturated l) {n : Nat} (hn : l < number n) :
    isSaturated (p.loadAt ⟨number r, number a⟩ stats (number n)) = true := by
  cases hfind : p.points.find? fun s => isSaturated (workAt ⟨number r, number a⟩ stats s) with
  | none =>
    rw [threshold, hfind] at hl
    cases hl
  | some s =>
    rw [threshold_of_find hfind] at hl
    cases hl
    have hmem := List.mem_of_find?_eq_some hfind
    have hsat := List.find?_some hfind
    rw [candidate_eq, Exact.number_lt, Nat.cast_lt] at hn
    have hkey : number s.1 ≤ number n := by
      rw [Exact.number_le, Nat.cast_le]
      omega
    obtain ⟨v, -, hv⟩ := hamount s hmem
    have hle := le_expectationAt hp hmem (by rw [hv]; simp) hkey
    obtain ⟨w, -, hw⟩ := p.expectationAt_isAmount hamount (number n)
    rw [hv, hw, Exact.number_le] at hle
    rw [isSaturated_iff, workAt, hv, innocentWork_number hsize, candidate_eq,
      jobSizeAttackWork_number, Exact.number_add, Exact.number_le] at hsat
    rw [isSaturated_iff, loadAt, hw, innocentWork_number hsize, jobSizeAttackWork_number,
      Exact.number_add, Exact.number_le]
    have hnk : ((s.1 - 1 : Nat) : ℚ) ≤ n := Nat.cast_le.mpr hn.le
    calc (1 : ℚ) ≤ r / stats.averagePacketSize.toNat * v + a / 512 * (s.1 - 1 : Nat) := hsat
      _ ≤ r / stats.averagePacketSize.toNat * w + a / 512 * n := by gcongr

end JobSizeProfile

theorem Model.byJobSize_of_policy {policy : Policy} (hp : policy = .sjf ∨ policy = .sjfInorder)
    {stats : Statistics Exact} {ps : List (Packet Exact)} {m : Model Exact}
    (h : ofPackets policy stats ps = .ok m) : ∃ ranking profile, m = .byJobSize ranking profile := by
  rcases hp with rfl | rfl
  · cases h
    exact ⟨_, _, rfl⟩
  · cases h
    exact ⟨_, _, rfl⟩

namespace Analyzer

/-- The threshold over job sizes satisfies the saturation inequality exactly where what is in front
of it leaves capacity, and whichever point stopped the scan, no whole job size above the threshold
satisfies it. -/
theorem jobSizeThreshold_leavesCapacity {bytes : List UInt8} {policy : Policy}
    {bounds : AttackBounds Exact} {z : Analyzer Exact} (hp : policy = .sjf ∨ policy = .sjfInorder)
    (hz : Analysis.exact bytes policy bounds = .ok z) {r a : ℚ} (hr : 0 ≤ r) (ha : 0 ≤ a) :
    ∃ ranking profile, z.model = .byJobSize ranking profile ∧
      let rates : Rates Exact := ⟨number r, number a⟩
      let t := profile.threshold rates z.statistics
      (profile.loadAt rates z.statistics t.limit < number 1 ↔
        profile.LeavesCapacity rates z.statistics) ∧
      ∀ l, t = .saturated l → ∀ n : Nat, l < number n →
        number 1 ≤ profile.loadAt rates z.statistics (number n) := by
  obtain ⟨ps, hps, hstats, rfl, rfl, hmodel, hof⟩ := Analysis.exact_ok hz
  obtain ⟨ranking, profile, hm⟩ := Model.byJobSize_of_policy hp hof
  obtain ⟨htotal, -, -, hlongest, -⟩ := hps.statistics hstats
  have hsize := (hps.statistics_isSound hstats).size_pos
  have hrunning := Model.ofPackets_isRunning hps htotal hof
  rw [hm] at hmodel hof hrunning
  obtain ⟨-, hcost⟩ := hmodel
  have hkeys : ∀ s ∈ profile.points, number s.1 ≤ z.statistics.maximumJobSize := by
    intro s hs
    rw [hlongest, Exact.number_le]
    exact Model.key_le hps hof s hs
  refine ⟨ranking, profile, hm, ?_, ?_⟩
  · refine (JobSizeProfile.loadAt_lt_one_iff hcost.isAmount hsize ?_).trans
      (JobSizeProfile.leavesCapacity_iff hcost.ascending hkeys)
    unfold JobSizeProfile.threshold
    split
    · exact Exact.isAmount_ofNat _
    · exact ⟨_, longestJob_nonneg ps, hlongest⟩
  · intro l hl n hn
    rw [← isSaturated_iff]
    exact JobSizeProfile.saturated_behind hrunning.climbing hcost.isAmount hsize hr ha hl hn

end Analyzer

/-- Jobs of 128 and 384 ns in smallest packets. -/
def smallPackets : List UInt8 := "0;1;a;x;512;128\n2;3;b;x;512;384\n".toUTF8.toList

theorem Analysis.exact_smallPackets (bounds : AttackBounds Exact) :
    ∃ z, Analysis.exact smallPackets .sjf bounds = .ok z :=
  exact_isOk (by decide +kernel) bounds fun _ => ⟨_, rfl⟩

namespace Analyzer

theorem jobSizeThreshold_leavesCapacity_smallPackets :
    ∃ z, Analysis.exact smallPackets .sjf ⟨number 1000, 8192⟩ = .ok z ∧
      ∃ ranking profile, z.model = .byJobSize ranking profile ∧
        let rates : Rates Exact := ⟨number 1, number 3⟩
        let t := profile.threshold rates z.statistics
        (profile.loadAt rates z.statistics t.limit < number 1 ↔
          profile.LeavesCapacity rates z.statistics) ∧
        ∀ l, t = .saturated l → ∀ n : Nat, l < number n →
          number 1 ≤ profile.loadAt rates z.statistics (number n) := by
  obtain ⟨z, hz⟩ := Analysis.exact_smallPackets ⟨number 1000, 8192⟩
  exact ⟨z, hz, jobSizeThreshold_leavesCapacity (.inl rfl) hz (by norm_num)
    (by norm_num)⟩

/-- A scan stops in front of the jobs of 384 ns, but with jobs of 383 ns the attack alone is more
than the scheduler can do. -/
theorem not_jobSizeThreshold_leavesCapacity : ¬ ∀ (bytes : List UInt8) (policy : Policy)
    (bounds : AttackBounds Exact) (z : Analyzer Exact) (ranking : Ranking Exact)
    (profile : JobSizeProfile Exact) (r a : ℚ), policy = .sjf ∨ policy = .sjfInorder →
      Analysis.exact bytes policy bounds = .ok z → z.model = .byJobSize ranking profile →
      0 ≤ r → 0 ≤ a →
      profile.loadAt ⟨number r, number a⟩ z.statistics
        (profile.threshold ⟨number r, number a⟩ z.statistics).limit < number 1 := by
  intro h
  obtain ⟨z, hz⟩ := Analysis.exact_smallPackets ⟨number 1000, 8192⟩
  have hload : (Analysis.exact smallPackets .sjf ⟨number 1000, 8192⟩).toOption.map (fun z =>
      match z.model with
      | .byJobSize _ profile => decide (profile.loadAt ⟨number 1, number 3⟩ z.statistics
          (profile.threshold ⟨number 1, number 3⟩ z.statistics).limit < number 1)
      | _ => true) = some false := by
    decide +kernel
  rw [hz] at hload
  cases hm : z.model with
  | arrival | shares _ | byCostRatio _ _ => simp [hm, Except.toOption] at hload
  | byJobSize ranking profile =>
    have hlt := h _ _ _ z ranking profile 1 3 (.inl rfl) hz hm (by norm_num) (by norm_num)
    simp [hm, Except.toOption, hlt] at hload

end Analyzer

end Saturation
