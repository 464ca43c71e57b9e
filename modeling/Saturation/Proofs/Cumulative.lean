import Saturation.Proofs.Goodput

/-!
The values of profiles are running totals: they never fall, and none exceeds the sum of all
contributions. Whatever the policy, the contributions add up to at most the mean job size of the
trace, so innocent traffic that leaves capacity at its mean job saturates no point of a profile.
-/

set_option autoImplicit false

namespace Saturation

open Exact (number)

namespace Exact

theorem IsAmount.value_div {x : Exact} (hx : x.IsAmount) {b : ℚ} (hb : b ≠ 0) :
    (x / number b).value = x.value / b := by
  obtain ⟨a, -, rfl⟩ := hx
  rw [number_div a hb]
  rfl

end Exact

/-! ### Running totals -/

/-- The sum of what is added to a profile. -/
def contributed {κ : Type} (contributions : List (κ × Exact)) : ℚ :=
  (contributions.map fun c => c.2.value).sum

/-- Steps that were made while a total grew to `sum`. -/
structure IsRunning (steps : List (Nat × Exact)) (sum : ℚ) : Prop where
  climbing : steps.Pairwise fun s t => s.2 ≤ t.2
  le_sum : ∀ s ∈ steps, s.2 ≤ number sum

namespace IsRunning

variable {steps : List (Nat × Exact)} {sum : ℚ}

theorem nil (sum : ℚ) : IsRunning [] sum := ⟨.nil, by simp⟩

/-- A contribution grows the total and makes a step that has it. -/
theorem append (h : IsRunning steps sum) {c : ℚ} (hc : 0 ≤ c) (key : Nat) :
    IsRunning (steps ++ [(key, number (sum + c))]) (sum + c) := by
  have hle : ∀ s ∈ steps, s.2 ≤ number (sum + c) := by
    intro s hs
    refine Exact.le_trans (h.le_sum s hs) ?_
    rw [Exact.number_le]
    exact le_add_of_nonneg_right hc
  refine ⟨List.pairwise_append.mpr ⟨h.climbing, List.pairwise_singleton _ _, ?_⟩, ?_⟩
  · intro s hs t ht
    rw [List.mem_singleton.mp ht]
    exact hle s hs
  · intro s hs
    rcases List.mem_append.mp hs with hs | hs
    · exact hle s hs
    · rw [List.mem_singleton.mp hs]
      exact (Exact.number_le _ _).mpr le_rfl

theorem of_append {s : Nat × Exact} (h : IsRunning (steps ++ [s]) sum) : IsRunning steps sum :=
  ⟨(List.pairwise_append.mp h.climbing).1, fun t ht => h.le_sum t (List.mem_append_left _ ht)⟩

end IsRunning

theorem JobSizeProfile.build_isRunning (rest : List (Nat × Exact)) :
    ∀ (made : List (Nat × Exact)) (sum : ℚ), IsRunning made.reverse sum →
      (∀ c ∈ rest, c.2.IsAmount) →
      IsRunning (build made (number sum) rest) (sum + contributed rest) := by
  induction rest with
  | nil =>
    intro made sum h _
    simpa [build, contributed] using h
  | cons c rest ih =>
    obtain ⟨key, contribution⟩ := c
    intro made sum h hr
    simp only [List.forall_mem_cons] at hr
    obtain ⟨⟨q, hq, rfl⟩, hr⟩ := hr
    have hsum : sum + contributed ((key, number q) :: rest) = sum + q + contributed rest := by
      simp [contributed, add_assoc]
    rw [hsum]
    unfold build
    cases made with
    | nil => exact ih _ _ (h.append hq key) hr
    | cons s below =>
      rw [List.reverse_cons] at h
      dsimp only
      split
      · refine ih _ _ ?_ hr
        rw [List.reverse_cons]
        exact h.of_append.append hq key
      · refine ih _ _ ?_ hr
        rw [List.reverse_cons, List.reverse_cons]
        exact h.append hq key

theorem JobSizeProfile.ofSorted_isRunning {contributions : List (Nat × Exact)}
    (h : ∀ c ∈ contributions, c.2.IsAmount) :
    IsRunning (ofSorted contributions).points (contributed contributions) := by
  have := build_isRunning contributions [] 0 (.nil 0) h
  rwa [zero_add] at this

theorem RatioProfile.build_isRunning (rest : List (Exact × Exact)) :
    ∀ (made : List (Nat × Exact)) (sum : ℚ) (steps : List (Nat × Exact)),
      IsRunning made.reverse sum → (∀ c ∈ rest, c.2.IsAmount) →
      build made (number sum) rest = .ok steps → IsRunning steps (sum + contributed rest) := by
  induction rest with
  | nil =>
    rintro made sum steps h _ ⟨⟩
    simpa [contributed] using h
  | cons c rest ih =>
    obtain ⟨ratio, contribution⟩ := c
    intro made sum steps h hr hs
    simp only [List.forall_mem_cons] at hr
    obtain ⟨⟨q, hq, rfl⟩, hr⟩ := hr
    have hsum : sum + contributed ((ratio, number q) :: rest) = sum + q + contributed rest := by
      simp [contributed, add_assoc]
    rw [hsum]
    unfold build at hs
    dsimp only at hs
    split at hs
    · cases hs
    · cases made with
      | nil => exact ih [(_, _)] _ _ (h.append hq _) hr hs
      | cons s below =>
        rw [List.reverse_cons] at h
        dsimp only at hs
        split at hs
        · refine ih _ _ _ ?_ hr hs
          rw [List.reverse_cons]
          exact h.of_append.append hq _
        · refine ih _ _ _ ?_ hr hs
          rw [List.reverse_cons, List.reverse_cons]
          exact h.append hq _

theorem RatioProfile.ofSorted_isRunning {contributions : List (Exact × Exact)}
    {p : RatioProfile Exact} (hc : ∀ c ∈ contributions, c.2.IsAmount)
    (h : ofSorted contributions = .ok p) : IsRunning p.steps (contributed contributions) := by
  unfold ofSorted at h
  split at h
  · rename_i steps hs
    cases h
    have := build_isRunning contributions [] 0 steps (.nil 0) hc hs
    rwa [zero_add] at this
  · cases h

/-! ### The sum of all contributions -/

/-- Every key counts with its weight as often as it occurs. -/
theorem Histogram.sum_ofKeys (keys : List Nat) (weight : Nat → Nat) :
    ((ofKeys keys).map fun s => s.2 * weight s.1).sum = (keys.map weight).sum := by
  rw [ofKeys_eq_gather]
  refine Keyed.sum_gather (P := fun _ => True) _ _ _ trivial (fun k => Nat.zero_mul _)
    fun k _ n _ => ⟨trivial, ?_⟩
  rw [Nat.succ_mul, Nat.add_comm]
  rfl

/-- The job sizes of all flows. -/
def FlowTable.jobSum (t : FlowTable Exact) : ℚ := (t.map fun f => f.2.jobSize.value).sum

theorem FlowTable.jobSum_ofPackets {ps : List (Packet Exact)}
    (h : ∀ p ∈ ps, p.jobSize.IsAmount) : (ofPackets ps).jobSum = (jobValues ps).sum := by
  rw [jobSum, ofPackets_eq_gather, jobValues]
  refine Keyed.sum_gather (P := fun f => ∃ s, f.jobTotal = .given (number s)) _ _ _
    ⟨0, Flow.jobTotal_empty⟩ (fun _ => ?_) fun p hp f hf => ?_
  · rw [Flow.jobSize, Flow.jobTotal_empty]
    rfl
  · obtain ⟨s, hs⟩ := hf
    obtain ⟨q, -, hq⟩ := h p hp
    have hadd : (f.add p).jobTotal = .given (number (s + q)) := by
      rw [Flow.add, hs, hq, Computed.add_number]
    refine ⟨⟨s + q, hadd⟩, ?_⟩
    rw [Flow.jobSize, Flow.jobSize, hadd, hs, hq]
    exact add_comm s q

/-- Shares of amounts add up to the share of their sum. -/
theorem contributed_div {κ β : Type} {l : List β} {size : β → Exact}
    (h : ∀ x ∈ l, (size x).IsAmount) (key : β → κ) {b : ℚ} (hb : b ≠ 0) :
    contributed (l.map fun x => (key x, size x / number b)) =
      (l.map fun x => (size x).value).sum / b := by
  induction l with
  | nil => simp [contributed]
  | cons x l ih =>
    simp only [List.forall_mem_cons] at h
    simp only [contributed, List.map_cons, List.sum_cons] at ih ⊢
    rw [ih h.2, h.1.value_div hb, add_div]

theorem IsRunning.mono {steps : List (Nat × Exact)} {a b : ℚ} (h : IsRunning steps a)
    (hab : a ≤ b) : IsRunning steps b :=
  ⟨h.climbing, fun s hs => Exact.le_trans (h.le_sum s hs) ((Exact.number_le a b).mpr hab)⟩

namespace Model

/-- The steps of the profile of a model, if it has one. -/
def steps : Model Exact → List (Nat × Exact)
  | arrival | shares _ => []
  | byJobSize _ profile => profile.points
  | byCostRatio _ profile => profile.steps

variable {ps : List (Packet Exact)} {stats : Statistics Exact}

/-- The profile over job sizes adds up whole job sizes, so its total misses the mean by their
fractions. -/
theorem ofJobSizes_isRunning (h : Traffic ps) (hs : stats.totalPackets = ps.length) :
    IsRunning (ofJobSizes stats ps).steps (meanJob ps) := by
  have hl : (0 : ℚ) < ps.length := Nat.cast_pos.mpr h.length_pos
  have hshare : ∀ s : Nat × Nat, (Scalar.ofNat s.2 / Scalar.ofNat stats.totalPackets *
      Scalar.ofNat s.1 : Exact) = number (s.2 * s.1 : Nat) / number ps.length := by
    intro s
    simp only [hs, Exact.ofNat_eq, Exact.number_div _ hl.ne', Exact.number_mul]
    push_cast
    rw [div_mul_eq_mul_div]
  have hkeys : ((ps.map fun p => jobSizeKey p.jobSize).sum : ℚ) ≤ (jobValues ps).sum := by
    rw [Nat.cast_list_sum, List.map_map]
    refine List.sum_le_sum fun p hp => ?_
    obtain ⟨q, hq, hj⟩ := h.jobSize_isAmount p hp
    dsimp only [Function.comp_apply]
    rw [hj]
    exact jobSizeKey_le hq
  dsimp only [ofJobSizes, ofJobSizeCounts, steps]
  simp only [hshare]
  refine (JobSizeProfile.ofSorted_isRunning ?_).mono ?_
  · intro c hc
    obtain ⟨s, -, rfl⟩ := List.mem_map.mp hc
    exact (Exact.isAmount_ofNat _).div hl
  · rw [contributed_div (fun s _ => Exact.isAmount_ofNat _) _ hl.ne', meanJob]
    gcongr
    refine le_trans (le_of_eq ?_) hkeys
    have hcount := Histogram.sum_ofKeys (ps.map fun p => jobSizeKey p.jobSize) id
    rw [List.map_id] at hcount
    rw [← hcount, Nat.cast_list_sum, List.map_map]
    rfl

theorem ofFlows_isAmount (h : Traffic ps) (hs : stats.totalPackets = ps.length) {κ : Type}
    (rank : Flow Exact → Computed Exact) (key : Flow Exact → κ) :
    ∀ c ∈ ((FlowTable.ofPackets ps).sortedBy rank).map
      (fun f => (key f, f.jobSize / Scalar.ofNat stats.totalPackets)), c.2.IsAmount := by
  intro c hc
  obtain ⟨f, hf, rfl⟩ := List.mem_map.mp hc
  obtain ⟨name, hf⟩ := FlowTable.mem_sortedBy hf
  rw [hs]
  exact (FlowTable.isSum h.jobSize_isAmount _ hf).jobSize.div (Nat.cast_pos.mpr h.length_pos)

theorem contributed_flows (h : Traffic ps) (hs : stats.totalPackets = ps.length) {κ : Type}
    (rank : Flow Exact → Computed Exact) (key : Flow Exact → κ) :
    contributed (((FlowTable.ofPackets ps).sortedBy rank).map
      fun f => (key f, f.jobSize / Scalar.ofNat stats.totalPackets)) = meanJob ps := by
  have hl : (ps.length : ℚ) ≠ 0 := Nat.cast_ne_zero.mpr h.length_pos.ne'
  have hsum : (((FlowTable.ofPackets ps).sortedBy rank).map fun f => f.jobSize.value).sum =
      (jobValues ps).sum := by
    rw [← FlowTable.jobSum_ofPackets h.jobSize_isAmount, FlowTable.jobSum,
      ((FlowTable.sortedBy_perm rank _).map _).sum_eq, List.map_map]
    rfl
  rw [hs, Exact.ofNat_eq, contributed_div ?_ key hl, hsum, meanJob]
  intro f hf
  obtain ⟨name, hf⟩ := FlowTable.mem_sortedBy hf
  exact (FlowTable.isSum h.jobSize_isAmount _ hf).jobSize

theorem ofFlowJobSizes_isRunning (h : Traffic ps) (hs : stats.totalPackets = ps.length) :
    IsRunning (ofFlowJobSizes stats ps).steps (meanJob ps) := by
  rw [← contributed_flows h hs Flow.jobRank fun f => jobSizeKey f.averageJobSize]
  exact JobSizeProfile.ofSorted_isRunning (ofFlows_isAmount h hs _ _)

theorem ofCostRatios_isRunning (h : Traffic ps) (hs : stats.totalPackets = ps.length)
    {m : Model Exact} (hm : ofCostRatios stats ps = .ok m) : IsRunning m.steps (meanJob ps) := by
  have hl : (0 : ℚ) < ps.length := Nat.cast_pos.mpr h.length_pos
  have hperm := sortedBy_perm Packet.costRank ps
  have hjob : ∀ p ∈ sortedBy Packet.costRank ps, p.jobSize.IsAmount :=
    fun p hp => h.jobSize_isAmount p (hperm.mem_iff.mp hp)
  have hmean : contributed ((sortedBy Packet.costRank ps).map
      fun p => (p.costRatio, p.jobSize / Scalar.ofNat stats.totalPackets)) = meanJob ps := by
    rw [hs, Exact.ofNat_eq, contributed_div hjob _ hl.ne', (hperm.map _).sum_eq]
    rfl
  unfold ofCostRatios at hm
  dsimp only at hm
  split at hm
  · rename_i profile hp
    cases hm
    rw [← hmean]
    refine RatioProfile.ofSorted_isRunning ?_ hp
    intro c hc
    obtain ⟨p, hp, rfl⟩ := List.mem_map.mp hc
    rw [hs]
    exact (hjob p hp).div hl
  · cases hm

theorem ofFlowCostRatios_isRunning (h : Traffic ps) (hs : stats.totalPackets = ps.length)
    {m : Model Exact} (hm : ofFlowCostRatios stats ps = .ok m) : IsRunning m.steps (meanJob ps) := by
  unfold ofFlowCostRatios ofTableCostRatios at hm
  dsimp only at hm
  split at hm
  · rename_i profile hp
    cases hm
    rw [← contributed_flows h hs Flow.costRank fun f => f.averageCostRatio]
    exact RatioProfile.ofSorted_isRunning (ofFlows_isAmount h hs _ _) hp
  · cases hm

/-- No value of a profile exceeds the mean job size of the trace. -/
theorem ofPackets_isRunning (h : Traffic ps) (hs : stats.totalPackets = ps.length) {policy : Policy}
    {m : Model Exact} (hm : ofPackets policy stats ps = .ok m) : IsRunning m.steps (meanJob ps) := by
  cases policy with
  | fcfs | fq =>
    cases hm
    exact .nil _
  | sjf =>
    cases hm
    exact ofJobSizes_isRunning h hs
  | sjfInorder =>
    cases hm
    exact ofFlowJobSizes_isRunning h hs
  | wsjf => exact ofCostRatios_isRunning h hs hm
  | wsjfInorder => exact ofFlowCostRatios_isRunning h hs hm

end Model

end Saturation
