import Saturation.Proofs.Collectors
import Saturation.Proofs.Threshold

/-!
What the model of a policy is, whichever packets it was built from: what is ranked has all bits of
the trace, and the profile beside it is a step function whose values are numbers.
-/

set_option autoImplicit false

namespace Saturation

theorem JobSizeProfile.build_isAmount (rest : List (Nat × Exact)) :
    ∀ (made : List (Nat × Exact)) (sum : Exact), (∀ s ∈ made, s.2.IsAmount) → sum.IsAmount →
      (∀ c ∈ rest, c.2.IsAmount) → ∀ s ∈ build made sum rest, s.2.IsAmount := by
  induction rest with
  | nil => exact fun made sum hm _ _ s hs => hm s (List.mem_reverse.mp hs)
  | cons c rest ih =>
    obtain ⟨key, contribution⟩ := c
    intro made sum hm hsum hr
    simp only [List.forall_mem_cons] at hr
    have hsum' := hsum.add hr.1
    unfold build
    cases made with
    | nil => exact ih _ _ (by simpa using hsum') hsum' hr.2
    | cons s below =>
      simp only [List.forall_mem_cons] at hm
      dsimp only
      split
      · exact ih _ _ (by simpa only [List.forall_mem_cons] using ⟨hsum', hm.2⟩) hsum' hr.2
      · exact ih _ _ (by simpa only [List.forall_mem_cons] using ⟨hsum', hm⟩) hsum' hr.2

theorem RatioProfile.build_isAmount (rest : List (Exact × Exact)) :
    ∀ (made : List (Nat × Exact)) (sum : Exact) (steps : List (Nat × Exact)),
      (∀ s ∈ made, s.2.IsAmount) → sum.IsAmount → (∀ c ∈ rest, c.2.IsAmount) →
      build made sum rest = .ok steps → ∀ s ∈ steps, s.2.IsAmount := by
  induction rest with
  | nil =>
    rintro made sum steps hm _ _ ⟨⟩ s hs
    exact hm s (List.mem_reverse.mp hs)
  | cons c rest ih =>
    obtain ⟨ratio, contribution⟩ := c
    intro made sum steps hm hsum hr h
    simp only [List.forall_mem_cons] at hr
    have hsum' := hsum.add hr.1
    unfold build at h
    dsimp only at h
    split at h
    · simp at h
    · cases made with
      | nil => exact ih _ _ _ (by simpa using hsum') hsum' hr.2 h
      | cons s below =>
        simp only [List.forall_mem_cons] at hm
        dsimp only at h
        split at h
        · exact ih _ _ _ (by simpa only [List.forall_mem_cons] using ⟨hsum', hm.2⟩) hsum' hr.2 h
        · exact ih _ _ _ (by simpa only [List.forall_mem_cons] using ⟨hsum', hm⟩) hsum' hr.2 h

theorem RatioProfile.ofSorted_isAmount {contributions : List (Exact × Exact)}
    {p : RatioProfile Exact} (hc : ∀ c ∈ contributions, c.2.IsAmount)
    (h : ofSorted contributions = .ok p) : ∀ s ∈ p.steps, s.2.IsAmount := by
  unfold ofSorted at h
  split at h
  · rename_i steps hs
    cases h
    exact build_isAmount contributions [] _ steps (by simp) (Exact.isAmount_ofNat 0) hc hs
  · simp at h

theorem RatioProfile.valueAt_cases {α : Type} [Scalar α] (p : RatioProfile α) (slot : Nat) :
    p.valueAt slot = Scalar.zero ∨ ∃ s ∈ p.steps, p.valueAt slot = s.2 := by
  unfold valueAt Profile.valueAt
  cases hl : (p.steps.takeWhile fun s => decide (s.1 ≤ slot)).getLast? with
  | none => exact .inl rfl
  | some s => exact .inr ⟨s, (List.takeWhile_sublist _).subset (List.mem_of_getLast? hl), rfl⟩

theorem RatioProfile.valueAt_isAmount {p : RatioProfile Exact}
    (h : ∀ s ∈ p.steps, s.2.IsAmount) (slot : Nat) : (p.valueAt slot).IsAmount := by
  rcases p.valueAt_cases slot with h0 | ⟨s, hs, hv⟩
  · rw [h0]
    exact Exact.isAmount_ofNat 0
  · rw [hv]
    exact h s hs

structure JobSizeProfile.IsCost (p : JobSizeProfile Exact) : Prop where
  ascending : Ascending p.points
  isAmount : ∀ s ∈ p.points, s.2.IsAmount

structure RatioProfile.IsCost (p : RatioProfile Exact) : Prop where
  ascending : Ascending p.steps
  isAmount : ∀ s ∈ p.steps, s.2.IsAmount
  slot_lt : ∀ s ∈ p.steps, s.1 < slotLimit

theorem RatioProfile.ofSorted_isCost {contributions : List (Exact × Exact)}
    {p : RatioProfile Exact} (hc : ∀ c ∈ contributions, c.2.IsAmount)
    (h : ofSorted contributions = .ok p) : p.IsCost :=
  ⟨ofSorted_ascending h, ofSorted_isAmount hc h, ofSorted_slots h⟩

namespace Model

section

variable {α : Type} [Scalar α]

/-- The keys of a profile are strictly ascending. -/
def IsAscending : Model α → Prop
  | arrival | shares _ => True
  | byJobSize _ profile => Ascending profile.points
  | byCostRatio _ profile => Ascending profile.steps

theorem ofJobSizes_isAscending (stats : Statistics α) (ps : List (Packet α)) :
    (ofJobSizes stats ps).IsAscending := by
  refine JobSizeProfile.ofSorted_ascending ?_
  rw [List.pairwise_map]
  exact (Histogram.ofKeys_ascending _).imp fun h => h.le

theorem ofFlowJobSizes_isAscending [Scalar.IsOrdered α] (stats : Statistics α)
    {ps : List (Packet α)} (h : ∀ p ∈ ps, Scalar.IsNonneg p.jobSize) :
    (ofFlowJobSizes stats ps).IsAscending := by
  refine JobSizeProfile.ofSorted_ascending ?_
  rw [List.pairwise_map]
  exact FlowTable.jobSizeKey_pairwise (FlowTable.isSound h)

theorem ofPackets_isAscending [Scalar.IsOrdered α] {policy : Policy} {stats : Statistics α}
    {ps : List (Packet α)} (h : ∀ p ∈ ps, Scalar.IsNonneg p.jobSize) {m : Model α}
    (hm : ofPackets policy stats ps = .ok m) : m.IsAscending := by
  cases policy with
  | fcfs | fq =>
    cases hm
    trivial
  | sjf =>
    cases hm
    exact ofJobSizes_isAscending stats ps
  | sjfInorder =>
    cases hm
    exact ofFlowJobSizes_isAscending stats h
  | wsjf | wsjfInorder =>
    dsimp only [ofPackets, ofCostRatios, ofFlowCostRatios, ofTableCostRatios] at hm
    split at hm
    · rename_i hp
      cases hm
      exact RatioProfile.ofSorted_ascending hp
    · cases hm

theorem ofCostRatios_isOk {ps : List (Packet α)} {stats : Statistics α}
    (h : ∀ p ∈ ps, ratioSlot p.costRatio < slotLimit) :
    ∃ m, ofCostRatios stats ps = .ok m := by
  have hslots : ∀ c ∈ (sortedBy Packet.costRank ps).map
      (fun p => (p.costRatio, p.jobSize / Scalar.ofNat stats.totalPackets)),
      ratioSlot c.1 < slotLimit := by
    intro c hc
    obtain ⟨p, hp, rfl⟩ := List.mem_map.mp hc
    exact h p ((sortedBy_perm _ ps).mem_iff.mp hp)
  obtain ⟨profile, hp⟩ := RatioProfile.ofSorted_isOk hslots
  unfold ofCostRatios
  dsimp only
  rw [hp]
  exact ⟨_, rfl⟩

end

/-- A model of traffic of a total size. -/
def Covers (total : Nat) : Model Exact → Prop
  | arrival => True
  | shares flows => 0 < flows
  | byJobSize ranking profile => ranking.bits = total ∧ profile.IsCost
  | byCostRatio ranking profile => ranking.bits = total ∧ profile.IsCost

variable {ps : List (Packet Exact)} {stats : Statistics Exact}

theorem ofJobSizes_covers (ps : List (Packet Exact)) (hstats : 0 < stats.totalPackets) :
    (ofJobSizes stats ps).Covers (bits ps) := by
  have htotal : (0 : ℚ) < stats.totalPackets := Nat.cast_pos.mpr hstats
  refine ⟨bits_packets _ _ ps, ofJobSizes_isAscending stats ps,
    JobSizeProfile.build_isAmount _ [] _ (by simp) (Exact.isAmount_ofNat 0) ?_⟩
  intro c hc
  obtain ⟨k, -, rfl⟩ := List.mem_map.mp hc
  exact ((Exact.isAmount_ofNat _).div htotal).mul (Exact.isAmount_ofNat _)

theorem ofFlowJobSizes_covers (h : Traffic ps) (hstats : 0 < stats.totalPackets) :
    (ofFlowJobSizes stats ps).Covers (bits ps) := by
  have htotal : (0 : ℚ) < stats.totalPackets := Nat.cast_pos.mpr hstats
  have hnonneg : ∀ p ∈ ps, Scalar.IsNonneg p.jobSize :=
    fun p hp => (h.jobSize_isAmount p hp).isNonneg
  refine ⟨(bits_flows _ _ _).trans (FlowTable.bits_ofPackets h.bits_lt),
    ofFlowJobSizes_isAscending stats hnonneg,
    JobSizeProfile.build_isAmount _ [] _ (by simp) (Exact.isAmount_ofNat 0) ?_⟩
  intro c hc
  obtain ⟨f, hf, rfl⟩ := List.mem_map.mp hc
  obtain ⟨name, hf⟩ := FlowTable.mem_sortedBy hf
  exact (FlowTable.isSum h.jobSize_isAmount _ hf).jobSize.div htotal

theorem ofCostRatios_covers (h : Traffic ps) (hstats : 0 < stats.totalPackets)
    {m : Model Exact} (hm : ofCostRatios stats ps = .ok m) : m.Covers (bits ps) := by
  have htotal : (0 : ℚ) < stats.totalPackets := Nat.cast_pos.mpr hstats
  unfold ofCostRatios at hm
  dsimp only at hm
  split at hm
  · rename_i profile hp
    cases hm
    refine ⟨bits_packets _ _ ps, RatioProfile.ofSorted_isCost ?_ hp⟩
    intro c hc
    obtain ⟨p, hp, rfl⟩ := List.mem_map.mp hc
    exact (h.jobSize_isAmount p ((sortedBy_perm _ ps).mem_iff.mp hp)).div htotal
  · simp at hm

theorem ofFlowCostRatios_covers (h : Traffic ps) (hstats : 0 < stats.totalPackets)
    {m : Model Exact} (hm : ofFlowCostRatios stats ps = .ok m) : m.Covers (bits ps) := by
  have htotal : (0 : ℚ) < stats.totalPackets := Nat.cast_pos.mpr hstats
  have hflows := FlowTable.isSum h.jobSize_isAmount
  unfold ofFlowCostRatios ofTableCostRatios at hm
  dsimp only at hm
  split at hm
  · rename_i profile hp
    cases hm
    refine ⟨(bits_flows _ _ _).trans (FlowTable.bits_ofPackets h.bits_lt),
      RatioProfile.ofSorted_isCost ?_ hp⟩
    intro c hc
    obtain ⟨f, hf, rfl⟩ := List.mem_map.mp hc
    obtain ⟨name, hf⟩ := FlowTable.mem_sortedBy hf
    exact (hflows _ hf).jobSize.div htotal
  · simp at hm

theorem ofPackets_covers (h : Traffic ps) (hstats : 0 < stats.totalPackets) {policy : Policy}
    {m : Model Exact} (hm : ofPackets policy stats ps = .ok m) : m.Covers (bits ps) := by
  cases policy with
  | fcfs =>
    cases hm
    trivial
  | fq =>
    cases hm
    exact FlowTable.ofPackets_length_pos h.nonempty
  | sjf =>
    cases hm
    exact ofJobSizes_covers ps hstats
  | sjfInorder =>
    cases hm
    exact ofFlowJobSizes_covers h hstats
  | wsjf => exact ofCostRatios_covers h hstats hm
  | wsjfInorder => exact ofFlowCostRatios_covers h hstats hm

end Model

theorem Trace.traffic {bytes : List UInt8} (hne : (Trace.read bytes).1 ≠ []) :
    Traffic ((Trace.read bytes).1.map Record.exact) := by
  have hforall := Trace.read_forall (P := fun r => r.exact.size ≠ 0 ∧ r.exact.jobSize.IsAmount)
    (fun _ _ _ hr => ⟨Record.size_ne_zero hr, Record.jobSize_isAmount hr⟩) bytes
  refine ⟨by simpa using hne, ?_, ?_, (bits_exact _).trans_lt (bits_read_lt bytes)⟩
  · simpa using fun r hr => (hforall r hr).1
  · simpa using fun r hr => (hforall r hr).2

/-- A policy whose model can be built has an analyzer for every trace that can be read. -/
theorem Analysis.exact_isOk {bytes : List UInt8} (h : (Trace.read bytes).2.isOk = true)
    {policy : Policy} (bounds : AttackBounds Exact)
    (hm : ∀ stats, ∃ m,
      Model.ofPackets policy stats ((Trace.read bytes).1.map Record.exact) = .ok m) :
    ∃ z, Analysis.exact bytes policy bounds = .ok z := by
  have hne := Trace.read_nonempty h
  unfold Analysis.exact
  split
  · rename_i hread
    rw [hread] at h
    simp [Except.isOk, Except.toBool] at h
  · rename_i records summary hread
    have hbits := Trace.bits_read_lt bytes
    rw [hread] at hne hm hbits
    have hexact : bits (records.map Record.exact) < 2 ^ 64 := bits_exact records ▸ hbits
    obtain ⟨stats, hstats⟩ := Statistics.exists_ofPackets (mt List.map_eq_nil_iff.mp hne) hexact
    rw [hstats]
    dsimp only
    unfold Analyzer.ofPackets
    split
    · exact ⟨_, rfl⟩
    · rename_i e he
      obtain ⟨m, hm⟩ := hm _
      rw [hm] at he
      cases he

theorem Analysis.exact_packets {bytes : List UInt8} {policy : Policy} {bounds : AttackBounds Exact}
    {z : Analyzer Exact} (h : Analysis.exact bytes policy bounds = .ok z) :
    Statistics.ofPackets ((Trace.read bytes).1.map Record.exact) = .ok z.statistics ∧
      z.policy = policy ∧ z.bounds = bounds ∧
      Model.ofPackets z.policy z.statistics ((Trace.read bytes).1.map Record.exact) = .ok z.model := by
  unfold Analysis.exact at h
  split at h
  · cases h
  · rename_i records summary hread
    split at h
    · cases h
    · rename_i stats hstats
      unfold Analyzer.ofPackets at h
      split at h
      · rename_i m hm
        cases h
        rw [hread]
        exact ⟨hstats, rfl, rfl, hm⟩
      · cases h

theorem Analysis.exact_traffic {bytes : List UInt8} {policy : Policy} {bounds : AttackBounds Exact}
    {z : Analyzer Exact} (h : Analysis.exact bytes policy bounds = .ok z) :
    Traffic ((Trace.read bytes).1.map Record.exact) := by
  refine Trace.traffic fun hnil => ?_
  obtain ⟨hstats, -⟩ := exact_packets h
  rw [hnil] at hstats
  exact absurd (Statistics.totalPackets_eq hstats).2 (Nat.lt_irrefl 0)

/-- What an analyzer of an accepted trace is made of. -/
theorem Analysis.exact_ok {bytes : List UInt8} {policy : Policy} {bounds : AttackBounds Exact}
    {z : Analyzer Exact} (h : Analysis.exact bytes policy bounds = .ok z) :
    ∃ ps, Traffic ps ∧ Statistics.ofPackets ps = .ok z.statistics ∧
      z.policy = policy ∧ z.bounds = bounds ∧ z.model.Covers (bits ps) ∧
      Model.ofPackets z.policy z.statistics ps = .ok z.model := by
  obtain ⟨hstats, hpolicy, hbounds, hmodel⟩ := exact_packets h
  have ht := exact_traffic h
  have hpos : 0 < z.statistics.totalPackets := by
    rw [(ht.statistics hstats).1]
    exact ht.length_pos
  exact ⟨_, ht, hstats, hpolicy, hbounds, Model.ofPackets_covers ht hpos hmodel, hmodel⟩

namespace Analysis

/-- What an analyzer is made of: the packets of the trace. -/
theorem ofTrace_packets {bytes : List UInt8} {policies : List Policy} {bounds : AttackBounds Float}
    {a : Analysis} (h : ofTrace bytes policies bounds = .ok a) {z : Analyzer Float}
    (hz : z ∈ a.analyzers) :
    Statistics.ofPackets ((Trace.read bytes).1.map Record.packet) = .ok z.statistics ∧
      z.bounds = bounds ∧ Model.ofPackets z.policy z.statistics
        ((Trace.read bytes).1.map Record.packet) = .ok z.model := by
  obtain ⟨hread, hall⟩ := ofTrace_ok_iff.mp h
  obtain ⟨i, hi, hzi⟩ := List.mem_iff_getElem.mp hz
  have hof := hall.get (hall.length_eq ▸ hi) hi
  rw [List.get_eq_getElem, List.get_eq_getElem, hzi] at hof
  unfold alone Analyzer.ofPackets at hof
  split at hof
  · rename_i model hm
    cases hof
    exact ⟨Trace.outcome_ok (Trace.read_outcome hread), rfl, hm⟩
  · cases hof

/-- The jobs of these packets are not negative. -/
theorem ofTrace_mem {bytes : List UInt8} {policies : List Policy} {bounds : AttackBounds Float}
    {a : Analysis} (h : ofTrace bytes policies bounds = .ok a) {z : Analyzer Float}
    (hz : z ∈ a.analyzers) :
    ∃ ps, (∀ p ∈ ps, Scalar.IsNonneg p.jobSize) ∧
      Statistics.ofPackets ps = .ok z.statistics ∧ z.bounds = bounds ∧
      Model.ofPackets z.policy z.statistics ps = .ok z.model := by
  have hjobs := Trace.read_forall (P := fun r => Scalar.IsNonneg r.packet.jobSize)
    (fun _ _ _ hr => Record.jobSize_isNonneg hr) bytes
  exact ⟨_, by simpa using hjobs, ofTrace_packets h hz⟩

end Analysis

/-- A trace of two flows with a packet each. -/
def twoPackets : List UInt8 := "0;1;a;x;1000;8000.5\n2;3;b;x;512;700\n".toUTF8.toList

theorem Analysis.exact_twoPackets (bounds : AttackBounds Exact) :
    ∃ z, Analysis.exact twoPackets .wsjf bounds = .ok z :=
  exact_isOk (by decide +kernel) bounds fun _ => Model.ofCostRatios_isOk (by decide +kernel)

end Saturation
