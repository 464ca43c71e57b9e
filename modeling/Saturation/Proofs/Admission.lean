import Saturation.Proofs.Bounds
import Saturation.Proofs.Double.Monotone
import Saturation.Proofs.Repetition

/-!
What an attack leaves is all that its threshold admits. A policy keeps its items in ascending order of
the very value that admission looks at. On the doubles of a trace none of these values is undefined
or negative, so behind the first item that is rejected no other one would be admitted.
-/

set_option autoImplicit false

namespace Saturation

section

variable {α : Type} [Scalar α]

/-- A value to rank by that is a number and not negative. -/
structure Computed.IsSound (c : Computed α) : Prop where
  defined : c.undefined = false
  isNonneg : Scalar.IsNonneg c.value

/-- The values and sizes of what a policy ranks: packets, or whole flows. -/
def Policy.items (policy : Policy) (ps : List (Packet α)) : List (α × UInt64) :=
  let flows := (FlowTable.ofPackets ps).map Prod.snd
  match policy with
  | .fcfs | .fq => []
  | .sjf => ps.map fun p => (p.jobSize, p.size)
  | .sjfInorder => flows.map fun f => (f.averageJobSize, f.size)
  | .wsjf => ps.map fun p => (p.costRatio, p.size)
  | .wsjfInorder => flows.map fun f => (f.averageCostRatio, f.size)

def Model.ranking? : Model α → Option (Ranking α)
  | arrival | shares _ => none
  | byJobSize ranking _ | byCostRatio ranking _ => some ranking

/-- The threshold of the scan, for a policy that has one. -/
def Analyzer.threshold? (z : Analyzer α) (rates : Rates α) : Option (Threshold α) :=
  match z.model with
  | .arrival | .shares _ => none
  | .byJobSize _ profile => some (profile.threshold rates z.statistics)
  | .byCostRatio _ profile => some (profile.threshold rates z.statistics)

/-- Of some items in a ranking the size of all admitted ones is served, and no item behind one that is
rejected is admitted. -/
structure Ranking.ServesAdmitted (ranking : Ranking α) (items : List (α × UInt64))
    (t : Threshold α) : Prop where
  perm : ranking.Perm items
  initial : ranking.Pairwise fun x y => t.admits y.1 = true → t.admits x.1 = true
  served : (servedSize t.admits ranking).toNat =
    ((items.filter fun item => t.admits item.1).map fun item => item.2.toNat).sum

/-- A policy that ranks has its items as its ranking. -/
theorem Model.ranking_cases {policy : Policy} {stats : Statistics α} {ps : List (Packet α)}
    {model : Model α} (hm : ofPackets policy stats ps = .ok model) :
    (∃ ranking, model.ranking? = some ranking ∧ ranking.Perm (policy.items ps)) ∨
      model.ranking? = none ∧ policy ∈ [Policy.fcfs, .fq] := by
  cases policy with
  | fcfs | fq =>
    cases hm
    exact .inr ⟨rfl, by simp⟩
  | sjf =>
    cases hm
    exact .inl ⟨_, rfl, (sortedBy_perm _ ps).map _⟩
  | sjfInorder =>
    cases hm
    exact .inl ⟨_, rfl, (FlowTable.sortedBy_perm _ _).map _⟩
  | wsjf =>
    dsimp only [ofPackets, ofCostRatios] at hm
    split at hm
    · cases hm
      exact .inl ⟨_, rfl, (sortedBy_perm _ ps).map _⟩
    · cases hm
  | wsjfInorder =>
    dsimp only [ofPackets, ofFlowCostRatios, ofTableCostRatios] at hm
    split at hm
    · cases hm
      exact .inl ⟨_, rfl, (FlowTable.sortedBy_perm _ _).map _⟩
    · cases hm

/-- What has a ranking has a threshold. -/
theorem Analyzer.exists_threshold {z : Analyzer α} {ranking : Ranking α}
    (hr : z.model.ranking? = some ranking) (rates : Rates α) : ∃ t, z.threshold? rates = some t := by
  unfold threshold?
  cases hm : z.model with
  | arrival | shares flows => simp [hm, Model.ranking?] at hr
  | byJobSize _ profile | byCostRatio _ profile => exact ⟨_, rfl⟩

/-- The strategy takes its effect from what the threshold leaves of the ranking. -/
theorem Analyzer.strategy_estimate {z : Analyzer α} {rates : Rates α} {ranking : Ranking α}
    {t : Threshold α} (hr : z.model.ranking? = some ranking) (ht : z.threshold? rates = some t) :
    (z.strategy rates).expectedGoodput =
        (Estimate.ofServedSize rates z.statistics (servedSize t.admits ranking)).goodput ∧
      (z.strategy rates).expectedDisplacement =
        (Estimate.ofServedSize rates z.statistics (servedSize t.admits ranking)).displacement := by
  unfold strategy
  cases hm : z.model with
  | arrival | shares flows => simp [hm, Model.ranking?] at hr
  | byJobSize ranking' profile | byCostRatio ranking' profile =>
    simp only [hm, Model.ranking?, threshold?, Option.some.injEq] at hr ht
    subst hr ht
    exact ⟨rfl, rfl⟩

/-! ### Sorted items -/

variable [Scalar.IsOrdered α]

theorem Computed.IsSound.atMost {c d : Computed α} (hc : c.IsSound) (hd : d.IsSound)
    (h : c.precedes d = true) : Scalar.atMost c.value d.value = true := by
  rw [precedes, if_pos (hc.defined.trans hd.defined.symm)] at h
  exact Scalar.IsOrdered.atMost_of_precedes hc.isNonneg hd.isNonneg h

variable {β : Type} {key : β → Computed α} {size : β → UInt64} {items : List β}

theorem Ranking.sorted_servesAdmitted (h : ∀ x ∈ items, (key x).IsSound)
    (hbits : (items.map fun x => (size x).toNat).sum < 2 ^ 64) (t : Threshold α) :
    Ranking.ServesAdmitted
      ((items.mergeSort fun x y => (key x).precedes (key y)).map fun x => ((key x).value, size x))
      (items.map fun x => ((key x).value, size x)) t := by
  have hsort := List.mergeSort_perm items fun x y => (key x).precedes (key y)
  have hperm := hsort.map fun x => ((key x).value, size x)
  have hinitial : ((items.mergeSort fun x y => (key x).precedes (key y)).map
      fun x => ((key x).value, size x)).Pairwise
        fun x y => t.admits y.1 = true → t.admits x.1 = true := by
    rw [List.pairwise_map]
    refine (Computed.mergeSort_pairwise key items).imp_of_mem fun {x y} hx hy hxy => ?_
    have hle := (h x (hsort.mem_iff.mp hx)).atMost (h y (hsort.mem_iff.mp hy)) hxy
    exact t.admits_of_atMost hle
  refine ⟨hperm, hinitial, ?_⟩
  have hsum : Ranking.bits ((items.mergeSort fun x y => (key x).precedes (key y)).map
      fun x => ((key x).value, size x)) = (items.map fun x => (size x).toNat).sum := by
    rw [Ranking.bits, (hperm.map _).sum_nat, List.map_map]
    rfl
  rw [toNat_servedSize _ (hsum.trans_lt hbits), takeWhile_eq_filter hinitial]
  exact ((hperm.filter _).map _).sum_nat

end

/-! ### The values of a trace -/

theorem Computed.IsSound.divide {c : Computed Float} (hc : c.IsSound) {x : Float}
    (hx : Double.IsAmount x) (h1 : Scalar.one ≤ x) : (c.divide x).IsSound := by
  have hvalue := Double.isNonneg_div_of_one_le hc.isNonneg hx h1
  refine ⟨?_, hvalue⟩
  simp only [Computed.divide, outcome, hc.defined, hvalue.isNumber]
  simp

theorem Computed.IsSound.divide_ofWord {c : Computed Float} (hc : c.IsSound) {n : UInt64}
    (h : 0 < n.toNat) : (c.divide (Scalar.ofWord n)).IsSound :=
  hc.divide (Double.isAmount_ofNat n.toNat_lt) (Double.ofNat_mono h)

section

variable {ps : List (Packet Float)}

theorem Packet.costRank_isSound {p : Packet Float} (hjob : Scalar.IsNonneg p.jobSize)
    (hsize : p.size ≠ 0) : p.costRank.IsSound := by
  have hgiven : (Computed.given p.jobSize).IsSound := ⟨rfl, hjob⟩
  exact hgiven.divide_ofWord (Nat.pos_of_ne_zero fun h0 => hsize (UInt64.toNat_inj.mp h0))

/-- The size of a flow is that of its packets. -/
theorem FlowTable.toNat_size {α : Type} [Scalar α] {ps : List (Packet α)}
    (hbits : Saturation.bits ps < 2 ^ 64) :
    ∀ f ∈ ofPackets ps, f.2.size.toNat = Saturation.bits (ps.filter fun p => p.flow = f.1) := by
  intro f hf
  rw [ofPackets_eq_gather] at hf
  obtain ⟨-, hf⟩ := Keyed.mem_gather _ _ _ hf
  have hlt := (bits_filter_le (fun p => p.flow = f.1) ps).trans_lt hbits
  rw [hf, Flow.size_foldl _ _ (by simpa [Flow.empty] using hlt)]
  simp [Flow.empty]

/-- A flow has packets and bits, and no more packets than bits. -/
theorem FlowTable.counts {α : Type} [Scalar α] {ps : List (Packet α)}
    (hsize : ∀ p ∈ ps, p.size ≠ 0) (hbits : Saturation.bits ps < 2 ^ 64) :
    ∀ f ∈ ofPackets ps, 0 < f.2.packets ∧ f.2.packets ≤ f.2.size.toNat := by
  intro f hf
  have htotal := toNat_size hbits f hf
  rw [ofPackets_eq_gather] at hf
  obtain ⟨hne, hf⟩ := Keyed.mem_gather _ _ _ hf
  have hlength : (ps.filter fun p => p.flow = f.1).length ≤
      Saturation.bits (ps.filter fun p => p.flow = f.1) :=
    length_le_bits fun p hp => hsize p (List.mem_of_mem_filter hp)
  have hpos := List.length_pos_iff.mpr hne
  have hpackets := Flow.packets_foldl (ps.filter fun p => p.flow = f.1) (Flow.empty : Flow α)
  rw [← hf] at hpackets
  simp only [Flow.empty, Nat.zero_add] at hpackets
  omega

theorem FlowTable.ranks_isSound (hjob : ∀ p ∈ ps, Scalar.IsNonneg p.jobSize)
    (hsize : ∀ p ∈ ps, p.size ≠ 0) (hbits : Saturation.bits ps < 2 ^ 64) :
    ∀ f ∈ (ofPackets ps).map Prod.snd, f.jobRank.IsSound ∧ f.costRank.IsSound := by
  intro f hf
  obtain ⟨s, hs, rfl⟩ := List.mem_map.mp hf
  obtain ⟨hpos, hle⟩ := counts hsize hbits s hs
  have hsound := isSound hjob s hs
  have htotal : s.2.jobTotal.IsSound := ⟨hsound.defined, hsound.isNonneg⟩
  have hlt := s.2.size.toNat_lt
  exact ⟨htotal.divide (Double.isAmount_ofNat (by omega)) (Double.ofNat_mono hpos),
    htotal.divide_ofWord (by omega)⟩

theorem FlowTable.bits_flows (hbits : Saturation.bits ps < 2 ^ 64) :
    (((ofPackets ps).map Prod.snd).map fun f => f.size.toNat).sum < 2 ^ 64 := by
  rw [List.map_map]
  exact (bits_ofPackets hbits).trans_lt hbits

/-- The model of a policy that ranks serves what is admitted, at every threshold. -/
theorem Model.servesAdmitted {policy : Policy} {stats : Statistics Float} {model : Model Float}
    (hpolicy : policy ∈ [Policy.sjf, .sjfInorder, .wsjf, .wsjfInorder])
    (hjob : ∀ p ∈ ps, Scalar.IsNonneg p.jobSize) (hsize : ∀ p ∈ ps, p.size ≠ 0)
    (hbits : bits ps < 2 ^ 64) (hm : ofPackets policy stats ps = .ok model) :
    ∃ ranking, model.ranking? = some ranking ∧
      ∀ t : Threshold Float, ranking.ServesAdmitted (policy.items ps) t := by
  have hflows := FlowTable.ranks_isSound hjob hsize hbits
  have hflowBits := FlowTable.bits_flows hbits
  cases policy with
  | fcfs | fq => simp at hpolicy
  | sjf =>
    cases hm
    have hgiven : ∀ p ∈ ps, (Computed.given p.jobSize).IsSound := fun p hp => ⟨rfl, hjob p hp⟩
    exact ⟨_, rfl, Ranking.sorted_servesAdmitted hgiven hbits⟩
  | sjfInorder =>
    cases hm
    exact ⟨_, rfl, Ranking.sorted_servesAdmitted (fun f hf => (hflows f hf).1) hflowBits⟩
  | wsjf =>
    have hm : ofCostRatios stats ps = .ok model := hm
    unfold ofCostRatios at hm
    dsimp only at hm
    split at hm
    · cases hm
      exact ⟨_, rfl, Ranking.sorted_servesAdmitted
        (fun p hp => Packet.costRank_isSound (hjob p hp) (hsize p hp)) hbits⟩
    · cases hm
  | wsjfInorder =>
    have hm : ofTableCostRatios stats (FlowTable.ofPackets ps) = .ok model := hm
    unfold ofTableCostRatios at hm
    dsimp only at hm
    split at hm
    · cases hm
      exact ⟨_, rfl, Ranking.sorted_servesAdmitted (fun f hf => (hflows f hf).2) hflowBits⟩
    · cases hm

end

namespace Analyzer

/-- In every analysis of a trace, at all rates, the strategy of a policy that ranks is computed from the
size of all that its threshold admits. -/
theorem strategy_servesAdmitted {bytes : List UInt8} {policies : List Policy}
    {bounds : AttackBounds Float} {a : Analysis}
    (ha : Analysis.ofTrace bytes policies bounds = .ok a) {z : Analyzer Float}
    (hz : z ∈ a.analyzers) (hpolicy : z.policy ∈ [Policy.sjf, .sjfInorder, .wsjf, .wsjfInorder])
    (rates : Rates Float) :
    ∃ ranking t, z.model.ranking? = some ranking ∧ z.threshold? rates = some t ∧
      ranking.ServesAdmitted (z.policy.items ((Trace.read bytes).1.map Record.packet)) t ∧
      (z.strategy rates).expectedGoodput =
        (Estimate.ofServedSize rates z.statistics (servedSize t.admits ranking)).goodput ∧
      (z.strategy rates).expectedDisplacement =
        (Estimate.ofServedSize rates z.statistics (servedSize t.admits ranking)).displacement := by
  obtain ⟨-, -, hm⟩ := Analysis.ofTrace_packets ha hz
  have hrecords := Trace.read_forall (P := fun r => Scalar.IsNonneg r.packet.jobSize ∧ r.packet.size ≠ 0)
    (fun _ _ _ hr => ⟨Record.jobSize_isNonneg hr, Record.size_ne_zero hr⟩) bytes
  have hjob : ∀ p ∈ (Trace.read bytes).1.map Record.packet, Scalar.IsNonneg p.jobSize :=
    List.forall_mem_map.mpr fun r hr => (hrecords r hr).1
  have hsize : ∀ p ∈ (Trace.read bytes).1.map Record.packet, p.size ≠ 0 :=
    List.forall_mem_map.mpr fun r hr => (hrecords r hr).2
  have hbits := Trace.bits_read_lt bytes
  obtain ⟨ranking, hranking, hserves⟩ := Model.servesAdmitted hpolicy hjob hsize hbits hm
  obtain ⟨t, ht⟩ := exists_threshold hranking rates
  obtain ⟨hgoodput, hdisplacement⟩ := strategy_estimate hranking ht
  exact ⟨ranking, t, hranking, ht, hserves t, hgoodput, hdisplacement⟩

/-- Three jobs; under the rates below the scheduler is used up in front of the longest one. -/
def mixedJobs : List UInt8 := "0;1;a;x;512;400\n2;3;b;x;512;100\n4;5;c;x;512;700\n".toUTF8.toList

theorem strategy_servesAdmitted_mixedJobs : ∃ a z ranking t,
    Analysis.ofTrace mixedJobs [.sjf] ⟨5000.0, 8192⟩ = .ok a ∧ z ∈ a.analyzers ∧
      z.model.ranking? = some ranking ∧ z.threshold? ⟨0.5, 0.5⟩ = some t ∧
      let items := Policy.sjf.items ((Trace.read mixedJobs).1.map Record.packet)
      ranking.ServesAdmitted items t ∧ items.map (fun item => t.admits item.1) = [true, true, false] ∧
        (servedSize t.admits ranking).toNat = 1024 := by
  have hthreshold : ((Analysis.ofTrace mixedJobs [.sjf] ⟨5000.0, 8192⟩).toOption.bind
      (·.analyzer? .sjf)).map (fun z => (z.policy, (z.threshold? ⟨0.5, 0.5⟩).map
        fun t => (t.limit, t.admits 700.0))) = some (.sjf, some (699.0, false)) := by
    decide +kernel
  obtain ⟨z, hz, hthreshold⟩ := Option.map_eq_some_iff.mp hthreshold
  obtain ⟨hpolicy, hlimit⟩ := Prod.mk.inj hthreshold
  obtain ⟨a, ha, hmem⟩ := Analysis.mem_of_analyzer? hz
  obtain ⟨ranking, t, hranking, ht, hserves, -⟩ := strategy_servesAdmitted ha hmem
    (by rw [hpolicy]; decide) ⟨0.5, 0.5⟩
  rw [hpolicy] at hserves
  rw [ht, Option.map_some, Option.some.injEq] at hlimit
  obtain ⟨hlimit, hadmits⟩ := Prod.mk.inj hlimit
  cases t with
  | exhausted limit => cases hadmits
  | saturated limit =>
    obtain rfl : limit = 699.0 := hlimit
    refine ⟨a, z, ranking, _, ha, hmem, hranking, ht, hserves, by decide +kernel, ?_⟩
    rw [hserves.served]
    decide +kernel

end Analyzer

end Saturation
