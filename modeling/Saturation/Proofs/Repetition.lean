import Saturation.Proofs.Proportion
import Saturation.Proofs.Tables

/-!
The strategies for a trace depend on its packets in their proportions only: neither the order of the
packets matters nor how often they all come. What is ranked is served up to a value, ties or not, and
the profiles are the same.
-/

set_option autoImplicit false

namespace Saturation

open Exact (number)

/-! ### What is served -/

theorem takeWhile_eq_filter {β : Type} {p : β → Bool} {l : List β}
    (h : l.Pairwise fun x y => p y = true → p x = true) : l.takeWhile p = l.filter p := by
  induction l with
  | nil => rfl
  | cons x l ih =>
    obtain ⟨hx, hl⟩ := List.pairwise_cons.mp h
    cases hp : p x with
    | true => rw [List.takeWhile_cons_of_pos hp, List.filter_cons_of_pos hp, ih hl]
    | false =>
      have hnone : ∀ y ∈ l, ¬ p y = true := fun y hy hpy => by simp [hx y hy hpy] at hp
      rw [List.takeWhile_cons_of_neg (by simp [hp]), List.filter_cons_of_neg (by simp [hp]),
        List.filter_eq_nil_iff.mpr hnone]

theorem Threshold.admits_of_atMost {α : Type} [Scalar α] [Scalar.IsOrdered α] (t : Threshold α)
    {a b : α} (hab : Scalar.atMost a b = true) (hb : t.admits b = true) : t.admits a = true := by
  cases t with
  | saturated x => exact Scalar.IsOrdered.atMost_trans hab hb
  | exhausted x => rfl

/-- At every threshold, `m` times as much is served of the second ranking. -/
def Ranking.IsMultiple (m : Nat) (r r' : Ranking Exact) : Prop :=
  ∀ t : Threshold Exact, (servedSize t.admits r').toNat = m * (servedSize t.admits r).toNat

/-- What is sorted by numbers is in the order of these numbers. -/
theorem Computed.mergeSort_ascending {β : Type} {key : β → Computed Exact} {items : List β}
    (h : ∀ x ∈ items, ∃ q, key x = .given (number q)) :
    (items.mergeSort fun x y => (key x).precedes (key y)).Pairwise
      fun x y => (key x).value ≤ (key y).value := by
  refine (mergeSort_pairwise key items).imp_of_mem fun {x y} hx hy hxy => ?_
  obtain ⟨a, ha⟩ := h x (List.mem_mergeSort.mp hx)
  obtain ⟨b, hb⟩ := h y (List.mem_mergeSort.mp hy)
  rw [ha, hb] at hxy ⊢
  have hle : Scalar.precedes (number a) (number b) = true := hxy
  exact (Exact.le_iff_precedes _ _).mpr ⟨hle, by simp [given]⟩

section

variable {m : Nat} {ps qs : List (Packet Exact)}

theorem Repeats.sortedPackets (h : Repeats m ps qs) (key : Packet Exact → Computed Exact) :
    Repeats m (Model.sortedBy key ps) (Model.sortedBy key qs) :=
  h.of_perm (Model.sortedBy_perm key ps) (Model.sortedBy_perm key qs)

/-- Of sorted packets, those are served whose value is admitted. -/
theorem toNat_served_packets {key : Packet Exact → Computed Exact} {ps : List (Packet Exact)}
    (hkey : ∀ p ∈ ps, ∃ q, key p = .given (number q)) (hbits : bits ps < 2 ^ 64)
    (t : Threshold Exact) :
    (servedSize t.admits ((Model.sortedBy key ps).map fun p => ((key p).value, p.size))).toNat =
      (((Model.sortedBy key ps).filter fun p => t.admits (key p).value).map
        fun p => p.size.toNat).sum := by
  have hsorted : ((Model.sortedBy key ps).map fun p => ((key p).value, p.size)).Pairwise
      fun a b => t.admits b.1 = true → t.admits a.1 = true := by
    rw [List.pairwise_map]
    exact (Computed.mergeSort_ascending hkey).imp fun hpq => t.admits_of_atMost hpq
  rw [toNat_servedSize _ (by rwa [Model.bits_packets key]), takeWhile_eq_filter hsorted,
    List.filter_map, Ranking.bits, List.map_map]
  rfl

theorem Repeats.packetRanking (h : Repeats m ps qs) (hq : Traffic qs)
    {key : Packet Exact → Computed Exact} (hkey : ∀ p ∈ qs, ∃ q, key p = .given (number q)) :
    Ranking.IsMultiple m ((Model.sortedBy key ps).map fun p => ((key p).value, p.size))
      ((Model.sortedBy key qs).map fun p => ((key p).value, p.size)) := by
  intro t
  rw [toNat_served_packets (fun p hp => hkey p (h.mem_iff.mpr hp)) (h.traffic hq).bits_lt,
    toNat_served_packets hkey hq.bits_lt]
  exact (((h.sortedPackets key).filter _).map _).sum_eq

theorem bits_takeWhile_multiple {β : Type} (p : Exact → Bool) {value : β → Exact}
    {size size' : β → UInt64} {l : List β} (h : ∀ x ∈ l, (size' x).toNat = m * (size x).toNat) :
    Ranking.bits ((l.map fun x => (value x, size' x)).takeWhile fun item => p item.1) =
      m * Ranking.bits ((l.map fun x => (value x, size x)).takeWhile fun item => p item.1) := by
  induction l with
  | nil => simp [Ranking.bits]
  | cons x l ih =>
    rw [List.forall_mem_cons] at h
    have hrest := ih h.2
    simp only [List.map_cons, List.takeWhile_cons]
    cases p (value x) with
    | false => simp [Ranking.bits]
    | true =>
      simp only [Ranking.bits, if_true, List.map_cons, List.sum_cons] at hrest ⊢
      rw [hrest, h.1, Nat.mul_add]

theorem Repeats.flowRanking (h : Repeats m ps qs) (hq : Traffic qs)
    {rank : Flow Exact → Computed Exact}
    (hrank : ∀ f, f.IsRepeatable m → rank (f.repeated m) = rank f) :
    Ranking.IsMultiple m
      (((FlowTable.ofPackets ps).sortedBy rank).map fun f => ((rank f).value, f.size))
      (((FlowTable.ofPackets qs).sortedBy rank).map fun f => ((rank f).value, f.size)) := by
  intro t
  have hp := h.traffic hq
  have hmem : ∀ f ∈ (FlowTable.ofPackets ps).sortedBy rank, f.IsRepeatable m := by
    intro f hf
    obtain ⟨name, hf⟩ := FlowTable.mem_sortedBy hf
    exact h.isRepeatable hq _ hf
  have hbits := (Model.bits_flows rank (fun f => (rank f).value) _).trans
    (FlowTable.bits_ofPackets hp.bits_lt)
  have hbits' := (Model.bits_flows rank (fun f => (rank f).value) _).trans
    (FlowTable.bits_ofPackets hq.bits_lt)
  have hitems : (((FlowTable.ofPackets qs).sortedBy rank).map fun f => ((rank f).value, f.size)) =
      ((FlowTable.ofPackets ps).sortedBy rank).map
        fun f => ((rank f).value, (f.repeated m).size) := by
    rw [h.sortedBy hq hrank, List.map_map]
    refine List.map_congr_left fun f hf => ?_
    simp only [Function.comp_apply, hrank f (hmem f hf)]
  rw [toNat_servedSize _ (by rw [hbits']; exact hq.bits_lt),
    toNat_servedSize _ (by rw [hbits]; exact hp.bits_lt), hitems]
  exact bits_takeWhile_multiple t.admits fun f hf => (hmem f hf).toNat_size

end

/-! ### Models -/

section

variable {m : Nat} {ps qs : List (Packet Exact)} {stats stats' : Statistics Exact}

theorem Packet.costRank_number {p : Packet Exact} (hsize : p.size ≠ 0) (hjob : p.jobSize.IsAmount) :
    ∃ q, p.costRank = .given (number q) := by
  obtain ⟨j, -, hj⟩ := hjob
  have hsize : (p.size.toNat : ℚ) ≠ 0 :=
    Nat.cast_ne_zero.mpr fun h0 => hsize (UInt64.toNat_inj.mp h0)
  exact ⟨j / p.size.toNat, by rw [costRank, hj, Exact.ofWord_eq, Computed.divide_number _ hsize]⟩

theorem Packet.jobRank_number {p : Packet Exact} (hjob : p.jobSize.IsAmount) :
    ∃ q, Computed.given p.jobSize = .given (number q) := by
  obtain ⟨j, -, hj⟩ := hjob
  exact ⟨j, by rw [hj]⟩

theorem Traffic.costRank_number (h : Traffic ps) {p : Packet Exact} (hp : p ∈ ps) :
    ∃ q, p.costRank = .given (number q) :=
  Packet.costRank_number (h.size_ne_zero p hp) (h.jobSize_isAmount p hp)

theorem Traffic.jobRank_number (h : Traffic ps) {p : Packet Exact} (hp : p ∈ ps) :
    ∃ q, Computed.given p.jobSize = .given (number q) :=
  Packet.jobRank_number (h.jobSize_isAmount p hp)

/-- Models of traffic and of the same traffic `m` times. -/
def Model.IsMultiple (m : Nat) : Model Exact → Model Exact → Prop
  | arrival, arrival => True
  | shares flows, shares flows' => flows' = flows
  | byJobSize ranking profile, byJobSize ranking' profile' =>
    ranking.IsMultiple m ranking' ∧ profile' = profile
  | byCostRatio ranking profile, byCostRatio ranking' profile' =>
    ranking.IsMultiple m ranking' ∧ profile' = profile
  | _, _ => False

theorem Statistics.IsMultiple.div_total (hs : Statistics.IsMultiple m stats stats')
    (htotal : 0 < stats.totalPackets) (q : ℚ) :
    number (m * q) / (Scalar.ofNat stats'.totalPackets : Exact) =
      number q / Scalar.ofNat stats.totalPackets := by
  have hm : (m : ℚ) ≠ 0 := Nat.cast_ne_zero.mpr hs.pos.ne'
  have hn : (stats.totalPackets : ℚ) ≠ 0 := Nat.cast_ne_zero.mpr htotal.ne'
  rw [hs.totalPackets, Exact.ofNat_eq, Exact.ofNat_eq, Nat.cast_mul,
    Exact.number_div _ (mul_ne_zero hm hn), Exact.number_div _ hn, mul_div_mul_left _ _ hm]

theorem Repeats.jobSizes (h : Repeats m ps qs) (hq : Traffic qs)
    (hs : Statistics.IsMultiple m stats stats') (htotal : 0 < stats.totalPackets) :
    (Model.ofJobSizes stats ps).IsMultiple m (Model.ofJobSizes stats' qs) := by
  refine ⟨h.packetRanking hq fun p => hq.jobRank_number, ?_⟩
  rw [(h.map fun p => Model.jobSizeKey p.jobSize).histogram, List.map_map]
  refine congrArg JobSizeProfile.ofSorted (List.map_congr_left fun s _ => ?_)
  have hshare : (Scalar.ofNat (m * s.2) : Exact) / Scalar.ofNat stats'.totalPackets =
      Scalar.ofNat s.2 / Scalar.ofNat stats.totalPackets := by
    rw [Exact.ofNat_eq (m * s.2), Nat.cast_mul]
    exact hs.div_total htotal s.2
  rw [Function.comp_apply, hshare]

/-- What a flow adds to a profile. -/
theorem Repeats.flowShare (h : Repeats m ps qs) (hq : Traffic qs)
    (hs : Statistics.IsMultiple m stats stats') (htotal : 0 < stats.totalPackets)
    {rank : Flow Exact → Computed Exact} :
    ∀ f ∈ (FlowTable.ofPackets ps).sortedBy rank, f.IsRepeatable m ∧
      (f.repeated m).jobSize / Scalar.ofNat stats'.totalPackets =
        f.jobSize / Scalar.ofNat stats.totalPackets := by
  intro f hf
  obtain ⟨name, hf⟩ := FlowTable.mem_sortedBy hf
  have hrep := h.isRepeatable hq _ hf
  obtain ⟨q, -, hj⟩ := hrep.jobTotal_eq
  refine ⟨hrep, ?_⟩
  rw [Flow.jobSize, Flow.jobSize, hj, Flow.repeated, hj]
  exact hs.div_total htotal q

theorem Repeats.flowJobSizes (h : Repeats m ps qs) (hq : Traffic qs)
    (hs : Statistics.IsMultiple m stats stats') (htotal : 0 < stats.totalPackets) :
    (Model.ofFlowJobSizes stats ps).IsMultiple m (Model.ofFlowJobSizes stats' qs) := by
  have hrank : ∀ f : Flow Exact, f.IsRepeatable m → (f.repeated m).jobRank = f.jobRank :=
    fun f hf => (hf.ranks h.pos).1
  refine ⟨h.flowRanking hq hrank, congrArg JobSizeProfile.ofSorted ?_⟩
  rw [h.sortedBy hq hrank, List.map_map]
  refine List.map_congr_left fun f hf => ?_
  obtain ⟨hrep, hshare⟩ := h.flowShare hq hs htotal f hf
  rw [Function.comp_apply, hshare, Flow.averageJobSize, Flow.averageJobSize, hrank f hrep]

/-- Two policies that rank by cost ratio both fail, with the same fault, or both have a model. -/
def Model.AreMultiple (m : Nat) (x x' : Except Fault (Model Exact)) : Prop :=
  (∃ e, x = .error e ∧ x' = .error e) ∨
    ∃ model model', x = .ok model ∧ x' = .ok model' ∧ model.IsMultiple m model'

theorem Repeats.flowCostRatios (h : Repeats m ps qs) (hq : Traffic qs)
    (hs : Statistics.IsMultiple m stats stats') (htotal : 0 < stats.totalPackets) :
    Model.AreMultiple m (Model.ofFlowCostRatios stats ps) (Model.ofFlowCostRatios stats' qs) := by
  have hrank : ∀ f : Flow Exact, f.IsRepeatable m → (f.repeated m).costRank = f.costRank :=
    fun f hf => (hf.ranks h.pos).2
  have hshares : (((FlowTable.ofPackets qs).sortedBy Flow.costRank).map
        fun f => (f.averageCostRatio, f.jobSize / Scalar.ofNat stats'.totalPackets)) =
      ((FlowTable.ofPackets ps).sortedBy Flow.costRank).map
        fun f => (f.averageCostRatio, f.jobSize / Scalar.ofNat stats.totalPackets) := by
    rw [h.sortedBy hq hrank, List.map_map]
    refine List.map_congr_left fun f hf => ?_
    obtain ⟨hrep, hshare⟩ := h.flowShare hq hs htotal f hf
    rw [Function.comp_apply, hshare, Flow.averageCostRatio, Flow.averageCostRatio, hrank f hrep]
  unfold Model.ofFlowCostRatios Model.ofTableCostRatios
  dsimp only
  rw [hshares]
  cases RatioProfile.ofSorted (((FlowTable.ofPackets ps).sortedBy Flow.costRank).map
      fun f => (f.averageCostRatio, f.jobSize / Scalar.ofNat stats.totalPackets)) with
  | error e => exact .inl ⟨e, rfl, rfl⟩
  | ok profile => exact .inr ⟨_, _, rfl, rfl, h.flowRanking hq hrank, rfl⟩

/-! The shares of packets in a table of cost ratios. -/

/-- What packets add to a table. -/
def packetShares (stats : Statistics Exact) (ps : List (Packet Exact)) : List (Exact × Exact) :=
  (Model.sortedBy Packet.costRank ps).map
    fun p => (p.costRatio, p.jobSize / Scalar.ofNat stats.totalPackets)

/-- What is added to a table in the order of its cost ratios is in the order of the slots. -/
theorem RatioProfile.exactShares_pairwise {β : Type} {rank : β → Computed Exact} {items : List β}
    (h : ∀ x ∈ items, ∃ q, rank x = .given (number q)) (share : β → Exact) :
    ((items.mergeSort fun x y => (rank x).precedes (rank y)).map
      fun x => ((rank x).value, share x)).Pairwise fun c d => ratioSlot c.1 ≤ ratioSlot d.1 := by
  rw [List.pairwise_map]
  refine (Computed.mergeSort_ascending h).imp_of_mem fun {x y} hx hy hxy => ?_
  obtain ⟨a, ha⟩ := h x (List.mem_mergeSort.mp hx)
  obtain ⟨b, hb⟩ := h y (List.mem_mergeSort.mp hy)
  rw [ha, hb] at hxy ⊢
  exact ratioSlot_mono ((Exact.number_le a b).mp hxy)

theorem Traffic.packetShares_pairwise (h : Traffic ps) :
    (packetShares stats ps).Pairwise fun c d => ratioSlot c.1 ≤ ratioSlot d.1 :=
  RatioProfile.exactShares_pairwise (fun _ hp => h.costRank_number hp) _

theorem Traffic.packetShares_isAmount (h : Traffic ps) (htotal : 0 < stats.totalPackets) :
    ∀ c ∈ packetShares stats ps, c.2.IsAmount := by
  intro c hc
  obtain ⟨p, hp, rfl⟩ := List.mem_map.mp hc
  exact (h.jobSize_isAmount p ((Model.sortedBy_perm _ ps).mem_iff.mp hp)).div
    (Nat.cast_pos.mpr htotal)

theorem Traffic.addedUpTo_packetShares (h : Traffic ps) (htotal : 0 < stats.totalPackets)
    (slot : Nat) : RatioProfile.addedUpTo (packetShares stats ps) slot =
      (jobValues ((Model.sortedBy Packet.costRank ps).filter
        fun p => ratioSlot p.costRatio ≤ slot)).sum / stats.totalPackets := by
  rw [RatioProfile.addedUpTo, packetShares, List.filter_map, Exact.ofNat_eq, contributed_div]
  · rfl
  · intro p hp
    exact h.jobSize_isAmount p ((Model.sortedBy_perm _ ps).mem_iff.mp (List.mem_of_mem_filter hp))
  · exact Nat.cast_ne_zero.mpr htotal.ne'

theorem exists_packetShares {slot : Nat} :
    (∃ c ∈ packetShares stats ps, ratioSlot c.1 = slot) ↔
      ∃ p ∈ ps, ratioSlot p.costRatio = slot := by
  constructor
  · rintro ⟨c, hc, hslot⟩
    obtain ⟨p, hp, rfl⟩ := List.mem_map.mp hc
    exact ⟨p, (Model.sortedBy_perm _ ps).mem_iff.mp hp, hslot⟩
  · rintro ⟨p, hp, hslot⟩
    exact ⟨_, List.mem_map.mpr ⟨p, (Model.sortedBy_perm _ ps).mem_iff.mpr hp, rfl⟩, hslot⟩

theorem Repeats.packetShares (h : Repeats m ps qs) (hq : Traffic qs)
    (hs : Statistics.IsMultiple m stats stats') (htotal : 0 < stats.totalPackets) :
    RatioProfile.ofSorted (packetShares stats' qs) =
      RatioProfile.ofSorted (packetShares stats ps) := by
  have hp := h.traffic hq
  have htotal' : 0 < stats'.totalPackets := by
    rw [hs.totalPackets]
    exact Nat.mul_pos h.pos htotal
  have hsorted := h.sortedPackets Packet.costRank
  refine RatioProfile.ofSorted_eq hq.packetShares_pairwise hp.packetShares_pairwise
    (hq.packetShares_isAmount htotal') (hp.packetShares_isAmount htotal) (fun slot => ?_)
    fun slot => ?_
  · simp only [exists_packetShares, h.mem_iff]
  · rw [hq.addedUpTo_packetShares htotal', hp.addedUpTo_packetShares htotal,
      (hsorted.filter _).jobSum_eq, hs.totalPackets, Nat.cast_mul,
      mul_div_mul_left _ _ (Nat.cast_ne_zero.mpr h.pos.ne')]

theorem Repeats.costRatios (h : Repeats m ps qs) (hq : Traffic qs)
    (hs : Statistics.IsMultiple m stats stats') (htotal : 0 < stats.totalPackets) :
    Model.AreMultiple m (Model.ofCostRatios stats ps) (Model.ofCostRatios stats' qs) := by
  have hshares := h.packetShares hq hs htotal
  unfold Saturation.packetShares at hshares
  unfold Model.ofCostRatios
  dsimp only
  rw [hshares]
  cases RatioProfile.ofSorted ((Model.sortedBy Packet.costRank ps).map
      fun p => (p.costRatio, p.jobSize / Scalar.ofNat stats.totalPackets)) with
  | error e => exact .inl ⟨e, rfl, rfl⟩
  | ok profile =>
    exact .inr ⟨_, _, rfl, rfl, h.packetRanking hq fun p => hq.costRank_number, rfl⟩

/-- The models of a policy for traffic and for the same traffic `m` times. -/
theorem Repeats.model (h : Repeats m ps qs) (hq : Traffic qs)
    (hs : Statistics.IsMultiple m stats stats') (htotal : 0 < stats.totalPackets) (policy : Policy) :
    Model.AreMultiple m (Model.ofPackets policy stats ps) (Model.ofPackets policy stats' qs) := by
  cases policy with
  | fcfs => exact .inr ⟨_, _, rfl, rfl, trivial⟩
  | fq =>
    refine .inr ⟨_, _, rfl, rfl, ?_⟩
    rw [h.flows hq, List.length_map]
    rfl
  | sjf => exact .inr ⟨_, _, rfl, rfl, h.jobSizes hq hs htotal⟩
  | sjfInorder => exact .inr ⟨_, _, rfl, rfl, h.flowJobSizes hq hs htotal⟩
  | wsjf => exact h.costRatios hq hs htotal
  | wsjfInorder => exact h.flowCostRatios hq hs htotal

/-! ### Strategies -/

theorem innocentWork_eq (hs : Statistics.IsMultiple m stats stats') (rates : Rates Exact) :
    innocentWork rates stats' = innocentWork rates stats := by
  funext expectation
  rw [innocentWork, innocentWork, hs.averagePacketSize]

theorem JobSizeProfile.threshold_eq (hs : Statistics.IsMultiple m stats stats')
    (p : JobSizeProfile Exact) (rates : Rates Exact) :
    p.threshold rates stats' = p.threshold rates stats := by
  unfold threshold workAt
  rw [innocentWork_eq hs, hs.maximumJobSize]

theorem RatioProfile.threshold_eq (hs : Statistics.IsMultiple m stats stats')
    (p : RatioProfile Exact) (rates : Rates Exact) :
    p.threshold rates stats' = p.threshold rates stats := by
  have hscan : ∀ l, firstSaturated rates stats' l = firstSaturated rates stats l := by
    intro l
    induction l with
    | nil => rfl
    | cons s l ih =>
      obtain ⟨first, n, value⟩ := s
      rw [firstSaturated, firstSaturated, ih, innocentWork_eq hs]
  rw [threshold, threshold, hscan]

theorem Estimate.ofGoodput_eq (hs : Statistics.IsMultiple m stats stats') (rates : Rates Exact)
    (goodput : Exact) : ofGoodput rates stats' goodput = ofGoodput rates stats goodput := by
  unfold ofGoodput Statistics.idealGoodput
  rw [hs.rMax]

/-- The same part of the offered bits is served. -/
theorem Estimate.ofServedSize_eq (hs : Statistics.IsMultiple m stats stats')
    (hoffered : 0 < stats.totalPackets * stats.averagePacketSize.toNat) (r : ℚ) (a : Exact)
    {served served' : UInt64} (h : served'.toNat = m * served.toNat) :
    ofServedSize ⟨number r, a⟩ stats' served' = ofServedSize ⟨number r, a⟩ stats served := by
  have hm : (m : ℚ) ≠ 0 := Nat.cast_ne_zero.mpr hs.pos.ne'
  have hn : (stats.totalPackets : ℚ) * stats.averagePacketSize.toNat ≠ 0 := by
    exact_mod_cast hoffered.ne'
  unfold ofServedSize
  rw [ofGoodput_eq hs]
  simp only [hs.totalPackets, hs.averagePacketSize, h, Exact.ofWord_eq, Exact.ofNat_eq,
    Exact.number_mul, Nat.cast_mul]
  rw [mul_assoc, mul_left_comm, Exact.number_div _ (mul_ne_zero hm hn), Exact.number_div _ hn,
    mul_div_mul_left _ _ hm]

/-- Analyzers of the same traffic with the same bounds have the same strategies. -/
theorem Analyzer.strategy_eq (z z' : Analyzer Exact) (hbounds : z'.bounds = z.bounds)
    (hs : Statistics.IsMultiple m z.statistics z'.statistics)
    (hoffered : 0 < z.statistics.totalPackets * z.statistics.averagePacketSize.toNat)
    (hm : z.model.IsMultiple m z'.model) (r : ℚ) (a : Exact) :
    z'.strategy ⟨number r, a⟩ = z.strategy ⟨number r, a⟩ := by
  obtain ⟨policy, stats, bounds, model⟩ := z
  obtain ⟨policy', stats', bounds', model'⟩ := z'
  dsimp only at hbounds hs hoffered hm
  subst hbounds
  cases model with
  | arrival =>
    cases model' with
    | arrival =>
      simp only [strategy, arrivalGoodput, innocentWork_eq hs, hs.averageJobSize,
        Estimate.ofGoodput_eq hs]
    | shares | byJobSize | byCostRatio => exact hm.elim
  | shares flows =>
    cases model' with
    | shares flows' =>
      obtain rfl : flows' = flows := hm
      simp only [strategy, sharesGoodput, hs.rMax, Estimate.ofGoodput_eq hs]
    | arrival | byJobSize | byCostRatio => exact hm.elim
  | byJobSize ranking profile =>
    cases model' with
    | byJobSize ranking' profile' =>
      obtain ⟨hserved, rfl⟩ := hm
      simp only [strategy, rankedEstimate, JobSizeProfile.threshold_eq hs]
      rw [Estimate.ofServedSize_eq hs hoffered r a (hserved _)]
    | arrival | shares | byCostRatio => exact hm.elim
  | byCostRatio ranking profile =>
    cases model' with
    | byCostRatio ranking' profile' =>
      obtain ⟨hserved, rfl⟩ := hm
      simp only [strategy, rankedEstimate, RatioProfile.threshold_eq hs]
      rw [Estimate.ofServedSize_eq hs hoffered r a (hserved _)]
    | arrival | shares | byJobSize => exact hm.elim

end

namespace Analysis

variable {bytes bytes' : List UInt8} {m : Nat}

theorem exact_eq (h : (Trace.read bytes).2.isOk = true) :
    ∃ stats, Statistics.ofPackets ((Trace.read bytes).1.map Record.exact) = .ok stats ∧
      ∀ policy bounds, Analysis.exact bytes policy bounds =
        Analyzer.ofPackets policy bounds stats ((Trace.read bytes).1.map Record.exact) := by
  obtain ⟨stats, hstats⟩ := Statistics.exists_ofPackets
    (mt List.map_eq_nil_iff.mp (Trace.read_nonempty h))
    (bits_exact (Trace.read bytes).1 ▸ Trace.bits_read_lt bytes)
  refine ⟨stats, hstats, fun policy bounds => ?_⟩
  unfold Analysis.exact
  generalize Trace.read bytes = outcome at *
  obtain ⟨records, result⟩ := outcome
  cases result with
  | error e => exact absurd h Bool.false_ne_true
  | ok summary =>
    dsimp only at hstats ⊢
    rw [hstats]

/-- In exact arithmetic, an analysis depends on the packets of a trace in their proportions only. Of
a trace with the packets of another one, each of them `m` times and in any order, every policy has
the same strategies, or the same fault. -/
theorem strategy_of_repeats (h : (Trace.read bytes).2.isOk = true)
    (h' : (Trace.read bytes').2.isOk = true)
    (hrepeats : Repeats m ((Trace.read bytes).1.map Record.packet)
      ((Trace.read bytes').1.map Record.packet))
    (policy : Policy) (bounds : AttackBounds Exact) (r a : ℚ) :
    (Analysis.exact bytes' policy bounds).map (fun z => z.strategy ⟨number r, number a⟩) =
      (Analysis.exact bytes policy bounds).map fun z => z.strategy ⟨number r, number a⟩ := by
  have hexact : Repeats m ((Trace.read bytes).1.map Record.exact)
      ((Trace.read bytes').1.map Record.exact) := by
    have := hrepeats.map Packet.exact
    rwa [List.map_map, List.map_map] at this
  have hq := Trace.traffic (Trace.read_nonempty h')
  have hp := hexact.traffic hq
  obtain ⟨stats, hstats, hof⟩ := exact_eq h
  obtain ⟨stats', hstats', hof'⟩ := exact_eq h'
  have hs := hexact.statistics hq hstats hstats'
  have hsound := hp.statistics_isSound hstats
  rw [hof, hof']
  unfold Analyzer.ofPackets
  rcases hexact.model hq hs hsound.total_pos policy with ⟨e, he, he'⟩ | ⟨model, model', hm, hm', hmodel⟩
  · rw [he, he']
  · rw [hm, hm']
    have hstrategy := Analyzer.strategy_eq ⟨policy, stats, bounds, model⟩
      ⟨policy, stats', bounds, model'⟩ rfl hs (Nat.mul_pos hsound.total_pos hsound.size_pos)
      hmodel r (number a)
    exact congrArg Except.ok hstrategy

/-- The packets of `twoPackets`, each of them twice. -/
def fourPackets : List UInt8 :=
  "0;1;b;x;512;700\n2;3;a;x;1000;8000.5\n4;5;a;y;1000;8000.5\n6;7;b;x;512;700".toUTF8.toList

theorem strategy_of_repeats_fourPackets :
    (∃ z, Analysis.exact twoPackets .wsjf ⟨number 9000, 512⟩ = .ok z) ∧
    Repeats 2 ((Trace.read twoPackets).1.map Record.packet)
      ((Trace.read fourPackets).1.map Record.packet) ∧
    (Analysis.exact fourPackets .wsjf ⟨number 9000, 512⟩).map
        (fun z => z.strategy ⟨number 1, number 2⟩) =
      (Analysis.exact twoPackets .wsjf ⟨number 9000, 512⟩).map
        fun z => z.strategy ⟨number 1, number 2⟩ := by
  have hrepeats : Repeats 2 ((Trace.read twoPackets).1.map Record.packet)
      ((Trace.read fourPackets).1.map Record.packet) := ⟨by decide, by decide +kernel⟩
  exact ⟨exact_twoPackets _, hrepeats, strategy_of_repeats (by decide +kernel) (by decide +kernel) hrepeats
    .wsjf _ 1 2⟩

end Analysis

end Saturation
