import Saturation.Proofs.JobSizeDistribution
import Saturation.Proofs.Repetition

/-!
Traffic in which each flow has a single packet. The totals of such a flow are its packet, so policies
over flows rank what policies over packets rank. Ties come in another order, but no order among ties has
an effect on a profile or on what is served.
-/

set_option autoImplicit false

namespace Saturation

open Exact (number)

/-! ### Rankings in another order of ties -/

/-- A ranking in the order of its values. -/
def Ranking.IsSorted (r : Ranking Exact) : Prop := r.Pairwise fun a b => a.1 ≤ b.1

/-- What is served does not depend on the order among ties. -/
theorem servedSize_perm {r r' : Ranking Exact} (hr : r.IsSorted) (hr' : r'.IsSorted)
    (h : r'.Perm r) (t : Threshold Exact) : servedSize t.admits r' = servedSize t.admits r := by
  have hfilter : ∀ r : Ranking Exact, r.IsSorted →
      (r.takeWhile fun item => t.admits item.1) = r.filter fun item => t.admits item.1 :=
    fun r hr => takeWhile_eq_filter (hr.imp fun hab => t.admits_of_atMost hab)
  rw [servedSize, servedSize, hfilter r hr, hfilter r' hr']
  refine (h.filter _).foldl_eq' (fun a _ b _ total => ?_) 0
  rw [UInt64.add_assoc, UInt64.add_comm a.2, UInt64.add_assoc]

/-- A table does not depend on the order among ties. -/
theorem RatioProfile.ofSorted_perm {cs ds : List (Exact × Exact)}
    (hcs : cs.Pairwise fun c d => ratioSlot c.1 ≤ ratioSlot d.1)
    (hds : ds.Pairwise fun c d => ratioSlot c.1 ≤ ratioSlot d.1)
    (hc : ∀ c ∈ cs, c.2.IsAmount) (h : ds.Perm cs) : ofSorted ds = ofSorted cs := by
  refine ofSorted_eq hds hcs (fun d hd => hc d (h.mem_iff.mp hd)) hc (fun k => ?_) fun k => ?_
  · simp only [h.mem_iff]
  · exact ((h.filter _).map _).sum_eq

/-- Profiles over the same jobs are the same. -/
theorem JobSizeProfile.IsDistribution.ext {p p' : JobSizeProfile Exact}
    {jobs jobs' : List (Nat × Exact)} {n : Nat} (hp : p.IsDistribution jobs n)
    (hp' : p'.IsDistribution jobs' n) (h : jobs'.Perm jobs) : p' = p := by
  have hpoints : p'.points = p.points := by
    refine hp'.hasKeys.ascending.ext hp.hasKeys.ascending (fun k => ?_)
      (fun k => number (contributed (jobs.filter fun j => j.1 ≤ k) / n)) (fun s hs => ?_) hp.value_eq
    · rw [hp'.hasKeys.mem_iff, hp.hasKeys.mem_iff, (h.map Prod.fst).mem_iff]
    · have hsum : contributed (jobs'.filter fun j => j.1 ≤ s.1) =
          contributed (jobs.filter fun j => j.1 ≤ s.1) := ((h.filter _).map _).sum_eq
      rw [hp'.value_eq s hs, hsum]
  cases p
  cases p'
  rw [mk.injEq]
  exact hpoints

/-! ### Flows with one packet -/

namespace Flow

/-- A flow with one packet. -/
def single {α : Type} [Scalar α] (p : Packet α) : Flow α := empty.add p

variable {p : Packet Exact}

theorem jobTotal_single (h : p.jobSize.IsAmount) : (single p).jobTotal = .given p.jobSize := by
  obtain ⟨q, -, hq⟩ := h
  show (empty : Flow Exact).jobTotal.add p.jobSize = _
  rw [jobTotal_empty, hq, Computed.add_number, zero_add]

theorem jobSize_single (h : p.jobSize.IsAmount) : (single p).jobSize = p.jobSize := by
  rw [jobSize, jobTotal_single h]
  rfl

theorem jobRank_single (h : p.jobSize.IsAmount) : (single p).jobRank = .given p.jobSize := by
  rw [jobRank, jobTotal_single h]
  obtain ⟨q, -, hq⟩ := h
  have hone : (single p).packets = 1 := rfl
  rw [hone, hq, Exact.ofNat_eq, Computed.divide_number q (by norm_num), Nat.cast_one, div_one]

theorem costRank_single (h : p.jobSize.IsAmount) : (single p).costRank = p.costRank := by
  have hsize : (single p).size = p.size := size_empty_add p
  rw [costRank, jobTotal_single h, hsize]
  rfl

end Flow

namespace FlowTable

variable {α : Type} [Scalar α]

theorem record_perm {p : Packet α} {t : FlowTable α} (h : p.flow ∉ t.map Prod.fst) :
    (record p t).Perm ((p.flow, Flow.single p) :: t) := by
  induction t with
  | nil => rfl
  | cons s t ih =>
    obtain ⟨name, f⟩ := s
    rw [List.map_cons, List.mem_cons, not_or] at h
    unfold record
    split
    · rfl
    · rw [if_neg h.1]
      exact ((ih h.2).cons _).trans (.swap _ _ _)

/-- Where no flow has two packets, the flows are the packets. -/
theorem ofPackets_perm {ps : List (Packet α)} (h : (ps.map Packet.flow).Nodup) :
    (ofPackets ps).Perm (ps.map fun p => (p.flow, Flow.single p)) := by
  induction ps using List.reverseRecOn with
  | nil => rfl
  | append_singleton ps p ih =>
    rw [List.map_append, List.map_singleton, List.nodup_append] at h
    obtain ⟨hps, -, hnew⟩ := h
    have hname : p.flow ∉ (ofPackets ps).map Prod.fst := fun hp =>
      hnew _ (mem_names.mp hp) _ (List.mem_singleton_self _) rfl
    rw [ofPackets_concat, List.map_append, List.map_singleton]
    exact (record_perm hname).trans (((ih hps).cons _).trans (List.perm_append_singleton _ _).symm)

/-- Sorted flows are sorted packets, up to the order. -/
theorem sortedBy_perm_packets {ps : List (Packet α)} (h : (ps.map Packet.flow).Nodup)
    (rank : Flow α → Computed α) (key : Packet α → Computed α) :
    ((ofPackets ps).sortedBy rank).Perm ((Model.sortedBy key ps).map Flow.single) := by
  have hflows := (ofPackets_perm h).map Prod.snd
  rw [List.map_map] at hflows
  exact (sortedBy_perm rank _).trans (hflows.trans ((Model.sortedBy_perm key ps).map _).symm)

end FlowTable

/-! ### Models -/

/-- Models over the same values, with the same profile, that serve the same at every threshold. -/
inductive Model.Agree : Model Exact → Model Exact → Prop
  | byJobSize {r r' : Ranking Exact} (profile : JobSizeProfile Exact)
    (h : ∀ t : Threshold Exact, servedSize t.admits r' = servedSize t.admits r) :
    Agree (.byJobSize r profile) (.byJobSize r' profile)
  | byCostRatio {r r' : Ranking Exact} (profile : RatioProfile Exact)
    (h : ∀ t : Threshold Exact, servedSize t.admits r' = servedSize t.admits r) :
    Agree (.byCostRatio r profile) (.byCostRatio r' profile)

section

variable {ps : List (Packet Exact)}

/-- Packets of traces have bits, and job sizes that are numbers and not negative. -/
structure Packet.IsReadable (p : Packet Exact) : Prop where
  size_ne_zero : p.size ≠ 0
  jobSize_isAmount : p.jobSize.IsAmount

/-- What is sorted packet by packet or flow by flow agrees in all that depends on the packets. -/
theorem FlowTable.map_sortedBy_perm {β : Type} (hflows : (ps.map Packet.flow).Nodup)
    {rank : Flow Exact → Computed Exact} {key : Packet Exact → Computed Exact}
    {f : Flow Exact → β} {g : Packet Exact → β} (h : ∀ p ∈ ps, f (Flow.single p) = g p) :
    (((ofPackets ps).sortedBy rank).map f).Perm ((Model.sortedBy key ps).map g) := by
  have hperm := (sortedBy_perm_packets hflows rank key).map f
  rw [List.map_map] at hperm
  refine hperm.trans (List.Perm.of_eq (List.map_congr_left fun p hp => ?_))
  exact h p ((Model.sortedBy_perm key ps).mem_iff.mp hp)

/-- Sorted flows have numbers as ranks, if those of their packets are numbers. -/
theorem FlowTable.rank_number (hflows : (ps.map Packet.flow).Nodup)
    {rank : Flow Exact → Computed Exact} {key : Packet Exact → Computed Exact}
    (hrank : ∀ p ∈ ps, rank (Flow.single p) = key p) (hkey : ∀ p ∈ ps, ∃ q, key p = .given (number q)) :
    ∀ f ∈ (ofPackets ps).map Prod.snd, ∃ q, rank f = .given (number q) := by
  intro f hf
  have hperm := (ofPackets_perm hflows).map Prod.snd
  rw [hperm.mem_iff, List.map_map, List.mem_map] at hf
  obtain ⟨p, hp, rfl⟩ := hf
  obtain ⟨q, hq⟩ := hkey p hp
  exact ⟨q, (hrank p hp).trans hq⟩

/-- Flows with one packet are served as their packets are. -/
theorem servedSize_singlePackets (hflows : (ps.map Packet.flow).Nodup)
    {rank : Flow Exact → Computed Exact} {key : Packet Exact → Computed Exact}
    (hrank : ∀ p ∈ ps, rank (Flow.single p) = key p) (hkey : ∀ p ∈ ps, ∃ q, key p = .given (number q))
    (t : Threshold Exact) :
    servedSize t.admits (((FlowTable.ofPackets ps).sortedBy rank).map fun f => ((rank f).value, f.size)) =
      servedSize t.admits ((Model.sortedBy key ps).map fun p => ((key p).value, p.size)) := by
  have hsorted : ∀ {β : Type} {value : β → Computed Exact} {items : List β} (size : β → UInt64),
      (∀ x ∈ items, ∃ q, value x = .given (number q)) →
      Ranking.IsSorted ((items.mergeSort fun x y => (value x).precedes (value y)).map
        fun x => ((value x).value, size x)) := by
    intro β value items size h
    rw [Ranking.IsSorted, List.pairwise_map]
    exact Computed.mergeSort_ascending h
  refine servedSize_perm (hsorted _ hkey) (hsorted _ (FlowTable.rank_number hflows hrank hkey))
    (FlowTable.map_sortedBy_perm hflows fun p hp => ?_) t
  rw [hrank p hp]
  exact congrArg (Prod.mk _) (Flow.size_empty_add p)

/-- Either both policies over cost ratios have a model, or neither has. -/
def Model.BothAgree (x x' : Except Fault (Model Exact)) : Prop :=
  (∃ e, x = .error e ∧ x' = .error e) ∨ ∃ m m', x = .ok m ∧ x' = .ok m' ∧ m.Agree m'

theorem Model.costRatios_agree {stats : Statistics Exact} (htotal : 0 < stats.totalPackets)
    (hps : ∀ p ∈ ps, p.IsReadable) (hflows : (ps.map Packet.flow).Nodup) :
    BothAgree (ofCostRatios stats ps) (ofFlowCostRatios stats ps) := by
  have hrank : ∀ p ∈ ps, (Flow.single p).costRank = p.costRank := fun p hp =>
    Flow.costRank_single (hps p hp).jobSize_isAmount
  have hnumber : ∀ p ∈ ps, ∃ q, p.costRank = .given (number q) := fun p hp =>
    Packet.costRank_number (hps p hp).size_ne_zero (hps p hp).jobSize_isAmount
  have hprofile : RatioProfile.ofSorted (((FlowTable.ofPackets ps).sortedBy Flow.costRank).map
        fun f => (f.averageCostRatio, f.jobSize / Scalar.ofNat stats.totalPackets)) =
      RatioProfile.ofSorted ((sortedBy Packet.costRank ps).map
        fun p => (p.costRatio, p.jobSize / Scalar.ofNat stats.totalPackets)) := by
    refine RatioProfile.ofSorted_perm (RatioProfile.exactShares_pairwise hnumber _)
      (RatioProfile.exactShares_pairwise (FlowTable.rank_number hflows hrank hnumber) _) ?_
      (FlowTable.map_sortedBy_perm hflows fun p hp => ?_)
    · refine List.forall_mem_map.mpr fun p hp => ?_
      exact (hps p ((sortedBy_perm _ ps).mem_iff.mp hp)).jobSize_isAmount.div (Nat.cast_pos.mpr htotal)
    · rw [Flow.averageCostRatio, hrank p hp, Flow.jobSize_single (hps p hp).jobSize_isAmount]
      rfl
  have hserved := servedSize_singlePackets hflows hrank hnumber
  unfold ofFlowCostRatios ofTableCostRatios ofCostRatios
  dsimp only
  rw [hprofile]
  cases RatioProfile.ofSorted ((sortedBy Packet.costRank ps).map
      fun p => (p.costRatio, p.jobSize / Scalar.ofNat stats.totalPackets)) with
  | error e => exact .inl ⟨e, rfl, rfl⟩
  | ok profile => exact .inr ⟨_, _, rfl, rfl, .byCostRatio profile hserved⟩

/-- A job size that is a whole number and has a key of its own. -/
def Exact.IsWhole (x : Exact) : Prop := ∃ n : Nat, n < 2 ^ 53 ∧ x = number n

theorem Model.jobSizeKey_whole {x : Exact} (h : x.IsWhole) :
    (Scalar.ofNat (jobSizeKey x) : Exact) = x := by
  obtain ⟨n, hn, rfl⟩ := h
  rw [jobSizeKey_number, Int.floor_natCast, Int.toNat_natCast, Nat.min_eq_left (by omega), Exact.ofNat_eq]

/-- Whole job sizes count in full, so they are the same jobs over packets and over flows. -/
theorem Policy.jobs_perm (hps : ∀ p ∈ ps, p.IsReadable) (hflows : (ps.map Packet.flow).Nodup)
    (hwhole : ∀ p ∈ ps, p.jobSize.IsWhole) :
    (Policy.sjfInorder.jobs ps).Perm (Policy.sjf.jobs ps) := by
  have hperm := (FlowTable.ofPackets_perm hflows).map fun s =>
    (Model.jobSizeKey s.2.averageJobSize, s.2.jobSize)
  rw [List.map_map] at hperm
  refine hperm.trans (List.Perm.of_eq (List.map_congr_left fun p hp => ?_))
  have hjob := (hps p hp).jobSize_isAmount
  rw [Function.comp_apply, Flow.averageJobSize, Flow.jobRank_single hjob, Flow.jobSize_single hjob,
    Model.jobSizeKey_whole (hwhole p hp)]
  rfl

theorem Model.jobSizes_agree {stats : Statistics Exact} (htotal : stats.totalPackets = ps.length)
    (hpos : 0 < ps.length) (hps : ∀ p ∈ ps, p.IsReadable) (hflows : (ps.map Packet.flow).Nodup)
    (hwhole : ∀ p ∈ ps, p.jobSize.IsWhole) :
    (ofJobSizes stats ps).Agree (ofFlowJobSizes stats ps) := by
  have hjob : ∀ p ∈ ps, p.jobSize.IsAmount := fun p hp => (hps p hp).jobSize_isAmount
  have hprofile : JobSizeProfile.ofSorted (Policy.sjfInorder.contributions stats.totalPackets ps) =
      JobSizeProfile.ofSorted (Policy.sjf.contributions stats.totalPackets ps) := by
    rw [htotal]
    exact (JobSizeProfile.ofSorted_isDistribution hjob hpos .sjf).ext
      (JobSizeProfile.ofSorted_isDistribution hjob hpos .sjfInorder)
      (Policy.jobs_perm hps hflows hwhole)
  have hrank : ∀ p ∈ ps, Flow.jobRank (Flow.single p) = .given p.jobSize :=
    fun p hp => Flow.jobRank_single (hjob p hp)
  have hserved := servedSize_singlePackets hflows hrank fun p hp => Packet.jobRank_number (hjob p hp)
  have hmodel : ofFlowJobSizes stats ps = .byJobSize
      (((FlowTable.ofPackets ps).sortedBy Flow.jobRank).map fun f => (f.averageJobSize, f.size))
      (JobSizeProfile.ofSorted (Policy.sjf.contributions stats.totalPackets ps)) :=
    congrArg (Model.byJobSize _) hprofile
  rw [hmodel]
  exact .byJobSize _ hserved

end

/-! ### Strategies -/

/-- Models with the same profile. -/
def Model.SameProfile : Model Exact → Model Exact → Prop
  | byJobSize _ profile, byJobSize _ profile' => profile' = profile
  | byCostRatio _ profile, byCostRatio _ profile' => profile' = profile
  | _, _ => False

/-- Analyzers of two policies with the same profile and the same strategies. -/
structure Analyzer.Coincide (z z' : Analyzer Exact) : Prop where
  statistics : z'.statistics = z.statistics
  profile : z.model.SameProfile z'.model
  strategy : ∀ rates, z'.strategy rates = z.strategy rates

theorem Model.Agree.coincide {m m' : Model Exact} (h : m.Agree m') (policy policy' : Policy)
    (stats : Statistics Exact) (bounds : AttackBounds Exact) :
    Analyzer.Coincide ⟨policy, stats, bounds, m⟩ ⟨policy', stats, bounds, m'⟩ := by
  refine ⟨rfl, ?_, fun rates => ?_⟩
  · cases h <;> rfl
  · cases h with
    | byJobSize profile hserved | byCostRatio profile hserved =>
      simp only [Analyzer.strategy, Analyzer.rankedEstimate, hserved]

namespace Analysis

/-- Two policies fail with the same fault, or they coincide. -/
def BothCoincide (x x' : Except Fault (Analyzer Exact)) : Prop :=
  (∃ e, x = .error e ∧ x' = .error e) ∨ ∃ z z', x = .ok z ∧ x' = .ok z' ∧ z.Coincide z'

/-- In exact arithmetic, for an accepted trace in which no flow has two packets, policies over flows
are policies over packets: the one over cost ratios always, and the one over job sizes if these are
whole numbers. -/
theorem flows_of_single_packets {bytes : List UInt8} (h : (Trace.read bytes).2.isOk = true)
    (hflows : ((Trace.read bytes).1.map fun r => r.packet.flow).Nodup) (bounds : AttackBounds Exact) :
    BothCoincide (exact bytes .wsjf bounds) (exact bytes .wsjfInorder bounds) ∧
    ((∀ r ∈ (Trace.read bytes).1, r.exact.jobSize.IsWhole) →
      ∃ z z', exact bytes .sjf bounds = .ok z ∧ exact bytes .sjfInorder bounds = .ok z' ∧
        z.Coincide z') := by
  obtain ⟨stats, hstats, hof⟩ := exact_eq h
  obtain ⟨htotal, hpos⟩ := Statistics.totalPackets_eq hstats
  have hps : ∀ p ∈ (Trace.read bytes).1.map Record.exact, p.IsReadable :=
    List.forall_mem_map.mpr (Trace.read_forall (P := fun r => r.exact.IsReadable)
      (fun _ _ _ hr => ⟨Record.size_ne_zero hr, Record.jobSize_isAmount hr⟩) bytes)
  have hnames : (((Trace.read bytes).1.map Record.exact).map Packet.flow).Nodup := by
    rwa [List.map_map]
  constructor
  · rw [hof, hof, Analyzer.ofPackets, Analyzer.ofPackets]
    rcases Model.costRatios_agree (htotal ▸ hpos) hps hnames with
      ⟨e, he, he'⟩ | ⟨m, m', hm, hm', hagree⟩
    · rw [Model.ofPackets, Model.ofPackets, he, he']
      exact .inl ⟨e, rfl, rfl⟩
    · rw [Model.ofPackets, Model.ofPackets, hm, hm']
      exact .inr ⟨_, _, rfl, rfl, hagree.coincide ..⟩
  · intro hwhole
    have hagree := Model.jobSizes_agree htotal hpos hps hnames (List.forall_mem_map.mpr hwhole)
    exact ⟨_, _, hof .sjf bounds, hof .sjfInorder bounds, hagree.coincide ..⟩

/-- Three flows with one packet each, two of which tie and come against the order of their names. -/
def threeFlows : List UInt8 := "0;1;b;x;512;100\n2;3;a;x;512;100\n4;5;c;x;1000;700\n".toUTF8.toList

theorem flows_of_single_packets_threeFlows :
    BothCoincide (exact threeFlows .wsjf ⟨number 1000, 8192⟩)
      (exact threeFlows .wsjfInorder ⟨number 1000, 8192⟩) ∧
    ∃ z z', exact threeFlows .sjf ⟨number 1000, 8192⟩ = .ok z ∧
      exact threeFlows .sjfInorder ⟨number 1000, 8192⟩ = .ok z' ∧ z.Coincide z' := by
  have hread : (Trace.read threeFlows).2.isOk = true := by decide +kernel
  have hflows : ((Trace.read threeFlows).1.map fun r => r.packet.flow).Nodup := by decide +kernel
  obtain ⟨hratios, hjobs⟩ := flows_of_single_packets hread hflows ⟨number 1000, 8192⟩
  refine ⟨hratios, hjobs ?_⟩
  have hsizes : (Trace.read threeFlows).1.map (fun r => r.exact.jobSize) =
      [number 100, number 100, number 700] := by decide +kernel
  intro r hr
  have hmem : r.exact.jobSize ∈ [number 100, number 100, number 700] :=
    hsizes ▸ List.mem_map_of_mem hr
  simp only [List.mem_cons, List.not_mem_nil, or_false] at hmem
  rcases hmem with hn | hn | hn
  · exact ⟨100, by norm_num, hn⟩
  · exact ⟨100, by norm_num, hn⟩
  · exact ⟨700, by norm_num, hn⟩

end Analysis

end Saturation
