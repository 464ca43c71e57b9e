import Mathlib.Data.List.Perm.Basic
import Saturation.Proofs.Proportion

/-!
Flows whose packets come interleaved. A flow table keeps, under each name, the totals of the packets
of that name alone, taken in their own order, so it does not depend on how flows are interleaved, and
neither do the policies that keep flows. Sorted flows that tie are in the order of their names.
-/

set_option autoImplicit false

namespace Saturation

/-! ### Sorts that keep the order of what ties -/

/-- Entries of which none has to come in front of another one stay in order. -/
theorem filter_mergeSort {β : Type} {le : β → β → Bool}
    (trans : ∀ a b c, le a b = true → le b c = true → le a c = true)
    (total : ∀ a b, (le a b || le b a) = true) {p : β → Bool}
    (h : ∀ a b, p a = true → p b = true → le a b = true) (l : List β) :
    (l.mergeSort le).filter p = l.filter p := by
  have htied : (l.filter p).Pairwise fun a b => le a b = true :=
    List.pairwise_of_forall_mem_list fun a ha b hb =>
      h a b (List.of_mem_filter ha) (List.of_mem_filter hb)
  have hkept : ((l.filter p).filter p).Sublist ((l.mergeSort le).filter p) :=
    (List.sublist_mergeSort trans total htied List.filter_sublist).filter p
  simp only [List.filter_filter, Bool.and_self] at hkept
  exact (hkept.eq_of_length ((List.mergeSort_perm l le).filter p).length_eq.symm).symm

section

variable {α : Type}

/-! ### The packets of a flow -/

/-- The packets of one flow, in order. -/
def ofFlow (name : String) (ps : List (Packet α)) : List (Packet α) :=
  ps.filter fun p => p.flow = name

/-- Packets in another order, where those of each flow are in the same order. -/
def IsInterleaving (ps qs : List (Packet α)) : Prop := ∀ name, ofFlow name qs = ofFlow name ps

theorem IsInterleaving.perm {ps qs : List (Packet α)} (h : IsInterleaving ps qs) : qs.Perm ps := by
  classical
  rw [List.perm_iff_count]
  intro p
  have hown : ∀ l : List (Packet α), l.count p = (ofFlow p.flow l).count p := fun l => by
    rw [ofFlow, List.count_filter (by simp)]
  rw [hown qs, h p.flow, ← hown ps]

variable [Scalar α]

/-! ### Entries of a table -/

namespace Flow

/-- Job sizes are summed from the left. -/
theorem jobSize_foldl (ps : List (Packet α)) (f : Flow α) :
    (ps.foldl add f).jobSize = (ps.map Packet.jobSize).foldl (· + ·) f.jobSize := by
  induction ps generalizing f with
  | nil => rfl
  | cons p ps ih => exact ih (f.add p)

end Flow

namespace FlowTable

/-- What a table holds after some packets. -/
structure Holds (ps : List (Packet α)) (t : FlowTable α) : Prop where
  /-- One entry for each flow, in the order of the names. -/
  ascending : t.Pairwise fun s u => s.1 < u.1
  nodup : (t.map Prod.fst).Nodup
  mem_names : ∀ name, name ∈ t.map Prod.fst ↔ name ∈ ps.map Packet.flow
  /-- Totals of the flow's own packets, with the job sizes summed from the first to the last. -/
  packets_eq : ∀ s ∈ t, s.2.packets = (ofFlow s.1 ps).length
  size_eq : ∀ s ∈ t, s.2.size.toNat = Saturation.bits (ofFlow s.1 ps)
  jobSize_eq : ∀ s ∈ t,
    s.2.jobSize = ((ofFlow s.1 ps).map Packet.jobSize).foldl (· + ·) Scalar.zero
  /-- No packet is lost, and no bit. -/
  packets_sum : (t.map fun s => s.2.packets).sum = ps.length
  bits_sum : t.bits = Saturation.bits ps

theorem mem_ofPackets {ps : List (Packet α)} {s : String × Flow α} (h : s ∈ ofPackets ps) :
    s.2 = (ofFlow s.1 ps).foldl Flow.add Flow.empty := by
  rw [ofPackets_eq_gather] at h
  exact (Keyed.mem_gather _ _ _ h).2

theorem packets_sum_ofPackets (ps : List (Packet α)) :
    ((ofPackets ps).map fun s => s.2.packets).sum = ps.length := by
  have hsum : ((Keyed.gather Packet.flow Flow.add Flow.empty ps).map fun s => s.2.packets).sum =
      (ps.map fun _ => 1).sum :=
    Keyed.sum_gather _ _ _ (P := fun _ => True) trivial (fun _ => rfl)
      fun _ _ f _ => ⟨trivial, Nat.add_comm f.packets 1⟩
  rw [ofPackets_eq_gather, hsum]
  simp

theorem ofPackets_holds {ps : List (Packet α)} (h : Saturation.bits ps < 2 ^ 64) :
    Holds ps (ofPackets ps) where
  ascending := ofPackets_isSorted ps
  nodup := (ofPackets_isSorted ps).nodup_keys
  mem_names _ := mem_names
  packets_eq s hs := by
    rw [mem_ofPackets hs, Flow.packets_foldl]
    exact Nat.zero_add _
  size_eq s hs := by
    have hempty : (Flow.empty : Flow α).size.toNat = 0 := rfl
    have hown : Saturation.bits (ofFlow s.1 ps) < 2 ^ 64 := (bits_filter_le _ ps).trans_lt h
    rw [mem_ofPackets hs, Flow.size_foldl _ _ (by rwa [hempty, Nat.zero_add]), hempty, Nat.zero_add]
  jobSize_eq s hs := by
    rw [mem_ofPackets hs, Flow.jobSize_foldl]
    rfl
  packets_sum := packets_sum_ofPackets ps
  bits_sum := bits_ofPackets h

/-- The table does not depend on how the flows are interleaved. -/
theorem ofPackets_congr {ps qs : List (Packet α)} (h : IsInterleaving ps qs) :
    ofPackets qs = ofPackets ps := by
  refine (ofPackets_isSorted qs).ext (ofPackets_isSorted ps) fun name => ?_
  have hown : (qs.filter fun p => p.flow = name) = ps.filter fun p => p.flow = name := h name
  rw [ofPackets_eq_gather, ofPackets_eq_gather, Keyed.find?_gather, Keyed.find?_gather, hown]

/-! ### Flows in the order of a key -/

/-- Each flow of a table once, in ascending order of a key, and those of the same key in the order of
their names. -/
def IsRanking (key : Flow α → Computed α) (t : FlowTable α) (flows : List (Flow α)) : Prop :=
  ∃ entries : FlowTable α, entries.Perm t ∧ flows = entries.map Prod.snd ∧
    entries.Pairwise fun s u => (key s.2).precedes (key u.2) = true ∧
      ((key u.2).precedes (key s.2) = true → s.1 < u.1)

theorem sortedBy_isRanking [Scalar.IsOrdered α] (key : Flow α → Computed α) {t : FlowTable α}
    (h : Keyed.IsSorted t) : IsRanking key t (t.sortedBy key) := by
  let le (s u : String × Flow α) : Bool := (key s.2).precedes (key u.2)
  have trans : ∀ s u v, le s u = true → le u v = true → le s v = true :=
    fun s u v => Computed.precedes_trans (key s.2) (key u.2) (key v.2)
  have total : ∀ s u, (le s u || le u s) = true :=
    fun s u => Computed.precedes_total (key s.2) (key u.2)
  have hflows : (t.mergeSort le).map Prod.snd = t.sortedBy key := List.map_mergeSort fun _ _ _ _ => rfl
  refine ⟨t.mergeSort le, List.mergeSort_perm t le, hflows.symm, ?_⟩
  refine (List.pairwise_mergeSort trans total t).and (List.pairwise_iff_forall_sublist.mpr ?_)
  intro s u hsu hus
  have hle : le s u = true := List.pairwise_iff_forall_sublist.mp
    (List.pairwise_mergeSort trans total t) hsu
  -- The entries that tie with `s` stand in the sorted table as they stand in the table.
  let tied (v : String × Flow α) : Bool := le s v && le v s
  have htied : (t.mergeSort le).filter tied = t.filter tied :=
    filter_mergeSort trans total (fun v w hv hw => trans v s w (Bool.and_eq_true_iff.mp hv).2
      (Bool.and_eq_true_iff.mp hw).1) t
  have hs : tied s = true := Bool.and_eq_true_iff.mpr ⟨by simpa using total s s, by
    simpa using total s s⟩
  have hu : tied u = true := Bool.and_eq_true_iff.mpr ⟨hle, hus⟩
  have hpair : [s, u].Sublist (t.filter tied) := by
    have := hsu.filter tied
    rwa [htied, List.filter_cons_of_pos hs, List.filter_cons_of_pos hu, List.filter_nil] at this
  exact List.pairwise_iff_forall_sublist.mp h (hpair.trans List.filter_sublist)

end FlowTable

/-! ### Policies that keep flows -/

/-- A policy that keeps flows ends with the model of the same traffic, interleaved in another way. -/
theorem Model.ofPackets_congr {ps qs : List (Packet α)} (h : IsInterleaving ps qs)
    {policy : Policy} (hpolicy : policy ∈ [.fq, .sjfInorder, .wsjfInorder]) {s s' : Statistics α}
    (hs : Statistics.ofPackets ps = .ok s)
    (hs' : Statistics.ofPackets qs = .ok s') :
    ofPackets policy s' qs = ofPackets policy s ps := by
  have htable := FlowTable.ofPackets_congr h
  have htotal : s'.totalPackets = s.totalPackets := by
    rw [(Statistics.totalPackets_eq hs).1, (Statistics.totalPackets_eq hs').1, h.perm.length_eq]
  simp only [List.mem_cons, List.not_mem_nil, or_false] at hpolicy
  rcases hpolicy with rfl | rfl | rfl
  · rw [ofPackets, ofPackets, htable]
  · rw [ofPackets, ofPackets, ofFlowJobSizes, ofFlowJobSizes, htable, ofTableJobSizes,
      ofTableJobSizes, htotal]
  · rw [ofPackets, ofPackets, ofFlowCostRatios, ofFlowCostRatios, htable, ofTableCostRatios,
      ofTableCostRatios, htotal]

/-- A flow table has one entry for each flow, with the totals of the flow's own packets, and nothing
is lost. Sorted by any key it has each flow once, and flows that tie are in the order of their names.
All of this is the same for packets that are interleaved in another way, and so is what the policies
that keep flows end with, although sums over all packets may be rounded in another way. -/
theorem FlowTable.ofPackets_interleaving [Scalar.IsOrdered α] (ps : List (Packet α))
    (h : Saturation.bits ps < 2 ^ 64) :
    Holds ps (ofPackets ps) ∧
    (∀ key, IsRanking key (ofPackets ps) ((ofPackets ps).sortedBy key)) ∧
    ∀ qs, IsInterleaving ps qs →
      ofPackets qs = ofPackets ps ∧
      (∀ key, (ofPackets qs).sortedBy key = (ofPackets ps).sortedBy key) ∧
      ∀ policy ∈ [.fq, .sjfInorder, .wsjfInorder], ∀ s s',
        Statistics.ofPackets ps = .ok s → Statistics.ofPackets qs = .ok s' →
        (qs.foldl Collector.observe (.start policy)).model s' =
          (ps.foldl Collector.observe (.start policy)).model s := by
  refine ⟨ofPackets_holds h, fun key => sortedBy_isRanking key (ofPackets_isSorted ps), ?_⟩
  intro qs hq
  have htable := ofPackets_congr hq
  refine ⟨htable, fun key => by rw [htable], fun policy hpolicy s s' hs hs' => ?_⟩
  have hmodel : ∀ (l : List (Packet α)) (stats : Statistics α),
      (l.foldl Collector.observe (.start policy)).model stats = Model.ofPackets policy stats l := by
    intro l stats
    rw [Collector.model_eq (Collector.foldl_keeps (Collector.start_keeps policy) l),
      Collector.foldl_policy, Collector.start_policy, List.nil_append]
  rw [hmodel, hmodel, Model.ofPackets_congr hq hpolicy hs hs']

end

/-- Three flows, two of them with the same averages. -/
def Packet.ofThreeFlows : List (Packet Float) :=
  [⟨"b", 512, 0.2⟩, ⟨"c", 512, 0.1⟩, ⟨"b", 512, 0.3⟩, ⟨"a", 512, 0.1⟩]

/-- The packets of the same flows, where those of a flow come one behind the other. -/
def Packet.oneFlowAfterAnother : List (Packet Float) :=
  [⟨"b", 512, 0.2⟩, ⟨"b", 512, 0.3⟩, ⟨"a", 512, 0.1⟩, ⟨"c", 512, 0.1⟩]

theorem Packet.ofThreeFlows_isInterleaving : IsInterleaving ofThreeFlows oneFlowAfterAnother := by
  intro name
  by_cases ha : "a" = name
  · subst ha; rfl
  by_cases hb : "b" = name
  · subst hb; rfl
  by_cases hc : "c" = name
  · subst hc; rfl
  simp [ofFlow, ofThreeFlows, oneFlowAfterAnother, ha, hb, hc]

/-- The mean job size is rounded in another way, but the models are the same. -/
theorem FlowTable.ofPackets_interleaving_ofThreeFlows :
    (∃ t, FlowTable.Holds Packet.ofThreeFlows t ∧ t.map Prod.fst = ["a", "b", "c"] ∧
      FlowTable.IsRanking Flow.jobRank t (t.sortedBy Flow.jobRank) ∧
      FlowTable.ofPackets Packet.oneFlowAfterAnother = t) ∧
    ∃ s s' : Statistics Float, s.averageJobSize ≠ s'.averageJobSize ∧
      (Packet.oneFlowAfterAnother.foldl Collector.observe (.start .wsjfInorder)).model s' =
        (Packet.ofThreeFlows.foldl Collector.observe (.start .wsjfInorder)).model s := by
  have hbits : Saturation.bits Packet.ofThreeFlows < 2 ^ 64 := by decide
  obtain ⟨hholds, hranking, hothers⟩ := FlowTable.ofPackets_interleaving Packet.ofThreeFlows hbits
  obtain ⟨htable, -, hmodels⟩ := hothers _ Packet.ofThreeFlows_isInterleaving
  obtain ⟨s, hs⟩ : ∃ s, Statistics.ofPackets Packet.ofThreeFlows = .ok s := ⟨_, rfl⟩
  obtain ⟨s', hs'⟩ : ∃ s, Statistics.ofPackets Packet.oneFlowAfterAnother = .ok s := ⟨_, rfl⟩
  refine ⟨⟨_, hholds, by decide +kernel, hranking _, htable⟩, s, s', ?_,
    hmodels .wsjfInorder (by decide) s s' hs hs'⟩
  cases hs
  cases hs'
  decide +kernel

end Saturation
