import Saturation.Proofs.Admission
import Saturation.Proofs.Double.Scaling
import Saturation.Proofs.Steps

/-!
A table over cost ratios is a cumulative distribution. It has a slot for each one up to that of the
largest ratio, and in each of them the total of all that is in the slots up to it, summed in the order of the
ratios. On doubles a ratio that is not smaller has no smaller slot, and a total of what is not
negative does not fall, so neither does a table.
-/

set_option autoImplicit false

namespace Saturation

open Exact (number infinite undefined)

/-! ### Slots of doubles -/

/-- A nearest whole number that is held within 64 bits does not fall. -/
theorem Exact.nearest_mono {x y : Exact} (h : x ≤ y) :
    min (Scalar.nearest x) 0xFFFFFFFFFFFFFFFF ≤ min (Scalar.nearest y) 0xFFFFFFFFFFFFFFFF := by
  cases y with
  | undefined => exact absurd h (not_le_undefined x)
  | infinite => exact le_of_le_of_eq (min_le_right _ _) (by decide +kernel)
  | number b =>
    cases x with
    | number a =>
      refine min_le_min_right _ (Int.toNat_le_toNat (Int.floor_le_floor ?_))
      exact add_le_add_left ((number_le a b).mp h) _
    | infinite => exact absurd h (not_infinite_le_number b)
    | undefined => exact absurd h (not_undefined_le _)

namespace Double

open Float.Model (UnpackedFloat Format)

variable {x y : Float}

theorem ofFloat_slotsPerUnit :
    ofFloat (Scalar.ofNat slotsPerUnit) = .finite false (2 ^ 52) (-40) := by decide +kernel

theorem hasValue_slotsPerUnit : HasValue (Scalar.ofNat slotsPerUnit) 4096 := by
  refine ⟨?_, by norm_num⟩
  rw [Exact.ofFloat, ofFloat_slotsPerUnit, Exact.ofDouble]
  norm_num

theorem ratioSlot_infinite (h : ofFloat x = .infinite false) : ratioSlot x = 0xFFFFFFFFFFFFFFFF := by
  have hproduct := ofFloat_infinite_mul h (by norm_num) ofFloat_slotsPerUnit
  rw [ratioSlot, nearest_eq, Exact.ofFloat, hproduct]
  decide +kernel

theorem ratioSlot_mono (hx : Scalar.IsNonneg x) (h : x ≤ y) : ratioSlot x ≤ ratioSlot y := by
  have hy : Scalar.IsNonneg y := (atMost_iff _ _).mpr (le_trans ((atMost_iff _ _).mp hx) h)
  rcases isAmount_or_infinite hy with hamount | hinfinite
  · obtain ⟨a, ha⟩ := hamount.of_le hx h
    obtain ⟨b, hb⟩ := hamount
    have hproducts := (ha.mul hasValue_slotsPerUnit).le (hb.mul hasValue_slotsPerUnit)
      (mul_le_mul_of_nonneg_right ((ha.le_iff hb).mp h) (by norm_num))
    rw [le_iff (ne_negative_infinite (ha.mul hasValue_slotsPerUnit).isNonneg)] at hproducts
    rw [ratioSlot, ratioSlot, nearest_eq, nearest_eq]
    exact Exact.nearest_mono hproducts
  · rw [ratioSlot_infinite hinfinite]
    exact min_le_right _ _

theorem ratioSlot_of_not_number (h : Scalar.isNumber x = false) : ratioSlot x = 0 := by
  have hread : ofFloat x = .notANumber := by
    by_contra hne
    simp [(isNumber_iff x).mpr hne] at h
  have hproduct : x * Scalar.ofNat slotsPerUnit = pack .notANumber := by
    have hmul : x * Scalar.ofNat slotsPerUnit = pack (UnpackedFloat.mul Format.binary64
      x.toModel.unpack (Scalar.ofNat slotsPerUnit : Float).toModel.unpack) := rfl
    rw [hmul, unpack_toModel, hread]
    rfl
  rw [ratioSlot, hproduct, nearest_eq, Exact.ofFloat, ofFloat_pack_notANumber]
  rfl

theorem ofFloat_ofWord (n : UInt64) :
    ∃ (m : Nat) (q : Int), ofFloat (Scalar.ofWord n : Float) = .finite false m q := by
  obtain ⟨m, q, -, hread⟩ := ofFloat_ofNat n.toNat
  have hread : ofFloat (Scalar.ofWord n : Float) = held false m q := hread
  refine ⟨m, q, hread.trans (held_of_le (not_lt.mp fun hq => ?_))⟩
  obtain ⟨v, hv⟩ := isAmount_ofNat n.toNat_lt
  have hvalue : Exact.ofFloat (Scalar.ofWord n : Float) = number v := hv.eq
  rw [exact_held hread, if_pos hq] at hvalue
  cases hvalue

/-- What is infinite has no ratio to a word that fits a table. -/
theorem isAmount_of_ratioSlot (hx : Scalar.IsNonneg x) {n : UInt64}
    (h : ratioSlot (x / Scalar.ofWord n) < slotLimit) : IsAmount x := by
  refine (isAmount_or_infinite hx).resolve_right fun hinfinite => ?_
  obtain ⟨m, q, hread⟩ := ofFloat_ofWord n
  rw [ratioSlot_infinite (ofFloat_infinite_div hinfinite hread)] at h
  exact absurd h (by decide)

end Double

/-! ### Totals of amounts -/

namespace Profile

variable {cs : List (Nat × Float)}

theorem total_isNonneg (h : ∀ c ∈ cs, Scalar.IsNonneg c.2) : Scalar.IsNonneg (total cs) := by
  induction cs using List.reverseRecOn with
  | nil => exact Scalar.isNonneg_ofNat 0
  | append_singleton cs c ih =>
    rw [total_concat]
    exact Scalar.IsOrdered.isNonneg_add (ih fun d hd => h d (List.mem_append_left _ hd))
      (h c (by simp))

theorem totalUpTo_isNonneg (h : ∀ c ∈ cs, Scalar.IsNonneg c.2) (key : Nat) :
    Scalar.IsNonneg (totalUpTo key cs) :=
  total_isNonneg fun c hc => h c ((List.rdropWhile_prefix _ cs).subset hc)

theorem totalUpTo_le_total (h : ∀ c ∈ cs, Scalar.IsNonneg c.2) (key : Nat) :
    totalUpTo key cs ≤ total cs := by
  induction cs using List.reverseRecOn with
  | nil => exact Double.le_refl_of_isNonneg (total_isNonneg h)
  | append_singleton cs c ih =>
    have hcs : ∀ d ∈ cs, Scalar.IsNonneg d.2 := fun d hd => h d (List.mem_append_left _ hd)
    rw [totalUpTo_concat]
    split
    · exact Double.le_refl_of_isNonneg (total_isNonneg h)
    · rw [total_concat]
      exact Double.le_trans (ih hcs) (Double.le_add (total_isNonneg hcs) (h c (by simp)))

theorem totalUpTo_mono (h : ∀ c ∈ cs, Scalar.IsNonneg c.2) {i j : Nat} (hij : i ≤ j) :
    totalUpTo i cs ≤ totalUpTo j cs := by
  induction cs using List.reverseRecOn with
  | nil => exact Double.le_refl_of_isNonneg (totalUpTo_isNonneg h i)
  | append_singleton cs c ih =>
    have hcs : ∀ d ∈ cs, Scalar.IsNonneg d.2 := fun d hd => h d (List.mem_append_left _ hd)
    rw [totalUpTo_concat j]
    split
    · exact totalUpTo_le_total h i
    · rename_i hj
      rw [totalUpTo_concat i, if_neg fun hi => hj (hi.trans hij)]
      exact ih hcs

end Profile

/-! ### Tables of amounts -/

namespace RatioProfile

/-- The values do not fall from slot to slot. -/
def IsClimbing (p : RatioProfile Float) : Prop :=
  ∀ i j, i ≤ j → j < p.size → p.valueAt i ≤ p.valueAt j

theorem IsDistribution.isClimbing {p : RatioProfile Float} {cs : List (Float × Float)}
    (hp : p.IsDistribution cs) (h : ∀ c ∈ cs, Scalar.IsNonneg c.2) : p.IsClimbing := by
  have hslots : ∀ c ∈ inSlots cs, Scalar.IsNonneg c.2 := List.forall_mem_map.mpr h
  intro i j hij hj
  rw [hp.valueAt_eq i (hij.trans_lt hj), hp.valueAt_eq j hj]
  exact Profile.totalUpTo_mono hslots hij

theorem slots_pairwise {cs : List (Float × Float)} (h : cs.Pairwise fun c d => c.1 ≤ d.1)
    (hratio : ∀ c ∈ cs, Scalar.IsNonneg c.1) :
    cs.Pairwise fun c d => ratioSlot c.1 ≤ ratioSlot d.1 :=
  h.imp_of_mem fun hc _ hcd => Double.ratioSlot_mono (hratio _ hc) hcd

/-! ### Tables of traces -/

section

variable {β : Type} {items : List β} {total : β → Computed Float}

/-- What a table for a number of packets is built from: for each item the service time of a bit, and the
share of each packet. -/
def shares (packets : Nat) (total : β → Computed Float) (size : β → UInt64) (items : List β) :
    List (Float × Float) :=
  items.map fun x =>
    (((total x).divide (Scalar.ofWord (size x))).value, (total x).value / Scalar.ofNat packets)

/-- Items in ascending order of the service time of a bit. -/
def ranked (total : β → Computed Float) (size : β → UInt64) (items : List β) : List β :=
  items.mergeSort fun x y => ((total x).divide (Scalar.ofWord (size x))).precedes
    ((total y).divide (Scalar.ofWord (size y)))

theorem mem_ranked {size : β → UInt64} {x : β} : x ∈ ranked total size items ↔ x ∈ items :=
  List.mem_mergeSort

theorem shares_pairwise (h : ∀ x ∈ items, (total x).IsSound) (size : β → UInt64) (packets : Nat) :
    (shares packets total size (ranked total size items)).Pairwise
      fun c d => ratioSlot c.1 ≤ ratioSlot d.1 := by
  have hranked : ∀ z ∈ items, ((total z).divide (Scalar.ofWord (size z))).IsRanked :=
    fun z hz => Computed.isRanked_divide (h z hz).defined (h z hz).isNonneg _
  rw [shares, List.pairwise_map]
  refine (Computed.mergeSort_pairwise _ items).imp_of_mem fun {x y} hx hy hxy => ?_
  exact (hranked x (mem_ranked.mp hx)).key_le (hranked y (mem_ranked.mp hy)) hxy
    (fun ha hab => Double.ratioSlot_mono ha ((Double.atMost_iff _ _).mp hab))
    Double.ratioSlot_of_not_number

/-- What a table of ranked items has in its slots is finite, so the table climbs. -/
theorem shares_isClimbing (h : ∀ x ∈ items, (total x).IsSound) {size : β → UInt64} {packets : Nat}
    (hpackets : 0 < packets) {p : RatioProfile Float}
    (hp : ofSorted (shares packets total size (ranked total size items)) = .ok p) :
    p.IsClimbing := by
  rcases ofSorted_cases (shares_pairwise h size packets) with
    ⟨hfits, q, hq, hdist⟩ | ⟨_, c, _, -, -, -, he⟩
  · rw [hp] at hq
    cases hq
    refine hdist.isClimbing (List.forall_mem_map.mpr fun x hx => ?_)
    have hslot := hfits _ (List.mem_map_of_mem hx)
    exact Double.isNonneg_div_ofNat
      (Double.isAmount_of_ratioSlot (h x (mem_ranked.mp hx)).isNonneg hslot) hpackets
  · rw [hp] at he
    cases he

theorem shares_error (h : ∀ x ∈ items, (total x).IsSound) {size : β → UInt64} {packets : Nat}
    {e : Fault}
    (he : ofSorted (shares packets total size (ranked total size items)) = .error e) :
    ∃ slots, e = .profileTooLarge slots slotLimit := by
  rcases ofSorted_cases (shares_pairwise h size packets) with
    ⟨-, q, hq, -⟩ | ⟨_, c, _, -, -, -, hc⟩
  · rw [he] at hq
    cases hq
  · rw [he] at hc
    cases hc
    exact ⟨_, rfl⟩

end

end RatioProfile

/-- The model of a policy that ranks by cost ratio has a table that climbs, or there is none. -/
theorem Model.costRatios_isClimbing {policy : Policy} (hpolicy : policy ∈ [Policy.wsjf, .wsjfInorder])
    {ps : List (Packet Float)} (hjob : ∀ p ∈ ps, Scalar.IsNonneg p.jobSize)
    {stats : Statistics Float} (htotal : 0 < stats.totalPackets) :
    (∃ ranking p, ofPackets policy stats ps = .ok (.byCostRatio ranking p) ∧ p.IsClimbing) ∨
      ∃ slots, ofPackets policy stats ps = .error (.profileTooLarge slots slotLimit) := by
  cases policy with
  | fcfs | fq | sjf | sjfInorder => simp at hpolicy
  | wsjf =>
    have hjobs : ∀ p ∈ ps, (Computed.given p.jobSize).IsSound := fun p hp => ⟨rfl, hjob p hp⟩
    dsimp only [ofPackets, ofCostRatios]
    split
    · rename_i profile hp
      exact .inl ⟨_, profile, rfl, RatioProfile.shares_isClimbing hjobs htotal hp⟩
    · rename_i e he
      obtain ⟨slots, rfl⟩ := RatioProfile.shares_error hjobs he
      exact .inr ⟨slots, rfl⟩
  | wsjfInorder =>
    have hjobs : ∀ f ∈ (FlowTable.ofPackets ps).map Prod.snd, f.jobTotal.IsSound :=
      List.forall_mem_map.mpr fun f hf =>
        ⟨(FlowTable.isSound hjob f hf).defined, (FlowTable.isSound hjob f hf).isNonneg⟩
    dsimp only [ofPackets, ofFlowCostRatios, ofTableCostRatios]
    split
    · rename_i profile hp
      exact .inl ⟨_, profile, rfl, RatioProfile.shares_isClimbing hjobs htotal hp⟩
    · rename_i e he
      obtain ⟨slots, rfl⟩ := RatioProfile.shares_error hjobs he
      exact .inr ⟨slots, rfl⟩

/-- On doubles, contributions that are sorted by ratios that are not negative fail to make a table when one
of them is in no slot, and the first such one is the fault; otherwise they make their distribution,
which climbs. So does the table of a policy for every trace that is accepted. -/
theorem RatioProfile.tables_are_distributions :
    (∀ cs : List (Float × Float), cs.Pairwise (fun c d => c.1 ≤ d.1) →
      (∀ c ∈ cs, Scalar.IsNonneg c.1 ∧ Scalar.IsNonneg c.2) →
      (∀ c ∈ cs, ratioSlot c.1 < slotLimit) ∧
          (∃ p, ofSorted cs = .ok p ∧ p.IsDistribution cs ∧ p.IsClimbing) ∨
        ∃ before c behind, cs = before ++ c :: behind ∧
          (∀ b ∈ before, ratioSlot b.1 < slotLimit) ∧ slotLimit ≤ ratioSlot c.1 ∧
          ofSorted cs =
            .error (.profileTooLarge (min (ratioSlot c.1 + 1) 0xFFFFFFFFFFFFFFFF) slotLimit)) ∧
    ∀ (bytes : List UInt8) (summary : TraceSummary) (policy : Policy) (bounds : AttackBounds Float),
      (Trace.read bytes).2 = .ok summary → policy ∈ [Policy.wsjf, .wsjfInorder] →
      (∃ z ranking p, Analysis.ofTrace bytes [policy] bounds = .ok ⟨summary, [z]⟩ ∧
          z.model = .byCostRatio ranking p ∧ p.IsClimbing) ∨
        ∃ slots, Analysis.ofTrace bytes [policy] bounds = .error (.profileTooLarge slots slotLimit) := by
  refine ⟨fun cs hsorted hcs => ?_, fun bytes summary policy bounds hread hpolicy => ?_⟩
  · rcases ofSorted_cases (slots_pairwise hsorted fun c hc => (hcs c hc).1) with
      ⟨hfits, p, hp, hdist⟩ | hlarge
    · exact .inl ⟨hfits, p, hp, hdist, hdist.isClimbing fun c hc => (hcs c hc).2⟩
    · exact .inr hlarge
  · have hrecords := Trace.read_forall (P := fun r => Scalar.IsNonneg r.packet.jobSize)
      (fun _ _ _ hr => Record.jobSize_isNonneg hr) bytes
    obtain ⟨htotal, hpos⟩ := Statistics.totalPackets_eq (Trace.outcome_ok (Trace.read_outcome hread))
    rcases Model.costRatios_isClimbing hpolicy (List.forall_mem_map.mpr hrecords)
      (htotal ▸ hpos) with ⟨ranking, p, hmodel, hp⟩ | ⟨slots, he⟩
    · refine .inl ⟨⟨policy, summary.statistics, bounds, _⟩, ranking, p, ?_, rfl, hp⟩
      rw [Analysis.ofTrace_single, Analysis.alone, Analyzer.ofPackets, hmodel]
      exact ⟨hread, rfl⟩
    · refine .inr ⟨slots, Analysis.ofTrace_single_error hread ?_⟩
      rw [Analysis.alone, Analyzer.ofPackets, he]

/-- Two ratios in one slot, in front of a gap. -/
def tiedRatios : List (Float × Float) := [(0.25, 1.0), (0.25, 2.0), (0.75, 4.0)]

theorem RatioProfile.tables_are_distributions_tied :
    (∃ p, ofSorted tiedRatios = .ok p ∧ p.IsDistribution tiedRatios ∧ p.IsClimbing) ∧
      ∃ a z ranking p, Analysis.ofTrace Analyzer.longJobs [.wsjf] ⟨1000.0, 8192⟩ = .ok a ∧
        z ∈ a.analyzers ∧ z.model = .byCostRatio ranking p ∧ p.IsClimbing := by
  obtain ⟨hlists, htraces⟩ := tables_are_distributions
  constructor
  · have hnonneg : ∀ c ∈ tiedRatios, Scalar.IsNonneg c.1 ∧ Scalar.IsNonneg c.2 := by
      unfold Scalar.IsNonneg
      decide +kernel
    have hfits : ∀ c ∈ tiedRatios, ratioSlot c.1 < slotLimit := by decide +kernel
    rcases hlists tiedRatios (by decide +kernel) hnonneg with ⟨-, htable⟩ | ⟨_, c, _, hcs, -, hlarge, -⟩
    · exact htable
    · exact absurd (hfits c (by simp [hcs])) (not_lt.mpr hlarge)
  · have hisOk : (Trace.read Analyzer.longJobs).2.isOk = true := by decide +kernel
    cases hread : (Trace.read Analyzer.longJobs).2 with
    | error e => simp [hread, Except.isOk, Except.toBool] at hisOk
    | ok summary =>
      rcases htraces _ summary .wsjf ⟨1000.0, 8192⟩ hread (by decide) with
        ⟨z, ranking, p, ha, hmodel, hp⟩ | ⟨slots, he⟩
      · exact ⟨_, z, ranking, p, ha, List.mem_singleton_self z, hmodel, hp⟩
      · obtain ⟨m, hm⟩ : ∃ m, Model.ofCostRatios summary.statistics
            ((Trace.read Analyzer.longJobs).1.map Record.packet) = .ok m :=
          Model.ofCostRatios_isOk (by decide +kernel)
        have halone : Analysis.alone Analyzer.longJobs ⟨1000.0, 8192⟩ summary.statistics .wsjf =
            .ok ⟨.wsjf, summary.statistics, ⟨1000.0, 8192⟩, m⟩ := by
          rw [Analysis.alone, Analyzer.ofPackets, Model.ofPackets, hm]
        rw [Analysis.ofTrace_single.mpr ⟨hread, halone⟩] at he
        cases he

end Saturation
