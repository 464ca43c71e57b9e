import Mathlib.Order.Bounds.Defs
import Saturation.Proofs.Double.Monotone
import Saturation.Proofs.Repetition

/-!
Where the scans stop. Over a profile that does not decrease, both works grow from point to point, so
capacity is left at the points of an initial segment and at none behind it: the first point that
saturates is the boundary, and a threshold is the last point in front of it.
-/

set_option autoImplicit false

namespace Saturation

open Double (IsAmount)

/-- The work leaves capacity. -/
def isFeasible (work : Float) : Bool := Scalar.below work Scalar.one

structure Rates.IsAmount (rates : Rates Float) : Prop where
  innocent : Double.IsAmount rates.innocent
  attack : Double.IsAmount rates.attack

theorem Rates.isAmount_one : (Rates.mk Scalar.one Scalar.one).IsAmount :=
  ⟨Double.isAmount_ofNat (by decide), Double.isAmount_ofNat (by decide)⟩

theorem isFeasible_eq {work : Float} (h : Scalar.IsNonneg work) :
    isFeasible work = !isSaturated work := by
  cases hsat : Scalar.atMost Scalar.one work with
  | true => simp [isFeasible, isSaturated, Scalar.below, hsat]
  | false =>
    have hone : Scalar.IsNonneg (Scalar.one : Float) := Scalar.isNonneg_ofNat 1
    have hle : work ≤ Scalar.one := by
      refine (Double.le_total_of_isNonneg h hone).resolve_right fun hle => ?_
      rw [← Double.atMost_iff, hsat] at hle
      exact Bool.false_ne_true hle
    rw [isFeasible, isSaturated, Scalar.below, hsat, (Double.atMost_iff _ _).mpr hle]
    rfl

theorem isSaturated_of_le {x y : Float} (h : x ≤ y) (hx : isSaturated x = true) :
    isSaturated y = true :=
  Scalar.IsOrdered.atMost_trans hx ((Double.atMost_iff x y).mpr h)

/-! ### Work -/

section

variable {rates : Rates Float} {stats : Statistics Float} {x y z w c : Float}

theorem isAmount_div_ofWord {n : UInt64} (hx : IsAmount x) (h : 1 ≤ n) :
    IsAmount (x / Scalar.ofWord n) :=
  Double.isAmount_div hx (Double.isAmount_ofNat n.toNat_lt)
    (Double.ofNat_mono (UInt64.le_iff_toNat_le.mp h))

theorem isAmount_slotRatio {i : Nat} (hi : i < 2 ^ 64) : IsAmount (slotRatio i) :=
  Double.isAmount_div (Double.isAmount_ofNat hi) (Double.isAmount_ofNat (by decide))
    (Double.ofNat_mono (by decide))

theorem slotRatio_mono {i j : Nat} (h : i ≤ j) (hj : j < 2 ^ 64) :
    slotRatio i ≤ (slotRatio j : Float) :=
  Double.div_mono (Double.isAmount_ofNat (h.trans_lt hj)) (Double.isAmount_ofNat hj)
    (Double.ofNat_mono h) (Double.isAmount_ofNat (by decide)) (Double.ofNat_mono (by decide))

theorem work_isNonneg (hr : rates.IsAmount) (hstats : 1 ≤ stats.averagePacketSize)
    (hx : IsAmount x) (hc : IsAmount c) (hz : IsAmount z) :
    Scalar.IsNonneg (innocentWork rates stats x + c * z) :=
  Double.isNonneg_add (Double.isNonneg_mul (isAmount_div_ofWord hr.innocent hstats) hx)
    (Double.isNonneg_mul hc hz)

/-- Both works grow with what they are the work of. -/
theorem work_mono (hr : rates.IsAmount) (hstats : 1 ≤ stats.averagePacketSize)
    (hx : IsAmount x) (hy : IsAmount y) (hxy : x ≤ y) (hc : IsAmount c) (hz : IsAmount z)
    (hw : IsAmount w) (hzw : z ≤ w) :
    innocentWork rates stats x + c * z ≤ innocentWork rates stats y + c * w := by
  have hrate := isAmount_div_ofWord hr.innocent hstats
  exact Double.add_mono (Double.isNonneg_mul hrate hx) (Double.isNonneg_mul hc hz)
    (Double.mul_mono hrate hx hy hxy) (Double.mul_mono hc hz hw hzw)
    (Double.isNonneg_mul hrate hy) (Double.isNonneg_mul hc hw)

end

/-! ### Scans -/

section

variable {β : Type} {l before behind : List β} {x : β} {saturated : β → Bool}

/-- What does not saturate is what is in front of the first place that does. -/
theorem filter_not_saturated (hl : l = before ++ x :: behind)
    (hmono : l.Pairwise fun a b => saturated a = true → saturated b = true)
    (hbefore : ∀ a ∈ before, (!saturated a) = true) (hx : saturated x = true) :
    l.filter (fun a => !saturated a) = before := by
  subst hl
  have hbehind : ∀ b ∈ x :: behind, saturated b = true := by
    intro b hb
    rcases List.mem_cons.mp hb with rfl | hb
    · exact hx
    · exact (List.pairwise_cons.mp (List.pairwise_append.mp hmono).2.1).1 b hb hx
  have hnone : (x :: behind).filter (fun a => !saturated a) = [] := by
    rw [List.filter_eq_nil_iff]
    exact fun b hb => by simp [hbehind b hb]
  rw [List.filter_append, hnone, List.append_nil, List.filter_eq_self.mpr hbefore]

end

namespace RatioProfile

/-- A table of amounts that do not decrease. -/
structure IsMonotone (p : RatioProfile Float) : Prop where
  ascending : Ascending p.steps
  size_le : p.size ≤ 2 ^ 64
  amount : ∀ i < p.size, IsAmount (p.valueAt i)
  mono : ∀ i j, i ≤ j → j < p.size → p.valueAt i ≤ p.valueAt j

/-- The slots at which capacity is left. -/
def feasible (p : RatioProfile Float) (rates : Rates Float) (stats : Statistics Float) : List Nat :=
  (List.range p.size).filter fun slot => isFeasible (p.workAt rates stats slot)

variable {p : RatioProfile Float} {rates : Rates Float} {stats : Statistics Float}

theorem feasible_eq (hp : p.IsMonotone) (hr : rates.IsAmount)
    (hstats : 1 ≤ stats.averagePacketSize) :
    p.feasible rates stats =
      (List.range p.size).filter fun slot => !isSaturated (p.workAt rates stats slot) := by
  refine List.filter_congr fun i hi => ?_
  rw [List.mem_range] at hi
  exact isFeasible_eq (work_isNonneg hr hstats (hp.amount i hi) hr.attack
    (isAmount_slotRatio (hi.trans_le hp.size_le)))

theorem workAt_pairwise (hp : p.IsMonotone) (hr : rates.IsAmount)
    (hstats : 1 ≤ stats.averagePacketSize) :
    (List.range p.size).Pairwise fun i j => isSaturated (p.workAt rates stats i) = true →
      isSaturated (p.workAt rates stats j) = true := by
  refine List.pairwise_lt_range.imp_of_mem fun {i j} hi hj hij => ?_
  rw [List.mem_range] at hi hj
  have hj' := hj.trans_le hp.size_le
  exact isSaturated_of_le (work_mono hr hstats (hp.amount i hi) (hp.amount j hj)
    (hp.mono i j hij.le hj) hr.attack (isAmount_slotRatio (hij.trans hj')) (isAmount_slotRatio hj')
    (slotRatio_mono hij.le hj'))

theorem slotRatio_zero : (slotRatio 0 : Float) = Scalar.zero := by decide +kernel

/-- What is in front of a slot of a table is all slots below it. -/
theorem range_eq_before {n slot : Nat} {before behind : List Nat}
    (h : List.range n = before ++ slot :: behind) : before = List.range slot := by
  rw [List.range_eq_range', List.range'_eq_append_iff] at h
  obtain ⟨k, -, rfl, hbehind⟩ := h
  cases hn : n - k with
  | zero => simp [hn] at hbehind
  | succ m =>
    rw [hn, List.range'_succ] at hbehind
    obtain ⟨rfl, -⟩ := List.cons.inj hbehind
    rw [List.range_eq_range', Nat.zero_add, Nat.mul_one]

/-- Capacity is left in an initial segment of the slots. The scan is exhausted, at the last slot, where
this is the whole table, and settles on the last slot of the segment otherwise. -/
def StopsAtBoundary (p : RatioProfile Float) (rates : Rates Float) (stats : Statistics Float) : Prop :=
  p.feasible rates stats <+: List.range p.size ∧
    p.threshold rates stats =
      if p.feasible rates stats = List.range p.size then .exhausted (slotRatio (p.size - 1))
      else .saturated ((p.feasible rates stats).getLast?.elim Scalar.zero slotRatio)

theorem stopsAtBoundary (hp : p.IsMonotone) (hr : rates.IsAmount)
    (hstats : 1 ≤ stats.averagePacketSize) : p.StopsAtBoundary rates stats := by
  rw [StopsAtBoundary, threshold, firstSaturated_eq p hp.ascending, feasible_eq hp hr hstats]
  cases hfind : (List.range p.size).find? fun i => isSaturated (p.workAt rates stats i) with
  | none =>
    have hall : (List.range p.size).filter (fun i => !isSaturated (p.workAt rates stats i)) =
        List.range p.size := by
      rw [List.find?_eq_none] at hfind
      exact List.filter_eq_self.mpr fun i hi => by simp [hfind i hi]
    rw [hall, if_pos rfl]
    exact ⟨List.prefix_rfl, rfl⟩
  | some slot =>
    obtain ⟨hsat, before, behind, hrange, hbefore⟩ := List.find?_eq_some_iff_append.mp hfind
    rw [filter_not_saturated hrange (workAt_pairwise hp hr hstats) hbefore hsat]
    refine ⟨⟨slot :: behind, hrange.symm⟩, ?_⟩
    rw [if_neg (by rw [hrange]; simp), range_eq_before hrange, List.getLast?_range]
    split_ifs with h0
    · rw [h0]
      exact congrArg Threshold.saturated slotRatio_zero
    · rfl

end RatioProfile

namespace JobSizeProfile

/-- Points of amounts that do not decrease. -/
structure IsMonotone (p : JobSizeProfile Float) : Prop where
  ascending : Ascending p.points
  key_lt : ∀ s ∈ p.points, s.1 < 2 ^ 64
  amount : ∀ s ∈ p.points, IsAmount s.2
  mono : p.points.Pairwise fun s t => s.2 ≤ t.2

/-- The points at which capacity is left. -/
def feasible (p : JobSizeProfile Float) (rates : Rates Float) (stats : Statistics Float) :
    List (Nat × Float) := p.points.filter fun s => isFeasible (workAt rates stats s)

variable {p : JobSizeProfile Float} {rates : Rates Float} {stats : Statistics Float}

theorem isAmount_candidate {key : Nat} (h : key < 2 ^ 64) : IsAmount (candidate key) :=
  Double.isAmount_ofNat (Nat.lt_of_le_of_lt (Nat.sub_le key 1) h)

theorem isAmount_attackRate (hr : rates.IsAmount) :
    IsAmount (rates.attack / Scalar.ofWord minPacketSize) :=
  isAmount_div_ofWord hr.attack (by decide)

theorem feasible_eq (hp : p.IsMonotone) (hr : rates.IsAmount)
    (hstats : 1 ≤ stats.averagePacketSize) :
    p.feasible rates stats = p.points.filter fun s => !isSaturated (workAt rates stats s) := by
  refine List.filter_congr fun s hs => ?_
  exact isFeasible_eq (work_isNonneg hr hstats (hp.amount s hs) (isAmount_attackRate hr)
    (isAmount_candidate (hp.key_lt s hs)))

theorem workAt_pairwise (hp : p.IsMonotone) (hr : rates.IsAmount)
    (hstats : 1 ≤ stats.averagePacketSize) :
    p.points.Pairwise fun s t => isSaturated (workAt rates stats s) = true →
      isSaturated (workAt rates stats t) = true := by
  refine (hp.ascending.and hp.mono).imp_of_mem fun {s t} hs ht hst => ?_
  exact isSaturated_of_le (work_mono hr hstats (hp.amount s hs) (hp.amount t ht) hst.2
    (isAmount_attackRate hr) (isAmount_candidate (hp.key_lt s hs))
    (isAmount_candidate (hp.key_lt t ht)) (Double.ofNat_mono (Nat.sub_le_sub_right hst.1.le 1)))

/-- Capacity is left in an initial segment of the points. The scan is exhausted, at the longest job,
where these are all points, and settles in front of the least key outside otherwise. -/
def StopsAtBoundary (p : JobSizeProfile Float) (rates : Rates Float) (stats : Statistics Float) :
    Prop :=
  p.feasible rates stats <+: p.points ∧
    (p.feasible rates stats = p.points ∧
        p.threshold rates stats = .exhausted stats.maximumJobSize ∨
      ∃ j, IsLeast {k | ∃ s ∈ p.points, s ∉ p.feasible rates stats ∧ s.1 = k} j ∧
        p.threshold rates stats = .saturated (Scalar.ofNat (j - 1)))

theorem stopsAtBoundary (hp : p.IsMonotone) (hr : rates.IsAmount)
    (hstats : 1 ≤ stats.averagePacketSize) : p.StopsAtBoundary rates stats := by
  rw [StopsAtBoundary, threshold, feasible_eq hp hr hstats]
  cases hfind : p.points.find? fun s => isSaturated (workAt rates stats s) with
  | none =>
    rw [List.find?_eq_none] at hfind
    rw [List.filter_eq_self.mpr fun s hs => by simp [hfind s hs]]
    exact ⟨List.prefix_rfl, .inl ⟨rfl, rfl⟩⟩
  | some s =>
    obtain ⟨hsat, before, behind, hpoints, hbefore⟩ := List.find?_eq_some_iff_append.mp hfind
    rw [filter_not_saturated hpoints (workAt_pairwise hp hr hstats) hbefore hsat]
    have hkeys := hp.ascending
    rw [Ascending, hpoints, List.pairwise_append] at hkeys
    obtain ⟨-, hs, hcross⟩ := hkeys
    refine ⟨⟨s :: behind, hpoints.symm⟩, .inr ⟨s.1, ⟨⟨s, by simp [hpoints], ?_, rfl⟩, ?_⟩, rfl⟩⟩
    · exact fun hmem => (hcross s hmem s List.mem_cons_self).false
    · rintro k ⟨t, ht, hnot, rfl⟩
      rw [hpoints, List.mem_append] at ht
      rcases List.mem_cons.mp (ht.resolve_left hnot) with rfl | ht
      · exact le_rfl
      · exact ((List.pairwise_cons.mp hs).1 t ht).le

end JobSizeProfile

/-! ### Both kinds -/

/-- On doubles, over all profiles of amounts that do not decrease, the scans stop at the boundary of
what leaves capacity. -/
theorem scans_stop_at_boundary {rates : Rates Float} {stats : Statistics Float}
    (hr : rates.IsAmount) (hstats : 1 ≤ stats.averagePacketSize) :
    (∀ p : RatioProfile Float, p.IsMonotone → p.StopsAtBoundary rates stats) ∧
      ∀ p : JobSizeProfile Float, p.IsMonotone → p.StopsAtBoundary rates stats :=
  ⟨fun _ hp => RatioProfile.stopsAtBoundary hp hr hstats,
    fun _ hp => JobSizeProfile.stopsAtBoundary hp hr hstats⟩

/-- Statistics of smallest packets. -/
def smallestPackets : Statistics Float := ⟨1, 512, 512, 100.0, 100.0, 1.0⟩

theorem scans_stop_at_boundary_steps :
    (RatioProfile.mk [(2, Scalar.ofNat 600)]).StopsAtBoundary ⟨Scalar.one, Scalar.one⟩
        smallestPackets ∧
      (JobSizeProfile.mk [(100, Scalar.ofNat 50), (300, Scalar.ofNat 600)]).StopsAtBoundary
        ⟨Scalar.one, Scalar.one⟩ smallestPackets := by
  have hvalue : ∀ i, (RatioProfile.mk [(2, (Scalar.ofNat 600 : Float))]).valueAt i =
      Scalar.ofNat (if 2 ≤ i then 600 else 0) := by
    intro i
    by_cases hi : 2 ≤ i <;> simp [RatioProfile.valueAt, Profile.valueAt, hi, Scalar.zero]
  have hsize : 1 ≤ smallestPackets.averagePacketSize := by decide
  obtain ⟨htable, hjobs⟩ := scans_stop_at_boundary Rates.isAmount_one hsize
  refine ⟨htable _ ⟨List.pairwise_singleton _ _, by decide, fun i _ => ?_, fun i j hij _ => ?_⟩,
    hjobs _ ⟨by simp [Ascending], by decide, ?_, ?_⟩⟩
  · rw [hvalue]
    exact Double.isAmount_ofNat (by split <;> decide)
  · rw [hvalue, hvalue]
    exact Double.ofNat_mono (by split_ifs <;> omega)
  · simp only [List.forall_mem_cons]
    exact ⟨Double.isAmount_ofNat (by decide), Double.isAmount_ofNat (by decide), by simp⟩
  · exact List.pairwise_pair.mpr (Double.ofNat_mono (by decide))

/-- The empty table is exhausted too, at 0. -/
theorem not_saturated_of_empty : ¬ ∀ (rates : Rates Float) (stats : Statistics Float)
    (p : RatioProfile Float), rates.IsAmount → 1 ≤ stats.averagePacketSize → p.IsMonotone →
      p.threshold rates stats =
        if 0 < p.size ∧ p.feasible rates stats = List.range p.size then
          .exhausted (slotRatio (p.size - 1))
        else .saturated ((p.feasible rates stats).getLast?.elim Scalar.zero slotRatio) := by
  intro h
  have hempty : (RatioProfile.mk ([] : List (Nat × Float))).IsMonotone :=
    ⟨.nil, by decide, fun i hi => absurd hi (Nat.not_lt_zero i),
      fun i j _ hj => absurd hj (Nat.not_lt_zero j)⟩
  have hsaturated := h _ smallestPackets _ Rates.isAmount_one (by decide) hempty
  rw [if_neg fun hsize => Nat.lt_irrefl 0 hsize.1] at hsaturated
  cases hsaturated

end Saturation
