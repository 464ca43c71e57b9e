import Saturation.Proofs.Goodput

/-!
The attack that a ratio policy emits. The ratio of a slot is a fraction with a denominator that any
packet reaches, so its best approximation is the ratio itself in lowest terms; a packet that is
made larger only loses a part of a unit of its job.
-/

set_option autoImplicit false

namespace Saturation

open Exact (number infinite undefined)

namespace Fraction

theorem reduced_mul {k : Nat} (hk : 0 < k) (n d : Nat) : reduced (n * k) (d * k) = reduced n d := by
  simp only [reduced, Nat.gcd_mul_right, Nat.mul_div_mul_right _ _ hk]

theorem closest_of_le {bound : Nat} {t : Fraction} (h : t.denominator ≤ bound) :
    closest bound t = t := if_pos h

theorem fixedPoint_slot (slot : Nat) :
    Scalar.nearest (slotRatio slot * Scalar.ofNat fixedPoint : Exact) = slot * 2 ^ 52 := by
  have hq : (slotRatio slot * Scalar.ofNat fixedPoint : Exact) =
      number ((slot * 2 ^ 52 : Nat) : ℚ) := by
    rw [slotRatio_eq, Exact.ofNat_eq, Exact.number_mul]
    congr 1
    rw [fixedPoint]
    push_cast
    ring
  have hhalf : ⌊((slot * 2 ^ 52 : Nat) : ℚ) + 1 / 2⌋ = ((slot * 2 ^ 52 : Nat) : ℤ) := by
    rw [Int.floor_natCast_add]
    norm_num
  rw [hq]
  show ⌊_⌋.toNat = _
  rw [hhalf, Int.toNat_natCast]

theorem ofValue_slotRatio {slot : Nat} (h : slot < slotLimit) :
    ofValue (slotRatio slot : Exact) maxPacketSize.toNat = reduced slot slotsPerUnit := by
  have hlow : Scalar.below Scalar.zero (slotRatio slot : Exact) = decide (0 < slot) := by
    rw [slotRatio_eq, Bool.eq_iff_iff, decide_eq_true_iff]
    refine (Exact.number_lt 0 _).trans ?_
    rw [div_pos_iff_of_pos_right (by norm_num), Nat.cast_pos]
  rcases Nat.eq_zero_or_pos slot with rfl | hpos
  · unfold ofValue
    rw [hlow]
    rfl
  · have hhigh : Scalar.atMost (Scalar.ofNat exactLimit) (slotRatio slot : Exact) = false := by
      rw [slotRatio_eq, Exact.ofNat_eq]
      refine decide_eq_false ?_
      have hs : (slot : ℚ) < slotLimit := Nat.cast_lt.mpr h
      rw [not_le, div_lt_iff₀ (by norm_num)]
      refine hs.trans ?_
      norm_num [slotLimit, exactLimit]
    have hden : (reduced slot slotsPerUnit).denominator ≤ maxPacketSize.toNat :=
      (Nat.div_le_self _ _).trans (by decide)
    unfold ofValue
    rw [hlow, hhigh, fixedPoint_slot, show fixedPoint = slotsPerUnit * 2 ^ 52 by decide,
      reduced_mul (by decide)]
    simp only [hpos, decide_true, Bool.not_true, Bool.false_eq_true, if_false]
    exact closest_of_le hden

theorem reduced_spec (slot : Nat) :
    ∃ g, (reduced slot slotsPerUnit).numerator * g = slot ∧
      (reduced slot slotsPerUnit).denominator * g = slotsPerUnit ∧ 0 < g :=
  ⟨Nat.gcd slot slotsPerUnit, Nat.div_mul_cancel (Nat.gcd_dvd_left _ _),
    Nat.div_mul_cancel (Nat.gcd_dvd_right _ _), Nat.gcd_pos_of_pos_right _ (by decide)⟩

end Fraction

/-- A job and a packet size that stay within the ratio of a slot, by less than a unit of the job. -/
structure Attack.Within (slot : Nat) (minSize : UInt64) (a : Attack Exact) : Prop where
  minSize_le : minSize ≤ a.packetSize
  le_maxSize : a.packetSize ≤ maxPacketSize
  jobSize_eq : ∃ j : Nat, a.jobSize = number j ∧ j * slotsPerUnit ≤ slot * a.packetSize.toNat ∧
    slot * a.packetSize.toNat < (j + 1) * slotsPerUnit

/-- The job that is scaled to a larger packet is a whole quotient. -/
theorem Attack.truncate_scaled {p q : Nat} (hp : p < slotLimit) (hq : 0 < q) {minSize : UInt64}
    (hmin : minSize.toNat ≤ 12144) :
    (Scalar.truncate (Scalar.ofNat p * (Scalar.ofWord minSize / Scalar.ofNat q) : Exact)).toNat =
      p * minSize.toNat / q := by
  have hscale : (Scalar.ofNat p * (Scalar.ofWord minSize / Scalar.ofNat q) : Exact) =
      number (((p * minSize.toNat : Nat) : ℚ) / q) := by
    have hq0 : (q : ℚ) ≠ 0 := Nat.cast_ne_zero.mpr hq.ne'
    simp only [Exact.ofNat_eq, Exact.ofWord_eq, Exact.number_div _ hq0, Exact.number_mul]
    push_cast
    rw [mul_div_assoc]
  rw [hscale, Exact.truncate_natCast_div]
  calc p * minSize.toNat ≤ slotLimit * 12144 := Nat.mul_le_mul hp.le hmin
    _ < 2 ^ 64 := by decide

theorem Attack.ofCostRatio_within {slot : Nat} (h : slot < slotLimit) {minSize : UInt64}
    (hmin : minSize ≤ maxPacketSize) :
    (ofCostRatio (slotRatio slot) minSize).Within slot minSize := by
  obtain ⟨g, hnum, hden, hg⟩ := Fraction.reduced_spec slot
  have hmin' : minSize.toNat ≤ 12144 := UInt64.le_iff_toNat_le.mp hmin
  unfold ofCostRatio
  rw [Fraction.ofValue_slotRatio h]
  dsimp only
  generalize (Fraction.reduced slot slotsPerUnit).numerator = p at *
  generalize (Fraction.reduced slot slotsPerUnit).denominator = q at *
  have hq : 0 < q := Nat.pos_of_ne_zero fun h0 => by simp [h0, slotsPerUnit] at hden
  have hp : p < slotLimit := (Nat.le_mul_of_pos_right p hg).trans_lt (hnum.trans_lt h)
  split
  · -- The packet is made larger: the job is scaled with it and loses its fraction.
    refine ⟨UInt64.le_refl _, hmin, p * minSize.toNat / q, ?_, ?_, ?_⟩
    · rw [Exact.ofWord_eq, truncate_scaled hp hq hmin']
    · calc p * minSize.toNat / q * slotsPerUnit = p * minSize.toNat / q * q * g := by
            rw [← hden, mul_assoc]
        _ ≤ p * minSize.toNat * g := Nat.mul_le_mul_right g (Nat.div_mul_le_self _ _)
        _ = slot * minSize.toNat := by rw [← hnum]; ring
    · calc slot * minSize.toNat = p * minSize.toNat * g := by rw [← hnum]; ring
        _ < (p * minSize.toNat / q + 1) * q * g := by
            refine Nat.mul_lt_mul_of_pos_right ?_ hg
            rw [mul_comm _ q]
            exact Nat.lt_mul_div_succ _ hq
        _ = (p * minSize.toNat / q + 1) * slotsPerUnit := by rw [← hden, mul_assoc]
  · -- The denominator is a packet already.
    rename_i hlt
    have hqle : q ≤ slotsPerUnit := hden ▸ Nat.le_mul_of_pos_right q hg
    have hword : q.toUInt64.toNat = q :=
      UInt64.toNat_ofNat_of_lt' (hqle.trans_lt (by decide))
    have hexact : slot * q = p * slotsPerUnit := by rw [← hnum, ← hden]; ring
    refine ⟨?_, ?_, p, rfl, ?_, ?_⟩
    · rw [UInt64.le_iff_toNat_le, hword]
      exact not_lt.mp hlt
    · rw [UInt64.le_iff_toNat_le, hword]
      exact hqle.trans (by decide)
    · rw [hword, hexact]
    · rw [hword, hexact, add_mul, one_mul]
      exact Nat.lt_add_of_pos_right (by decide)

/-! ### The ratio of the attack -/

namespace Attack.Within

variable {slot : Nat} {minSize : UInt64} {s : Attack Exact}

theorem packetSize_pos (h : s.Within slot minSize) (hmin : minSize ≠ 0) : 0 < s.packetSize.toNat := by
  have h0 : minSize.toNat ≠ 0 := fun h0 => hmin (UInt64.toNat_inj.mp h0)
  have := UInt64.le_iff_toNat_le.mp h.minSize_le
  omega

/-- With packets of at least one bit, the attack has at most the ratio of its slot, and misses it by
less than one unit of the job. -/
theorem ratio (h : s.Within slot minSize) (hmin : minSize ≠ 0) :
    ∃ q : ℚ, s.jobSize / Scalar.ofWord s.packetSize = number q ∧ q ≤ slot / 4096 ∧
      (slot : ℚ) / 4096 < q + 1 / s.packetSize.toNat := by
  obtain ⟨j, hj, hlow, hhigh⟩ := h.jobSize_eq
  have hP : (0 : ℚ) < s.packetSize.toNat := Nat.cast_pos.mpr (h.packetSize_pos hmin)
  have hlow' : (j : ℚ) * 4096 ≤ slot * s.packetSize.toNat := by exact_mod_cast hlow
  have hhigh' : (slot : ℚ) * s.packetSize.toNat < (j + 1) * 4096 := by exact_mod_cast hhigh
  refine ⟨j / s.packetSize.toNat, ?_, ?_, ?_⟩
  · rw [hj, Exact.ofWord_eq, Exact.number_div _ hP.ne']
  · rw [div_le_div_iff₀ hP (by norm_num)]
    exact hlow'
  · rw [← add_div, div_lt_div_iff₀ (by norm_num) hP]
    exact hhigh'

end Attack.Within

/-- Model and threshold of a ratio policy. -/
theorem Model.byCostRatio_of_policy {policy : Policy} (hp : policy = .wsjf ∨ policy = .wsjfInorder)
    {stats : Statistics Exact} {ps : List (Packet Exact)} {m : Model Exact}
    (h : ofPackets policy stats ps = .ok m) : ∃ ranking profile, m = .byCostRatio ranking profile := by
  rcases hp with rfl | rfl
  · simp only [ofPackets, ofCostRatios] at h
    split at h
    · cases h
      exact ⟨_, _, rfl⟩
    · simp at h
  · simp only [ofPackets, ofFlowCostRatios, ofTableCostRatios] at h
    split at h
    · cases h
      exact ⟨_, _, rfl⟩
    · simp at h

namespace Analyzer

/-- A ratio policy's attack is feasible: its packets are within the bounds, its ratio is that of the
threshold but for less than a unit of the job, and unless even slot 0 saturates, innocent work up to
the threshold and the work of the emitted packets leave capacity. -/
theorem ratioAttack_feasible {bytes : List UInt8} {policy : Policy} {bounds : AttackBounds Exact}
    {z : Analyzer Exact} (hp : policy = .wsjf ∨ policy = .wsjfInorder)
    (hz : Analysis.exact bytes policy bounds = .ok z)
    (hlow : minPacketSize ≤ bounds.minPacketSize) (hhigh : bounds.minPacketSize ≤ maxPacketSize)
    {r a : ℚ} (ha : 0 ≤ a) :
    ∃ ranking profile slot, z.model = .byCostRatio ranking profile ∧
      (profile.threshold ⟨number r, number a⟩ z.statistics).limit = slotRatio slot ∧
      let s := z.strategy ⟨number r, number a⟩
      let ratio := s.actualJobSize / Scalar.ofWord s.packetSize
      bounds.minPacketSize ≤ s.packetSize ∧ s.packetSize ≤ maxPacketSize ∧
      ratio ≤ slotRatio slot ∧
      slotRatio slot < ratio + Scalar.one / Scalar.ofWord s.packetSize ∧
      (isSaturated (profile.workAt ⟨number r, number a⟩ z.statistics 0) = false →
        innocentWork ⟨number r, number a⟩ z.statistics (profile.valueAt slot) + number a * ratio <
          number 1) := by
  obtain ⟨ps, hps, hstats, rfl, rfl, hmodel, hof⟩ := Analysis.exact_ok hz
  obtain ⟨ranking, profile, hm⟩ := Model.byCostRatio_of_policy hp hof
  rw [hm] at hmodel
  obtain ⟨-, hcost⟩ := hmodel
  obtain ⟨slot, hslot, hlimit⟩ :=
    profile.threshold_isLimit hcost.ascending ⟨number r, number a⟩ z.statistics
  have hs : z.strategy ⟨number r, number a⟩ =
      (Attack.ofCostRatio (slotRatio slot) z.bounds.minPacketSize).strategy
        (z.rankedEstimate ranking ⟨number r, number a⟩
          (profile.threshold ⟨number r, number a⟩ z.statistics)) := by
    unfold strategy
    rw [hm, ← hlimit]
  have hwithin := Attack.ofCostRatio_within (hslot.lt_slotLimit hcost.slot_lt) hhigh
  generalize Attack.ofCostRatio (slotRatio slot : Exact) z.bounds.minPacketSize = attack at hs hwithin
  have hne : z.bounds.minPacketSize ≠ 0 := fun h0 => by simp [h0, minPacketSize] at hlow
  obtain ⟨q, hq, hqlow, hqhigh⟩ := hwithin.ratio hne
  refine ⟨ranking, profile, slot, hm, hlimit, ?_⟩
  rw [hs]
  dsimp only [Attack.strategy]
  have hP : 0 < attack.packetSize.toNat := hwithin.packetSize_pos hne
  rw [hq, slotRatio_eq]
  refine ⟨hwithin.minSize_le, hwithin.le_maxSize, (Exact.number_le _ _).mpr hqlow, ?_, ?_⟩
  · rw [Exact.one_eq, Exact.ofWord_eq, Exact.number_div _ (Nat.cast_ne_zero.mpr hP.ne'),
      Exact.number_add, Exact.number_lt]
    exact hqhigh
  · intro h0
    have hfree := hslot.not_saturated h0
    obtain ⟨v, -, hv⟩ := RatioProfile.valueAt_isAmount hcost.isAmount slot
    have hsize := (hps.statistics_isSound hstats).size_pos
    rw [Bool.eq_false_iff, ne_eq, isSaturated_iff, RatioProfile.workAt, hv,
      innocentWork_number hsize, slotRatio_eq, costRatioAttackWork_number, Exact.number_add,
      Exact.number_le, not_le] at hfree
    rw [hv, innocentWork_number hsize, Exact.number_mul, Exact.number_add, Exact.number_lt]
    have : a * q ≤ a * (slot / 4096) := mul_le_mul_of_nonneg_left hqlow ha
    linarith

theorem ratioAttack_feasible_twoPackets :
    ∃ z, Analysis.exact twoPackets .wsjf ⟨number 1000, 8192⟩ = .ok z ∧
      ∃ ranking profile slot, z.model = .byCostRatio ranking profile ∧
        (profile.threshold ⟨number 1, number 2⟩ z.statistics).limit = slotRatio slot ∧
        let s := z.strategy ⟨number 1, number 2⟩
        let ratio := s.actualJobSize / Scalar.ofWord s.packetSize
        8192 ≤ s.packetSize ∧ s.packetSize ≤ maxPacketSize ∧ ratio ≤ slotRatio slot ∧
        slotRatio slot < ratio + Scalar.one / Scalar.ofWord s.packetSize ∧
        (isSaturated (profile.workAt ⟨number 1, number 2⟩ z.statistics 0) = false →
          innocentWork ⟨number 1, number 2⟩ z.statistics (profile.valueAt slot) +
            number 2 * ratio < number 1) := by
  obtain ⟨z, hz⟩ := Analysis.exact_twoPackets ⟨number 1000, 8192⟩
  exact ⟨z, hz, ratioAttack_feasible (.inl rfl) hz (by decide) (by decide)
    (by norm_num)⟩

end Analyzer

end Saturation
