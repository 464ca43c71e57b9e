import Saturation.Proofs.Model

/-!
More attack never helps innocent traffic. Each policy first computes a goodput of its own, which is
then held to the ideal one. That first goodput falls as the attack grows: a scan stops earlier and
serves less, and in the closed forms a larger load divides.
-/

set_option autoImplicit false

namespace Saturation

namespace Exact

/-- A value held to a number; what is no number does not hold it lower. -/
def cap (x : Exact) (i : ℚ) : ℚ :=
  match x with
  | number q => min q i
  | infinite | undefined => i

theorem smaller_number_right (x : Exact) (i : ℚ) :
    Scalar.smaller x (number i) = number (x.cap i) := by
  cases x with
  | number q => exact smaller_number q i
  | infinite | undefined =>
    have hi : Scalar.isNumber (number i) = true := decide_eq_true le_rfl
    simp only [Scalar.smaller, hi]
    rfl

theorem smaller_number_left (x : Exact) (i : ℚ) :
    Scalar.smaller (number i) x = number (x.cap i) := by
  cases x with
  | number q => rw [smaller_number, min_comm]; rfl
  | infinite | undefined => rfl

theorem cap_le (x : Exact) (i : ℚ) : x.cap i ≤ i := by
  cases x with
  | number q => exact min_le_right q i
  | infinite | undefined => exact le_rfl

theorem cap_nonneg {x : Exact} {i : ℚ} (hx : Scalar.precedes (number 0) x = true) (hi : 0 ≤ i) :
    0 ≤ x.cap i := by
  cases x with
  | number q => exact le_min (of_decide_eq_true hx) hi
  | infinite | undefined => exact hi

theorem cap_mono {x y : Exact} (h : Scalar.precedes x y = true) (i : ℚ) : x.cap i ≤ y.cap i := by
  cases y with
  | infinite | undefined => exact cap_le x i
  | number b =>
    cases x with
    | number a => exact min_le_min_right i (of_decide_eq_true h)
    | infinite | undefined => exact absurd h Bool.false_ne_true

theorem precedes_refl (x : Exact) : Scalar.precedes x x = true := by
  simpa using precedes_total x x

theorem precedes_undefined (x : Exact) : Scalar.precedes x undefined = true := by
  cases x <;> rfl

theorem zero_precedes_div {a b : ℚ} (ha : 0 ≤ a) (hb : 0 ≤ b) :
    Scalar.precedes (number 0) (number a / number b) = true := by
  rcases hb.eq_or_lt with rfl | hb
  · rcases ha.eq_or_lt with rfl | ha
    · rfl
    · rw [number_div_zero ha]
      rfl
  · rw [number_div a hb.ne', precedes_number, decide_eq_true_iff]
    positivity

/-- A quotient falls as its divisor grows. -/
theorem div_precedes_div {a x y : ℚ} (ha : 0 ≤ a) (hx : 0 ≤ x) (hxy : x ≤ y) :
    Scalar.precedes (number a / number y) (number a / number x) = true := by
  rcases hx.eq_or_lt with rfl | hx
  · rcases hxy.eq_or_lt with rfl | hy
    · exact precedes_refl _
    · rw [number_div a hy.ne']
      rcases ha.eq_or_lt with rfl | ha
      · rfl
      · rw [number_div_zero ha]
        rfl
  · rw [number_div a hx.ne', number_div a (hx.trans_le hxy).ne', precedes_number,
      decide_eq_true_iff]
    gcongr

end Exact

open Exact (number infinite undefined)

/-- The work of smallest packets with the longest job: a number that grows with the attack, or
infinite, or, without any attack, undefined. -/
theorem jobSizeAttackWork_cases {x : Exact} (hx : number 0 ≤ x) (r : Exact) {a : ℚ} (ha : 0 ≤ a) :
    (∃ m, 0 ≤ m ∧ x = number m ∧ jobSizeAttackWork ⟨r, number a⟩ x = number (a / 512 * m)) ∨
      (x = infinite ∧ a = 0 ∧ jobSizeAttackWork ⟨r, number a⟩ x = undefined) ∨
      (x = infinite ∧ 0 < a ∧ jobSizeAttackWork ⟨r, number a⟩ x = infinite) := by
  cases x with
  | undefined => simp at hx
  | number m =>
    rw [Exact.number_le] at hx
    exact .inl ⟨m, hx, rfl, jobSizeAttackWork_number r a m⟩
  | infinite =>
    have hdiv : number a / number ((512 : Nat) : ℚ) = number (a / 512) :=
      Exact.number_div a (by norm_num)
    have hwork : jobSizeAttackWork ⟨r, number a⟩ infinite = number (a / 512) * infinite :=
      congrArg (· * infinite) hdiv
    rcases ha.eq_or_lt with rfl | ha
    · refine .inr (.inl ⟨rfl, rfl, ?_⟩)
      rw [hwork, zero_div]
      rfl
    · refine .inr (.inr ⟨rfl, ha, ?_⟩)
      rw [hwork]
      exact Exact.number_mul_infinite (by positivity)

/-- What is divided by a load that the attack is part of does not grow with the attack. -/
theorem div_load_antitone {n x r : Exact} {c a b : ℚ} (hn : n = infinite ∨ n.IsAmount)
    (hx : number 0 ≤ x) (hc : 0 ≤ c) (ha : 0 ≤ a) (hab : a ≤ b) :
    Scalar.precedes (n / (jobSizeAttackWork ⟨r, number b⟩ x + number c))
        (n / (jobSizeAttackWork ⟨r, number a⟩ x + number c)) = true ∧
      Scalar.precedes (number 0) (n / (jobSizeAttackWork ⟨r, number b⟩ x + number c)) = true := by
  rcases jobSizeAttackWork_cases hx r ha with ⟨m, hm, rfl, hwork⟩ | ⟨rfl, rfl, hwork⟩ |
    ⟨rfl, ha', hwork⟩
  · have hb := ha.trans hab
    have hload : 0 ≤ b / 512 * m + c := by positivity
    have hmono : a / 512 * m + c ≤ b / 512 * m + c := by gcongr
    rw [hwork, jobSizeAttackWork_number, Exact.number_add, Exact.number_add]
    rcases hn with rfl | ⟨q, hq, rfl⟩
    · rw [Exact.infinite_div hload, Exact.infinite_div (by positivity)]
      exact ⟨rfl, rfl⟩
    · exact ⟨Exact.div_precedes_div hq (by positivity) hmono, Exact.zero_precedes_div hq hload⟩
  · rw [hwork, Exact.undefined_add, Exact.div_undefined]
    refine ⟨Exact.precedes_undefined _, ?_⟩
    rcases jobSizeAttackWork_cases hx r hab with ⟨m, -, h, -⟩ | ⟨-, -, hb⟩ | ⟨-, -, hb⟩
    · exact absurd h (by simp)
    · rw [hb, Exact.undefined_add, Exact.div_undefined]
      rfl
    · rw [hb]
      rcases hn with rfl | ⟨q, -, rfl⟩ <;> rfl
  · rcases jobSizeAttackWork_cases hx r (ha'.le.trans hab) with ⟨m, -, h, -⟩ | ⟨-, hb, -⟩ |
      ⟨-, -, hb⟩
    · exact absurd h (by simp)
    · exact absurd (ha'.trans_le hab) hb.not_gt
    · rw [hwork, hb]
      refine ⟨Exact.precedes_refl _, ?_⟩
      rcases hn with rfl | ⟨q, -, rfl⟩ <;> rfl

/-! ### What is served -/

section

variable {α : Type}

theorem toNat_foldl_add (items : List (α × UInt64)) :
    ∀ total : UInt64, total.toNat + Ranking.bits items < 2 ^ 64 →
      (items.foldl (fun total item => total + item.2) total).toNat =
        total.toNat + Ranking.bits items := by
  induction items with
  | nil => simp [Ranking.bits]
  | cons item items ih =>
    intro total h
    simp only [Ranking.bits, List.map_cons, List.sum_cons] at h ih ⊢
    have hadd : (total + item.2).toNat = total.toNat + item.2.toNat := by
      rw [UInt64.toNat_add, Nat.mod_eq_of_lt (by omega)]
    rw [List.foldl_cons, ih _ (by omega), hadd]
    omega

theorem bits_takeWhile_mono {p q : α → Bool} (h : ∀ v, p v = true → q v = true)
    (items : Ranking α) :
    Ranking.bits (items.takeWhile fun item => p item.1) ≤
      Ranking.bits (items.takeWhile fun item => q item.1) := by
  induction items with
  | nil => exact le_rfl
  | cons item items ih =>
    simp only [List.takeWhile_cons]
    cases hp : p item.1 with
    | false => simp [Ranking.bits]
    | true =>
      simp only [h _ hp, if_true, Ranking.bits, List.map_cons, List.sum_cons] at ih ⊢
      omega

theorem bits_takeWhile_le (p : α → Bool) (items : Ranking α) :
    Ranking.bits (items.takeWhile fun item => p item.1) ≤ Ranking.bits items :=
  (((List.takeWhile_sublist _).map _).sum_le_sum fun _ _ => Nat.zero_le _)

theorem toNat_servedSize (p : α → Bool) {items : Ranking α} (hbits : items.bits < 2 ^ 64) :
    (servedSize p items).toNat = Ranking.bits (items.takeWhile fun item => p item.1) := by
  have hle := bits_takeWhile_le p items
  rw [servedSize, toNat_foldl_add _ 0 (by simpa using hle.trans_lt hbits)]
  simp

end

theorem servedSize_mono {p q : Exact → Bool} (h : ∀ v, p v = true → q v = true)
    {items : Ranking Exact} (hbits : items.bits < 2 ^ 64) :
    (servedSize p items).toNat ≤ (servedSize q items).toNat := by
  rw [toNat_servedSize p hbits, toNat_servedSize q hbits]
  exact bits_takeWhile_mono h items

/-! ### Goodput -/

/-- Statistics that nothing divides by 0 with. -/
structure Statistics.IsSound (s : Statistics Exact) : Prop where
  total_pos : 0 < s.totalPackets
  size_pos : 0 < s.averagePacketSize.toNat
  job_isAmount : s.averageJobSize.IsAmount
  rMax_isAmount : s.rMax = infinite ∨ s.rMax.IsAmount

theorem Traffic.statistics_isSound {ps : List (Packet Exact)} (h : Traffic ps)
    {stats : Statistics Exact} (hs : Statistics.ofPackets ps = .ok stats) :
    stats.IsSound := by
  obtain ⟨htotal, hsize, hjob, -, hr⟩ := h.statistics hs
  refine ⟨htotal ▸ h.length_pos, ?_, ⟨meanJob ps, h.meanJob_nonneg, hjob⟩, ?_⟩
  · rw [hsize]
    exact Nat.div_pos h.length_le_bits h.length_pos
  · have hm : 0 < meanSize ps := one_pos.trans_le h.meanSize_ge_one
    rw [hr]
    rcases h.meanJob_nonneg.eq_or_lt with h0 | hpos
    · rw [← h0]
      exact .inl (Exact.number_div_zero hm)
    · exact .inr (Exact.IsAmount.div ⟨_, hm.le, rfl⟩ hpos)

theorem Statistics.IsSound.ideal_nonneg {s : Statistics Exact} (hs : s.IsSound) {r : ℚ} (hr : 0 ≤ r) :
    0 ≤ s.rMax.cap r := by
  refine Exact.cap_nonneg ?_ hr
  rcases hs.rMax_isAmount with h | ⟨q, hq, h⟩
  · rw [h]
    rfl
  · rw [h]
    exact decide_eq_true hq

namespace Estimate

variable {stats : Statistics Exact} {r : ℚ} {x y : Exact}

theorem idealGoodput_eq (stats : Statistics Exact) (r : ℚ) :
    stats.idealGoodput (number r) = number (stats.rMax.cap r) :=
  Exact.smaller_number_left stats.rMax r

theorem goodput_ofGoodput (stats : Statistics Exact) (r : ℚ) (a g : Exact) :
    (ofGoodput ⟨number r, a⟩ stats g).goodput = number (g.cap (stats.rMax.cap r)) := by
  show Scalar.smaller g (stats.idealGoodput (number r)) = _
  rw [idealGoodput_eq, Exact.smaller_number_right]

/-- If a policy's own goodput falls and is not negative, so does what it is held to. -/
theorem cappedGoodput_antitone (hs : stats.IsSound) (hr : 0 ≤ r)
    {g g' : Exact} (hg : Scalar.precedes g' g = true) (h0 : Scalar.precedes (number 0) g' = true) :
    number 0 ≤ (ofGoodput ⟨number r, y⟩ stats g').goodput ∧
      (ofGoodput ⟨number r, y⟩ stats g').goodput ≤ (ofGoodput ⟨number r, x⟩ stats g).goodput ∧
      (ofGoodput ⟨number r, x⟩ stats g).goodput ≤ stats.idealGoodput (number r) := by
  have hideal := hs.ideal_nonneg hr
  rw [goodput_ofGoodput, goodput_ofGoodput, idealGoodput_eq]
  simp only [Exact.number_le]
  exact ⟨Exact.cap_nonneg h0 hideal, Exact.cap_mono hg _, Exact.cap_le g _⟩

end Estimate

namespace Analyzer

variable {z : Analyzer Exact} {r a b : ℚ}

theorem arrivalGoodput_antitone (hs : z.statistics.IsSound) (hmax : number 0 ≤ z.bounds.maxJobSize)
    (hr : 0 ≤ r) (ha : 0 ≤ a) (hab : a ≤ b) :
    Scalar.precedes (z.arrivalGoodput ⟨number r, number b⟩)
        (z.arrivalGoodput ⟨number r, number a⟩) = true ∧
      Scalar.precedes (number 0) (z.arrivalGoodput ⟨number r, number b⟩) = true := by
  obtain ⟨j, hj, hjob⟩ := hs.job_isAmount
  have hgoodput : ∀ c : ℚ, z.arrivalGoodput ⟨number r, number c⟩ = number (r * Exact.cap (number 1 /
      (jobSizeAttackWork ⟨number r, number c⟩ z.bounds.maxJobSize +
        number (r / z.statistics.averagePacketSize.toNat * j))) 1) := by
    intro c
    show number r * Scalar.smaller (Scalar.one / (innocentWork _ _ _ + jobSizeAttackWork _ _))
      Scalar.one = _
    rw [hjob, innocentWork_number hs.size_pos, Exact.add_comm, Exact.one_eq,
      Exact.smaller_number_right, Exact.number_mul]
  obtain ⟨hle, h0⟩ := div_load_antitone (r := number r) (.inr ⟨1, zero_le_one, rfl⟩) hmax
    (c := r / z.statistics.averagePacketSize.toNat * j) (by positivity) ha hab
  rw [hgoodput, hgoodput, Exact.precedes_number, Exact.precedes_number]
  simp only [decide_eq_true_iff]
  exact ⟨mul_le_mul_of_nonneg_left (Exact.cap_mono hle 1) hr,
    mul_nonneg hr (Exact.cap_nonneg h0 zero_le_one)⟩

theorem sharesGoodput_antitone (hs : z.statistics.IsSound) (hmax : number 0 ≤ z.bounds.maxJobSize)
    {flows : Nat} (hflows : 0 < flows) (hr : 0 ≤ r) (ha : 0 ≤ a) (hab : a ≤ b) :
    Scalar.precedes (z.sharesGoodput flows ⟨number r, number b⟩)
        (z.sharesGoodput flows ⟨number r, number a⟩) = true ∧
      Scalar.precedes (number 0) (z.sharesGoodput flows ⟨number r, number b⟩) = true := by
  have hk : (0 : ℚ) < flows := Nat.cast_pos.mpr hflows
  have hn : number flows * z.statistics.rMax = infinite ∨
      (number flows * z.statistics.rMax).IsAmount := by
    rcases hs.rMax_isAmount with h | h
    · rw [h]
      exact .inl (Exact.number_mul_infinite hk)
    · exact .inr ((Exact.isAmount_ofNat flows).mul h)
  have hgoodput : ∀ c : ℚ, z.sharesGoodput flows ⟨number r, number c⟩ = number (Exact.cap
      (number flows * z.statistics.rMax /
        (jobSizeAttackWork ⟨number r, number c⟩ z.bounds.maxJobSize + number flows)) r) :=
    fun c => Exact.smaller_number_left _ r
  obtain ⟨hle, h0⟩ := div_load_antitone (r := number r) hn hmax hk.le ha hab
  rw [hgoodput, hgoodput, Exact.precedes_number, Exact.precedes_number]
  simp only [decide_eq_true_iff]
  exact ⟨Exact.cap_mono hle r, Exact.cap_nonneg h0 hr⟩

/-- The goodput of a scan falls with what its threshold admits. -/
theorem rankedEstimate_antitone (hs : z.statistics.IsSound) {ranking : Ranking Exact}
    (hbits : ranking.bits < 2 ^ 64) (hr : 0 ≤ r) {t u : Threshold Exact}
    (h : ∀ v, u.admits v = true → t.admits v = true) :
    number 0 ≤ (z.rankedEstimate ranking ⟨number r, number b⟩ u).goodput ∧
      (z.rankedEstimate ranking ⟨number r, number b⟩ u).goodput ≤
        (z.rankedEstimate ranking ⟨number r, number a⟩ t).goodput ∧
      (z.rankedEstimate ranking ⟨number r, number a⟩ t).goodput ≤
        z.statistics.idealGoodput (number r) := by
  have hoffered : (0 : ℚ) < z.statistics.totalPackets * z.statistics.averagePacketSize.toNat :=
    mul_pos (Nat.cast_pos.mpr hs.total_pos) (Nat.cast_pos.mpr hs.size_pos)
  have hgoodput : ∀ (c : ℚ) (n : UInt64),
      Estimate.ofServedSize ⟨number r, number c⟩ z.statistics n =
        Estimate.ofGoodput ⟨number r, number c⟩ z.statistics (number (r * n.toNat /
          (z.statistics.totalPackets * z.statistics.averagePacketSize.toNat))) := by
    intro c n
    rw [← Exact.number_div _ hoffered.ne']
    rfl
  have hserved : ((servedSize u.admits ranking).toNat : ℚ) ≤ (servedSize t.admits ranking).toNat :=
    Nat.cast_le.mpr (servedSize_mono h hbits)
  unfold rankedEstimate
  rw [hgoodput, hgoodput]
  apply Estimate.cappedGoodput_antitone hs hr
  · rw [Exact.precedes_number, decide_eq_true_iff]
    gcongr
  · rw [Exact.precedes_number, decide_eq_true_iff]
    positivity

/-- With a longest job that is not negative, a stronger attack leaves innocent traffic no more
goodput, and never more than the ideal one. -/
theorem goodput_antitone {bytes : List UInt8} {policy : Policy} {bounds : AttackBounds Exact}
    (hz : Analysis.exact bytes policy bounds = .ok z)
    (hmax : number 0 ≤ bounds.maxJobSize) (hr : 0 ≤ r) (ha : 0 ≤ a) (hab : a ≤ b) :
    number 0 ≤ (z.strategy ⟨number r, number b⟩).expectedGoodput ∧
      (z.strategy ⟨number r, number b⟩).expectedGoodput ≤
        (z.strategy ⟨number r, number a⟩).expectedGoodput ∧
      (z.strategy ⟨number r, number a⟩).expectedGoodput ≤
        Scalar.smaller (number r) z.statistics.rMax := by
  obtain ⟨ps, hps, hstats, -, rfl, hmodel, -⟩ := Analysis.exact_ok hz
  have hs := hps.statistics_isSound hstats
  unfold strategy
  cases hm : z.model with
  | arrival =>
    obtain ⟨hg, h0⟩ := arrivalGoodput_antitone hs hmax hr ha hab
    exact Estimate.cappedGoodput_antitone hs hr hg h0
  | shares flows =>
    rw [hm] at hmodel
    obtain ⟨hg, h0⟩ := sharesGoodput_antitone hs hmax hmodel hr ha hab
    exact Estimate.cappedGoodput_antitone hs hr hg h0
  | byJobSize ranking profile =>
    rw [hm] at hmodel
    exact rankedEstimate_antitone hs (hmodel.1 ▸ hps.bits_lt) hr fun v =>
      JobSizeProfile.admits_antitone hmodel.2.ascending z.statistics hab
  | byCostRatio ranking profile =>
    rw [hm] at hmodel
    exact rankedEstimate_antitone hs (hmodel.1 ▸ hps.bits_lt) hr fun v =>
      RatioProfile.admits_antitone hmodel.2.ascending z.statistics hab

theorem goodput_antitone_twoPackets :
    ∃ z, Analysis.exact twoPackets .wsjf ⟨number 1000, 8192⟩ = .ok z ∧
      number 0 ≤ (z.strategy ⟨number 1, number 2⟩).expectedGoodput ∧
      (z.strategy ⟨number 1, number 2⟩).expectedGoodput ≤
        (z.strategy ⟨number 1, number (1 / 2)⟩).expectedGoodput ∧
      (z.strategy ⟨number 1, number (1 / 2)⟩).expectedGoodput ≤
        Scalar.smaller (number 1) z.statistics.rMax := by
  obtain ⟨z, hz⟩ := Analysis.exact_twoPackets ⟨number 1000, 8192⟩
  exact ⟨z, hz, goodput_antitone hz (by decide +kernel) (by norm_num) (by norm_num)
    (by norm_num)⟩

end Analyzer

end Saturation
