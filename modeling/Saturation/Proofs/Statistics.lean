import Saturation.Proofs.Traffic

/-!
The statistics of traffic in exact arithmetic. As long as all bits together fit a word, the sum of
the sizes is the true one, so the average packet has at least one bit and divides.
-/

set_option autoImplicit false

namespace Saturation

section

variable {α : Type}

theorem length_le_bits {ps : List (Packet α)} (h : ∀ p ∈ ps, p.size ≠ 0) :
    ps.length ≤ bits ps := by
  induction ps with
  | nil => simp
  | cons p ps ih =>
    have hp : p.size.toNat ≠ 0 := fun h0 => h p (by simp) (UInt64.toNat_inj.mp h0)
    have := ih fun p' hp' => h p' (List.mem_cons_of_mem _ hp')
    simp only [bits, List.map_cons, List.sum_cons, List.length_cons] at this ⊢
    omega

variable [Scalar α]

/-- An accepted trace has records. -/
theorem Trace.read_nonempty {bytes : List UInt8} (h : (Trace.read bytes).2.isOk = true) :
    (Trace.read bytes).1 ≠ [] := by
  cases ho : (Trace.read bytes).2 with
  | error e => simp [ho, Except.isOk, Except.toBool] at h
  | ok summary =>
    intro hnil
    have := read_outcome ho
    rw [hnil, outcome_nil] at this
    cases this

end

/-- The job sizes of some packets. -/
def jobValues (ps : List (Packet Exact)) : List ℚ := ps.map fun p => p.jobSize.value

def longestJob (ps : List (Packet Exact)) : ℚ := (jobValues ps).foldl max 0

/-- The mean size of a packet, fraction included, and the mean job size. -/
def meanSize (ps : List (Packet Exact)) : ℚ := bits ps / ps.length

def meanJob (ps : List (Packet Exact)) : ℚ := (jobValues ps).sum / ps.length

theorem Totals.jobSum_foldl {ps : List (Packet Exact)}
    (h : ∀ p ∈ ps, p.jobSize.IsAmount) :
    ∀ (t : Totals Exact) (s : ℚ), t.jobSum = .number s →
      (ps.foldl add t).jobSum = .number (s + (jobValues ps).sum) := by
  induction ps with
  | nil => simp [jobValues]
  | cons p ps ih =>
    intro t s ht
    obtain ⟨q, -, hq⟩ := h p (by simp)
    have hp : (t.add p).jobSum = .number (s + q) := by
      show t.jobSum + p.jobSize = _
      rw [ht, hq, Exact.number_add]
    rw [List.foldl_cons, ih (fun p' hp' => h p' (List.mem_cons_of_mem _ hp')) _ _ hp]
    simp [jobValues, hq, add_assoc]

theorem Totals.jobMax_foldl {ps : List (Packet Exact)}
    (h : ∀ p ∈ ps, p.jobSize.IsAmount) :
    ∀ (t : Totals Exact) (m : ℚ), t.jobMax = .number m →
      (ps.foldl add t).jobMax = .number ((jobValues ps).foldl max m) := by
  induction ps with
  | nil => simp [jobValues]
  | cons p ps ih =>
    intro t m ht
    obtain ⟨q, -, hq⟩ := h p (by simp)
    have hp : (t.add p).jobMax = .number (max m q) := by
      show Scalar.larger t.jobMax p.jobSize = _
      rw [ht, hq, Exact.larger_number]
    rw [List.foldl_cons, ih (fun p' hp' => h p' (List.mem_cons_of_mem _ hp')) _ _ hp]
    simp [jobValues, hq]

theorem le_foldl_max {l : List ℚ} : ∀ {m q : ℚ}, q ∈ l ∨ q ≤ m → q ≤ l.foldl max m := by
  induction l with
  | nil => simp
  | cons x l ih =>
    intro m q h
    rw [List.foldl_cons]
    apply ih
    rcases h with h | h
    · rcases List.mem_cons.mp h with rfl | h
      · exact .inr (le_max_right m q)
      · exact .inl h
    · exact .inr (le_max_of_le_left h)

theorem longestJob_nonneg (ps : List (Packet Exact)) : 0 ≤ longestJob ps := le_foldl_max (.inr le_rfl)

theorem jobSize_le_longestJob {ps : List (Packet Exact)} {p : Packet Exact} (hp : p ∈ ps) {q : ℚ}
    (hq : p.jobSize = Exact.number q) : q ≤ longestJob ps := by
  refine le_foldl_max (.inl (List.mem_map.mpr ⟨p, hp, ?_⟩))
  rw [hq, Exact.value_number]

namespace Traffic

variable {ps : List (Packet Exact)}

theorem length_pos (h : Traffic ps) : 0 < ps.length := List.length_pos_iff.mpr h.nonempty

theorem length_le_bits (h : Traffic ps) : ps.length ≤ bits ps :=
  Saturation.length_le_bits h.size_ne_zero

theorem jobValues_nonneg (h : Traffic ps) : ∀ q ∈ jobValues ps, 0 ≤ q := by
  intro q hq
  obtain ⟨p, hp, rfl⟩ := List.mem_map.mp hq
  obtain ⟨q, hq, hj⟩ := h.jobSize_isAmount p hp
  rwa [hj]

theorem meanJob_nonneg (h : Traffic ps) : 0 ≤ meanJob ps :=
  div_nonneg (List.sum_nonneg h.jobValues_nonneg) (Nat.cast_nonneg _)

theorem meanSize_ge_one (h : Traffic ps) : 1 ≤ meanSize ps := by
  have hl : (0 : ℚ) < ps.length := Nat.cast_pos.mpr h.length_pos
  rw [meanSize, le_div_iff₀ hl, one_mul]
  exact_mod_cast h.length_le_bits

theorem truncate_meanSize (h : Traffic ps) :
    (Scalar.truncate (Exact.number (meanSize ps))).toNat = bits ps / ps.length :=
  Exact.truncate_natCast_div h.bits_lt

/-- What the statistics of traffic are, in exact arithmetic. -/
theorem statistics (h : Traffic ps) {stats : Statistics Exact}
    (hs : Statistics.ofPackets ps = .ok stats) :
    stats.totalPackets = ps.length ∧ stats.averagePacketSize.toNat = bits ps / ps.length ∧
      stats.averageJobSize = .number (meanJob ps) ∧
      stats.maximumJobSize = .number (longestJob ps) ∧
      stats.rMax = .number (meanSize ps) / .number (meanJob ps) := by
  have hc := Totals.count_sum ps
  have hsize := Totals.toNat_sizeSum h.bits_lt
  have hsum : (Totals.sum ps).jobSum = .number (jobValues ps).sum := by
    have := Totals.jobSum_foldl h.jobSize_isAmount Totals.empty 0 rfl
    rwa [zero_add] at this
  have hmax : (Totals.sum ps).jobMax = .number (longestJob ps) :=
    Totals.jobMax_foldl h.jobSize_isAmount Totals.empty 0 rfl
  have hl : (ps.length : ℚ) ≠ 0 := Nat.cast_ne_zero.mpr h.length_pos.ne'
  rw [Statistics.ofPackets_of_lt h.bits_lt, Totals.statistics] at hs
  rw [hc, if_neg h.length_pos.ne', hsum, hmax] at hs
  simp only [Exact.ofWord_eq, Exact.ofNat_eq, hsize, Exact.number_div _ hl] at hs
  cases hs
  exact ⟨rfl, h.truncate_meanSize, rfl, rfl, rfl⟩

end Traffic

end Saturation
