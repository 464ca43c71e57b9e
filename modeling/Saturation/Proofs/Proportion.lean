import Saturation.Proofs.Collectors
import Saturation.Proofs.Flows

/-!
Traffic that has all packets of other traffic equally often, in any order. Sums over it grow by this
factor, so its averages are the same, and so are the job sizes that occur and the averages of flows.
-/

set_option autoImplicit false

namespace Saturation

open Exact (number)

/-- A list with all entries of another one, `m` times each. -/
structure Repeats {β : Type} (m : Nat) (xs ys : List β) : Prop where
  pos : 0 < m
  perm : ys.Perm (List.replicate m xs).flatten

namespace Repeats

variable {β γ : Type} {m : Nat} {xs ys : List β}

theorem map (h : Repeats m xs ys) (f : β → γ) : Repeats m (xs.map f) (ys.map f) := by
  refine ⟨h.pos, ?_⟩
  have := h.perm.map f
  rwa [List.map_flatten, List.map_replicate] at this

theorem filter (h : Repeats m xs ys) (p : β → Bool) : Repeats m (xs.filter p) (ys.filter p) := by
  refine ⟨h.pos, ?_⟩
  have := h.perm.filter p
  rwa [List.filter_flatten, List.map_replicate] at this

theorem of_perm (h : Repeats m xs ys) {xs' ys' : List β} (hx : xs'.Perm xs) (hy : ys'.Perm ys) :
    Repeats m xs' ys' := by
  refine ⟨h.pos, hy.trans (h.perm.trans (List.Perm.flatten_congr ?_))⟩
  rw [List.forall₂_iff_get]
  exact ⟨by simp, fun i _ _ => by simpa using hx.symm⟩

theorem mem_iff (h : Repeats m xs ys) {x : β} : x ∈ ys ↔ x ∈ xs := by
  rw [h.perm.mem_iff, List.mem_flatten]
  constructor
  · rintro ⟨zs, hzs, hx⟩
    rwa [List.eq_of_mem_replicate hzs] at hx
  · exact fun hx => ⟨xs, List.mem_replicate.mpr ⟨h.pos.ne', rfl⟩, hx⟩

theorem eq_nil_iff (h : Repeats m xs ys) : ys = [] ↔ xs = [] := by
  simp only [List.eq_nil_iff_forall_not_mem, h.mem_iff]

theorem sum_eq [AddCommMonoid γ] {xs ys : List γ} (h : Repeats m xs ys) :
    ys.sum = m • xs.sum := by
  rw [h.perm.sum_eq, List.sum_flatten, List.map_replicate, List.sum_replicate]

theorem length_eq (h : Repeats m xs ys) : ys.length = m * xs.length := by
  rw [h.perm.length_eq, List.length_flatten, List.map_replicate, List.sum_replicate, smul_eq_mul]

end Repeats

section

variable {m : Nat} {ps qs : List (Packet Exact)}

theorem Repeats.bits_eq {α : Type} {ps qs : List (Packet α)} (h : Repeats m ps qs) :
    bits qs = m * bits ps :=
  (h.map fun p => p.size.toNat).sum_eq

theorem Repeats.bits_le {α : Type} {ps qs : List (Packet α)} (h : Repeats m ps qs) :
    bits ps ≤ bits qs := by
  rw [h.bits_eq]
  exact Nat.le_mul_of_pos_left _ h.pos

theorem Repeats.traffic (h : Repeats m ps qs) (hq : Traffic qs) : Traffic ps where
  nonempty := mt h.eq_nil_iff.mpr hq.nonempty
  size_ne_zero p hp := hq.size_ne_zero p (h.mem_iff.mpr hp)
  jobSize_isAmount p hp := hq.jobSize_isAmount p (h.mem_iff.mpr hp)
  bits_lt := h.bits_le.trans_lt hq.bits_lt

/-! ### Statistics -/

theorem Repeats.jobSum_eq (h : Repeats m ps qs) :
    (jobValues qs).sum = m * (jobValues ps).sum := by
  rw [jobValues, (h.map _).sum_eq, nsmul_eq_mul]
  rfl

theorem Repeats.longestJob_le {ps qs : List (Packet Exact)} (h : ∀ p ∈ ps, p ∈ qs) :
    longestJob ps ≤ longestJob qs := by
  have hjobs : ∀ q ∈ jobValues ps, q ≤ longestJob qs := by
    intro q hq
    obtain ⟨p, hp, rfl⟩ := List.mem_map.mp hq
    exact le_foldl_max (.inl (List.mem_map.mpr ⟨p, h p hp, rfl⟩))
  have hfold : ∀ (l : List ℚ) (b : ℚ), b ≤ longestJob qs → (∀ q ∈ l, q ≤ longestJob qs) →
      l.foldl max b ≤ longestJob qs := by
    intro l
    induction l with
    | nil => exact fun _ hb _ => hb
    | cons q l ih =>
      intro b hb hl
      rw [List.forall_mem_cons] at hl
      exact ih _ (max_le hb hl.1) hl.2
  exact hfold _ 0 (longestJob_nonneg qs) hjobs

theorem Repeats.longestJob_eq (h : Repeats m ps qs) : longestJob qs = longestJob ps :=
  le_antisymm (longestJob_le fun _ hp => h.mem_iff.mp hp) (longestJob_le fun _ hp => h.mem_iff.mpr hp)

/-- Statistics of traffic and of the same traffic `m` times, as far as attacks depend on them. -/
structure Statistics.IsMultiple (m : Nat) (s s' : Statistics Exact) : Prop where
  pos : 0 < m
  totalPackets : s'.totalPackets = m * s.totalPackets
  averagePacketSize : s'.averagePacketSize = s.averagePacketSize
  averageJobSize : s'.averageJobSize = s.averageJobSize
  maximumJobSize : s'.maximumJobSize = s.maximumJobSize
  rMax : s'.rMax = s.rMax

theorem Repeats.statistics (h : Repeats m ps qs) (hq : Traffic qs) {s s' : Statistics Exact}
    (hs : Statistics.ofPackets ps = .ok s)
    (hs' : Statistics.ofPackets qs = .ok s') : Statistics.IsMultiple m s s' := by
  obtain ⟨htotal, hsize, hjob, hmax, hr⟩ := (h.traffic hq).statistics hs
  obtain ⟨htotal', hsize', hjob', hmax', hr'⟩ := hq.statistics hs'
  have hm : (m : ℚ) ≠ 0 := Nat.cast_ne_zero.mpr h.pos.ne'
  have hmeanSize : meanSize qs = meanSize ps := by
    rw [meanSize, h.bits_eq, h.length_eq, Nat.cast_mul, Nat.cast_mul, mul_div_mul_left _ _ hm]
    rfl
  have hmeanJob : meanJob qs = meanJob ps := by
    rw [meanJob, h.jobSum_eq, h.length_eq, Nat.cast_mul, mul_div_mul_left _ _ hm]
    rfl
  refine ⟨h.pos, ?_, ?_, ?_, ?_, ?_⟩
  · rw [htotal', htotal, h.length_eq]
  · rw [← UInt64.toNat_inj, hsize', hsize, h.bits_eq, h.length_eq, Nat.mul_div_mul_left _ _ h.pos]
  · rw [hjob', hjob, hmeanJob]
  · rw [hmax', hmax, h.longestJob_eq]
  · rw [hr', hr, hmeanSize, hmeanJob]

end

/-! ### Job sizes -/

theorem foldl_count {β : Type} (xs : List β) (n : Nat) :
    xs.foldl (fun n _ => n + 1) n = n + xs.length := by
  induction xs generalizing n with
  | nil => rfl
  | cons x xs ih =>
    rw [List.foldl_cons, ih, List.length_cons]
    omega

/-- Each job size occurs `m` times as often. -/
theorem Repeats.histogram {m : Nat} {keys keys' : List Nat} (h : Repeats m keys keys') :
    Histogram.ofKeys keys' = (Histogram.ofKeys keys).map fun s => (s.1, m * s.2) := by
  rw [Histogram.ofKeys_eq_gather, Histogram.ofKeys_eq_gather]
  refine Keyed.gather_eq_map _ _ _ (fun k => (h.filter _).eq_nil_iff) fun k _ => ?_
  rw [foldl_count, foldl_count, (h.filter _).length_eq, Nat.zero_add, Nat.zero_add]

/-! ### Flows -/

namespace Flow

/-- A flow whose packets all come `m` times. -/
def repeated (m : Nat) (f : Flow Exact) : Flow Exact where
  packets := m * f.packets
  size := (m * f.size.toNat).toUInt64
  jobTotal := .given (number (m * f.jobTotal.value.value))

/-- A flow with bits, whose bits `m` times fit a word, and whose jobs sum to a number. -/
structure IsRepeatable (m : Nat) (f : Flow Exact) : Prop where
  packets_pos : 0 < f.packets
  size_pos : 0 < f.size.toNat
  size_lt : m * f.size.toNat < 2 ^ 64
  jobTotal_eq : ∃ q, 0 ≤ q ∧ f.jobTotal = .given (number q)

theorem packets_foldl {α : Type} [Scalar α] (ps : List (Packet α)) (f : Flow α) :
    (ps.foldl add f).packets = f.packets + ps.length := by
  induction ps generalizing f with
  | nil => rfl
  | cons p ps ih =>
    rw [List.foldl_cons, ih, List.length_cons]
    show f.packets + 1 + ps.length = _
    omega

theorem size_foldl {α : Type} [Scalar α] (ps : List (Packet α)) (f : Flow α)
    (h : f.size.toNat + bits ps < 2 ^ 64) :
    (ps.foldl add f).size.toNat = f.size.toNat + bits ps := by
  induction ps generalizing f with
  | nil => simp [bits]
  | cons p ps ih =>
    simp only [bits, List.map_cons, List.sum_cons] at h ih ⊢
    have hp : (f.add p).size.toNat = f.size.toNat + p.size.toNat := by
      show (f.size + p.size).toNat = _
      rw [UInt64.toNat_add, Nat.mod_eq_of_lt (by omega)]
    rw [List.foldl_cons, ih _ (by rw [hp]; omega), hp]
    omega

theorem jobTotal_foldl {ps : List (Packet Exact)} (h : ∀ p ∈ ps, p.jobSize.IsAmount)
    (f : Flow Exact) {s : ℚ} (hf : f.jobTotal = .given (number s)) :
    (ps.foldl add f).jobTotal = .given (number (s + (jobValues ps).sum)) := by
  induction ps generalizing f s with
  | nil => simpa [jobValues] using hf
  | cons p ps ih =>
    rw [List.forall_mem_cons] at h
    obtain ⟨⟨q, -, hq⟩, h⟩ := h
    have hp : (f.add p).jobTotal = .given (number (s + q)) := by
      show f.jobTotal.add p.jobSize = _
      rw [hf, hq, Computed.add_number]
    rw [List.foldl_cons, ih h _ hp]
    simp [jobValues, hq, add_assoc]

/-- What some packets add up to. -/
theorem ofPackets_eq {ps : List (Packet Exact)} (h : ∀ p ∈ ps, p.jobSize.IsAmount)
    (hbits : bits ps < 2 ^ 64) :
    ps.foldl add empty =
      ⟨ps.length, (bits ps).toUInt64, .given (number (jobValues ps).sum)⟩ := by
  have hsize : (ps.foldl add (empty : Flow Exact)).size = (bits ps).toUInt64 := by
    have h0 : (empty : Flow Exact).size.toNat = 0 := rfl
    have := size_foldl ps (empty : Flow Exact) (by rwa [h0, Nat.zero_add])
    rw [h0, Nat.zero_add] at this
    rw [← UInt64.toNat_inj, this]
    exact (UInt64.toNat_ofNat_of_lt' hbits).symm
  have hpackets := packets_foldl ps (empty : Flow Exact)
  have hjob := jobTotal_foldl h empty jobTotal_empty
  rw [zero_add] at hjob
  generalize ps.foldl add empty = f at *
  obtain ⟨packets, size, jobTotal⟩ := f
  simp only at hsize hpackets hjob
  rw [hsize, hpackets, hjob]
  simp [empty]

variable {m : Nat} {f : Flow Exact}

theorem IsRepeatable.toNat_size (h : f.IsRepeatable m) :
    (f.repeated m).size.toNat = m * f.size.toNat :=
  UInt64.toNat_ofNat_of_lt' h.size_lt

/-- A flow's averages do not depend on how often its packets come. -/
theorem IsRepeatable.ranks (h : f.IsRepeatable m) (hm : 0 < m) :
    (f.repeated m).jobRank = f.jobRank ∧ (f.repeated m).costRank = f.costRank := by
  obtain ⟨q, -, hq⟩ := h.jobTotal_eq
  have hm0 : (m : ℚ) ≠ 0 := Nat.cast_ne_zero.mpr hm.ne'
  have hp : (f.packets : ℚ) ≠ 0 := Nat.cast_ne_zero.mpr h.packets_pos.ne'
  have hs : (f.size.toNat : ℚ) ≠ 0 := Nat.cast_ne_zero.mpr h.size_pos.ne'
  have hjob : (f.repeated m).jobTotal = .given (number (m * q)) := by
    rw [repeated, hq]
    rfl
  constructor
  · rw [jobRank, jobRank, hjob, hq, Exact.ofNat_eq, Exact.ofNat_eq]
    show (Computed.given (number (m * q))).divide (number ((m * f.packets : Nat) : ℚ)) = _
    rw [Nat.cast_mul, Computed.divide_number _ (mul_ne_zero hm0 hp), Computed.divide_number _ hp,
      mul_div_mul_left _ _ hm0]
  · rw [costRank, costRank, hjob, hq, Exact.ofWord_eq, Exact.ofWord_eq, h.toNat_size, Nat.cast_mul,
      Computed.divide_number _ (mul_ne_zero hm0 hs), Computed.divide_number _ hs,
      mul_div_mul_left _ _ hm0]

end Flow

section

variable {m : Nat} {ps qs : List (Packet Exact)}

theorem bits_filter_le {α : Type} (c : Packet α → Bool) (ps : List (Packet α)) :
    bits (ps.filter c) ≤ bits ps :=
  ((List.filter_sublist.map _).sum_le_sum fun _ _ => Nat.zero_le _)

theorem Repeats.isRepeatable (h : Repeats m ps qs) (hq : Traffic qs) :
    ∀ s ∈ FlowTable.ofPackets ps, s.2.IsRepeatable m := by
  intro s hs
  rw [FlowTable.ofPackets_eq_gather] at hs
  obtain ⟨hne, hs⟩ := Keyed.mem_gather _ _ _ hs
  have hp := h.traffic hq
  have hjobs : ∀ p ∈ ps.filter fun p => p.flow = s.1, p.jobSize.IsAmount :=
    fun p hp' => hp.jobSize_isAmount p (List.mem_of_mem_filter hp')
  have hbits := (bits_filter_le (fun p => p.flow = s.1) ps).trans_lt hp.bits_lt
  have hpos : (ps.filter fun p => p.flow = s.1).length ≤ bits (ps.filter fun p => p.flow = s.1) :=
    length_le_bits fun p hp' => hp.size_ne_zero p (List.mem_of_mem_filter hp')
  have hlength := List.length_pos_iff.mpr hne
  have hscaled := (bits_filter_le (fun p => p.flow = s.1) qs).trans_lt hq.bits_lt
  rw [(h.filter _).bits_eq] at hscaled
  rw [Flow.ofPackets_eq hjobs hbits] at hs
  rw [hs]
  have hsize := UInt64.toNat_ofNat_of_lt' hbits
  refine ⟨hlength, ?_, ?_, (jobValues (ps.filter fun p => p.flow = s.1)).sum, ?_, rfl⟩
  · exact (hlength.trans_le hpos).trans_eq hsize.symm
  · rwa [← hsize] at hscaled
  · refine List.sum_nonneg fun q hq' => ?_
    obtain ⟨p, hp', rfl⟩ := List.mem_map.mp hq'
    obtain ⟨q, hq0, hj⟩ := hjobs p hp'
    rwa [hj]

/-- The flows are the same ones, with all their packets `m` times. -/
theorem Repeats.flows (h : Repeats m ps qs) (hq : Traffic qs) :
    FlowTable.ofPackets qs = (FlowTable.ofPackets ps).map fun s => (s.1, s.2.repeated m) := by
  have hp := h.traffic hq
  rw [FlowTable.ofPackets_eq_gather, FlowTable.ofPackets_eq_gather]
  refine Keyed.gather_eq_map _ _ _ (fun k => (h.filter _).eq_nil_iff) fun k _ => ?_
  have hbits := (bits_filter_le (fun p => p.flow = k) ps).trans_lt hp.bits_lt
  rw [Flow.ofPackets_eq (fun p hp' => hq.jobSize_isAmount p (List.mem_of_mem_filter hp'))
      ((bits_filter_le _ qs).trans_lt hq.bits_lt),
    Flow.ofPackets_eq (fun p hp' => hp.jobSize_isAmount p (List.mem_of_mem_filter hp')) hbits,
    (h.filter _).length_eq, (h.filter _).bits_eq, (h.filter _).jobSum_eq]
  have hsize : ((bits (ps.filter fun p => p.flow = k)).toUInt64).toNat =
      bits (ps.filter fun p => p.flow = k) := UInt64.toNat_ofNat_of_lt' hbits
  rw [Flow.repeated, hsize]
  rfl

/-- Flows that are ranked by an average are in the same order. -/
theorem Repeats.sortedBy (h : Repeats m ps qs) (hq : Traffic qs)
    {rank : Flow Exact → Computed Exact}
    (hrank : ∀ f, f.IsRepeatable m → rank (f.repeated m) = rank f) :
    (FlowTable.ofPackets qs).sortedBy rank =
      ((FlowTable.ofPackets ps).sortedBy rank).map (Flow.repeated m) := by
  have hflows : (FlowTable.ofPackets qs).map Prod.snd =
      ((FlowTable.ofPackets ps).map Prod.snd).map (Flow.repeated m) := by
    rw [h.flows hq, List.map_map, List.map_map]
    rfl
  have heq : ∀ f ∈ (FlowTable.ofPackets ps).map Prod.snd, rank (f.repeated m) = rank f := by
    intro f hf
    obtain ⟨s, hs, rfl⟩ := List.mem_map.mp hf
    exact hrank _ (h.isRepeatable hq s hs)
  rw [FlowTable.sortedBy, FlowTable.sortedBy, hflows]
  refine (List.map_mergeSort fun f hf g hg => ?_).symm
  rw [heq f hf, heq g hg]

end

end Saturation
