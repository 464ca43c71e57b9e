import Saturation.Analyzer
import Saturation.Proofs.Statistics

/-!
What is ranked: packets, or flows of packets. Recording packets in a flow table and sorting lose no
bits, and in exact arithmetic the sums and averages of flows are numbers, so flows that are sorted
by their averages are in the order of these numbers.
-/

set_option autoImplicit false

namespace Saturation

section

variable {α : Type}

/-- The size of all flows, in bits. -/
def FlowTable.bits (t : FlowTable α) : Nat := (t.map fun f => f.2.size.toNat).sum

/-- The size of all that is ranked, in bits. -/
def Ranking.bits (r : Ranking α) : Nat := (r.map fun item => item.2.toNat).sum

theorem bits_perm {ps qs : List (Packet α)} (h : ps.Perm qs) : bits ps = bits qs :=
  (h.map _).sum_nat

variable [Scalar α]

theorem Flow.size_empty_add (p : Packet α) : (Flow.empty.add p).size = p.size := by
  show (0 : UInt64) + p.size = p.size
  rw [UInt64.zero_add]

theorem FlowTable.bits_record (p : Packet α) (t : FlowTable α)
    (h : p.size.toNat + t.bits < 2 ^ 64) : (record p t).bits = p.size.toNat + t.bits := by
  induction t with
  | nil => simp [record, bits, Flow.size_empty_add]
  | cons f rest ih =>
    obtain ⟨name, f⟩ := f
    simp only [bits, List.map_cons, List.sum_cons] at h ih
    unfold record
    split
    · simp [bits, Flow.size_empty_add]
    · split
      · have hf : (f.add p).size.toNat = f.size.toNat + p.size.toNat := by
          show (f.size + p.size).toNat = _
          rw [UInt64.toNat_add, Nat.mod_eq_of_lt (by omega)]
        simp only [bits, List.map_cons, List.sum_cons, hf]
        omega
      · simp only [bits, List.map_cons, List.sum_cons, ih (by omega)]
        omega

theorem FlowTable.bits_foldl (ps : List (Packet α)) :
    ∀ t : FlowTable α, Saturation.bits ps + t.bits < 2 ^ 64 →
      (ps.foldl (fun t p => record p t) t).bits = Saturation.bits ps + t.bits := by
  induction ps with
  | nil => simp [Saturation.bits]
  | cons p ps ih =>
    intro t h
    simp only [Saturation.bits, List.map_cons, List.sum_cons] at h ih ⊢
    have hp := bits_record p t (by omega)
    rw [List.foldl_cons, ih _ (by omega), hp]
    omega

theorem FlowTable.bits_ofPackets {ps : List (Packet α)} (h : Saturation.bits ps < 2 ^ 64) :
    (ofPackets ps).bits = Saturation.bits ps := by
  simpa [ofPackets, bits] using bits_foldl ps [] (by simpa [bits] using h)

theorem FlowTable.record_forall {P : Flow α → Prop} {p : Packet α}
    (hnew : P (Flow.empty.add p)) (hadd : ∀ f, P f → P (f.add p)) (t : FlowTable α)
    (h : ∀ f ∈ t, P f.2) : ∀ f ∈ record p t, P f.2 := by
  induction t with
  | nil => simpa [record] using hnew
  | cons f rest ih =>
    obtain ⟨name, f⟩ := f
    simp only [List.forall_mem_cons] at h
    unfold record
    split
    · simpa only [List.forall_mem_cons] using ⟨hnew, h⟩
    · split
      · simpa only [List.forall_mem_cons] using ⟨hadd f h.1, h.2⟩
      · simpa only [List.forall_mem_cons] using ⟨h.1, ih h.2⟩

/-- An invariant of flows holds of all flows of a table. -/
theorem FlowTable.ofPackets_forall {P : Flow α → Prop} {ps : List (Packet α)}
    (hnew : ∀ p ∈ ps, P (Flow.empty.add p)) (hadd : ∀ p ∈ ps, ∀ f, P f → P (f.add p)) :
    ∀ f ∈ ofPackets ps, P f.2 := by
  have h : ∀ (qs : List (Packet α)), (∀ p ∈ qs, p ∈ ps) → ∀ t : FlowTable α, (∀ f ∈ t, P f.2) →
      ∀ f ∈ qs.foldl (fun t p => record p t) t, P f.2 := by
    intro qs
    induction qs with
    | nil => exact fun _ _ ht => ht
    | cons p qs ih =>
      intro hq t ht
      have hp := hq p (by simp)
      exact ih (fun p' hp' => hq p' (List.mem_cons_of_mem _ hp')) _
        (record_forall (hnew p hp) (hadd p hp) t ht)
  exact h ps (fun _ hp => hp) [] (by simp)

theorem FlowTable.ofPackets_length_pos {ps : List (Packet α)} (h : ps ≠ []) :
    0 < (ofPackets ps).length := by
  have hrecord : ∀ (p : Packet α) (t : FlowTable α), 0 < (record p t).length := by
    intro p t
    cases t with
    | nil => exact Nat.one_pos
    | cons f rest =>
      obtain ⟨name, f⟩ := f
      unfold record
      split
      · simp
      · split <;> simp
  have hfold : ∀ (qs : List (Packet α)) (t : FlowTable α), 0 < t.length →
      0 < (qs.foldl (fun t p => record p t) t).length := by
    intro qs
    induction qs with
    | nil => exact fun _ ht => ht
    | cons q qs ih => exact fun t _ => ih _ (hrecord q t)
  cases ps with
  | nil => exact absurd rfl h
  | cons p ps => exact hfold ps _ (hrecord p [])

theorem FlowTable.sortedBy_perm (key : Flow α → Computed α) (t : FlowTable α) :
    (t.sortedBy key).Perm (t.map Prod.snd) := List.mergeSort_perm _ _

theorem Model.sortedBy_perm (key : Packet α → Computed α) (ps : List (Packet α)) :
    (sortedBy key ps).Perm ps := List.mergeSort_perm _ _

theorem Model.bits_packets (key : Packet α → Computed α) (value : Packet α → α)
    (ps : List (Packet α)) :
    Ranking.bits ((sortedBy key ps).map fun p => (value p, p.size)) = bits ps := by
  rw [← bits_perm (sortedBy_perm key ps)]
  simp [Ranking.bits, bits, Function.comp_def]

theorem Model.bits_flows (key : Flow α → Computed α) (value : Flow α → α) (t : FlowTable α) :
    Ranking.bits ((t.sortedBy key).map fun f => (value f, f.size)) = t.bits := by
  have h := ((FlowTable.sortedBy_perm key t).map fun f => f.size.toNat).sum_nat
  simpa [Ranking.bits, FlowTable.bits, Function.comp_def] using h

end

namespace Computed

section

variable {α : Type} [Scalar α] [Scalar.IsOrdered α]

theorem precedes_total (x y : Computed α) : (x.precedes y || y.precedes x) = true := by
  unfold precedes
  by_cases h : x.undefined = y.undefined
  · rw [if_pos h, if_pos h.symm]
    exact Scalar.IsOrdered.precedes_total _ _
  · rw [if_neg h, if_neg (Ne.symm h)]
    cases hx : x.undefined <;> cases hy : y.undefined <;> simp_all

theorem precedes_trans (x y z : Computed α) (hxy : x.precedes y = true)
    (hyz : y.precedes z = true) : x.precedes z = true := by
  unfold precedes at *
  cases hx : x.undefined <;> cases hy : y.undefined <;> cases hz : z.undefined <;>
    simp_all <;> exact Scalar.IsOrdered.precedes_trans hxy hyz

/-- Not negative, or undefined and in front of all that is not. -/
def IsRanked (c : Computed α) : Prop :=
  c.undefined = false ∧ Scalar.IsNonneg c.value ∨
    c.undefined = true ∧ Scalar.isNumber c.value = false

theorem isRanked_divide {c : Computed α} (hc : c.undefined = false)
    (hvalue : Scalar.IsNonneg c.value) (n : Nat) : (c.divide (Scalar.ofNat n)).IsRanked := by
  have hflag : (c.divide (Scalar.ofNat n)).undefined =
      !Scalar.isNumber (c.divide (Scalar.ofNat n)).value := by
    simp [divide, outcome, hc, hvalue.isNumber, (Scalar.isNonneg_ofNat n).isNumber]
  cases hn : Scalar.isNumber (c.divide (Scalar.ofNat n)).value with
  | true => exact .inl ⟨by rw [hflag, hn]; rfl, Scalar.IsOrdered.isNonneg_div hvalue hn⟩
  | false => exact .inr ⟨by rw [hflag, hn]; rfl, hn⟩

/-- What is ranked has ascending keys, if what is undefined has the least one. -/
theorem IsRanked.key_le {c d : Computed α} (hc : c.IsRanked) (hd : d.IsRanked)
    (h : c.precedes d = true) {key : α → Nat}
    (hmono : ∀ {a b : α}, Scalar.IsNonneg a → Scalar.atMost a b = true → key a ≤ key b)
    (hleast : ∀ {a : α}, Scalar.isNumber a = false → key a = 0) : key c.value ≤ key d.value := by
  unfold precedes at h
  rcases hc with ⟨hu, ha⟩ | ⟨-, hn⟩
  · rcases hd with ⟨hv, hb⟩ | ⟨hv, -⟩
    · rw [if_pos (hu.trans hv.symm)] at h
      exact hmono ha (Scalar.IsOrdered.atMost_of_precedes ha hb h)
    · rw [if_neg (by rw [hu, hv]; simp), hu] at h
      exact absurd h Bool.false_ne_true
  · rw [hleast hn]
    exact Nat.zero_le _

theorem mergeSort_pairwise {β : Type} (key : β → Computed α) (items : List β) :
    (items.mergeSort fun x y => (key x).precedes (key y)).Pairwise
      fun x y => (key x).precedes (key y) = true :=
  List.pairwise_mergeSort (fun x y z => precedes_trans (key x) (key y) (key z))
    (fun x y => precedes_total (key x) (key y)) items

end

variable {a b : ℚ}

theorem isNumber_number (a : ℚ) : Scalar.isNumber (Exact.number a) = true :=
  decide_eq_true le_rfl

theorem add_number (a b : ℚ) :
    (given (Exact.number a)).add (.number b) = given (Exact.number (a + b)) := by
  simp [given, add, outcome, isNumber_number]

theorem divide_number (a : ℚ) (hb : b ≠ 0) :
    (given (Exact.number a)).divide (.number b) = given (Exact.number (a / b)) := by
  simp [given, divide, outcome, isNumber_number, Exact.number_div a hb]

end Computed

/-- What packets with jobs of at most `l` add up to: a number of packets that is not 0, and a sum of
job sizes that is a number, not negative, and at most `l` for each packet. -/
structure Flow.IsSum (l : ℚ) (f : Flow Exact) : Prop where
  packets_pos : 0 < f.packets
  jobTotal_eq : ∃ q, 0 ≤ q ∧ q ≤ f.packets * l ∧ f.jobTotal = .given (.number q)

theorem Flow.jobTotal_empty : (empty : Flow Exact).jobTotal = .given (.number 0) := by
  show Computed.given (Exact.number ((0 : Nat) : ℚ)) = _
  rw [Nat.cast_zero]

theorem Flow.IsSum.add {l : ℚ} {f : Flow Exact} {p : Packet Exact} {s q : ℚ} (hs : 0 ≤ s)
    (hsl : s ≤ f.packets * l) (hf : f.jobTotal = .given (.number s)) (hq : 0 ≤ q) (hql : q ≤ l)
    (hp : p.jobSize = .number q) : (f.add p).IsSum l := by
  refine ⟨Nat.succ_pos _, s + q, add_nonneg hs hq, ?_, ?_⟩
  · show s + q ≤ ((f.packets + 1 : Nat) : ℚ) * l
    push_cast
    linarith
  · show f.jobTotal.add p.jobSize = _
    rw [hf, hp, Computed.add_number]

theorem FlowTable.isSum {ps : List (Packet Exact)} (h : ∀ p ∈ ps, p.jobSize.IsAmount) :
    ∀ f ∈ ofPackets ps, f.2.IsSum (longestJob ps) := by
  apply ofPackets_forall
  · intro p hp
    obtain ⟨q, hq, hj⟩ := h p hp
    exact .add le_rfl (by simp [Flow.empty]) Flow.jobTotal_empty hq
      (jobSize_le_longestJob hp hj) hj
  · intro p hp f hf
    obtain ⟨q, hq, hj⟩ := h p hp
    obtain ⟨s, hs, hsl, hf'⟩ := hf.jobTotal_eq
    exact .add hs hsl hf' hq (jobSize_le_longestJob hp hj) hj

namespace Flow.IsSum

variable {l : ℚ} {f : Flow Exact}

theorem jobSize (h : f.IsSum l) : f.jobSize.IsAmount := by
  obtain ⟨q, hq, -, hf⟩ := h.jobTotal_eq
  refine ⟨q, hq, ?_⟩
  rw [Flow.jobSize, hf]
  rfl

theorem jobRank (h : f.IsSum l) : ∃ q, 0 ≤ q ∧ q ≤ l ∧ f.jobRank = .given (.number q) := by
  obtain ⟨q, hq, hql, hf⟩ := h.jobTotal_eq
  have hp : (0 : ℚ) < f.packets := Nat.cast_pos.mpr h.packets_pos
  refine ⟨q / f.packets, by positivity, ?_, ?_⟩
  · rw [div_le_iff₀ hp, mul_comm]
    exact hql
  · rw [Flow.jobRank, hf, Exact.ofNat_eq, Computed.divide_number q hp.ne']

theorem averageJobSize (h : f.IsSum l) : ∃ q, 0 ≤ q ∧ q ≤ l ∧ f.averageJobSize = .number q := by
  obtain ⟨q, hq, hql, hf⟩ := h.jobRank
  refine ⟨q, hq, hql, ?_⟩
  rw [Flow.averageJobSize, hf]
  rfl

end Flow.IsSum

theorem Model.jobSizeKey_number (q : ℚ) :
    jobSizeKey (Exact.number q) = min ⌊q⌋.toNat 0xFFFFFFFFFFFFFFFF := Exact.toNat_truncate q

theorem Model.jobSizeKey_le {q : ℚ} (hq : 0 ≤ q) : (jobSizeKey (Exact.number q) : ℚ) ≤ q := by
  rw [jobSizeKey_number]
  calc ((min ⌊q⌋.toNat 0xFFFFFFFFFFFFFFFF : Nat) : ℚ) ≤ (⌊q⌋.toNat : ℚ) :=
        Nat.cast_le.mpr (Nat.min_le_left _ _)
    _ = ((⌊q⌋ : ℤ) : ℚ) := by
        rw [← Int.cast_natCast, Int.toNat_of_nonneg (Int.floor_nonneg.mpr hq)]
    _ ≤ q := Int.floor_le q

section

variable {α : Type} [Scalar α]

theorem FlowTable.mem_sortedBy {key : Flow α → Computed α} {t : FlowTable α} {f : Flow α}
    (h : f ∈ t.sortedBy key) : ∃ name, (name, f) ∈ t := by
  have hf := (sortedBy_perm key t).mem_iff.mp h
  simpa using hf

variable [Scalar.IsOrdered α]

theorem FlowTable.sortedBy_pairwise (key : Flow α → Computed α) (t : FlowTable α) :
    (t.sortedBy key).Pairwise fun f g => (key f).precedes (key g) = true :=
  Computed.mergeSort_pairwise key (t.map Prod.snd)

/-- The jobs of a flow were summed without leaving the numbers. -/
structure Flow.IsSound (f : Flow α) : Prop where
  isNonneg : Scalar.IsNonneg f.jobSize
  defined : f.jobTotal.undefined = false

theorem Flow.isSound_empty : (empty : Flow α).IsSound := ⟨Scalar.isNonneg_ofNat 0, rfl⟩

theorem Flow.IsSound.add {f : Flow α} (h : f.IsSound) {p : Packet α}
    (hp : Scalar.IsNonneg p.jobSize) : (f.add p).IsSound := by
  have hsum := Scalar.IsOrdered.isNonneg_add h.isNonneg hp
  refine ⟨hsum, ?_⟩
  have hnumber : Scalar.isNumber (f.jobTotal.value + p.jobSize) = true := hsum.isNumber
  simp [Flow.add, Computed.add, Computed.outcome, h.defined, hnumber]

theorem FlowTable.isSound {ps : List (Packet α)} (h : ∀ p ∈ ps, Scalar.IsNonneg p.jobSize) :
    ∀ f ∈ ofPackets ps, f.2.IsSound :=
  ofPackets_forall (fun p hp => Flow.isSound_empty.add (h p hp)) fun p hp _ hf => hf.add (h p hp)

/-- An average is not negative, or it is undefined and in front of all others. -/
theorem Flow.IsSound.jobRank {f : Flow α} (h : f.IsSound) : f.jobRank.IsRanked :=
  Computed.isRanked_divide h.defined h.isNonneg f.packets

/-- Flows sorted by their average job sizes have ascending keys. -/
theorem FlowTable.jobSizeKey_pairwise {t : FlowTable α} (h : ∀ f ∈ t, f.2.IsSound) :
    (t.sortedBy Flow.jobRank).Pairwise fun f g =>
      Model.jobSizeKey f.averageJobSize ≤ Model.jobSizeKey g.averageJobSize := by
  refine (sortedBy_pairwise Flow.jobRank t).imp_of_mem ?_
  intro f g hf hg hfg
  obtain ⟨_, hf⟩ := mem_sortedBy hf
  obtain ⟨_, hg⟩ := mem_sortedBy hg
  exact (h _ hf).jobRank.key_le (h _ hg).jobRank hfg
    (fun ha hab => Scalar.IsOrdered.truncate_mono ha hab)
    (fun hn => by rw [Model.jobSizeKey, Scalar.IsOrdered.truncate_of_not_number hn]; rfl)

end

end Saturation
