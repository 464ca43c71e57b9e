import Saturation.Proofs.Admission

/-!
Sizes are summed in words. If the bits of a trace fit one, then so do the bits of its flows and
what a threshold leaves of a ranking, which are parts of them; the average packet has at least one
bit, and no work and no goodput is a quotient by 0. If they do not fit, the pass is broken off at
the first packet that takes the sum out of its word, and flows have not been handed that packet.
Lines alone do not bound the sum: two packets are enough.
-/

set_option autoImplicit false

namespace Saturation

section

variable {α : Type}

theorem bits_prefix_le {ps seen : List (Packet α)} {p : Packet α} (h : seen ++ [p] <+: ps) :
    bits seen + p.size.toNat ≤ bits ps := by
  have hle := (h.sublist.map fun p => p.size.toNat).sum_le_sum fun _ _ => Nat.zero_le _
  simpa [bits] using hle

theorem FlowTable.mem_of_get? {name : String} {t : FlowTable α} {f : Flow α}
    (h : t.get? name = some f) : (name, f) ∈ t := by
  induction t with
  | nil => cases h
  | cons s t ih =>
    obtain ⟨n, g⟩ := s
    unfold get? at h
    split at h
    · rename_i heq
      cases h
      rw [heq]
      exact List.mem_cons_self
    · exact List.mem_cons_of_mem _ (ih h)

/-- No size that is added to what is served in front of it leaves a word. -/
def Ranking.Fits (ranking : Ranking α) (admits : α → Bool) : Prop :=
  ∀ seen item, seen ++ [item] <+: ranking.takeWhile (fun item => admits item.1) →
    (servedSize admits seen).toNat + item.2.toNat < 2 ^ 64

theorem Ranking.fits {ranking : Ranking α} (h : ranking.bits < 2 ^ 64) (admits : α → Bool) :
    ranking.Fits admits := by
  intro seen item hitem
  have hle := (hitem.sublist.map fun item => item.2.toNat).sum_le_sum fun _ _ => Nat.zero_le _
  have hall := bits_takeWhile_le admits ranking
  have hseen : Ranking.bits seen + item.2.toNat ≤ ranking.bits := by
    refine le_trans ?_ hall
    simpa [Ranking.bits] using hle
  have hserved := bits_takeWhile_le admits seen
  rw [toNat_servedSize admits (by omega)]
  omega

variable [Scalar α] {ps : List (Packet α)}

/-- No size that is added to those of the packets in front of it leaves a word. -/
def Totals.Fits (ps : List (Packet α)) : Prop :=
  ∀ seen p, seen ++ [p] <+: ps → ∀ t, ofPackets seen = .ok t → t.sizeSum.toNat + p.size.toNat < 2 ^ 64

/-- No size that is added to its flow leaves a word. -/
def FlowTable.Fits (ps : List (Packet α)) : Prop :=
  ∀ seen p, seen ++ [p] <+: ps → ∀ f, (ofPackets seen).get? p.flow = some f →
    f.size.toNat + p.size.toNat < 2 ^ 64

theorem Totals.fits_iff : Fits ps ↔ bits ps < 2 ^ 64 := by
  constructor
  · intro h
    rcases bits_cases ps with hps | ⟨seen, p, rest, rfl, hseen, hp⟩
    · exact hps
    · have hlast := h seen p ⟨rest, by simp⟩ _ (ofPackets_of_lt hseen)
      rw [toNat_sizeSum hseen] at hlast
      omega
  · intro h seen p hp t ht
    have hle := bits_prefix_le hp
    rw [ofPackets_of_lt (by omega), Except.ok.injEq] at ht
    rw [← ht, toNat_sizeSum (by omega)]
    omega

theorem FlowTable.fits (h : Saturation.bits ps < 2 ^ 64) : Fits ps := by
  intro seen p hp f hf
  have hle := bits_prefix_le hp
  have hpart := bits_filter_le (fun q => q.flow = p.flow) seen
  have hsize := toNat_size (by omega) _ (mem_of_get? hf)
  simp only at hsize
  omega

/-- What a policy ranks has no more bits than the packets. -/
theorem Policy.bits_items_le (policy : Policy) (h : bits ps < 2 ^ 64) :
    Ranking.bits (policy.items ps) ≤ bits ps := by
  cases policy with
  | fcfs | fq => exact Nat.zero_le _
  | sjf | wsjf => simp [items, Ranking.bits, bits, Function.comp_def]
  | sjfInorder | wsjfInorder =>
    rw [← FlowTable.bits_ofPackets h]
    simp [items, Ranking.bits, FlowTable.bits, Function.comp_def]

theorem Model.bits_ranking_le {policy : Policy} {stats : Statistics α} {model : Model α}
    (hm : ofPackets policy stats ps = .ok model) (h : bits ps < 2 ^ 64) {ranking : Ranking α}
    (hr : model.ranking? = some ranking) : ranking.bits ≤ bits ps := by
  rcases ranking_cases hm with ⟨ranking', hr', hperm⟩ | ⟨hnone, -⟩
  · rw [hr] at hr'
    cases hr'
    exact (hperm.map fun x => x.2.toNat).sum_nat.trans_le (policy.bits_items_le h)
  · rw [hr] at hnone
    cases hnone

end

/-! ### Divisors -/

namespace Double

theorem hasValue_one : HasValue Scalar.one 1 := ⟨by decide +kernel, zero_le_one⟩

theorem one_le_ofNat_div {m n : Nat} (hm : 0 < m) (h : m ≤ n) (hn : n < 2 ^ 64) :
    (Scalar.one : Float) ≤ Scalar.ofNat n / Scalar.ofNat m := by
  obtain ⟨a, ha⟩ := isAmount_ofNat hn
  obtain ⟨b, hb⟩ := isAmount_ofNat (h.trans_lt hn)
  have hb1 : 1 ≤ b := one_le_value (ofNat_mono hm) hb
  have hab : b ≤ a := (hb.le_iff ha).mp (ofNat_mono h)
  have hb0 : 0 < b := one_pos.trans_le hb1
  exact hasValue_one.isNearestTo.le (ha.div hb hb0) ((one_le_div hb0).mpr hab)

theorem one_le_mul {x y : Float} (hx : IsAmount x) (hy : IsAmount y) (h1x : Scalar.one ≤ x)
    (h1y : Scalar.one ≤ y) : Scalar.one ≤ x * y := by
  obtain ⟨a, ha⟩ := hx
  obtain ⟨b, hb⟩ := hy
  exact hasValue_one.isNearestTo.le (ha.mul hb)
    (one_le_mul_of_one_le_of_one_le (one_le_value h1x ha) (one_le_value h1y hb))

theorem one_le_truncate {x : Float} (h : Scalar.one ≤ x) : 1 ≤ (Scalar.truncate x).toNat := by
  have hone : (Scalar.truncate (Scalar.one : Float)).toNat = 1 := by decide +kernel
  rw [← hone]
  exact Scalar.IsOrdered.truncate_mono hasValue_one.isNonneg ((atMost_iff _ _).mpr h)

theorem one_le_ofWord {n : UInt64} (h : 1 ≤ n.toNat) : (Scalar.one : Float) ≤ Scalar.ofWord n :=
  ofNat_mono h

end Double

/-- The average packet has a bit at least, so innocent work is no quotient by 0, and neither is a
goodput by the offered size. -/
structure Statistics.Divides (s : Statistics Float) : Prop where
  averageSize : 1 ≤ s.averagePacketSize.toNat
  innocentWork : (Scalar.one : Float) ≤ Scalar.ofWord s.averagePacketSize
  offeredSize : (Scalar.one : Float) ≤
    Scalar.ofNat s.totalPackets * Scalar.ofWord s.averagePacketSize

theorem Statistics.ofPackets_divides {ps : List (Packet Float)} (hsize : ∀ p ∈ ps, p.size ≠ 0)
    {stats : Statistics Float} (h : ofPackets ps = .ok stats) : stats.Divides := by
  obtain ⟨htotal, hpos⟩ := totalPackets_eq h
  obtain ⟨hbits, hsum⟩ := ofPackets_ok h
  have hle := length_le_bits hsize
  have haverage : stats.averagePacketSize = Scalar.truncate
      (Scalar.ofNat (bits ps) / Scalar.ofNat ps.length : Float) := by
    unfold Totals.statistics at hsum
    split at hsum
    · cases hsum
    · cases hsum
      rw [Totals.count_sum, Scalar.ofWord, Totals.toNat_sizeSum hbits]
  have hone : 1 ≤ stats.averagePacketSize.toNat := by
    rw [haverage]
    exact Double.one_le_truncate (Double.one_le_ofNat_div hpos hle hbits)
  refine ⟨hone, Double.one_le_ofWord hone, Double.one_le_mul ?_ ?_ ?_ (Double.one_le_ofWord hone)⟩
  · exact Double.isAmount_ofNat (htotal ▸ hle.trans_lt hbits)
  · exact Double.isAmount_ofNat stats.averagePacketSize.toNat_lt
  · exact Double.ofNat_mono (htotal ▸ hpos)

/-! ### Traces -/

namespace Trace

variable {bytes : List UInt8} {lines : List (List UInt8)} {records : List Record}

theorem packets_size_ne_zero (bytes : List UInt8) :
    ∀ p ∈ (read bytes).1.map Record.packet, p.size ≠ 0 :=
  List.forall_mem_map.mpr (read_forall (fun _ _ _ hr => Record.size_ne_zero hr) bytes)

/-- A pass over lines with records is broken off at the first one whose packet does not fit. -/
theorem ingest_overflow (h : IsLines bytes lines) (hr : RecordsOn 1 lines records)
    (hbits : 2 ^ 64 ≤ bits (records.map Record.packet)) :
    ∃ seen r rest, records = seen ++ r :: rest ∧ bits (seen.map Record.packet) < 2 ^ 64 ∧
      2 ^ 64 ≤ bits (seen.map Record.packet) + r.packet.size.toNat ∧
      ∀ {σ : Type} (receive : σ → Record → σ) (state : σ),
        ingest receive state bytes = (seen.foldl receive state, .error .overflow) := by
  rcases bits_cases (records.map Record.packet) with hlt | ⟨_, _, _, hmap, hseen, hover⟩
  · omega
  · obtain ⟨seen, behind, rfl, rfl, hbehind⟩ := List.map_eq_append_iff.mp hmap
    obtain ⟨r, rest, rfl, rfl, -⟩ := List.map_eq_cons_iff.mp hbehind
    obtain ⟨before, line, behind, rfl, hbefore, hline⟩ := hr.split
    exact ⟨seen, r, rest, rfl, hseen, hover, fun receive state =>
      ingest_end _ _ h hbefore hseen (.overflow hline hover)⟩

/-- For a trace whose lines all have records: the sum of all sizes stays within its word exactly if
the bits of the trace fit one. If they do not, the pass is broken off at the first record that does
not fit, and whatever receives the records is not handed that one. If they do, the trace is
accepted, the average packet and all packets and flows, which others are divided by, have a bit at
least. In either case no size of a flow leaves a word, and neither does what any threshold of any
analysis leaves. -/
theorem sizes_fit (h : IsLines bytes lines) (hr : RecordsOn 1 lines records) (hne : lines ≠ []) :
    let ps := records.map Record.packet
    (Totals.Fits ps ↔ bits ps < 2 ^ 64) ∧
      (2 ^ 64 ≤ bits ps → ∃ seen r rest, records = seen ++ r :: rest ∧
        bits (seen.map Record.packet) < 2 ^ 64 ∧
        2 ^ 64 ≤ bits (seen.map Record.packet) + r.packet.size.toNat ∧
        ∀ {σ : Type} (receive : σ → Record → σ) (state : σ),
          ingest receive state bytes = (seen.foldl receive state, .error .overflow)) ∧
      (bits ps < 2 ^ 64 → ∃ summary, summary.statistics.Divides ∧
        (∀ {σ : Type} (receive : σ → Record → σ) (state : σ),
          ingest receive state bytes = (records.foldl receive state, .ok summary)) ∧
        (∀ p ∈ ps, (Scalar.one : Float) ≤ Scalar.ofWord p.size) ∧
        ∀ f ∈ FlowTable.ofPackets ps, (Scalar.one : Float) ≤ Scalar.ofNat f.2.packets ∧
          (Scalar.one : Float) ≤ Scalar.ofWord f.2.size) ∧
      FlowTable.Fits ((read bytes).1.map Record.packet) ∧
      ∀ (policies : List Policy) (bounds : AttackBounds Float) (a : Analysis),
        Analysis.ofTrace bytes policies bounds = .ok a → ∀ z ∈ a.analyzers,
          z.statistics.Divides ∧ ∀ ranking, z.model.ranking? = some ranking →
            ∀ t : Threshold Float, ranking.Fits t.admits := by
  have hall : ∀ p ∈ (read bytes).1.map Record.packet, p.size ≠ 0 := packets_size_ne_zero bytes
  have hread := bits_read_lt bytes
  refine ⟨Totals.fits_iff, ingest_overflow h hr, fun hbits => ?_, FlowTable.fits hread,
    fun policies bounds a ha z hz => ?_⟩
  · have hsize : ∀ p ∈ records.map Record.packet, p.size ≠ 0 := by
      rw [read_records h hr hbits] at hall
      exact hall
    obtain ⟨statistics, hstats, ho⟩ := outcome_of_ne_nil bytes (hr.ne_nil hne) hbits
    refine ⟨_, Statistics.ofPackets_divides hsize hstats,
      fun receive state => by rw [ingest_records _ _ h hr hbits, ho], fun p hp => ?_, fun f hf => ?_⟩
    · exact Double.one_le_ofWord (Nat.pos_of_ne_zero fun h0 => hsize p hp (UInt64.toNat_inj.mp h0))
    · obtain ⟨hpos, hle⟩ := FlowTable.counts hsize hbits f hf
      exact ⟨Double.ofNat_mono hpos, Double.one_le_ofWord (hpos.trans_le hle)⟩
  · obtain ⟨hstats, -, hm⟩ := Analysis.ofTrace_packets ha hz
    exact ⟨Statistics.ofPackets_divides hall hstats, fun ranking hranking t =>
      Ranking.fits ((Model.bits_ranking_le hm hread hranking).trans_lt hread) t.admits⟩

/-- The sizes of two packets take the sum out of its word, and the pass is broken off. -/
theorem not_sizes_fit : ¬ ∀ (bytes : List UInt8) (lines : List (List UInt8)) (records : List Record),
    IsLines bytes lines → RecordsOn 1 lines records → lines ≠ [] →
      Totals.Fits (records.map Record.packet) ∧
        ∃ summary, (read bytes).2 = .ok summary ∧ 1 ≤ summary.statistics.averagePacketSize.toNat := by
  intro hfits
  obtain ⟨lines, records, h, hr, hlength, hbits⟩ := overfullWord_records
  have hne : lines ≠ [] := List.ne_nil_of_length_pos (by rw [hr.length_eq, hlength]; decide)
  have hlt := Totals.fits_iff.mp (hfits _ _ _ h hr hne).1
  omega

/-- Two flows with a packet each, whose sizes together are the largest word. -/
def fullWord : List UInt8 :=
  "0;1;a;x;18446744073709551614;100\n2;3;b;x;1;100\n".toUTF8.toList

theorem sizes_fit_fullWord : ∃ lines records summary,
    IsLines fullWord lines ∧ RecordsOn 1 lines records ∧ records.length = 2 ∧
      bits (records.map Record.packet) = 2 ^ 64 - 1 ∧ Totals.Fits (records.map Record.packet) ∧
      FlowTable.Fits ((read fullWord).1.map Record.packet) ∧ summary.statistics.Divides ∧
      (read fullWord).2 = .ok summary := by
  have hcomputed : (read fullWord).2.isOk = true ∧ (read fullWord).1.length = 2 ∧
      bits ((read fullWord).1.map Record.packet) = 2 ^ 64 - 1 := by decide +kernel
  obtain ⟨hisOk, hlength, hfull⟩ := hcomputed
  obtain ⟨lines, records, hr, rfl, hlt, ⟨h, -⟩ | ⟨_, _, _, -, -, herror⟩⟩ := read_cases fullWord
  · have hne : lines ≠ [] := List.ne_nil_of_length_pos (by rw [hr.length_eq, hlength]; decide)
    obtain ⟨hfits, -, hok, hflows, -⟩ := sizes_fit h hr hne
    obtain ⟨summary, hdivides, hingest, -⟩ := hok hlt
    refine ⟨lines, _, summary, h, hr, hlength, hfull, hfits.mpr hlt, hflows, hdivides, ?_⟩
    rw [read, hingest]
  · simp [herror, Except.isOk, Except.toBool] at hisOk

end Trace

end Saturation
