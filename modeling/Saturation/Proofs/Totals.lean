import Mathlib.Algebra.Order.Field.Rat
import Mathlib.Data.List.Induction
import Saturation.Trace.Statistics

/-!
Totals of packets, told by the bits of all packets together. They are the plain sums as long as the
bits fit a word; if they do not, the first packet that takes the sum out of the word ends the counting.
-/

set_option autoImplicit false

namespace Saturation

variable {α : Type}

/-- The size of all packets, in bits. -/
def bits (ps : List (Packet α)) : Nat := (ps.map fun p => p.size.toNat).sum

@[simp] theorem bits_nil : bits ([] : List (Packet α)) = 0 := rfl

@[simp] theorem bits_cons (p : Packet α) (ps : List (Packet α)) :
    bits (p :: ps) = p.size.toNat + bits ps := by simp [bits]

@[simp] theorem bits_append (ps qs : List (Packet α)) : bits (ps ++ qs) = bits ps + bits qs := by
  simp [bits]

/-- Packets that fit a word together, or the first of them that does not fit with those in front of
it. -/
theorem bits_cases (ps : List (Packet α)) : bits ps < 2 ^ 64 ∨
    ∃ seen p rest, ps = seen ++ p :: rest ∧ bits seen < 2 ^ 64 ∧ 2 ^ 64 ≤ bits seen + p.size.toNat := by
  induction ps using List.reverseRecOn with
  | nil => exact .inl (by simp)
  | append_singleton ps p ih =>
    rcases ih with h | ⟨seen, q, rest, rfl, hseen, hq⟩
    · rcases Nat.lt_or_ge (bits (ps ++ [p])) (2 ^ 64) with hp | hp
      · exact .inl hp
      · exact .inr ⟨ps, p, [], rfl, h, by simpa using hp⟩
    · exact .inr ⟨seen, q, rest ++ [p], by simp, hseen, hq⟩

variable [Scalar α]

namespace Totals

/-- The totals of packets that fit a word together. -/
def sum (ps : List (Packet α)) : Totals α := ps.foldl add empty

theorem observe_ok_iff {t t' : Totals α} {p : Packet α} :
    t.observe p = .ok t' ↔ t.sizeSum.toNat + p.size.toNat < 2 ^ 64 ∧ t' = t.add p := by
  unfold observe
  split
  · rename_i h
    rw [Except.ok.injEq]
    exact ⟨fun he => ⟨h, he.symm⟩, fun he => he.2.symm⟩
  · rename_i h
    exact ⟨nofun, fun he => absurd he.1 h⟩

theorem observe_of_le {t : Totals α} {p : Packet α} (h : 2 ^ 64 ≤ t.sizeSum.toNat + p.size.toNat) :
    t.observe p = .error .overflow := if_neg (Nat.not_lt.mpr h)

theorem count_foldl (ps : List (Packet α)) :
    ∀ t : Totals α, (ps.foldl add t).count = t.count + ps.length := by
  induction ps with
  | nil => simp
  | cons p ps ih =>
    intro t
    rw [List.foldl_cons, ih, List.length_cons]
    show t.count + 1 + _ = _
    omega

theorem count_sum (ps : List (Packet α)) : (sum ps).count = ps.length := by
  rw [sum, count_foldl]
  exact Nat.zero_add _

theorem toNat_sizeSum_add {t : Totals α} {p : Packet α} (h : t.sizeSum.toNat + p.size.toNat < 2 ^ 64) :
    (t.add p).sizeSum.toNat = t.sizeSum.toNat + p.size.toNat := by
  show (t.sizeSum + p.size).toNat = _
  rw [UInt64.toNat_add, Nat.mod_eq_of_lt h]

theorem sizeSum_foldl (ps : List (Packet α)) :
    ∀ t : Totals α, t.sizeSum.toNat + bits ps < 2 ^ 64 →
      (ps.foldl add t).sizeSum.toNat = t.sizeSum.toNat + bits ps := by
  induction ps with
  | nil => simp
  | cons p ps ih =>
    intro t h
    rw [bits_cons] at h ⊢
    have hp := toNat_sizeSum_add (t := t) (p := p) (by omega)
    rw [List.foldl_cons, ih _ (by rw [hp]; omega), hp]
    omega

theorem toNat_sizeSum {ps : List (Packet α)} (h : bits ps < 2 ^ 64) :
    (sum ps).sizeSum.toNat = bits ps := by
  have h0 : (empty : Totals α).sizeSum.toNat = 0 := rfl
  rw [sum, sizeSum_foldl ps empty (by omega), h0, Nat.zero_add]

theorem sum_append_singleton (ps : List (Packet α)) (p : Packet α) :
    sum (ps ++ [p]) = (sum ps).add p := by simp [sum]

/-- One more packet behind others that fit a word with it. -/
theorem observe_sum {ps : List (Packet α)} {p : Packet α} (h : bits (ps ++ [p]) < 2 ^ 64) :
    (sum ps).observe p = .ok (sum (ps ++ [p])) := by
  rw [bits_append, bits_cons, bits_nil, Nat.add_zero] at h
  rw [observe_ok_iff, toNat_sizeSum (by omega), sum_append_singleton]
  exact ⟨h, rfl⟩

theorem observe_sum_of_le {ps : List (Packet α)} {p : Packet α} (hps : bits ps < 2 ^ 64)
    (h : 2 ^ 64 ≤ bits ps + p.size.toNat) : (sum ps).observe p = .error .overflow :=
  observe_of_le (by rwa [toNat_sizeSum hps])

theorem ofPackets_append (ps qs : List (Packet α)) :
    ofPackets (ps ++ qs) = ofPackets ps >>= fun t => qs.foldlM observe t := List.foldlM_append

theorem ofPackets_of_lt {ps : List (Packet α)} (h : bits ps < 2 ^ 64) : ofPackets ps = .ok (sum ps) := by
  induction ps using List.reverseRecOn with
  | nil => rfl
  | append_singleton ps p ih =>
    have hps : bits ps < 2 ^ 64 := by
      rw [bits_append] at h
      omega
    rw [ofPackets_append, ih hps]
    simp only [List.foldlM_cons, List.foldlM_nil]
    show (sum ps).observe p >>= pure = _
    rw [bind_pure, observe_sum h]

theorem ofPackets_of_le {ps : List (Packet α)} (h : 2 ^ 64 ≤ bits ps) :
    ofPackets ps = .error .overflow := by
  rcases bits_cases ps with hps | ⟨seen, p, rest, rfl, hseen, hp⟩
  · omega
  · rw [ofPackets_append, ofPackets_of_lt hseen]
    show (sum seen).observe p >>= _ = _
    rw [observe_sum_of_le hseen hp]
    rfl

end Totals

namespace Statistics

variable {ps : List (Packet α)}

theorem ofPackets_of_lt (h : bits ps < 2 ^ 64) : ofPackets ps = (Totals.sum ps).statistics := by
  rw [ofPackets, Totals.ofPackets_of_lt h]
  rfl

theorem ofPackets_of_le (h : 2 ^ 64 ≤ bits ps) : ofPackets ps = .error .overflow := by
  rw [ofPackets, Totals.ofPackets_of_le h]
  rfl

/-- Packets have statistics if they fit a word together and there are any. -/
theorem ofPackets_ok {stats : Statistics α} (h : ofPackets ps = .ok stats) :
    bits ps < 2 ^ 64 ∧ (Totals.sum ps).statistics = .ok stats := by
  rcases Nat.lt_or_ge (bits ps) (2 ^ 64) with hlt | hle
  · exact ⟨hlt, ofPackets_of_lt hlt ▸ h⟩
  · rw [ofPackets_of_le hle] at h
    cases h

theorem exists_ofPackets (hne : ps ≠ []) (h : bits ps < 2 ^ 64) :
    ∃ stats, ofPackets ps = .ok stats := by
  have hcount : (Totals.sum ps).count ≠ 0 := by
    rw [Totals.count_sum]
    exact fun h0 => hne (List.eq_nil_of_length_eq_zero h0)
  rw [ofPackets_of_lt h, Totals.statistics, if_neg hcount]
  exact ⟨_, rfl⟩

/-- Statistics are only made of packets, and count them. -/
theorem totalPackets_eq {stats : Statistics α} (h : ofPackets ps = .ok stats) :
    stats.totalPackets = ps.length ∧ 0 < ps.length := by
  have hcount := Totals.count_sum ps
  obtain ⟨-, h⟩ := ofPackets_ok h
  unfold Totals.statistics at h
  split at h
  · cases h
  · rename_i hne
    cases h
    exact ⟨hcount, Nat.pos_of_ne_zero fun h0 => hne (hcount.trans h0)⟩

end Statistics

end Saturation
