import Saturation.Analysis
import Saturation.Proofs.Ingest
import Saturation.Proofs.Order

/-!
The traffic of an accepted trace, read exactly: packets with at least one bit, whose job sizes are
numbers that are not negative.
-/

set_option autoImplicit false

namespace Saturation

namespace Exact

def value : Exact → ℚ
  | number q => q
  | _ => 0

@[simp] theorem value_number (q : ℚ) : (number q).value = q := rfl

theorem smaller_number (a b : ℚ) : Scalar.smaller (number a) (number b) = number (min a b) := by
  have hb : Scalar.isNumber (number b) = true := decide_eq_true le_rfl
  have hlt : Scalar.below (number a) (number b) = decide (a < b) := by
    rw [Bool.eq_iff_iff, decide_eq_true_iff]
    exact number_lt a b
  unfold Scalar.smaller
  rw [hb, hlt]
  by_cases h : a < b
  · simp [h, min_eq_left h.le]
  · simp [h, min_eq_right (not_lt.mp h)]

theorem larger_number (a b : ℚ) : Scalar.larger (number a) (number b) = number (max a b) := by
  have hb : Scalar.isNumber (number b) = true := decide_eq_true le_rfl
  have hlt : Scalar.below (number b) (number a) = decide (b < a) := by
    rw [Bool.eq_iff_iff, decide_eq_true_iff]
    exact number_lt b a
  unfold Scalar.larger
  rw [hb, hlt]
  by_cases h : b < a
  · simp [h, max_eq_left h.le]
  · simp [h, max_eq_right (not_lt.mp h)]

end Exact

def Packet.exact (p : Packet Float) : Packet Exact := ⟨p.flow, p.size, .ofFloat p.jobSize⟩

def Record.exact (r : Record) : Packet Exact := r.packet.exact

theorem bits_exact (records : List Record) :
    bits (records.map Record.exact) = bits (records.map Record.packet) := by
  simp only [bits, List.map_map]
  rfl

/-- The analyzer of a policy for a trace in exact arithmetic. -/
def Analysis.exact (bytes : List UInt8) (policy : Policy) (bounds : AttackBounds Exact) :
    Except Fault (Analyzer Exact) :=
  match Trace.read bytes with
  | (_, .error e) => .error e
  | (records, .ok _) =>
    match Statistics.ofPackets (records.map Record.exact) with
    | .error e => .error e
    | .ok stats => Analyzer.ofPackets policy bounds stats (records.map Record.exact)

structure Traffic (ps : List (Packet Exact)) : Prop where
  nonempty : ps ≠ []
  size_ne_zero : ∀ p ∈ ps, p.size ≠ 0
  jobSize_isAmount : ∀ p ∈ ps, p.jobSize.IsAmount
  bits_lt : bits ps < 2 ^ 64

namespace Double

theorem lt_zero_of_negative {x : Float} {m : Nat} {q : Int}
    (h : ofFloat x = .finite true m q) (hm : 0 < m) : x < 0.0 := by
  have hlt : x.toModel.unpack.lt (0.0 : Float).toModel.unpack = true := by
    rw [unpack_of_finite hm h]
    rfl
  exact decide_eq_true hlt

theorem finite_of_not_negative {x : Float} (hf : x.isFinite = true) (hn : ¬ x < 0.0) :
    ∃ (s : Bool) (m : Nat) (q : Int), ofFloat x = .finite s m q ∧ (s = true → m = 0) := by
  rw [← isFinite_ofFloat] at hf
  cases h : ofFloat x with
  | notANumber => simp [h, isFinite] at hf
  | infinite s => simp [h, isFinite] at hf
  | finite s m q =>
    refine ⟨s, m, q, rfl, ?_⟩
    rintro rfl
    by_contra hm
    exact hn (lt_zero_of_negative h (Nat.pos_of_ne_zero hm))

end Double

namespace Record

theorem numeric_ok {β : Type} {read? : List Char → Option β} {n : Nat} {name : NumericField}
    {field : List Char} {x : β} (h : numeric read? n name field = .ok x) :
    read? field = some x := by
  unfold numeric at h
  split at h
  · simp_all
  · simp at h

theorem read_ok {n : Nat} {line : List Char} {r : Record} (h : read n line = .ok r) :
    (∃ field, packetSize? field = some r.packet.size) ∧
      ∃ field, jobSize? field = some r.packet.jobSize := by
  unfold read at h
  split at h
  · obtain ⟨size, hsize, h⟩ := bind_ok h
    obtain ⟨job, hjob, h⟩ := bind_ok h
    obtain ⟨_, _, h⟩ := bind_ok h
    obtain ⟨_, _, h⟩ := bind_ok h
    cases h
    exact ⟨⟨_, numeric_ok hsize⟩, _, numeric_ok hjob⟩
  · simp at h

theorem size_ne_zero {n : Nat} {line : List Char} {r : Record} (h : read n line = .ok r) :
    r.packet.size ≠ 0 := by
  obtain ⟨⟨field, hs⟩, -⟩ := read_ok h
  unfold packetSize? at hs
  rw [Option.filter_eq_some_iff] at hs
  simpa using hs.2

theorem jobSize_finite {n : Nat} {line : List Char} {r : Record} (h : read n line = .ok r) :
    ∃ (s : Bool) (m : Nat) (q : Int),
      Double.ofFloat r.packet.jobSize = .finite s m q ∧ (s = true → m = 0) := by
  obtain ⟨-, field, hj⟩ := read_ok h
  unfold jobSize? at hj
  rw [Option.filter_eq_some_iff] at hj
  simp only [Bool.and_eq_true, Bool.not_eq_true', decide_eq_false_iff_not] at hj
  exact Double.finite_of_not_negative hj.2.1 hj.2.2

theorem jobSize_isAmount {n : Nat} {line : List Char} {r : Record} (h : read n line = .ok r) :
    r.exact.jobSize.IsAmount := by
  obtain ⟨s, m, q, hx, hs⟩ := jobSize_finite h
  refine ⟨m * 2 ^ q, mul_nonneg m.cast_nonneg (Double.two_zpow_pos q).le, ?_⟩
  show Exact.ofFloat r.packet.jobSize = _
  rw [Exact.ofFloat, hx, Double.exact_finite hs]

theorem jobSize_isNonneg {n : Nat} {line : List Char} {r : Record} (h : read n line = .ok r) :
    Scalar.IsNonneg r.packet.jobSize := by
  obtain ⟨s, m, q, hx, hs⟩ := jobSize_finite h
  exact Double.isNonneg_of_finite hx hs

end Record

end Saturation
