import Saturation.Decimal.Literal
import Saturation.Decimal.Shortest
import Saturation.Proofs.Double.Rounding

/-!
The search for the shortest decimal ends at one that means the double. Every number in the band of
a double is nearest to it, and on the last grid two neighbours are closer to each other than the
ends of the band.
-/

set_option autoImplicit false

namespace Saturation.Decimal

open Double (IsCanonical IsNearest leastNormal leastExponent two_zpow_pos)

/-- A power as a quotient of whole numbers. -/
theorem zpow_eq_div {b : Nat} (hb : 0 < b) (p : Int) :
    (b : ℚ) ^ p = (Nat.pow b p.toNat : Nat) / (Nat.pow b (-p).toNat : Nat) := by
  have hb0 : (b : ℚ) ≠ 0 := Nat.cast_ne_zero.mpr hb.ne'
  rw [Nat.pow_eq, Nat.pow_eq, Nat.cast_pow, Nat.cast_pow, ← zpow_natCast, ← zpow_natCast,
    ← zpow_sub₀ hb0]
  congr 1
  omega

theorem lt_pow_length (n : Nat) : n < 10 ^ (Nat.toDigits 10 n).length :=
  (Nat.length_toDigits_le_iff (by decide) Nat.length_toDigits_pos).mp le_rfl

theorem pow_length_le {n : Nat} (hn : 0 < n) : 10 ^ ((Nat.toDigits 10 n).length - 1) ≤ n := by
  have hlen := Nat.length_toDigits_pos (b := 10) (n := n)
  rcases Nat.eq_zero_or_pos ((Nat.toDigits 10 n).length - 1) with h0 | hk
  · rw [h0]
    exact hn
  · rw [← not_lt, ← Nat.length_toDigits_le_iff (by decide) hk]
    omega

namespace Band

/-- Where a number lies in a band. -/
def Encloses (b : Band) (x : ℚ) : Prop :=
  if b.closed then b.low / b.scale ≤ x ∧ x ≤ b.high / b.scale
  else b.low / b.scale < x ∧ x < b.high / b.scale

theorem contains_iff {b : Band} (hs : 0 < b.scale) (c : Nat) (p : Int) :
    b.contains c p = true ↔ b.Encloses (c * 10 ^ p) := by
  have hscale : (0 : ℚ) < b.scale := Nat.cast_pos.mpr hs
  have hunit : (0 : ℚ) < (Nat.pow 10 (-p).toNat : Nat) := Nat.cast_pos.mpr (Nat.pow_pos (by decide))
  have hten : (10 : ℚ) ^ p = _ := zpow_eq_div (b := 10) (by decide) p
  unfold contains Encloses
  rw [hten, ← mul_div_assoc, div_le_div_iff₀ hscale hunit, div_le_div_iff₀ hunit hscale,
    div_lt_div_iff₀ hscale hunit, div_lt_div_iff₀ hunit hscale, mul_right_comm]
  cases b.closed
  · simp only [Bool.false_eq_true, if_false, decide_eq_true_eq]
    exact_mod_cast Iff.rfl
  · simp only [if_true, decide_eq_true_eq]
    exact_mod_cast Iff.rfl

/-! ### The band of a double -/

/-- The distance of the lower end, in quarters of a step. -/
def gap (m : Nat) (q : Int) : Nat := if m = leastNormal ∧ leastExponent < q then 1 else 2

theorem gap_cases (m : Nat) (q : Int) :
    m = leastNormal ∧ leastExponent < q ∧ gap m q = 1 ∨
      ¬ (m = leastNormal ∧ leastExponent < q) ∧ gap m q = 2 := by
  unfold gap
  split
  · exact .inl ⟨by tauto, by tauto, rfl⟩
  · exact .inr ⟨by tauto, rfl⟩

variable {m : Nat} {q : Int} {x : ℚ}

theorem scale_pos (m : Nat) (q : Int) : 0 < (ofParts m q).scale := Nat.pow_pos (by decide)

theorem quarter_steps (n : Nat) (q : Int) :
    ((n * Nat.pow 2 (q - 2).toNat : Nat) : ℚ) / (Nat.pow 2 (2 - q).toNat : Nat) =
      n / 4 * 2 ^ q := by
  have h : (2 : ℚ) ^ (q - 2) = _ := zpow_eq_div (b := 2) (by decide) (q - 2)
  rw [neg_sub] at h
  rw [Nat.cast_mul, mul_div_assoc, ← h, zpow_sub₀ two_ne_zero]
  ring

theorem value_eq (m : Nat) (q : Int) :
    ((ofParts m q).value : ℚ) / (ofParts m q).scale = m * 2 ^ q := by
  refine (quarter_steps (4 * m) q).trans ?_
  push_cast
  ring

theorem low_eq (hm : 0 < m) : ((ofParts m q).low : ℚ) / (ofParts m q).scale =
    (m - gap m q / 4) * 2 ^ q := by
  have hle : gap m q ≤ 4 * m := by
    rcases gap_cases m q with ⟨-, -, h⟩ | ⟨-, h⟩ <;> omega
  refine (quarter_steps (4 * m - gap m q) q).trans ?_
  rw [Nat.cast_sub hle]
  push_cast
  ring

theorem high_eq (m : Nat) (q : Int) : ((ofParts m q).high : ℚ) / (ofParts m q).scale =
    (m + 1 / 2) * 2 ^ q := by
  refine (quarter_steps (4 * m + 2) q).trans ?_
  push_cast
  ring

/-- The ends of the band belong to doubles with an even mantissa only. -/
theorem Encloses.bounds (hm : 0 < m) (h : (ofParts m q).Encloses x) :
    (m - gap m q / 4 : ℚ) ≤ x / 2 ^ q ∧ x / 2 ^ q ≤ m + 1 / 2 ∧
      ((m - gap m q / 4 : ℚ) = x / 2 ^ q ∨ x / 2 ^ q = m + 1 / 2 → m % 2 = 0) := by
  have hq := two_zpow_pos q
  have hclosed : (ofParts m q).closed = (m % 2 == 0) := rfl
  unfold Encloses at h
  rw [low_eq hm, high_eq, hclosed, ← le_div_iff₀ hq, ← div_le_iff₀ hq, ← lt_div_iff₀ hq,
    ← div_lt_iff₀ hq] at h
  split at h
  · rename_i heven
    exact ⟨h.1, h.2, fun _ => beq_iff_eq.mp heven⟩
  · exact ⟨h.1.le, h.2.le, fun he => absurd he (not_or.mpr ⟨h.1.ne, h.2.ne⟩)⟩

theorem Encloses.half_le (hm : 0 < m) (h : (ofParts m q).Encloses x) : 2 ^ (q - 1) ≤ x := by
  obtain ⟨hlow, -, -⟩ := h.bounds hm
  have hm1 : (1 : ℚ) ≤ m := by exact_mod_cast hm
  have hgap : (gap m q : ℚ) ≤ 2 := by
    exact_mod_cast (by rcases gap_cases m q with ⟨-, -, h⟩ | ⟨-, h⟩ <;> omega)
  rw [zpow_sub_one₀ two_ne_zero, mul_comm, ← le_div_iff₀ (two_zpow_pos q)]
  linarith

/-- Below the least mantissa of an exponent the steps are half as long. -/
theorem isNearest_below (hq : leastExponent < q) (hlow : (2 ^ 52 - 1 / 4 : ℚ) ≤ x / 2 ^ q)
    (hx : x / 2 ^ q < 2 ^ 52) : IsNearest x leastNormal q := by
  have hstep : (2 : ℚ) ^ q = 2 * 2 ^ (q - 1) := by
    rw [← zpow_one_add₀ two_ne_zero]
    congr 1
    omega
  have hhalf := two_zpow_pos (q - 1)
  have hx' : x / 2 ^ (q - 1) = 2 * (x / 2 ^ q) := by
    rw [hstep]
    field_simp
  refine ⟨⟨by decide, hq.le, .inl le_rfl⟩, q - 1, 2 ^ 53, ⟨by omega, ?_, .inr ?_⟩,
    ⟨?_, ?_, fun _ => by decide⟩, ?_⟩
  · rw [show q - 1 + 53 = q - 1 + (53 : Nat) from rfl, Double.div_step, hx']
    push_cast
    linarith
  · rw [← not_lt, show q - 1 + 52 = q - 1 + (52 : Nat) from rfl, Double.div_step, hx']
    push_cast
    linarith
  · rw [hx']
    push_cast
    linarith
  · rw [hx']
    push_cast
    linarith
  · rw [hstep]
    simp only [leastNormal]
    push_cast
    ring

/-- What lies in the band of a double is nearest to the double. -/
theorem Encloses.isNearest (hc : IsCanonical m q) (hm : 0 < m) (h : (ofParts m q).Encloses x) :
    IsNearest x m q := by
  obtain ⟨hlow, hhigh, heven⟩ := h.bounds hm
  have hlt := hc.lt
  simp only [leastNormal] at hlt
  have hm53 : (m : ℚ) + 1 ≤ 2 ^ 53 := by exact_mod_cast (by omega : m + 1 ≤ 2 ^ 53)
  by_cases hge : q = leastExponent ∨ 2 ^ (q + 52) ≤ x
  · refine ⟨hc, q, m, ⟨hc.le, ?_, hge⟩, ⟨?_, hhigh, ?_⟩, rfl⟩
    · rw [show q + 53 = q + (53 : Nat) from rfl, Double.div_step]
      push_cast
      linarith
    · rcases gap_cases m q with ⟨-, -, hgap⟩ | ⟨-, hgap⟩ <;> rw [hgap] at hlow <;>
        push_cast at hlow <;> linarith
    · rintro (he | he)
      · rcases gap_cases m q with ⟨-, -, hgap⟩ | ⟨-, hgap⟩ <;> rw [hgap] at hlow heven <;>
          push_cast at hlow heven
        · linarith
        · exact heven (.inl (by rw [he]; ring))
      · exact heven (.inr he)
  · obtain ⟨hne, hx⟩ := not_or.mp hge
    rw [not_le, show q + 52 = q + (52 : Nat) from rfl, Double.div_step] at hx
    push_cast at hx
    have hnormal : leastNormal ≤ m := hc.normal.resolve_right hne
    have hle := hc.le
    rcases gap_cases m q with ⟨rfl, hexp, hgap⟩ | ⟨hno, hgap⟩ <;> rw [hgap] at hlow <;>
      push_cast at hlow
    · refine isNearest_below hexp ?_ hx
      simp only [leastNormal] at hlow
      push_cast at hlow
      linarith
    · -- Above the least mantissa the band does not reach the shorter steps.
      have hm52 : (2 : ℚ) ^ 52 + 1 ≤ m := by
        have hne : m ≠ leastNormal := fun h => hno ⟨h, by omega⟩
        simp only [leastNormal] at hnormal hne
        exact_mod_cast (by omega : 2 ^ 52 + 1 ≤ m)
      linarith

/-! ### The search -/

variable {b : Band} {tie : Tie} {p : Int}

theorem onGrid_contains {c : Nat} (h : b.onGrid tie p = some c) : b.contains c p = true := by
  unfold onGrid at h
  dsimp only at h
  split at h
  · cases h
  · cases h
    assumption
  · cases h
    assumption
  · rename_i hdown hup
    have hc : c = b.value * Nat.pow 10 (-p).toNat / (b.scale * Nat.pow 10 p.toNat) ∨
        c = b.value * Nat.pow 10 (-p).toNat / (b.scale * Nat.pow 10 p.toNat) + 1 := by
      grind
    rcases hc with rfl | rfl
    · exact hdown
    · exact hup

theorem onGrid_floor (b : Band) (p : Int) :
    b.value * Nat.pow 10 (-p).toNat / (b.scale * Nat.pow 10 p.toNat) =
      ⌊(b.value : ℚ) / b.scale / 10 ^ p⌋₊ := by
  have hten : (10 : ℚ) ^ p = _ := zpow_eq_div (b := 10) (by decide) p
  rw [← Nat.floor_div_eq_div (K := ℚ), hten, div_div_div_eq]
  push_cast
  rfl

/-- A grid finer than the band has a point in the band. -/
theorem onGrid_isSome (hs : 0 < b.scale) (hlow : b.low < b.value) (hhigh : b.value < b.high)
    (hfine : (10 : ℚ) ^ p < b.high / b.scale - b.low / b.scale) (tie : Tie) :
    (b.onGrid tie p).isSome := by
  have hscale : (0 : ℚ) < b.scale := Nat.cast_pos.mpr hs
  have hten : (0 : ℚ) < 10 ^ p := by positivity
  have hlow' : (b.low : ℚ) / b.scale < b.value / b.scale :=
    div_lt_div_of_pos_right (Nat.cast_lt.mpr hlow) hscale
  have hhigh' : (b.value : ℚ) / b.scale < b.high / b.scale :=
    div_lt_div_of_pos_right (Nat.cast_lt.mpr hhigh) hscale
  have hfloor := onGrid_floor b p
  have hle : (⌊(b.value : ℚ) / b.scale / 10 ^ p⌋₊ : ℚ) * 10 ^ p ≤ b.value / b.scale :=
    (le_div_iff₀ hten).mp (Nat.floor_le (by positivity))
  have hlt : (b.value : ℚ) / b.scale <
      ((⌊(b.value : ℚ) / b.scale / 10 ^ p⌋₊ + 1 : Nat) : ℚ) * 10 ^ p := by
    rw [← div_lt_iff₀ hten]
    exact_mod_cast Nat.lt_floor_add_one _
  -- Otherwise both ends of the band are between the two points.
  have hor : b.contains ⌊(b.value : ℚ) / b.scale / 10 ^ p⌋₊ p = true ∨
      b.contains (⌊(b.value : ℚ) / b.scale / 10 ^ p⌋₊ + 1) p = true := by
    simp only [contains_iff hs, Encloses]
    by_contra hno
    push_cast at hno hlt
    split at hno <;> simp only [not_or, not_and_or, not_le, not_lt] at hno <;>
      rcases hno with ⟨h1 | h1, h2 | h2⟩ <;> linarith
  unfold onGrid
  dsimp only
  rw [hfloor]
  split
  · rename_i h1 h2
    simp [h1, h2] at hor
  · rfl
  · rfl
  · split
    · rfl
    · split
      · rfl
      · split <;> rfl

theorem search_contains {n : Nat} (h : (b.onGrid tie (p - n)).isSome) :
    b.contains (b.search tie (n + 1) p).1 (b.search tie (n + 1) p).2 = true := by
  induction n generalizing p with
  | zero =>
    obtain ⟨c, hc⟩ := Option.isSome_iff_exists.mp h
    rw [Nat.cast_zero, sub_zero] at hc
    simp only [search, hc]
    exact onGrid_contains hc
  | succ n ih =>
    cases hgrid : b.onGrid tie p with
    | some c =>
      simp only [search, hgrid]
      exact onGrid_contains hgrid
    | none =>
      have hstep : p - (n + 1 : Nat) = p - 1 - n := by
        push_cast
        ring
      rw [hstep] at h
      rw [search, hgrid]
      exact ih h

theorem lead_le (hs : 0 < b.scale) (hv : 0 < b.value) :
    (10 : ℚ) ^ b.lead ≤ b.value / b.scale := by
  have hscale : (0 : ℚ) < b.scale := Nat.cast_pos.mpr hs
  rw [le_div_iff₀ hscale]
  unfold lead
  split
  · rename_i hle
    have hlen := Nat.length_toDigits_pos (b := 10) (n := b.value / b.scale)
    rw [← Nat.cast_pred hlen, zpow_natCast]
    exact_mod_cast (Nat.le_div_iff_mul_le hs).mp (pow_length_le (Nat.div_pos hle hs))
  · have hpow := lt_pow_length ((b.scale + b.value - 1) / b.value - 1)
    have hceil : b.scale ≤
        b.value * 10 ^ (Nat.toDigits 10 ((b.scale + b.value - 1) / b.value - 1)).length := by
      have h1 : (b.scale + b.value - 1) / b.value <
          10 ^ (Nat.toDigits 10 ((b.scale + b.value - 1) / b.value - 1)).length + 1 := by omega
      have h2 := (Nat.div_lt_iff_lt_mul hv).mp h1
      rw [Nat.add_mul, Nat.one_mul, Nat.mul_comm] at h2
      omega
    rw [zpow_neg, zpow_natCast, inv_mul_le_iff₀ (by positivity)]
    rw [Nat.mul_comm] at hceil
    exact_mod_cast hceil

/-- Seventeen grids are enough. -/
theorem search_encloses (hc : IsCanonical m q) (hm : 0 < m) (tie : Tie) :
    (ofParts m q).Encloses (((ofParts m q).search tie 17 (ofParts m q).lead).1 *
      10 ^ ((ofParts m q).search tie 17 (ofParts m q).lead).2) := by
  have hs := scale_pos m q
  have hq := two_zpow_pos q
  have hlead := lead_le hs (Nat.mul_pos (Nat.mul_pos (by decide) hm) (Nat.pow_pos (by decide)) :
    0 < (ofParts m q).value)
  rw [value_eq] at hlead
  have hfine : (10 : ℚ) ^ ((ofParts m q).lead - (16 : Nat)) <
      (ofParts m q).high / (ofParts m q).scale - (ofParts m q).low / (ofParts m q).scale := by
    have hlt := hc.lt
    simp only [leastNormal] at hlt
    rw [high_eq, low_eq hm, ← sub_mul, zpow_sub₀ (by norm_num), zpow_natCast,
      div_lt_iff₀ (by positivity)]
    refine hlead.trans_lt ?_
    rw [mul_right_comm]
    refine mul_lt_mul_of_pos_right ?_ hq
    rcases gap_cases m q with ⟨rfl, -, hgap⟩ | ⟨-, hgap⟩ <;> rw [hgap]
    · simp only [leastNormal]
      norm_num
    · have hm53 : (m : ℚ) < 2 ^ 53 := by exact_mod_cast (by omega : m < 2 ^ 53)
      norm_num at hm53 ⊢
      linarith
  have hlow : (ofParts m q).low < (ofParts m q).value := by
    refine Nat.mul_lt_mul_of_pos_right ?_ (Nat.pow_pos (by decide))
    rcases gap_cases m q with ⟨-, -, hgap⟩ | ⟨-, hgap⟩ <;> unfold gap at hgap <;> rw [hgap] <;>
      omega
  have hhigh : (ofParts m q).value < (ofParts m q).high :=
    Nat.mul_lt_mul_of_pos_right (by omega) (Nat.pow_pos (by decide))
  have hhit := onGrid_isSome hs hlow hhigh hfine tie
  exact (contains_iff hs _ _).mp (search_contains hhit)

end Band

/-! ### Digits -/

namespace Digits

/-- The number that the digits stand for. -/
def value (d : Digits) : ℚ := digitsValue d.digits * 10 ^ d.exponent

/-- Decimal digits, at least one, and no zero in front. -/
structure IsDecimal (d : Digits) : Prop where
  digits : ∀ c ∈ d.digits, c.isDigit
  ne_nil : d.digits ≠ []
  head : d.digits.head? ≠ some '0'

theorem head_toDigits {n : Nat} (hn : 0 < n) : (Nat.toDigits 10 n).head? ≠ some '0' := by
  induction n using Nat.strongRecOn with
  | ind n ih =>
    rcases Nat.lt_or_ge n 10 with hlt | hge
    · rw [Nat.toDigits_of_lt_base hlt]
      interval_cases n <;> decide
    · rw [Nat.toDigits_of_base_le (by decide) hge, List.head?_append_of_ne_nil _ Nat.toDigits_ne_nil]
      exact ih _ (by omega) (by omega)

theorem trimmed_append (c : Nat) (p : Int) : ∃ k : Nat,
    Nat.toDigits 10 c = (trimmed c p).digits ++ List.replicate k '0' ∧
      (trimmed c p).exponent = p + k := by
  let zeros := (Nat.toDigits 10 c).reverse.takeWhile (· == '0')
  have hzeros : zeros = List.replicate zeros.length '0' := by
    refine List.eq_replicate_of_mem fun d hd => ?_
    exact beq_iff_eq.mp (List.all_eq_true.mp List.all_takeWhile d hd)
  have happend : Nat.toDigits 10 c = (trimmed c p).digits ++ zeros.reverse := by
    show _ = (List.dropWhile _ _).reverse ++ (List.takeWhile _ _).reverse
    rw [← List.reverse_append, List.takeWhile_append_dropWhile, List.reverse_reverse]
  have hlen := congrArg List.length happend
  rw [List.length_append, List.length_reverse] at hlen
  refine ⟨zeros.length, ?_, ?_⟩
  · rw [← List.reverse_replicate, ← hzeros]
    exact happend
  · show p + ((Nat.toDigits 10 c).length - (trimmed c p).digits.length : Nat) = _
    omega

theorem trimmed_value (c : Nat) (p : Int) : (trimmed c p).value = c * 10 ^ p := by
  obtain ⟨k, hdigits, hexp⟩ := trimmed_append c p
  have hc : c = 10 ^ k * digitsValue (trimmed c p).digits := by
    have h := Nat.ofDigitChars_ten_toDigits (n := c)
    rw [hdigits, Nat.ofDigitChars_append, Nat.ofDigitChars_replicate_zero] at h
    exact h.symm
  rw [value, hexp, zpow_add₀ (by norm_num), zpow_natCast]
  conv_rhs => rw [hc]
  push_cast
  ring

theorem trimmed_isDecimal {c : Nat} (hc : 0 < c) (p : Int) : (trimmed c p).IsDecimal := by
  obtain ⟨k, hdigits, -⟩ := trimmed_append c p
  have hne : (trimmed c p).digits ≠ [] := by
    intro hnil
    have h := Nat.ofDigitChars_ten_toDigits (n := c)
    rw [hdigits, hnil, List.nil_append, Nat.ofDigitChars_replicate_zero] at h
    omega
  refine ⟨fun d hd => ?_, hne, ?_⟩
  · exact Nat.isDigit_of_mem_toDigits (by decide) (by decide)
      (hdigits ▸ List.mem_append_left _ hd)
  · rw [← List.head?_append_of_ne_nil _ hne, ← hdigits]
    exact head_toDigits hc

theorem trimmed_lead (c : Nat) (p : Int) :
    (trimmed c p).lead = p + (Nat.toDigits 10 c).length - 1 := by
  obtain ⟨k, hdigits, hexp⟩ := trimmed_append c p
  rw [lead, hexp, hdigits, List.length_append, List.length_replicate]
  push_cast
  ring

theorem pow_lead_le {c : Nat} (hc : 0 < c) (p : Int) :
    (10 : ℚ) ^ (trimmed c p).lead ≤ (trimmed c p).value := by
  have hlen := Nat.length_toDigits_pos (b := 10) (n := c)
  have hpow : (10 : ℚ) ^ ((Nat.toDigits 10 c).length - 1) ≤ c := by
    exact_mod_cast pow_length_le hc
  rw [trimmed_value, trimmed_lead, add_sub_assoc, add_comm, ← Nat.cast_pred hlen,
    zpow_add₀ (by norm_num), zpow_natCast]
  exact mul_le_mul_of_nonneg_right hpow (by positivity)

theorem lt_pow_lead (c : Nat) (p : Int) :
    (trimmed c p).value < 10 ^ ((trimmed c p).lead + 1) := by
  have hpow : (c : ℚ) < 10 ^ (Nat.toDigits 10 c).length := by
    exact_mod_cast lt_pow_length c
  rw [trimmed_value, trimmed_lead, sub_add_cancel, add_comm, zpow_add₀ (by norm_num), zpow_natCast]
  exact mul_lt_mul_of_pos_right hpow (by positivity)

end Digits

/-! ### The shortest decimal of a double -/

variable {m : Nat} {q : Int}

/-- The shortest decimal is a trimmed one from the band of the double. -/
theorem shortest_eq (hc : IsCanonical m q) (hm : 0 < m) (tie : Tie) : ∃ (c : Nat) (p : Int),
    0 < c ∧ shortest tie m q = .trimmed c p ∧ (Band.ofParts m q).Encloses (c * 10 ^ p) := by
  have h := Band.search_encloses hc hm tie
  refine ⟨((Band.ofParts m q).search tie 17 (Band.ofParts m q).lead).1, _,
    Nat.pos_of_ne_zero fun h0 => ?_, rfl, h⟩
  have hpos := (two_zpow_pos (q - 1)).trans_le (h.half_le hm)
  rw [h0, Nat.cast_zero, zero_mul] at hpos
  exact hpos.false

theorem shortest_isDecimal (hc : IsCanonical m q) (hm : 0 < m) (tie : Tie) :
    (shortest tie m q).IsDecimal := by
  obtain ⟨c, p, hpos, h, -⟩ := shortest_eq hc hm tie
  exact h ▸ Digits.trimmed_isDecimal hpos p

theorem shortest_isNearest (hc : IsCanonical m q) (hm : 0 < m) (tie : Tie) :
    IsNearest (shortest tie m q).value m q := by
  obtain ⟨c, p, -, h, henc⟩ := shortest_eq hc hm tie
  rw [h, Digits.trimmed_value]
  exact henc.isNearest hc hm

theorem shortest_lead (hc : IsCanonical m q) (hq : q ≤ Double.greatestExponent) (hm : 0 < m)
    (tie : Tie) : (shortest tie m q).lead.natAbs < 0x10000 := by
  obtain ⟨c, p, hpos, h, henc⟩ := shortest_eq hc hm tie
  have hle := Digits.pow_lead_le hpos p
  have hlt := Digits.lt_pow_lead c p
  obtain ⟨-, hhigh, -⟩ := henc.bounds hm
  have hlow := henc.half_le hm
  have hm53 : (m : ℚ) + 1 ≤ 2 ^ 53 := by
    have := hc.lt
    simp only [leastNormal] at this
    exact_mod_cast (by omega : m + 1 ≤ 2 ^ 53)
  have hc' := hc.le
  rw [Digits.trimmed_value, ← h] at hle hlt
  simp only [leastExponent, Double.greatestExponent] at hc' hq
  have hupper : (10 : ℚ) ^ (shortest tie m q).lead < 10 ^ (1025 : Int) := by
    calc (10 : ℚ) ^ (shortest tie m q).lead ≤ c * 10 ^ p := hle
      _ ≤ (m + 1 / 2) * 2 ^ q := (div_le_iff₀ (two_zpow_pos q)).mp hhigh
      _ < 2 ^ 53 * 2 ^ q := mul_lt_mul_of_pos_right (by linarith) (two_zpow_pos q)
      _ = 2 ^ (53 + q) := by rw [zpow_add₀ two_ne_zero]; rfl
      _ ≤ 2 ^ (1025 : Int) := zpow_le_zpow_right₀ one_le_two (by omega)
      _ ≤ 10 ^ (1025 : Int) := zpow_le_zpow_left₀ (by decide) (by norm_num) (by norm_num)
  have hlower : (10 : ℚ) ^ (-1075 : Int) < 10 ^ ((shortest tie m q).lead + 1) := by
    calc (10 : ℚ) ^ (-1075 : Int) ≤ 2 ^ (-1075 : Int) := by
          rw [zpow_neg, zpow_neg]
          exact inv_anti₀ (by positivity)
            (zpow_le_zpow_left₀ (by decide) (by norm_num) (by norm_num))
      _ ≤ 2 ^ (q - 1) := zpow_le_zpow_right₀ one_le_two (by omega)
      _ ≤ c * 10 ^ p := hlow
      _ < _ := hlt
  rw [zpow_lt_zpow_iff_right₀ (by norm_num)] at hupper hlower
  omega

end Saturation.Decimal
