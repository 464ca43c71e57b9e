import Saturation.Proofs.Profile

/-!
A walk over the stretches of a table finds the first slot of all at which the work saturates. Where
more of a list has a property, the first place that has it does not come later; so a stronger attack
stops a scan earlier, and its threshold admits less.
-/

set_option autoImplicit false

namespace Saturation

theorem find?_congr {β : Type} {l : List β} {p q : β → Bool} (h : ∀ x ∈ l, p x = q x) :
    l.find? p = l.find? q := by
  induction l with
  | nil => rfl
  | cons x l ih =>
    simp only [List.forall_mem_cons] at h
    rw [List.find?_cons, List.find?_cons, h.1, ih h.2]

/-- The search through a list in order stops no later than at an element that has the property. -/
theorem find?_le {β : Type} {R : β → β → Prop} {l : List β} (hl : l.Pairwise R) {p : β → Bool} {x : β}
    (hx : x ∈ l) (hp : p x = true) : ∃ y, l.find? p = some y ∧ (y = x ∨ R y x) := by
  cases hfind : l.find? p with
  | none => exact absurd hp (List.find?_eq_none.mp hfind x hx)
  | some y =>
    refine ⟨y, rfl, ?_⟩
    obtain ⟨-, before, behind, rfl, hbefore⟩ := List.find?_eq_some_iff_append.mp hfind
    rcases List.mem_append.mp hx with hx | hx
    · simpa [hp] using hbefore x hx
    · rcases List.mem_cons.mp hx with rfl | hx
      · exact .inl rfl
      · exact .inr ((List.pairwise_cons.mp (List.pairwise_append.mp hl).2.1).1 x hx)

theorem find?_earlier {β : Type} {R : β → β → Prop} {l : List β} (hl : l.Pairwise R)
    {p q : β → Bool} (h : ∀ x ∈ l, p x = true → q x = true) {x : β} (hx : l.find? p = some x) :
    ∃ y, l.find? q = some y ∧ (y = x ∨ R y x) :=
  have hmem := List.mem_of_find?_eq_some hx
  find?_le hl hmem (h x hmem (List.find?_some hx))

namespace RatioProfile

section

variable {α : Type}

/-- The value at a slot, with `value` in front of the first step. -/
def valueFrom (value : α) (slot : Nat) (steps : List (Nat × α)) : α :=
  (steps.takeWhile fun s => decide (s.1 ≤ slot)).getLast?.elim value Prod.snd

theorem valueFrom_below {value v : α} {slot first : Nat} (h : slot < first)
    (steps : List (Nat × α)) : valueFrom value slot ((first, v) :: steps) = value := by
  simp [valueFrom, not_le.mpr h]

theorem valueFrom_above {value v : α} {slot first : Nat} (h : first ≤ slot)
    (steps : List (Nat × α)) :
    valueFrom value slot ((first, v) :: steps) = valueFrom v slot steps := by
  simp only [valueFrom, List.takeWhile_cons, h, decide_true, if_true, List.getLast?_cons]
  cases (steps.takeWhile fun s => decide (s.1 ≤ slot)).getLast? <;> rfl

/-- The last slot of a table that starts at `first`. -/
def lastFrom (first : Nat) (steps : List (Nat × α)) : Nat := steps.getLast?.elim first Prod.fst

theorem lastFrom_cons (first slot : Nat) (v : α) (steps : List (Nat × α)) :
    lastFrom first ((slot, v) :: steps) = lastFrom slot steps := by
  simp only [lastFrom, List.getLast?_cons]
  cases steps.getLast? <;> rfl

theorem le_lastFrom {first : Nat} {steps : List (Nat × α)} (h : ∀ s ∈ steps, first ≤ s.1) :
    first ≤ lastFrom first steps := by
  unfold lastFrom
  cases hl : steps.getLast? with
  | none => exact le_rfl
  | some s => exact h s (List.mem_of_getLast? hl)

end

variable {α : Type} [Scalar α]

/-- The work tested in a slot. -/
def workAt (p : RatioProfile α) (rates : Rates α) (stats : Statistics α) (slot : Nat) : α :=
  innocentWork rates stats (p.valueAt slot) + costRatioAttackWork rates (slotRatio slot)

theorem firstSlot_eq (saturated : Nat → Bool) (n : Nat) :
    ∀ slot, firstSlot saturated slot n = (List.range' slot n).find? saturated := by
  induction n with
  | zero => intro slot; rfl
  | succ n ih =>
    intro slot
    rw [firstSlot, List.range'_succ, List.find?_cons, ih]
    cases saturated slot <;> rfl

theorem firstSaturated_cons (rates : Rates α) (stats : Statistics α) (first n : Nat) (value : α)
    (rest : List (Nat × Nat × α)) :
    firstSaturated rates stats ((first, n, value) :: rest) =
      ((List.range' first n).find? fun slot => isSaturated
        (innocentWork rates stats value + costRatioAttackWork rates (slotRatio slot))).or
        (firstSaturated rates stats rest) := by
  rw [firstSaturated, firstSlot_eq]
  split
  · rename_i slot h
    rw [h]
    rfl
  · rename_i h
    rw [h]
    rfl

/-- The walk over stretches from `first` on is the search through all slots from there on. -/
theorem firstSaturated_stretchesFrom (rates : Rates α) (stats : Statistics α)
    (steps : List (Nat × α)) :
    ∀ (first : Nat) (value : α), (∀ s ∈ steps, first ≤ s.1) → Ascending steps →
      firstSaturated rates stats (stretchesFrom first value steps) =
        (List.range' first (lastFrom first steps + 1 - first)).find? fun slot => isSaturated
          (innocentWork rates stats (valueFrom value slot steps) +
            costRatioAttackWork rates (slotRatio slot)) := by
  induction steps with
  | nil =>
    intro first value _ _
    rw [stretchesFrom, firstSaturated_cons]
    have h1 : lastFrom first ([] : List (Nat × α)) + 1 - first = 1 := by
      show first + 1 - first = 1
      omega
    rw [h1, firstSaturated, Option.or_none]
    rfl
  | cons s rest ih =>
    obtain ⟨slot, v⟩ := s
    intro first value hfirst hs
    obtain ⟨hslot, hrest⟩ := List.pairwise_cons.mp hs
    have hle : first ≤ slot := hfirst (slot, v) (by simp)
    have hlast : slot ≤ lastFrom slot rest := le_lastFrom fun s hs => (hslot s hs).le
    have hsplit : lastFrom first ((slot, v) :: rest) + 1 - first =
        (slot - first) + (lastFrom slot rest + 1 - slot) := by
      rw [lastFrom_cons]
      omega
    rw [stretchesFrom, firstSaturated_cons, ih slot v (fun s hs => (hslot s hs).le) hrest, hsplit,
      ← List.range'_append_1, List.find?_append, Nat.add_sub_cancel' hle]
    congr 1
    · apply find?_congr
      intro i hi
      rw [valueFrom_below (by rw [List.mem_range'_1] at hi; omega)]
    · apply find?_congr
      intro i hi
      rw [valueFrom_above (by rw [List.mem_range'_1] at hi; omega)]

/-- The scan of a table stops in the first of its slots at which the work saturates. -/
theorem firstSaturated_eq (p : RatioProfile α) (hp : Ascending p.steps) (rates : Rates α)
    (stats : Statistics α) :
    firstSaturated rates stats p.stretches =
      (List.range p.size).find? fun slot => isSaturated (p.workAt rates stats slot) := by
  obtain ⟨steps⟩ := p
  cases steps with
  | nil => rfl
  | cons s rest =>
    obtain ⟨slot, v⟩ := s
    have h := firstSaturated_stretchesFrom rates stats ((slot, v) :: rest) 0 Scalar.zero
      (fun _ _ => Nat.zero_le _) hp
    have hsize : (⟨(slot, v) :: rest⟩ : RatioProfile α).size = lastFrom 0 ((slot, v) :: rest) + 1 := by
      simp only [size, lastFrom, List.getLast?_cons, Option.elim_some]
    rw [List.range_eq_range', hsize]
    refine Eq.trans ?_ h
    by_cases h0 : slot = 0
    · subst h0
      simp [stretches, stretchesFrom, firstSaturated_cons]
    · simp [stretches, stretchesFrom, h0]

/-- The slot in front of the first one at which the work saturates, or the last slot if there is no
such slot. -/
structure IsLimit (p : RatioProfile α) (rates : Rates α) (stats : Statistics α) (slot : Nat) :
    Prop where
  le : slot ≤ p.size - 1
  fits : slot = 0 ∨ ∀ i ≤ slot, isSaturated (p.workAt rates stats i) = false
  next : slot + 1 < p.size → isSaturated (p.workAt rates stats 0) = true ∨
    isSaturated (p.workAt rates stats (slot + 1)) = true

theorem IsLimit.unique {p : RatioProfile α} {rates : Rates α} {stats : Statistics α} {i j : Nat}
    (hi : p.IsLimit rates stats i) (hj : p.IsLimit rates stats j) : i = j := by
  -- Of two limits, the work in the slot behind the lower one would saturate and fit.
  have key : ∀ {i j : Nat}, p.IsLimit rates stats i → p.IsLimit rates stats j → ¬ i < j := by
    intro i j hi hj hlt
    have hle := hj.le
    have hfits := hj.fits.resolve_left (by omega)
    rcases hi.next (by omega) with h | h
    · simp [hfits 0 (Nat.zero_le j)] at h
    · simp [hfits (i + 1) hlt] at h
  have h1 := key hi hj
  have h2 := key hj hi
  omega

theorem threshold_isLimit (p : RatioProfile α) (hp : Ascending p.steps) (rates : Rates α)
    (stats : Statistics α) :
    ∃ slot, p.IsLimit rates stats slot ∧ (p.threshold rates stats).limit = slotRatio slot := by
  unfold threshold
  rw [firstSaturated_eq p hp]
  cases h : (List.range p.size).find? fun slot => isSaturated (p.workAt rates stats slot) with
  | none =>
    rw [List.find?_eq_none] at h
    refine ⟨p.size - 1, ⟨le_rfl, ?_, by omega⟩, rfl⟩
    by_cases h0 : p.size - 1 = 0
    · exact .inl h0
    · exact .inr fun i hi => by simpa using h i (List.mem_range.mpr (by omega))
  | some slot =>
    rw [List.find?_range_eq_some] at h
    obtain ⟨hsat, hlt, hbefore⟩ := h
    rw [List.mem_range] at hlt
    refine ⟨slot - 1, ⟨by omega, ?_, fun _ => ?_⟩, rfl⟩
    · by_cases h0 : slot - 1 = 0
      · exact .inl h0
      · exact .inr fun i hi => by simpa using hbefore i (by omega)
    · rcases Nat.eq_zero_or_pos slot with rfl | hpos
      · exact .inl hsat
      · exact .inr (by rwa [Nat.sub_add_cancel hpos])

/-- Unless the work saturates at once, it does not at the limit. -/
theorem IsLimit.not_saturated {p : RatioProfile α} {rates : Rates α} {stats : Statistics α}
    {slot : Nat} (h : p.IsLimit rates stats slot)
    (h0 : isSaturated (p.workAt rates stats 0) = false) :
    isSaturated (p.workAt rates stats slot) = false := by
  rcases h.fits with rfl | h
  · exact h0
  · exact h slot le_rfl

theorem IsLimit.lt_slotLimit {p : RatioProfile α} {rates : Rates α} {stats : Statistics α}
    {slot : Nat} (h : p.IsLimit rates stats slot) (hslots : ∀ s ∈ p.steps, s.1 < slotLimit) :
    slot < slotLimit := by
  have hsize := size_le p hslots
  have hle := h.le
  simp only [slotLimit] at *
  omega

end RatioProfile

/-! ### Exact thresholds -/

theorem isSaturated_iff (x : Exact) : isSaturated x = true ↔ .number 1 ≤ x := by
  rw [isSaturated, Exact.one_eq]
  rfl

theorem isSaturated_mono {x : Exact} {a b : ℚ} (hab : a ≤ b)
    (h : isSaturated (x + .number a) = true) : isSaturated (x + .number b) = true := by
  rw [isSaturated_iff] at *
  cases x with
  | infinite => rfl
  | undefined => simp at h
  | number q =>
    simp only [Exact.number_add, Exact.number_le] at *
    linarith

theorem candidate_eq (key : Nat) :
    (JobSizeProfile.candidate key : Exact) = .number ((key - 1 : Nat) : ℚ) := rfl

theorem slotRatio_eq (slot : Nat) : (slotRatio slot : Exact) = .number (slot / 4096) := by
  show Exact.number (slot : ℚ) / .number ((4096 : Nat) : ℚ) = _
  rw [Exact.number_div _ (by norm_num)]
  norm_num

theorem innocentWork_number {stats : Statistics Exact} (h : 0 < stats.averagePacketSize.toNat)
    (r v : ℚ) (a : Exact) : innocentWork ⟨.number r, a⟩ stats (.number v) =
      .number (r / stats.averagePacketSize.toNat * v) := by
  show Exact.number r / .number _ * .number v = _
  rw [Exact.number_div r (Nat.cast_ne_zero.mpr h.ne'), Exact.number_mul]

theorem jobSizeAttackWork_number (r : Exact) (a k : ℚ) :
    jobSizeAttackWork ⟨r, .number a⟩ (.number k) = .number (a / 512 * k) := by
  show Exact.number a / .number ((512 : Nat) : ℚ) * .number k = _
  rw [Exact.number_div _ (by norm_num), Exact.number_mul]
  norm_num

theorem costRatioAttackWork_number (r : Exact) (a k : ℚ) :
    costRatioAttackWork ⟨r, .number a⟩ (.number k) = .number (a * k) := rfl

variable {r : Exact} {a b : ℚ}

theorem JobSizeProfile.admits_antitone {p : JobSizeProfile Exact} (hp : Ascending p.points)
    (stats : Statistics Exact) (hab : a ≤ b) {v : Exact}
    (h : (p.threshold ⟨r, .number b⟩ stats).admits v = true) :
    (p.threshold ⟨r, .number a⟩ stats).admits v = true := by
  unfold threshold at *
  cases ha : p.points.find? fun s => isSaturated (workAt ⟨r, .number a⟩ stats s) with
  | none => rfl
  | some s =>
    have hmono : ∀ t ∈ p.points, isSaturated (workAt ⟨r, .number a⟩ stats t) = true →
        isSaturated (workAt ⟨r, .number b⟩ stats t) = true := by
      intro t _ ht
      simp only [workAt, candidate_eq, jobSizeAttackWork_number] at *
      exact isSaturated_mono (by gcongr) ht
    obtain ⟨t, ht, hts⟩ := find?_earlier hp hmono ha
    rw [ht] at h
    refine Exact.le_trans h ?_
    rw [candidate_eq, candidate_eq, Exact.number_le, Nat.cast_le]
    rcases hts with rfl | hts
    · exact le_rfl
    · omega

theorem RatioProfile.admits_antitone {p : RatioProfile Exact} (hp : Ascending p.steps)
    (stats : Statistics Exact) (hab : a ≤ b) {v : Exact}
    (h : (p.threshold ⟨r, .number b⟩ stats).admits v = true) :
    (p.threshold ⟨r, .number a⟩ stats).admits v = true := by
  unfold threshold at *
  rw [firstSaturated_eq p hp] at *
  cases ha : (List.range p.size).find? fun i => isSaturated (p.workAt ⟨r, .number a⟩ stats i) with
  | none => rfl
  | some i =>
    have hmono : ∀ j ∈ List.range p.size, isSaturated (p.workAt ⟨r, .number a⟩ stats j) = true →
        isSaturated (p.workAt ⟨r, .number b⟩ stats j) = true := by
      intro j _ hj
      simp only [workAt, slotRatio_eq, costRatioAttackWork_number] at *
      exact isSaturated_mono (by gcongr) hj
    obtain ⟨j, hj, hji⟩ := find?_earlier List.pairwise_lt_range hmono ha
    rw [hj] at h
    refine Exact.le_trans h ?_
    rw [slotRatio_eq, slotRatio_eq, Exact.number_le]
    have : ((j - 1 : Nat) : ℚ) ≤ ((i - 1 : Nat) : ℚ) := Nat.cast_le.mpr (by omega)
    gcongr

end Saturation
