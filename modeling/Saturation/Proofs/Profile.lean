import Saturation.Proofs.Collectors
import Saturation.Proofs.Flows

/-!
The keys of profiles are strictly ascending, and those of tables over cost ratios stay below the limit
of tables.
-/

set_option autoImplicit false

namespace Saturation

/-- Steps with strictly ascending keys. -/
def Ascending {β : Type} (steps : List (Nat × β)) : Prop := steps.Pairwise fun s t => s.1 < t.1

section

variable {α : Type}

theorem Histogram.ofKeys_ascending (keys : List Nat) : Ascending (ofKeys keys) := by
  rw [ofKeys_eq_gather]
  exact Keyed.gather_isSorted _ _ _ keys

theorem RatioProfile.size_le (p : RatioProfile α) (h : ∀ s ∈ p.steps, s.1 < slotLimit) :
    p.size ≤ slotLimit := by
  unfold size
  cases hl : p.steps.getLast? with
  | none => exact Nat.zero_le _
  | some s => exact h s (List.mem_of_getLast? hl)

variable [Scalar α]

theorem JobSizeProfile.build_ascending (rest : List (Nat × α)) :
    ∀ (made : List (Nat × α)) (sum : α), made.Pairwise (fun s t => t.1 < s.1) →
      (∀ s ∈ made.head?, ∀ c ∈ rest, s.1 ≤ c.1) → rest.Pairwise (fun s t => s.1 ≤ t.1) →
      Ascending (build made sum rest) := by
  induction rest with
  | nil =>
    intro made sum hm _ _
    exact List.pairwise_reverse.mpr hm
  | cons c rest ih =>
    obtain ⟨key, contribution⟩ := c
    intro made sum hm hlast hr
    obtain ⟨hkey, hrest⟩ := List.pairwise_cons.mp hr
    unfold build
    cases made with
    | nil =>
      refine ih _ _ (List.pairwise_singleton _ _) ?_ hrest
      rintro s ⟨⟩
      exact hkey
    | cons s below =>
      obtain ⟨last, value⟩ := s
      have hle : last ≤ key := hlast _ rfl (key, contribution) (by simp)
      obtain ⟨hbelow, hm'⟩ := List.pairwise_cons.mp hm
      dsimp only
      split
      · rename_i heq
        subst heq
        refine ih _ _ (List.pairwise_cons.mpr ⟨hbelow, hm'⟩) ?_ hrest
        rintro s ⟨⟩
        exact hkey
      · rename_i hne
        refine ih _ _ (List.pairwise_cons.mpr ⟨?_, hm⟩) ?_ hrest
        · intro t ht
          rcases List.mem_cons.mp ht with rfl | ht
          · exact lt_of_le_of_ne hle hne
          · exact (hbelow t ht).trans_le hle
        · rintro s ⟨⟩
          exact hkey

theorem JobSizeProfile.ofSorted_ascending {contributions : List (Nat × α)}
    (h : contributions.Pairwise fun s t => s.1 ≤ t.1) :
    Ascending (ofSorted contributions).points :=
  build_ascending contributions [] _ .nil (by simp) h

theorem RatioProfile.build_ascending (rest : List (α × α)) :
    ∀ (made : List (Nat × α)) (sum : α) (steps : List (Nat × α)),
      made.Pairwise (fun s t => t.1 < s.1) → build made sum rest = .ok steps →
      Ascending steps := by
  induction rest with
  | nil =>
    rintro made sum steps hm ⟨⟩
    exact List.pairwise_reverse.mpr hm
  | cons c rest ih =>
    obtain ⟨ratio, contribution⟩ := c
    intro made sum steps hm h
    unfold build at h
    dsimp only at h
    split at h
    · simp at h
    · cases made with
      | nil => exact ih _ _ _ (List.pairwise_singleton _ _) h
      | cons s below =>
        obtain ⟨last, value⟩ := s
        dsimp only at h
        obtain ⟨hbelow, hm'⟩ := List.pairwise_cons.mp hm
        split at h
        · refine ih _ _ _ ?_ h
          exact List.pairwise_cons.mpr ⟨hbelow, hm'⟩
        · rename_i hlt
          refine ih _ _ _ (List.pairwise_cons.mpr ⟨?_, hm⟩) h
          intro t ht
          rcases List.mem_cons.mp ht with rfl | ht
          · exact not_le.mp hlt
          · exact (hbelow t ht).trans (not_le.mp hlt)

/-- A table is built if no ratio is too large for it. -/
theorem RatioProfile.build_isOk (rest : List (α × α)) :
    ∀ (made : List (Nat × α)) (sum : α), (∀ c ∈ rest, ratioSlot c.1 < slotLimit) →
      ∃ steps, build made sum rest = .ok steps := by
  induction rest with
  | nil => exact fun made _ _ => ⟨made.reverse, rfl⟩
  | cons c rest ih =>
    obtain ⟨ratio, contribution⟩ := c
    intro made sum h
    simp only [List.forall_mem_cons] at h
    unfold build
    dsimp only
    rw [if_neg (not_le.mpr h.1)]
    cases made with
    | nil => exact ih _ _ h.2
    | cons s below =>
      dsimp only
      split
      · exact ih _ _ h.2
      · exact ih _ _ h.2

theorem RatioProfile.ofSorted_isOk {contributions : List (α × α)}
    (h : ∀ c ∈ contributions, ratioSlot c.1 < slotLimit) : ∃ p, ofSorted contributions = .ok p := by
  obtain ⟨steps, hs⟩ := build_isOk contributions [] Scalar.zero h
  exact ⟨⟨steps⟩, by rw [ofSorted, hs]⟩

theorem RatioProfile.ofSorted_ascending {contributions : List (α × α)} {p : RatioProfile α}
    (h : ofSorted contributions = .ok p) : Ascending p.steps := by
  unfold ofSorted at h
  split at h
  · rename_i steps hs
    cases h
    exact build_ascending contributions [] _ steps .nil hs
  · simp at h

namespace RatioProfile

/-- Every slot of a table is below the limit of tables. -/
theorem build_slots (rest : List (α × α)) :
    ∀ (made : List (Nat × α)) (sum : α) (steps : List (Nat × α)),
      (∀ s ∈ made, s.1 < slotLimit) → build made sum rest = .ok steps →
      ∀ s ∈ steps, s.1 < slotLimit := by
  induction rest with
  | nil =>
    rintro made sum steps hm ⟨⟩ s hs
    exact hm s (List.mem_reverse.mp hs)
  | cons c rest ih =>
    obtain ⟨ratio, contribution⟩ := c
    intro made sum steps hm h
    unfold build at h
    dsimp only at h
    split at h
    · simp at h
    · rename_i hslot
      cases made with
      | nil =>
        refine ih _ _ _ ?_ h
        simpa using hslot
      | cons s below =>
        obtain ⟨last, value⟩ := s
        simp only [List.forall_mem_cons] at hm
        dsimp only at h
        split at h
        · refine ih _ _ _ ?_ h
          simpa only [List.forall_mem_cons] using hm
        · refine ih _ _ _ ?_ h
          simpa only [List.forall_mem_cons, not_le] using ⟨not_le.mp hslot, hm⟩

theorem ofSorted_slots {contributions : List (α × α)} {p : RatioProfile α}
    (h : ofSorted contributions = .ok p) : ∀ s ∈ p.steps, s.1 < slotLimit := by
  unfold ofSorted at h
  split at h
  · rename_i steps hs
    cases h
    exact build_slots contributions [] _ steps (by simp) hs
  · simp at h

end RatioProfile

end

end Saturation
