import Saturation.Proofs.Cumulative
import Saturation.Proofs.Steps

/-!
What profiles hold in exact arithmetic: at a key, the sum of all that is not above it, whatever ties there
are. A table of cost ratios is determined by the slots that something is added in and by these sums.
-/

set_option autoImplicit false

namespace Saturation

open Exact (number)

/-- Steps in ascending order are determined by their keys, if their values are. -/
theorem Ascending.ext {β : Type} {steps steps' : List (Nat × β)} (hs : Ascending steps)
    (hs' : Ascending steps') (hkeys : ∀ k, k ∈ steps.map Prod.fst ↔ k ∈ steps'.map Prod.fst)
    (value : Nat → β) (hvalue : ∀ s ∈ steps, s.2 = value s.1)
    (hvalue' : ∀ s ∈ steps', s.2 = value s.1) : steps = steps' := by
  have hperm : (steps.map Prod.fst).Perm (steps'.map Prod.fst) :=
    (List.perm_ext_iff_of_nodup (Keyed.IsSorted.nodup_keys hs) (Keyed.IsSorted.nodup_keys hs')).mpr
      hkeys
  have hlt : (steps.map Prod.fst).Pairwise (· < ·) := List.pairwise_map.mpr hs
  have hlt' : (steps'.map Prod.fst).Pairwise (· < ·) := List.pairwise_map.mpr hs'
  have heq := hperm.eq_of_pairwise (fun _ _ _ _ hab hba => absurd hba (lt_asymm hab)) hlt hlt'
  have hmap : ∀ l : List (Nat × β), (∀ s ∈ l, s.2 = value s.1) →
      l = (l.map Prod.fst).map fun k => (k, value k) := by
    intro l hl
    rw [List.map_map]
    conv_lhs => rw [← List.map_id l]
    refine List.map_congr_left fun s hs => ?_
    rw [Function.comp_apply, ← hl s hs]
    rfl
  rw [hmap steps hvalue, hmap steps' hvalue', heq]

namespace Profile

variable {cs : List (Nat × Exact)}

theorem total_eq (h : ∀ c ∈ cs, c.2.IsAmount) : total cs = number (contributed cs) := by
  induction cs using List.reverseRecOn with
  | nil => rfl
  | append_singleton cs c ih =>
    obtain ⟨q, -, hq⟩ := h c (by simp)
    rw [total_concat, ih fun d hd => h d (List.mem_append_left _ hd), hq, Exact.number_add]
    simp [contributed, hq]

theorem totalUpTo_eq (hsorted : cs.Pairwise fun c d => c.1 ≤ d.1) (h : ∀ c ∈ cs, c.2.IsAmount)
    (key : Nat) : totalUpTo key cs = number (contributed (cs.filter fun c => c.1 ≤ key)) := by
  rw [totalUpTo, rdropWhile_eq_filter hsorted]
  exact total_eq fun c hc => h c (List.mem_of_mem_filter hc)

/-- The value of a step is all that is not above its key. -/
theorem Holds.value_eq {steps : List (Nat × Exact)} (hsteps : Holds steps cs)
    (hascending : Ascending steps) (hsorted : cs.Pairwise fun c d => c.1 ≤ d.1)
    (h : ∀ c ∈ cs, c.2.IsAmount) :
    ∀ s ∈ steps, s.2 = number (contributed (cs.filter fun c => c.1 ≤ s.1)) := by
  intro s hs
  rw [← totalUpTo_eq hsorted h, ← hsteps.valueAt, valueAt_of_mem hascending hs]

end Profile

namespace RatioProfile

theorem ratioSlot_mono {a b : ℚ} (h : a ≤ b) : ratioSlot (number a) ≤ ratioSlot (number b) := by
  have hfloor : ⌊a * (slotsPerUnit : ℚ) + 1 / 2⌋ ≤ ⌊b * (slotsPerUnit : ℚ) + 1 / 2⌋ := by
    refine Int.floor_le_floor ?_
    gcongr
  exact min_le_min_right _ (Int.toNat_le_toNat hfloor)

/-- What is added in the slots up to one. -/
def addedUpTo (cs : List (Exact × Exact)) (slot : Nat) : ℚ :=
  contributed (cs.filter fun c => ratioSlot c.1 ≤ slot)

theorem contributed_inSlots (cs : List (Exact × Exact)) (slot : Nat) :
    contributed ((inSlots cs).filter fun c => c.1 ≤ slot) = addedUpTo cs slot := by
  rw [inSlots, List.filter_map, contributed, List.map_map]
  rfl

/-- A step for each slot that something is added in, with all that is added up to it. -/
structure IsTable (cs : List (Exact × Exact)) (steps : List (Nat × Exact)) : Prop where
  slots : ∀ k, k ∈ steps.map Prod.fst ↔ ∃ c ∈ cs, ratioSlot c.1 = k
  values : ∀ s ∈ steps, s.2 = number (addedUpTo cs s.1)

theorem inSlots_isTable {cs : List (Exact × Exact)}
    (hsorted : cs.Pairwise fun c d => ratioSlot c.1 ≤ ratioSlot d.1)
    (h : ∀ c ∈ cs, c.2.IsAmount) : IsTable cs (JobSizeProfile.ofSorted (inSlots cs)).points := by
  have hslots := inSlots_pairwise.mpr hsorted
  have hholds := JobSizeProfile.ofSorted_holds hslots
  refine ⟨fun k => ?_, fun s hs => ?_⟩
  · rw [hholds.keys k, inSlots, List.map_map, List.mem_map]
    rfl
  · rw [← contributed_inSlots]
    exact hholds.value_eq (JobSizeProfile.ofSorted_ascending hslots) hslots
      (List.forall_mem_map.mpr h) s hs

theorem IsTable.ext {cs ds : List (Exact × Exact)} {steps steps' : List (Nat × Exact)}
    (hc : IsTable cs steps) (hd : IsTable ds steps') (hs : Ascending steps)
    (hs' : Ascending steps')
    (hslots : ∀ k, (∃ c ∈ cs, ratioSlot c.1 = k) ↔ ∃ d ∈ ds, ratioSlot d.1 = k)
    (hadded : ∀ k, addedUpTo cs k = addedUpTo ds k) : steps = steps' :=
  hs.ext hs' (fun k => (hc.slots k).trans ((hslots k).trans (hd.slots k).symm))
    (fun k => number (addedUpTo cs k)) hc.values fun s hs => by rw [hadded, hd.values s hs]

/-- The first ratio that is too large has the least of the slots that are. -/
theorem find?_isTooLarge {cs : List (Exact × Exact)} {c : Exact × Exact}
    (hsorted : cs.Pairwise fun c d => ratioSlot c.1 ≤ ratioSlot d.1)
    (h : cs.find? (fun c => isTooLarge c.1) = some c) :
    c ∈ cs ∧ slotLimit ≤ ratioSlot c.1 ∧
      ∀ d ∈ cs, slotLimit ≤ ratioSlot d.1 → ratioSlot c.1 ≤ ratioSlot d.1 := by
  obtain ⟨hlarge, before, behind, rfl, hbefore⟩ := List.find?_eq_some_iff_append.mp h
  refine ⟨by simp, of_decide_eq_true hlarge, fun d hd hd' => ?_⟩
  rcases List.mem_append.mp hd with hd | hd
  · have hfits := hbefore d hd
    simp [isTooLarge, hd'] at hfits
  · rcases List.mem_cons.mp hd with rfl | hd
    · exact le_rfl
    · exact (List.pairwise_cons.mp (List.pairwise_append.mp hsorted).2.1).1 d hd

/-- A table is determined by the slots that something is added in, and by what is added up to each
slot; so is the fault of one that is too large. -/
theorem ofSorted_eq {cs ds : List (Exact × Exact)}
    (hcs : cs.Pairwise fun c d => ratioSlot c.1 ≤ ratioSlot d.1)
    (hds : ds.Pairwise fun c d => ratioSlot c.1 ≤ ratioSlot d.1)
    (hc : ∀ c ∈ cs, c.2.IsAmount) (hd : ∀ d ∈ ds, d.2.IsAmount)
    (hslots : ∀ k, (∃ c ∈ cs, ratioSlot c.1 = k) ↔ ∃ d ∈ ds, ratioSlot d.1 = k)
    (hadded : ∀ k, addedUpTo cs k = addedUpTo ds k) : ofSorted cs = ofSorted ds := by
  rw [ofSorted_eq_inSlots hcs, ofSorted_eq_inSlots hds]
  cases hfind : cs.find? fun c => isTooLarge c.1 with
  | none =>
    have hnone : ds.find? (fun d => isTooLarge d.1) = none := by
      rw [List.find?_eq_none] at hfind ⊢
      intro d hd'
      obtain ⟨c, hc', hcd⟩ := (hslots _).mpr ⟨d, hd', rfl⟩
      rw [isTooLarge, ← hcd]
      exact hfind c hc'
    have hascending := JobSizeProfile.ofSorted_ascending (inSlots_pairwise.mpr hcs)
    have hascending' := JobSizeProfile.ofSorted_ascending (inSlots_pairwise.mpr hds)
    simp only [hnone]
    rw [(inSlots_isTable hcs hc).ext (inSlots_isTable hds hd) hascending hascending' hslots hadded]
  | some c =>
    obtain ⟨hc', hlarge, hleast⟩ := find?_isTooLarge hcs hfind
    obtain ⟨d', hd'', hcd⟩ := (hslots _).mp ⟨c, hc', rfl⟩
    cases hfind' : ds.find? fun d => isTooLarge d.1 with
    | none =>
      rw [List.find?_eq_none] at hfind'
      exact absurd (decide_eq_true (hcd ▸ hlarge)) (hfind' d' hd'')
    | some d =>
      obtain ⟨hd', hlarge', hleast'⟩ := find?_isTooLarge hds hfind'
      obtain ⟨c', hc'', hdc⟩ := (hslots _).mpr ⟨d, hd', rfl⟩
      have h1 := hleast c' hc'' (by rwa [hdc])
      have h2 := hleast' d' hd'' (by rwa [hcd])
      have heq : ratioSlot c.1 = ratioSlot d.1 := by omega
      simp only [tooLarge, heq]

end RatioProfile

end Saturation
