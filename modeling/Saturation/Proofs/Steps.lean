import Mathlib.Data.List.DropRight
import Saturation.Proofs.Profile

/-!
A profile is told by what was added to it. Whatever ties and gaps there are among the keys, as long as
they do not fall, its value at a key is the running total behind the last contribution that is not
above this key. A table over cost ratios is such a profile over the slots of the ratios, unless one of
them is too large.
-/

set_option autoImplicit false

namespace Saturation

namespace Profile

section

variable {α : Type} [Scalar α]

/-- The total of contributions, from left to right. -/
def total (cs : List (Nat × α)) : α := cs.foldl (fun sum c => sum + c.2) Scalar.zero

/-- The total behind the last contribution whose key is not above a key. -/
def totalUpTo (key : Nat) (cs : List (Nat × α)) : α := total (cs.rdropWhile fun c => key < c.1)

theorem total_concat (cs : List (Nat × α)) (c : Nat × α) : total (cs ++ [c]) = total cs + c.2 := by
  simp [total]

theorem totalUpTo_concat (key : Nat) (cs : List (Nat × α)) (c : Nat × α) :
    totalUpTo key (cs ++ [c]) = if c.1 ≤ key then total (cs ++ [c]) else totalUpTo key cs := by
  unfold totalUpTo
  by_cases h : c.1 ≤ key
  · rw [List.rdropWhile_concat_neg _ _ _ (by simpa using h), if_pos h]
  · rw [List.rdropWhile_concat_pos _ _ _ (by simpa using h), if_neg h]

/-- Where the keys do not fall, what is dropped from the end is all that is above the key. -/
theorem rdropWhile_eq_filter {β : Type} {cs : List (Nat × β)}
    (h : cs.Pairwise fun c d => c.1 ≤ d.1) (key : Nat) :
    (cs.rdropWhile fun c => key < c.1) = cs.filter fun c => c.1 ≤ key := by
  induction cs using List.reverseRecOn with
  | nil => rfl
  | append_singleton cs c ih =>
    obtain ⟨hcs, -, hlast⟩ := List.pairwise_append.mp h
    by_cases hc : c.1 ≤ key
    · rw [List.rdropWhile_concat_neg _ _ _ (by simpa using hc), List.filter_eq_self.mpr]
      intro d hd
      rcases List.mem_append.mp hd with hd | hd
      · exact decide_eq_true ((hlast d hd c (List.mem_singleton_self c)).trans hc)
      · rw [List.mem_singleton.mp hd]
        exact decide_eq_true hc
    · rw [List.rdropWhile_concat_pos _ _ _ (by simpa using hc), ih hcs, List.filter_append,
        List.filter_singleton, decide_eq_false hc, cond_false, List.append_nil]

/-! ### Steps -/

theorem valueAt_concat {steps : List (Nat × α)} {s : Nat × α} (h : ∀ t ∈ steps, t.1 ≤ s.1)
    (key : Nat) :
    valueAt key (steps ++ [s]) = if s.1 ≤ key then s.2 else valueAt key steps := by
  unfold valueAt
  by_cases hs : s.1 ≤ key
  · have hall : ∀ t ∈ steps ++ [s], t.1 ≤ key := by
      intro t ht
      rcases List.mem_append.mp ht with ht | ht
      · exact (h t ht).trans hs
      · rw [List.mem_singleton.mp ht]
        exact hs
    rw [List.takeWhile_eq_self_iff.mpr fun t ht => decide_eq_true (hall t ht), if_pos hs,
      List.getLast?_concat]
    rfl
  · have hstop : [s].takeWhile (fun t => decide (t.1 ≤ key)) = [] := by simp [hs]
    rw [List.takeWhile_append, hstop, List.append_nil, if_neg hs]
    split
    · rename_i hlength
      rw [(List.takeWhile_prefix _).eq_of_length hlength]
    · rfl

theorem valueAt_of_mem {steps : List (Nat × α)} (h : Ascending steps) {s : Nat × α}
    (hs : s ∈ steps) : valueAt s.1 steps = s.2 := by
  induction steps using List.reverseRecOn with
  | nil => cases hs
  | append_singleton steps t ih =>
    obtain ⟨hsteps, -, hlast⟩ := List.pairwise_append.mp h
    have hlt : ∀ u ∈ steps, u.1 < t.1 := fun u hu => hlast u hu t (List.mem_singleton_self t)
    rw [valueAt_concat fun u hu => (hlt u hu).le]
    rcases List.mem_append.mp hs with hs | hs
    · rw [if_neg (not_le.mpr (hlt s hs)), ih hsteps hs]
    · rw [List.mem_singleton.mp hs, if_pos le_rfl]

/-- Steps that hold the running totals of contributions. -/
structure Holds (steps cs : List (Nat × α)) : Prop where
  keys : ∀ k, k ∈ steps.map Prod.fst ↔ k ∈ cs.map Prod.fst
  valueAt : ∀ key, valueAt key steps = totalUpTo key cs

theorem Holds.nil : Holds ([] : List (Nat × α)) [] := ⟨fun _ => Iff.rfl, fun _ => rfl⟩

/-- One more contribution makes a step with the new total, behind the steps below its key. -/
theorem Holds.concat {below cs : List (Nat × α)} {key : Nat} {x : α}
    (hkeys : ∀ k, k ≠ key → (k ∈ below.map Prod.fst ↔ k ∈ cs.map Prod.fst))
    (hvalue : ∀ k < key, Profile.valueAt k below = totalUpTo k cs)
    (hle : ∀ s ∈ below, s.1 ≤ key) :
    Holds (below ++ [(key, total cs + x)]) (cs ++ [(key, x)]) := by
  constructor
  · intro k
    by_cases hk : k = key
    · simp [hk]
    · simp only [List.map_append, List.mem_append, hkeys k hk, List.map_singleton]
  · intro k
    rw [valueAt_concat hle, totalUpTo_concat, total_concat]
    split
    · rfl
    · rename_i hk
      exact hvalue k (not_le.mp hk)

/-- The step of the last key is below no other one, so it can be made anew. -/
theorem Holds.of_concat {below cs : List (Nat × α)} {s : Nat × α} (h : Holds (below ++ [s]) cs)
    (hle : ∀ t ∈ below, t.1 ≤ s.1) :
    (∀ k, k ≠ s.1 → (k ∈ below.map Prod.fst ↔ k ∈ cs.map Prod.fst)) ∧
      ∀ k < s.1, Profile.valueAt k below = totalUpTo k cs := by
  constructor
  · intro k hk
    rw [← h.keys k]
    simp [hk]
  · intro k hk
    rw [← h.valueAt k, valueAt_concat hle, if_neg (not_le.mpr hk)]

theorem Holds.key_le {steps cs : List (Nat × α)} (h : Holds steps cs) {key : Nat}
    (hle : ∀ c ∈ cs, c.1 ≤ key) : ∀ s ∈ steps, s.1 ≤ key := by
  intro s hs
  obtain ⟨c, hc, hcs⟩ := List.mem_map.mp ((h.keys s.1).mp (List.mem_map_of_mem hs))
  exact hcs ▸ hle c hc

/-- The last step has the largest key. -/
theorem Holds.last_key {steps cs : List (Nat × α)} (h : Holds steps cs) (hs : Ascending steps) :
    steps.getLast?.map Prod.fst = (cs.map Prod.fst).max? := by
  cases hlast : steps.getLast? with
  | none =>
    have hnil : cs.map Prod.fst = [] := by
      rw [List.eq_nil_iff_forall_not_mem]
      intro k hk
      rw [← h.keys k, List.getLast?_eq_none_iff.mp hlast] at hk
      simp at hk
    rw [hnil]
    rfl
  | some s =>
    obtain ⟨below, rfl⟩ := List.getLast?_eq_some_iff.mp hlast
    refine (List.max?_eq_some_iff.mpr ⟨(h.keys s.1).mp (by simp), fun k hk => ?_⟩).symm
    obtain ⟨t, ht, rfl⟩ := List.mem_map.mp ((h.keys k).mpr hk)
    rcases List.mem_append.mp ht with ht | ht
    · exact ((List.pairwise_append.mp hs).2.2 t ht s (List.mem_singleton_self s)).le
    · rw [List.mem_singleton.mp ht]

end

end Profile

/-! ### Profiles over job sizes -/

namespace JobSizeProfile

variable {α : Type} [Scalar α]

theorem build_holds (rest : List (Nat × α)) : ∀ (seen made : List (Nat × α)),
    (seen ++ rest).Pairwise (fun c d => c.1 ≤ d.1) → Profile.Holds made.reverse seen →
      Profile.Holds (build made (Profile.total seen) rest) (seen ++ rest) := by
  induction rest with
  | nil =>
    intro seen made _ h
    rwa [List.append_nil, build]
  | cons c rest ih =>
    obtain ⟨key, x⟩ := c
    intro seen made hsorted h
    have hle : ∀ c ∈ seen, c.1 ≤ key := fun c hc =>
      (List.pairwise_append.mp hsorted).2.2 c hc (key, x) List.mem_cons_self
    have hmade := h.key_le hle
    rw [List.append_cons] at hsorted ⊢
    unfold build
    dsimp only
    rw [← Profile.total_concat seen (key, x)]
    cases made with
    | nil =>
      refine ih _ [(key, _)] hsorted ?_
      rw [Profile.total_concat]
      exact (Profile.Holds.concat (fun k _ => h.keys k) (fun k _ => h.valueAt k) hmade :)
    | cons s below =>
      obtain ⟨last, value⟩ := s
      dsimp only
      split
      · rename_i hlast
        subst hlast
        rw [List.reverse_cons] at h hmade
        have hbelow : ∀ t ∈ below.reverse, t.1 ≤ last :=
          fun t ht => hmade t (List.mem_append_left _ ht)
        obtain ⟨hkeys, hvalue⟩ := h.of_concat hbelow
        refine ih _ ((last, _) :: below) hsorted ?_
        rw [List.reverse_cons, Profile.total_concat]
        exact Profile.Holds.concat hkeys hvalue hbelow
      · refine ih _ ((key, _) :: (last, value) :: below) hsorted ?_
        rw [List.reverse_cons, Profile.total_concat]
        exact Profile.Holds.concat (fun k _ => h.keys k) (fun k _ => h.valueAt k) hmade

/-- A profile holds the running totals of what it was built from. -/
theorem ofSorted_holds {cs : List (Nat × α)} (h : cs.Pairwise fun c d => c.1 ≤ d.1) :
    Profile.Holds (ofSorted cs).points cs :=
  build_holds cs [] [] h .nil

end JobSizeProfile

/-! ### Tables over cost ratios -/

namespace RatioProfile

variable {α : Type} [Scalar α]

/-- Contributions under the slots of their ratios. -/
def inSlots (cs : List (α × α)) : List (Nat × α) := cs.map fun c => (ratioSlot c.1, c.2)

/-- No table has a slot for the ratio. -/
def isTooLarge (ratio : α) : Bool := decide (slotLimit ≤ ratioSlot ratio)

/-- The fault of a ratio that no table has a slot for: the slots that a table would need. -/
def tooLarge (ratio : α) : Fault := .profileTooLarge (min (ratioSlot ratio + 1) 0xFFFFFFFFFFFFFFFF) slotLimit

/-- The table up to the first ratio that is too large, if there is one. -/
theorem build_eq (rest : List (α × α)) : ∀ (made : List (Nat × α)) (sum : α),
    (∀ s ∈ made.head?, ∀ c ∈ rest, s.1 ≤ ratioSlot c.1) →
      rest.Pairwise (fun c d => ratioSlot c.1 ≤ ratioSlot d.1) →
      build made sum rest = match rest.find? fun c => isTooLarge c.1 with
        | some c => .error (tooLarge c.1)
        | none => .ok (JobSizeProfile.build made sum (inSlots rest)) := by
  induction rest with
  | nil => exact fun _ _ _ _ => rfl
  | cons c rest ih =>
    obtain ⟨ratio, x⟩ := c
    intro made sum hlast hsorted
    obtain ⟨hfirst, hsorted⟩ := List.pairwise_cons.mp hsorted
    unfold build
    dsimp only
    split
    · rename_i hlarge
      have hfound : isTooLarge ratio = true := decide_eq_true hlarge
      rw [List.find?_cons, hfound]
      rfl
    · rename_i hlarge
      have hfits : isTooLarge ratio = false := decide_eq_false hlarge
      rw [List.find?_cons, hfits, inSlots, List.map_cons]
      have hnext : ∀ (v : α) (below : List (Nat × α)),
          ∀ s ∈ ((ratioSlot ratio, v) :: below).head?, ∀ c ∈ rest, s.1 ≤ ratioSlot c.1 := by
        rintro v below s ⟨⟩
        exact hfirst
      unfold JobSizeProfile.build
      cases made with
      | nil => exact ih _ _ (hnext _ _) hsorted
      | cons s below =>
        obtain ⟨last, value⟩ := s
        have hle : last ≤ ratioSlot ratio := hlast _ rfl (ratio, x) List.mem_cons_self
        dsimp only
        by_cases heq : last = ratioSlot ratio
        · subst heq
          rw [if_pos le_rfl, if_pos rfl]
          exact ih _ _ (hnext _ _) hsorted
        · rw [if_neg (not_le.mpr (lt_of_le_of_ne hle heq)), if_neg heq]
          exact ih _ _ (hnext _ _) hsorted

/-- A table is the profile over the slots, unless a ratio is too large for all tables. -/
theorem ofSorted_eq_inSlots {cs : List (α × α)}
    (h : cs.Pairwise fun c d => ratioSlot c.1 ≤ ratioSlot d.1) :
    ofSorted cs = match cs.find? fun c => isTooLarge c.1 with
      | some c => .error (tooLarge c.1)
      | none => .ok ⟨(JobSizeProfile.ofSorted (inSlots cs)).points⟩ := by
  unfold ofSorted
  rw [build_eq cs [] Scalar.zero (by simp) h]
  cases cs.find? fun c => isTooLarge c.1 with
  | some c => rfl
  | none => rfl

theorem inSlots_pairwise {cs : List (α × α)} :
    (inSlots cs).Pairwise (fun c d => c.1 ≤ d.1) ↔
      cs.Pairwise fun c d => ratioSlot c.1 ≤ ratioSlot d.1 := List.pairwise_map

/-- A table up to the slot of the largest ratio, each slot with the total of all that is in the slots up
to it. -/
structure IsDistribution (p : RatioProfile α) (cs : List (α × α)) : Prop where
  size_eq : p.size = (cs.map fun c => ratioSlot c.1).max?.elim 0 (· + 1)
  valueAt_eq : ∀ i < p.size, p.valueAt i = Profile.totalUpTo i (inSlots cs)

/-- Contributions in the order of their slots make a table, unless one is in none. -/
theorem ofSorted_cases {cs : List (α × α)}
    (h : cs.Pairwise fun c d => ratioSlot c.1 ≤ ratioSlot d.1) :
    (∀ c ∈ cs, ratioSlot c.1 < slotLimit) ∧ (∃ p, ofSorted cs = .ok p ∧ p.IsDistribution cs) ∨
      ∃ before c behind, cs = before ++ c :: behind ∧ (∀ b ∈ before, ratioSlot b.1 < slotLimit) ∧
        slotLimit ≤ ratioSlot c.1 ∧ ofSorted cs = .error (tooLarge c.1) := by
  rw [ofSorted_eq_inSlots h]
  cases hfind : cs.find? fun c => isTooLarge c.1 with
  | none =>
    have hsorted := inSlots_pairwise.mpr h
    have hholds := JobSizeProfile.ofSorted_holds hsorted
    have hlast := hholds.last_key (JobSizeProfile.ofSorted_ascending hsorted)
    refine .inl ⟨fun c hc => ?_, _, rfl, ?_, fun i _ => hholds.valueAt i⟩
    · have hfits := List.find?_eq_none.mp hfind c hc
      exact not_le.mp fun hle => hfits (decide_eq_true hle)
    · have hslots : (inSlots cs).map Prod.fst = cs.map fun c => ratioSlot c.1 := by
        rw [inSlots, List.map_map]
        rfl
      rw [size, ← hslots, ← hlast, Option.elim_map]
      rfl
  | some c =>
    obtain ⟨hlarge, before, behind, hcs, hbefore⟩ := List.find?_eq_some_iff_append.mp hfind
    refine .inr ⟨before, c, behind, hcs, fun b hb => ?_, of_decide_eq_true hlarge, rfl⟩
    have hfits := hbefore b hb
    exact not_le.mp fun hle => by simp [isTooLarge, hle] at hfits

end RatioProfile

end Saturation
