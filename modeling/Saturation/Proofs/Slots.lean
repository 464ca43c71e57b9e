import Saturation.Proofs.Steps

/-!
A table is kept as its steps. Filled in slot by slot it comes out the same: slots that are passed over
have the total so far, and the last slot has the new one.
-/

set_option autoImplicit false

namespace Saturation

variable {α : Type} [Scalar α]

namespace Profile

/-- The value of the last step; 0 if there is none. -/
def lastValue (steps : List (Nat × α)) : α := steps.getLast?.elim Scalar.zero Prod.snd

theorem lastValue_concat (steps : List (Nat × α)) (s : Nat × α) : lastValue (steps ++ [s]) = s.2 := by
  rw [lastValue, List.getLast?_concat]
  rfl

theorem valueAt_of_le {steps : List (Nat × α)} {key : Nat} (h : ∀ s ∈ steps, s.1 ≤ key) :
    valueAt key steps = lastValue steps := by
  rw [valueAt, List.takeWhile_eq_self_iff.mpr fun s hs => decide_eq_true (h s hs), lastValue]

end Profile

namespace RatioProfile

open Profile (lastValue lastValue_concat)

/-- All slots of a table. -/
def slots (p : RatioProfile α) : List α := (List.range p.size).map p.valueAt

theorem length_slots (p : RatioProfile α) : p.slots.length = p.size := by simp [slots]

/-- Slots with one more contribution. Where slots are missing in front of its own, they are added with
the total so far; after that the last slot has the new total. -/
def enter (slots : List α) (sum : α) (slot : Nat) (contribution : α) : List α :=
  let slots :=
    if slots.length < slot then slots ++ List.replicate (slot - slots.length) sum else slots
  if slots.length = slot then slots ++ [sum + contribution]
  else slots.set (slots.length - 1) (sum + contribution)

/-- The slots of contributions behind those already entered, whose total is `sum`. -/
def fill (slots : List α) (sum : α) : List (α × α) → Except Fault (List α)
  | [] => .ok slots
  | (ratio, contribution) :: rest =>
    if slotLimit ≤ ratioSlot ratio then .error (tooLarge ratio)
    else fill (enter slots sum (ratioSlot ratio) contribution) (sum + contribution) rest

/-! ## One more step -/

omit [Scalar α] in
theorem size_concat (steps : List (Nat × α)) (s : Nat × α) :
    (⟨steps ++ [s]⟩ : RatioProfile α).size = s.1 + 1 := by
  rw [size, List.getLast?_concat]
  rfl

omit [Scalar α] in
theorem key_lt_size {steps : List (Nat × α)} (h : Ascending steps) :
    ∀ s ∈ steps, s.1 < (⟨steps⟩ : RatioProfile α).size := by
  induction steps using List.reverseRecOn with
  | nil => exact fun s hs => absurd hs List.not_mem_nil
  | append_singleton steps t _ =>
    intro s hs
    rw [size_concat]
    rcases List.mem_append.mp hs with hs | hs
    · exact ((List.pairwise_append.mp h).2.2 s hs t (List.mem_singleton_self t)).trans
        (Nat.lt_succ_self _)
    · rw [List.mem_singleton.mp hs]
      exact Nat.lt_succ_self _

omit [Scalar α] in
theorem ascending_concat {steps : List (Nat × α)} (h : Ascending steps) {s : Nat × α}
    (hs : (⟨steps⟩ : RatioProfile α).size ≤ s.1) : Ascending (steps ++ [s]) := by
  refine List.pairwise_append.mpr ⟨h, List.pairwise_singleton _ _, fun t ht u hu => ?_⟩
  rw [List.mem_singleton.mp hu]
  exact (key_lt_size h t ht).trans_le hs

omit [Scalar α] in
theorem size_le_of_ascending {steps : List (Nat × α)} {s : Nat × α} (h : Ascending (steps ++ [s])) :
    (⟨steps⟩ : RatioProfile α).size ≤ s.1 := by
  unfold size
  cases hl : steps.getLast? with
  | none => exact Nat.zero_le _
  | some t =>
    exact (List.pairwise_append.mp h).2.2 t (List.mem_of_getLast? hl) s (List.mem_singleton_self s)

omit [Scalar α] in
/-- The value of the last step is of no concern to the order. -/
theorem ascending_last {below : List (Nat × α)} {last : Nat} {value : α}
    (h : Ascending (below ++ [(last, value)])) (other : α) :
    Ascending (below ++ [(last, other)]) := by
  simpa [Ascending, List.pairwise_append] using h

/-- Behind its last step, a table would go on with the value of that step. -/
theorem map_valueAt {steps : List (Nat × α)} (h : Ascending steps) {n : Nat}
    (hn : (⟨steps⟩ : RatioProfile α).size ≤ n) :
    (List.range n).map (fun k => Profile.valueAt k steps) =
      slots ⟨steps⟩ ++ List.replicate (n - (⟨steps⟩ : RatioProfile α).size) (lastValue steps) := by
  obtain ⟨k, rfl⟩ := Nat.exists_eq_add_of_le hn
  have hbehind : (List.range k).map (fun i => Profile.valueAt
      ((⟨steps⟩ : RatioProfile α).size + i) steps) = List.replicate k (lastValue steps) := by
    rw [List.eq_replicate_iff]
    refine ⟨by simp, List.forall_mem_map.mpr fun i _ => Profile.valueAt_of_le fun s hs => ?_⟩
    exact (key_lt_size h s hs).le.trans (Nat.le_add_right _ _)
  rw [List.range_add, List.map_append, List.map_map, Nat.add_sub_cancel_left]
  exact congrArg (slots ⟨steps⟩ ++ ·) hbehind

/-- One more step adds the slots in front of it and its own. -/
theorem slots_concat {steps : List (Nat × α)} (h : Ascending steps) {s : Nat × α}
    (hs : (⟨steps⟩ : RatioProfile α).size ≤ s.1) :
    slots ⟨steps ++ [s]⟩ = slots ⟨steps⟩ ++
      List.replicate (s.1 - (⟨steps⟩ : RatioProfile α).size) (lastValue steps) ++ [s.2] := by
  have hle : ∀ t ∈ steps, t.1 ≤ s.1 := fun t ht => ((key_lt_size h t ht).trans_le hs).le
  have hfront : (List.range s.1).map (fun k => Profile.valueAt k (steps ++ [s])) =
      (List.range s.1).map fun k => Profile.valueAt k steps := by
    refine List.map_congr_left fun k hk => ?_
    rw [Profile.valueAt_concat hle, if_neg (not_le.mpr (List.mem_range.mp hk))]
  have hown : Profile.valueAt s.1 (steps ++ [s]) = s.2 := by
    rw [Profile.valueAt_concat hle, if_pos le_rfl]
  rw [← map_valueAt h hs, ← hfront]
  show (List.range (⟨steps ++ [s]⟩ : RatioProfile α).size).map
    (fun k => Profile.valueAt k (steps ++ [s])) = _
  rw [size_concat, List.range_succ, List.map_append, List.map_singleton, hown]

/-! ## The whole table -/

/-- A contribution behind the last slot makes a step of its own. -/
theorem enter_behind {steps : List (Nat × α)} (h : Ascending steps) {slot : Nat}
    (hslot : (⟨steps⟩ : RatioProfile α).size ≤ slot) (x : α) :
    enter (slots ⟨steps⟩) (lastValue steps) slot x =
      slots ⟨steps ++ [(slot, lastValue steps + x)]⟩ := by
  rw [slots_concat h hslot, enter, length_slots]
  rcases hslot.lt_or_eq with hlt | heq
  · have hlength : (slots ⟨steps⟩ ++ List.replicate (slot - (⟨steps⟩ : RatioProfile α).size)
        (lastValue steps)).length = slot := by
      rw [List.length_append, List.length_replicate, length_slots]
      omega
    rw [if_pos hlt, if_pos hlength]
  · rw [if_neg (not_lt.mpr heq.ge), length_slots, if_pos heq, heq, Nat.sub_self,
      List.replicate_zero, List.append_nil]

/-- A contribution in the last slot, or in front of it, counts in the last slot. -/
theorem enter_last {below : List (Nat × α)} {last : Nat} {value : α}
    (h : Ascending (below ++ [(last, value)])) {slot : Nat} (hslot : slot ≤ last) (x : α) :
    enter (slots ⟨below ++ [(last, value)]⟩) value slot x = slots ⟨below ++ [(last, value + x)]⟩ := by
  have hbelow : Ascending below := (List.pairwise_append.mp h).1
  have hsize : (⟨below⟩ : RatioProfile α).size ≤ last := size_le_of_ascending h
  have hlength : (slots ⟨below ++ [(last, value)]⟩).length = last + 1 := by
    rw [length_slots, size_concat]
  have hpassed : ¬ last + 1 < slot := by omega
  have hpushed : ¬ last + 1 = slot := by omega
  rw [enter, hlength, if_neg hpassed, hlength, if_neg hpushed, Nat.add_sub_cancel,
    slots_concat hbelow hsize]
  rw [slots_concat hbelow hsize] at hlength ⊢
  generalize slots ⟨below⟩ ++ List.replicate _ (lastValue below) = front at hlength ⊢
  have hfront : front.length = last := by simpa using hlength
  rw [← hfront, List.set_append_right _ _ le_rfl, Nat.sub_self, List.set_cons_zero]

/-- From what has been made so far on, the slots stay those of the steps. -/
theorem fill_eq_build (rest : List (α × α)) : ∀ (made : List (Nat × α)) (sum : α),
    Ascending made.reverse → sum = lastValue made.reverse →
      fill (slots ⟨made.reverse⟩) sum rest =
        (build made sum rest).map fun steps => slots ⟨steps⟩ := by
  induction rest with
  | nil => exact fun _ _ _ _ => rfl
  | cons c rest ih =>
    obtain ⟨ratio, x⟩ := c
    intro made sum hmade hsum
    have hbehind : (⟨made.reverse⟩ : RatioProfile α).size ≤ ratioSlot ratio →
        fill (enter (slots ⟨made.reverse⟩) sum (ratioSlot ratio) x) (sum + x) rest =
          (build ((ratioSlot ratio, sum + x) :: made) (sum + x) rest).map
            fun steps => slots ⟨steps⟩ := by
      intro hsize
      rw [← ih _ _ (by rw [List.reverse_cons]; exact ascending_concat hmade hsize)
        (by rw [List.reverse_cons, lastValue_concat]), List.reverse_cons, hsum,
        enter_behind hmade hsize]
    unfold fill build
    dsimp only
    split
    · rfl
    · cases made with
      | nil => exact hbehind (Nat.zero_le _)
      | cons s below =>
        obtain ⟨last, value⟩ := s
        dsimp only
        split
        · rename_i hslot
          rw [List.reverse_cons] at hmade hsum ⊢
          rw [lastValue_concat] at hsum
          have hnext := ih ((last, sum + x) :: below) (sum + x)
          rw [List.reverse_cons, lastValue_concat] at hnext
          rw [← hnext (ascending_last hmade _) rfl, hsum, enter_last hmade hslot]
        · rename_i hslot
          refine hbehind ?_
          rw [List.reverse_cons, size_concat]
          exact not_le.mp hslot

/-- Filled in slot by slot, a table has the slots of its steps, or else there is the same fault. -/
theorem fill_eq_slots (cs : List (α × α)) :
    fill [] Scalar.zero cs = (ofSorted cs).map slots := by
  have hbuild := fill_eq_build cs [] Scalar.zero .nil rfl
  have hnone : slots (⟨[]⟩ : RatioProfile α) = [] := rfl
  rw [List.reverse_nil, hnone] at hbuild
  rw [hbuild, ofSorted]
  cases build [] Scalar.zero cs <;> rfl

end RatioProfile

end Saturation
