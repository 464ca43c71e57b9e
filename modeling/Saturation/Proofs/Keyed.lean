import Mathlib.Algebra.BigOperators.Group.List.Basic
import Mathlib.Data.List.Basic
import Mathlib.Data.List.Induction
import Mathlib.Order.Lattice

/-!
Lists of entries in strictly ascending order of their keys. Such a list is determined by what is
found under each key, and what is found under a key after a run of updates depends on the updates
of that key alone.
-/

set_option autoImplicit false

namespace Saturation.Keyed

variable {κ β ι : Type}

def IsSorted [LinearOrder κ] (t : List (κ × β)) : Prop := t.Pairwise fun s u => s.1 < u.1

section

variable [LinearOrder κ]

/-- What stands under a key. -/
def find? (key : κ) : List (κ × β) → Option β
  | [] => none
  | (k, b) :: rest => if key = k then some b else find? key rest

/-- Replaces what stands under a key, if anything does. -/
def update (key : κ) (f : Option β → β) : List (κ × β) → List (κ × β)
  | [] => [(key, f none)]
  | (k, b) :: rest =>
    if key < k then (key, f none) :: (k, b) :: rest
    else if key = k then (k, f (some b)) :: rest
    else (k, b) :: update key f rest

theorem find?_of_lt {key : κ} {t : List (κ × β)} (h : ∀ s ∈ t, key < s.1) : find? key t = none := by
  induction t with
  | nil => rfl
  | cons s t ih =>
    obtain ⟨k, b⟩ := s
    simp only [List.forall_mem_cons] at h
    rw [find?, if_neg h.1.ne, ih h.2]

theorem find?_update {key other : κ} {f : Option β → β} {t : List (κ × β)} (h : IsSorted t) :
    find? other (update key f t) = if other = key then some (f (find? key t)) else find? other t := by
  induction t with
  | nil => simp [update, find?]
  | cons s t ih =>
    obtain ⟨k, b⟩ := s
    obtain ⟨hk, ht⟩ := List.pairwise_cons.mp h
    unfold update
    split
    · rename_i hlt
      have hnone : find? key ((k, b) :: t) = none :=
        find?_of_lt (List.forall_mem_cons.mpr ⟨hlt, fun s hs => hlt.trans (hk s hs)⟩)
      rw [hnone, find?]
    · split
      · rename_i heq
        subst heq
        by_cases ho : other = key <;> simp [find?, ho]
      · rename_i hne
        simp only [find?, ih ht, if_neg hne]
        by_cases ho : other = k
        · simp [ho, Ne.symm hne]
        · simp [ho]

theorem update_forall {P : κ → Prop} {key : κ} (f : Option β → β) {t : List (κ × β)} (hkey : P key)
    (h : ∀ s ∈ t, P s.1) : ∀ s ∈ update key f t, P s.1 := by
  induction t with
  | nil => simpa [update] using hkey
  | cons s t ih =>
    obtain ⟨k, b⟩ := s
    simp only [List.forall_mem_cons] at h
    unfold update
    split
    · simpa only [List.forall_mem_cons] using ⟨hkey, h⟩
    · split
      · simpa only [List.forall_mem_cons] using h
      · simpa only [List.forall_mem_cons] using ⟨h.1, ih h.2⟩

theorem update_isSorted (key : κ) (f : Option β → β) {t : List (κ × β)} (h : IsSorted t) :
    IsSorted (update key f t) := by
  induction t with
  | nil => exact List.pairwise_singleton _ _
  | cons s t ih =>
    obtain ⟨k, b⟩ := s
    obtain ⟨hk, ht⟩ := List.pairwise_cons.mp h
    unfold update
    split
    · rename_i hlt
      exact List.pairwise_cons.mpr
        ⟨List.forall_mem_cons.mpr ⟨hlt, fun s hs => hlt.trans (hk s hs)⟩, h⟩
    · split
      · exact List.pairwise_cons.mpr ⟨hk, ht⟩
      · rename_i hlt hne
        exact List.pairwise_cons.mpr
          ⟨update_forall f (lt_of_le_of_ne (not_lt.mp hlt) (Ne.symm hne)) hk, ih ht⟩

theorem find?_isSome {key : κ} {t : List (κ × β)} :
    (find? key t).isSome = true ↔ key ∈ t.map Prod.fst := by
  induction t with
  | nil => simp [find?]
  | cons s t ih =>
    obtain ⟨k, b⟩ := s
    by_cases h : key = k <;> simp [find?, h, ih]

theorem find?_mem {t : List (κ × β)} (h : IsSorted t) {s : κ × β} (hs : s ∈ t) :
    find? s.1 t = some s.2 := by
  induction t with
  | nil => cases hs
  | cons u t ih =>
    obtain ⟨k, b⟩ := u
    obtain ⟨hk, ht⟩ := List.pairwise_cons.mp h
    rcases List.mem_cons.mp hs with rfl | hs
    · simp [find?]
    · rw [find?, if_neg (hk s hs).ne', ih ht hs]

/-- The keys of a sorted list stand in it once. -/
theorem IsSorted.nodup_keys {t : List (κ × β)} (h : IsSorted t) : (t.map Prod.fst).Nodup := by
  rw [List.Nodup, List.pairwise_map]
  exact h.imp ne_of_lt

/-- A sorted list is determined by what stands under each key. -/
theorem IsSorted.ext {t u : List (κ × β)} (ht : IsSorted t) (hu : IsSorted u)
    (h : ∀ key, find? key t = find? key u) : t = u := by
  induction t generalizing u with
  | nil =>
    cases u with
    | nil => rfl
    | cons s u => exact absurd (h s.1) (by simp [find?])
  | cons s t ih =>
    obtain ⟨k, b⟩ := s
    obtain ⟨hk, ht⟩ := List.pairwise_cons.mp ht
    cases u with
    | nil => exact absurd (h k) (by simp [find?])
    | cons r u =>
      obtain ⟨l, c⟩ := r
      obtain ⟨hl, hu'⟩ := List.pairwise_cons.mp hu
      -- The least key of each list stands in the other one, so it is the same.
      obtain rfl : k = l := by
        by_contra hne
        have hkl := h k
        have hlk := h l
        rw [find?, if_pos rfl, find?, if_neg hne] at hkl
        rw [find?, if_neg (Ne.symm hne), find?, if_pos rfl] at hlk
        rcases lt_or_gt_of_ne hne with hlt | hlt
        · rw [find?_of_lt fun s hs => hlt.trans (hl s hs)] at hkl
          cases hkl
        · rw [find?_of_lt fun s hs => hlt.trans (hk s hs)] at hlk
          cases hlk
      have hb := h k
      simp only [find?, if_true, Option.some.injEq] at hb
      subst hb
      rw [ih ht hu' ?_]
      intro key
      by_cases hkey : key = k
      · rw [hkey, find?_of_lt hk, find?_of_lt hl]
      · have := h key
        rwa [find?, if_neg hkey, find?, if_neg hkey] at this

theorem find?_map {γ : Type} (f : β → γ) (key : κ) (t : List (κ × β)) :
    find? key (t.map fun s => (s.1, f s.2)) = (find? key t).map f := by
  induction t with
  | nil => rfl
  | cons s t ih =>
    obtain ⟨k, b⟩ := s
    by_cases h : key = k <;> simp [find?, h, ih]

theorem IsSorted.map {γ : Type} {t : List (κ × β)} (h : IsSorted t) (f : β → γ) :
    IsSorted (t.map fun s => (s.1, f s.2)) := by
  rw [IsSorted, List.pairwise_map]
  exact h

/-! ### Gathering -/

variable (key : ι → κ) (add : β → ι → β) (zero : β)

/-- Puts inputs together, one after the other, with those of the same key. -/
def gather (xs : List ι) : List (κ × β) :=
  xs.foldl (fun t x => update (key x) (fun b => add (b.getD zero) x) t) []

theorem foldl_update_isSorted (xs : List ι) : ∀ {t : List (κ × β)}, IsSorted t →
    IsSorted (xs.foldl (fun t x => update (key x) (fun b => add (b.getD zero) x) t) t) := by
  induction xs with
  | nil => exact fun h => h
  | cons x xs ih => exact fun h => ih (update_isSorted _ _ h)

theorem gather_isSorted (xs : List ι) : IsSorted (gather key add zero xs) :=
  foldl_update_isSorted key add zero xs List.Pairwise.nil

theorem foldl_some (xs : List ι) (b : β) :
    xs.foldl (fun b x => some (add (b.getD zero) x)) (some b) = some (xs.foldl add b) := by
  induction xs generalizing b with
  | nil => rfl
  | cons x xs ih => exact ih (add b x)

theorem find?_foldl_update (k : κ) (xs : List ι) : ∀ {t : List (κ × β)}, IsSorted t →
    find? k (xs.foldl (fun t x => update (key x) (fun b => add (b.getD zero) x) t) t) =
      (xs.filter fun x => key x = k).foldl (fun b x => some (add (b.getD zero) x)) (find? k t) := by
  induction xs with
  | nil => exact fun _ => rfl
  | cons x xs ih =>
    intro t h
    rw [List.foldl_cons, ih (update_isSorted _ _ h), find?_update h]
    by_cases hx : key x = k
    · rw [List.filter_cons_of_pos (by simpa using hx), List.foldl_cons, if_pos hx.symm, hx]
    · rw [List.filter_cons_of_neg (by simpa using hx), if_neg (Ne.symm hx)]

/-- Under a key stand the inputs that have it. -/
theorem find?_gather (k : κ) (xs : List ι) :
    find? k (gather key add zero xs) = if (xs.filter fun x => key x = k) = [] then none
      else some ((xs.filter fun x => key x = k).foldl add zero) := by
  rw [gather, find?_foldl_update key add zero k xs List.Pairwise.nil]
  cases xs.filter fun x => key x = k with
  | nil => rfl
  | cons x ys =>
    rw [if_neg (List.cons_ne_nil x ys)]
    exact foldl_some add zero ys (add zero x)

theorem gather_eq_map {f : β → β} {xs ys : List ι}
    (hnil : ∀ k, (ys.filter fun x => key x = k) = [] ↔ (xs.filter fun x => key x = k) = [])
    (h : ∀ k, (xs.filter fun x => key x = k) ≠ [] →
      (ys.filter fun x => key x = k).foldl add zero =
        f ((xs.filter fun x => key x = k).foldl add zero)) :
    gather key add zero ys = (gather key add zero xs).map fun s => (s.1, f s.2) := by
  refine (gather_isSorted key add zero ys).ext ((gather_isSorted key add zero xs).map f) fun k => ?_
  rw [find?_map, find?_gather, find?_gather]
  by_cases hk : (xs.filter fun x => key x = k) = []
  · rw [if_pos hk, if_pos ((hnil k).mpr hk)]
    rfl
  · rw [if_neg hk, if_neg (mt (hnil k).mp hk), h k hk]
    rfl

/-- What stands in a list of gathered inputs is the sum of those of its key. -/
theorem mem_gather {xs : List ι} {s : κ × β} (h : s ∈ gather key add zero xs) :
    (xs.filter fun x => key x = s.1) ≠ [] ∧
      s.2 = (xs.filter fun x => key x = s.1).foldl add zero := by
  have hs := find?_mem (gather_isSorted key add zero xs) h
  rw [find?_gather] at hs
  split at hs
  · cases hs
  · rename_i hne
    exact ⟨hne, (Option.some.inj hs).symm⟩

theorem mem_keys_gather {k : κ} {xs : List ι} :
    k ∈ (gather key add zero xs).map Prod.fst ↔ k ∈ xs.map key := by
  rw [← find?_isSome, find?_gather, List.mem_map]
  by_cases h : (xs.filter fun x => key x = k) = []
  · simpa [h] using List.filter_eq_nil_iff.mp h
  · obtain ⟨x, hx⟩ := List.exists_mem_of_ne_nil _ h
    rw [if_neg h]
    exact iff_of_true rfl ⟨x, List.mem_of_mem_filter hx, by simpa using List.of_mem_filter hx⟩

theorem gather_forall {P : β → Prop} (hzero : P zero) {xs : List ι}
    (hadd : ∀ x ∈ xs, ∀ b, P b → P (add b x)) : ∀ s ∈ gather key add zero xs, P s.2 := by
  intro s hs
  rw [(mem_gather key add zero hs).2]
  exact List.foldlRecOn _ add hzero fun b hb x hx => hadd x (List.mem_of_mem_filter hx) b hb

/-! ### Sums -/

section

variable {M : Type} [AddCommMonoid M] {value : κ × β → M}

theorem sum_update {k : κ} {f : Option β → β} {w : M} {t : List (κ × β)}
    (hnew : value (k, f none) = w)
    (hold : ∀ b, (k, b) ∈ t → value (k, f (some b)) = w + value (k, b)) :
    ((update k f t).map value).sum = w + (t.map value).sum := by
  induction t with
  | nil => simp [update, hnew]
  | cons s t ih =>
    obtain ⟨l, b⟩ := s
    unfold update
    split
    · rw [List.map_cons, List.sum_cons, hnew]
    · split
      · rename_i heq
        subst heq
        rw [List.map_cons, List.sum_cons, List.map_cons, List.sum_cons,
          hold b List.mem_cons_self, add_assoc]
      · rw [List.map_cons, List.sum_cons, List.map_cons, List.sum_cons,
          ih fun b hb => hold b (List.mem_cons_of_mem _ hb), add_left_comm]

/-- Where each input adds its weight to what stands under its key, the sum over all keys is that of the
weights. -/
theorem sum_gather {P : β → Prop} {weight : ι → M} (hzero : P zero)
    (hvalue : ∀ k, value (k, zero) = 0) {xs : List ι}
    (hadd : ∀ x ∈ xs, ∀ b, P b →
      P (add b x) ∧ value (key x, add b x) = weight x + value (key x, b)) :
    ((gather key add zero xs).map value).sum = (xs.map weight).sum := by
  induction xs using List.reverseRecOn with
  | nil => rfl
  | append_singleton xs x ih =>
    have hxs : ∀ y ∈ xs, ∀ b, P b →
        P (add b y) ∧ value (key y, add b y) = weight y + value (key y, b) :=
      fun y hy => hadd y (List.mem_append_left _ hy)
    have hx := hadd x (by simp)
    have hconcat : gather key add zero (xs ++ [x]) =
        update (key x) (fun b => add (b.getD zero) x) (gather key add zero xs) := by simp [gather]
    rw [hconcat, sum_update (w := weight x), ih hxs, List.map_append, List.sum_append, add_comm,
      List.map_singleton, List.sum_singleton]
    · rw [Option.getD_none, (hx zero hzero).2, hvalue, add_zero]
    · intro b hb
      exact (hx b (gather_forall key add zero hzero (fun y hy b hb => (hxs y hy b hb).1) _ hb)).2

end

end

end Saturation.Keyed
