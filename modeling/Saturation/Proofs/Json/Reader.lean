import Saturation.Configuration.Source
import Saturation.Proofs.Double.Arithmetic
import Saturation.Proofs.Settings.Normal

/-!
What is read from JSON is a document as soon as wide integers have been narrowed: its floats are
finite, whatever the digits and the exponents they come from, and its groups are in order.
-/

set_option autoImplicit false

namespace Saturation.Json

open Double (IsNearest IsCanonical leastNormal greatestExponent held)
open Settings (Value Group)
open Saturation.Configuration (sourceValue sourceItems sourceFields narrowed)

/-! ## Floats -/

theorem isFinite_of_read {x : Float} {s : Bool} {m : Nat} {q : Int}
    (h : Double.ofFloat x = .finite s m q) : x.isFinite := by
  rw [← Double.isFinite_ofFloat, h]
  rfl

/-- Doubles from zero up to what a word can hold. -/
def IsModerate (x : Float) : Prop :=
  ∃ m q, Double.ofFloat x = .finite false m q ∧ (m : ℚ) * 2 ^ q ≤ 2 ^ 64

theorem IsModerate.isFinite {x : Float} (h : IsModerate x) : x.isFinite := by
  obtain ⟨m, q, hread, -⟩ := h
  exact isFinite_of_read hread

theorem isModerate_of_nearest {x : Float} {r : ℚ} {k : Nat} {p : Int} (hk : IsNearest r k p)
    (hr : r ≤ 2 ^ 64) (hread : Double.ofFloat x = held false k p) : IsModerate x := by
  have hword : IsCanonical leastNormal 12 := ⟨by decide, by decide, .inl le_rfl⟩
  have hvalue : (leastNormal : ℚ) * 2 ^ (12 : Int) = 2 ^ 64 := by norm_num [leastNormal]
  have hle : (k : ℚ) * 2 ^ p ≤ leastNormal * 2 ^ (12 : Int) :=
    hk.mono hword.isNearest (hr.trans_eq hvalue.symm)
  have hp : p ≤ greatestExponent := by
    have := (hk.canonical.le_iff hword).mp hle
    simp only [greatestExponent]
    omega
  exact ⟨k, p, hread.trans (Double.held_of_le hp), hle.trans_eq hvalue⟩

theorem isModerate_ofNat {n : Nat} (h : n < 0x10000000000000000) : IsModerate (Double.ofNat n) := by
  obtain ⟨m, q, hm, hread⟩ := Double.ofFloat_ofNat n
  refine isModerate_of_nearest hm ?_ hread
  have hn : n ≤ 2 ^ 64 := by omega
  exact_mod_cast hn

theorem isModerate_zero : IsModerate 0.0 := ⟨0, -1074, by decide +kernel, by norm_num⟩

theorem powerOfTen_read {places : Nat} (h : places ≤ 308) : ∃ (k : Nat) (r : Int),
    Double.ofFloat (powerOfTen places) = .finite false k r ∧ 1 ≤ (k : ℚ) * 2 ^ r := by
  obtain ⟨k, r, hk, hread⟩ := Double.ofFloat_ofScientific 1 false places
  simp only [Nat.cast_one, one_mul, Bool.false_eq_true, if_false, zpow_natCast] at hk
  have hgreatest : IsCanonical (2 * leastNormal - 1) greatestExponent :=
    ⟨by decide, by decide, .inl (by decide)⟩
  have hone : IsCanonical leastNormal (-52) := ⟨by decide, by decide, .inl le_rfl⟩
  have hvalue : (leastNormal : ℚ) * 2 ^ (-52 : Int) = 1 := by norm_num [leastNormal]
  have hpower : (10 : ℚ) ^ places ≤ (2 * leastNormal - 1 : Nat) * 2 ^ greatestExponent := by
    have hle : 10 ^ places ≤ (2 * leastNormal - 1) * 2 ^ 971 :=
      (Nat.pow_le_pow_right (by decide) h).trans (by decide +kernel)
    rw [greatestExponent, show (971 : Int) = (971 : Nat) from rfl, zpow_natCast]
    exact_mod_cast hle
  have hr := (hk.canonical.le_iff hgreatest).mp (hk.mono hgreatest.isNearest hpower)
  refine ⟨k, r, hread.trans (Double.held_of_le (by omega)), ?_⟩
  rw [← hvalue]
  refine hone.isNearest.mono hk ?_
  rw [hvalue]
  exact one_le_pow₀ (by norm_num)

theorem IsModerate.div {x : Float} (hx : IsModerate x) {places : Nat} (h : places ≤ 308) :
    IsModerate (x / powerOfTen places) := by
  obtain ⟨m, q, hx, hle⟩ := hx
  obtain ⟨n, r, hy, hone⟩ := powerOfTen_read h
  have hn : 0 < n := by
    refine Nat.pos_of_ne_zero ?_
    rintro rfl
    norm_num at hone
  obtain ⟨k, p, hk, hread⟩ := Double.ofFloat_div hx hy hn
  refine isModerate_of_nearest hk ?_ hread
  exact (div_le_self (by positivity) hone).trans hle

theorem IsModerate.scaleDown {x : Float} {places : Nat} (hx : IsModerate x) :
    IsModerate (scaleDown x places) := by
  fun_induction Json.scaleDown x places with
  | case1 x places h => exact hx.div h
  | case2 x places h hzero => exact hx
  | case3 x places h hzero ih => exact ih (hx.div le_rfl)

/-- A product that is not infinite is finite. -/
theorem mul_isFinite {x : Float} (hx : IsModerate x) {places : Nat} (h : places ≤ 308)
    (hinf : (x * powerOfTen places).isInf = false) : (x * powerOfTen places).isFinite := by
  obtain ⟨m, q, hx, -⟩ := hx
  obtain ⟨n, r, hy, -⟩ := powerOfTen_read h
  obtain ⟨k, p, -, hread⟩ := Double.ofFloat_mul hx hy
  have hunpack : (x * powerOfTen places).isInf =
      (x * powerOfTen places).toModel.unpack.isInf := rfl
  rw [hunpack, Double.unpack_toModel, hread] at hinf
  rw [← Double.isFinite_ofFloat, hread]
  unfold held at hinf ⊢
  split
  · rename_i hp
    rw [if_pos hp] at hinf
    cases hinf
  · rfl

theorem scaled?_isFinite {n : Nat} {e : Int} {x : Float} (hn : n < 0x10000000000000000)
    (h : scaled? n e = some x) : x.isFinite := by
  unfold scaled? at h
  split at h
  · dsimp only at h
    split at h
    · rename_i hplaces
      split at h
      · cases h
      · rename_i hinf
        cases h
        exact mul_isFinite (isModerate_ofNat hn) hplaces (Bool.not_eq_true _ ▸ hinf)
    · split at h
      · cases h
        exact (isModerate_ofNat hn).isFinite
      · cases h
  · cases h
    exact (isModerate_ofNat hn).scaleDown.isFinite

theorem float?_isFinite {n : Nat} {e : Int} {exponent : Option (Bool × List Char)} {x : Float}
    (hn : n < 0x10000000000000000) (h : float? n e exponent = some x) : x.isFinite := by
  unfold float? at h
  split at h
  · exact scaled?_isFinite hn h
  · dsimp only at h
    split at h
    · exact scaled?_isFinite hn h
    · split at h
      · cases h
      · cases h
        exact isModerate_zero.isFinite

/-! ## Numbers -/

theorem absorb_lt {n : Nat} {ds : List Char} (h : n < 0x10000000000000000) :
    (absorb n ds).1 < 0x10000000000000000 := by
  induction ds generalizing n with
  | nil => exact h
  | cons d ds ih =>
    rw [absorb]
    split
    · rename_i hm
      exact ih hm
    · exact h

/-- Integers fit a word, and floats are finite. -/
def IsHeld : Nat ⊕ Float → Prop
  | .inl n => n < 0x10000000000000000
  | .inr x => x.isFinite

theorem Numeral.magnitude?_isHeld {d : Numeral} {r : Nat ⊕ Float} (h : d.magnitude? = some r) :
    IsHeld r := by
  unfold magnitude? at h
  dsimp only at h
  have hwhole : (absorb 0 d.whole).1 < 0x10000000000000000 := absorb_lt (by decide)
  split at h
  · cases h
    exact hwhole
  · obtain ⟨x, hx, rfl⟩ := Option.map_eq_some_iff.mp h
    exact float?_isFinite (absorb_lt hwhole) hx

theorem neg_isFinite {x : Float} (h : x.isFinite) : (-x).isFinite := by
  rw [← Double.isFinite_ofFloat] at h
  cases hx : Double.ofFloat x with
  | finite s m q => exact isFinite_of_read (Double.ofFloat_neg hx)
  | notANumber | infinite s =>
    rw [hx] at h
    cases h

theorem float_isDocument {x : Float} (h : x.isFinite) : (sourceValue (.float x)).IsDocument := by
  simpa only [sourceValue, narrowed, Value.IsDocument] using h

theorem int_isDocument {n : Int} (h : n < 0x10000000000000000) :
    (sourceValue (.int n)).IsDocument := by
  simp only [sourceValue, narrowed]
  split
  · trivial
  · rw [Value.IsDocument]
    exact (isModerate_ofNat (by omega)).isFinite

theorem Numeral.value?_isDocument {d : Numeral} {negative : Bool} {v : Value}
    (h : d.value? negative = some v) : (sourceValue v).IsDocument := by
  unfold value? at h
  split at h
  · rename_i n hn
    have hheld : n < 0x10000000000000000 := magnitude?_isHeld hn
    split at h
    · cases h
      split
      · exact int_isDocument (by omega)
      · exact float_isDocument (neg_isFinite (isModerate_ofNat hheld).isFinite)
    · cases h
      -- As a numeral of its own, the integer is not computed with.
      generalize hi : (n : Int) = i
      exact int_isDocument (by omega)
  · rename_i x hx
    cases h
    refine float_isDocument ?_
    split
    · exact neg_isFinite (magnitude?_isHeld hx)
    · exact magnitude?_isHeld hx
  · cases h

theorem number?_isDocument {s rest : List Char} {v : Value}
    (h : number? Numeral.value? s = some (v, rest)) : (sourceValue v).IsDocument := by
  unfold number? at h
  dsimp only at h
  split at h
  · obtain ⟨v', hv, h⟩ := Option.map_eq_some_iff.mp h
    cases h
    exact Numeral.value?_isDocument hv
  · cases h

/-! ## Values -/

section Parts

variable {β : Type} {close : Char} {part? : List Char → Option (β × List Char)} {P : β → Prop}

theorem more?_forall (hpart : ∀ {s x rest}, part? s = some (x, rest) → P x) (n : Nat) :
    ∀ {before : List β} {s rest : List Char} {xs : List β}, (∀ x ∈ before, P x) →
      more? close part? n before s = some (xs, rest) → ∀ x ∈ xs, P x := by
  induction n with
  | zero =>
    intro before s rest xs _ h
    cases h
  | succ n ih =>
    intro before s rest xs hbefore h
    unfold more? at h
    split at h
    · split at h
      · rename_i hx
        exact ih (List.forall_mem_cons.mpr ⟨hpart hx, hbefore⟩) h
      · cases h
    · split at h
      · cases h
        exact fun x hx => hbefore x (List.mem_reverse.mp hx)
      · cases h
    · cases h

theorem parts?_forall (hpart : ∀ {s x rest}, part? s = some (x, rest) → P x) {n : Nat}
    {s rest : List Char} {xs : List β} (h : parts? close part? n s = some (xs, rest)) :
    ∀ x ∈ xs, P x := by
  unfold parts? at h
  split at h
  · cases h
  · split at h
    · cases h
      exact fun x hx => absurd hx List.not_mem_nil
    · split at h
      · rename_i hx
        exact more?_forall hpart n (List.forall_mem_cons.mpr ⟨hpart hx, by simp⟩) h
      · cases h

end Parts

theorem sourceItems_eq (items : List Value) : sourceItems items = items.map sourceValue := by
  induction items with
  | nil => rfl
  | cons v vs ih => rw [sourceItems, ih, List.map_cons]

theorem sourceFields_eq (fields : List (String × Value)) :
    sourceFields fields = fields.map fun f => (f.1, sourceValue f.2) := by
  induction fields with
  | nil => rfl
  | cons f fields ih => rw [sourceFields, ih, List.map_cons]

theorem foldl_insert_sorted (fields : List (String × Value)) : ∀ {g : Group},
    g.Pairwise (fun f h => f.1 < h.1) →
      (fields.foldl (fun g f => g.insert f.1 f.2) g).Pairwise fun f h => f.1 < h.1 := by
  induction fields with
  | nil => exact fun hg => hg
  | cons f fields ih => exact fun hg => ih (Group.insert_sorted f.1 f.2 hg)

theorem mem_foldl_insert {f : String × Value} (fields : List (String × Value)) : ∀ {g : Group},
    f ∈ fields.foldl (fun g f => g.insert f.1 f.2) g → f ∈ g ∨ f ∈ fields := by
  induction fields with
  | nil => exact fun hg => .inl hg
  | cons f' fields ih =>
    intro g hg
    rcases ih hg with h | h
    · rcases Group.mem_insert h with rfl | h
      · exact .inr List.mem_cons_self
      · exact .inl h
    · exact .inr (List.mem_cons_of_mem _ h)

theorem obj_isDocument {fields : List (String × Value)}
    (h : ∀ f ∈ fields, (sourceValue f.2).IsDocument) :
    (sourceValue (.obj (Group.ofList fields))).IsDocument := by
  rw [sourceValue, Value.IsDocument, sourceFields_eq, Value.areFields_iff]
  refine ⟨List.pairwise_map.mpr (foldl_insert_sorted fields .nil), fun f hf => ?_⟩
  obtain ⟨f', hf', rfl⟩ := List.mem_map.mp hf
  exact h f' ((mem_foldl_insert fields hf').resolve_left List.not_mem_nil)

theorem arr_isDocument {items : List Value} (h : ∀ v ∈ items, (sourceValue v).IsDocument) :
    (sourceValue (.arr items)).IsDocument := by
  rw [sourceValue, Value.IsDocument, sourceItems_eq, Value.areDocuments_iff]
  intro v hv
  obtain ⟨v', hv', rfl⟩ := List.mem_map.mp hv
  exact h v' hv'

theorem field?_isDocument {part? : List Char → Option (Value × List Char)}
    (hpart : ∀ {s v rest}, part? s = some (v, rest) → (sourceValue v).IsDocument)
    {s rest : List Char} {f : String × Value} (h : field? part? s = some (f, rest)) :
    (sourceValue f.2).IsDocument := by
  unfold field? at h
  split at h
  · split at h
    · obtain ⟨⟨v, rest'⟩, hv, hf⟩ := Option.map_eq_some_iff.mp h
      cases hf
      exact hpart hv
    · cases h
  · cases h

theorem value?_isDocument (n depth : Nat) {s rest : List Char} {v : Value}
    (h : value? Numeral.value? n depth s = some (v, rest)) : (sourceValue v).IsDocument := by
  unfold value? at h
  split at h
  case h_1 | h_2 | h_3 | h_4 =>
    obtain ⟨r, -, hv⟩ := Option.map_eq_some_iff.mp h
    cases hv
    simp only [sourceValue, narrowed, Value.IsDocument]
  case h_5 | h_7 => cases h
  case h_6 cs depth =>
    obtain ⟨⟨items, rest'⟩, hitems, hv⟩ := Option.map_eq_some_iff.mp h
    cases hv
    exact arr_isDocument (parts?_forall (value?_isDocument n depth) hitems)
  case h_8 cs depth =>
    obtain ⟨⟨fields, rest'⟩, hfields, hv⟩ := Option.map_eq_some_iff.mp h
    cases hv
    exact obj_isDocument (parts?_forall (field?_isDocument (value?_isDocument n depth)) hfields)
  case h_9 => exact number?_isDocument h
termination_by depth

/-- The settings in a JSON text are a document. -/
theorem ofText_isDocument {text : List Char} {g : Group}
    (h : Configuration.ofText Configuration.jsonFormat text = .ok g) : (Value.obj g).IsDocument := by
  unfold Configuration.ofText Configuration.jsonFormat at h
  dsimp only at h
  split at h
  · rename_i fields hfields
    cases h
    split at hfields
    · rename_i fields' hread
      cases hfields
      unfold read? readBy? at hread
      split at hread
      · rename_i v rest hv
        split at hread
        · cases hread
          simpa only [sourceValue] using value?_isDocument _ _ hv
        · cases hread
      · cases hread
    · cases hfields
  · cases h

end Saturation.Json

namespace Saturation.Settings

/-! ## What JSON holds -/

theorem Group.foldl_insert_of_sorted (fields : List (String × Value)) : ∀ {g : Group},
    (g ++ fields).Pairwise (fun f h => f.1 < h.1) →
      fields.foldl (fun g f => g.insert f.1 f.2) g = g ++ fields := by
  induction fields with
  | nil => simp
  | cons f fields ih =>
    intro g h
    have hlast : Group.insert f.1 f.2 g = g ++ [f] := Group.insert_append fun f' hf' =>
      (List.pairwise_append.mp h).2.2 f' hf' f List.mem_cons_self
    rw [List.foldl_cons, hlast, ih (by simpa using h), List.append_assoc, List.singleton_append]

/-- Fields that are in order are kept. -/
theorem Group.ofList_of_sorted {fields : List (String × Value)}
    (h : fields.Pairwise fun f g => f.1 < g.1) : Group.ofList fields = fields :=
  foldl_insert_of_sorted fields (g := []) h

namespace Value

theorem heldItems_eq (items : List Value) : heldItems items = items.map held := by
  induction items with
  | nil => rfl
  | cons v vs ih => rw [heldItems, ih, List.map_cons]

theorem heldFields_eq (fields : List (String × Value)) :
    heldFields fields = fields.map fun f => (f.1, f.2.held) := by
  induction fields with
  | nil => rfl
  | cons f fields ih => rw [heldFields, ih, List.map_cons]

mutual

theorem held_isDocument : ∀ v : Value, v.held.IsDocument
  | .null | .bool _ | .int _ | .str _ => by simp only [held, IsDocument]
  | .float x => by
    unfold held
    split
    · rwa [IsDocument]
    · trivial
  | .arr items => by
    rw [held, IsDocument, areDocuments_iff]
    exact heldItems_areDocuments items
  | .obj fields => by
    rw [held, IsDocument, areFields_iff]
    exact ⟨Json.foldl_insert_sorted _ .nil, fun f hf => heldFields_areDocuments fields f
      ((Json.mem_foldl_insert _ hf).resolve_left List.not_mem_nil)⟩

theorem heldItems_areDocuments : ∀ items : List Value, ∀ v ∈ heldItems items, v.IsDocument
  | [] => by simp [heldItems]
  | v :: vs => List.forall_mem_cons.mpr ⟨held_isDocument v, heldItems_areDocuments vs⟩

theorem heldFields_areDocuments : ∀ fields : List (String × Value),
    ∀ f ∈ heldFields fields, f.2.IsDocument
  | [] => by simp [heldFields]
  | (_, v) :: rest => List.forall_mem_cons.mpr ⟨held_isDocument v, heldFields_areDocuments rest⟩

end

mutual

/-- A document is held as it is. -/
theorem held_of_isDocument : ∀ v : Value, v.IsDocument → v.held = v
  | .null, _ | .bool _, _ | .int _, _ | .str _, _ => rfl
  | .float x, h => if_pos h
  | .arr items, h => by rw [held, heldItems_of_areDocuments items h]
  | .obj fields, h => by
    rw [held, heldFields_of_areFields fields h.2, Group.ofList_of_sorted h.1]

theorem heldItems_of_areDocuments : ∀ items : List Value, AreDocuments items → heldItems items = items
  | [], _ => rfl
  | v :: vs, h => by rw [heldItems, held_of_isDocument v h.1, heldItems_of_areDocuments vs h.2]

theorem heldFields_of_areFields : ∀ fields : List (String × Value), AreFields fields →
    heldFields fields = fields
  | [], _ => rfl
  | (_, v) :: rest, h => by
    rw [heldFields, held_of_isDocument v h.1, heldFields_of_areFields rest h.2]

end

end Value

end Saturation.Settings
