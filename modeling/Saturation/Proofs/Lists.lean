import Saturation.Proofs.Names
import Saturation.Proofs.Units
import Saturation.Selection

/-!
Lists of rates and of policies. A list is read when each of its parts is, and then it has what they
stand for, each at its first place; otherwise it fails as its first bad part does. The texts of
different items are read back from the list that has them between commas. Rates must be small enough
for this to be exact as doubles.
-/

set_option autoImplicit false

namespace Saturation

/-! ### Reading -/

/-- The items of a list, each at its first place. -/
structure IsFirsts {β : Type} [DecidableEq β] (items all : List β) : Prop where
  mem_iff : ∀ x, x ∈ items ↔ x ∈ all
  ordered : items.Pairwise fun x y => all.idxOf x < all.idxOf y

section

variable {β : Type} [DecidableEq β] {items all before seen : List β}

theorem IsFirsts.nil : IsFirsts ([] : List β) [] := ⟨fun _ => Iff.rfl, .nil⟩

theorem IsFirsts.nodup (h : IsFirsts items all) : items.Nodup :=
  h.ordered.imp fun hlt heq => absurd (heq ▸ hlt) (lt_irrefl _)

theorem idxOf_lt_append {x y : β} (hx : x ∈ all) (hy : y ∈ all) (h : all.idxOf x < all.idxOf y)
    (more : List β) : (all ++ more).idxOf x < (all ++ more).idxOf y := by
  rwa [List.idxOf_append_of_mem hx, List.idxOf_append_of_mem hy]

theorem idxOf_lt_concat {x y : β} (hx : x ∈ all) (hy : y ∉ all) :
    (all ++ [y]).idxOf x < (all ++ [y]).idxOf y := by
  rw [List.idxOf_append_of_mem hx, List.idxOf_append_of_notMem hy]
  exact (List.idxOf_lt_length_of_mem hx).trans_le (Nat.le_add_right _ _)

/-- One more item is either there already or has its first place at the end. -/
theorem IsFirsts.step (h : IsFirsts items all) (x : β) :
    IsFirsts (if x ∈ items then items else items ++ [x]) (all ++ [x]) := by
  have hordered : items.Pairwise fun y z => (all ++ [x]).idxOf y < (all ++ [x]).idxOf z :=
    h.ordered.imp_of_mem fun hy hz hlt =>
      idxOf_lt_append ((h.mem_iff _).mp hy) ((h.mem_iff _).mp hz) hlt [x]
  split
  · rename_i hx
    refine ⟨fun y => ?_, hordered⟩
    rw [List.mem_append, List.mem_singleton, ← h.mem_iff]
    exact ⟨.inl, fun hy => hy.elim id fun hyx => hyx ▸ hx⟩
  · rename_i hx
    refine ⟨fun y => by rw [List.mem_append, List.mem_append, h.mem_iff], ?_⟩
    refine List.pairwise_append.mpr ⟨hordered, List.pairwise_singleton _ _, fun y hy z hz => ?_⟩
    obtain rfl := List.mem_singleton.mp hz
    exact idxOf_lt_concat ((h.mem_iff y).mp hy) fun hall => hx ((h.mem_iff z).mpr hall)

variable {read : String → Except Fault β}

theorem readParts_firsts {parts : List (List Char)} (hbefore : IsFirsts before seen)
    (h : readParts read parts before = .ok items) :
    ∃ parsed, List.Forall₂ (fun part x => read (String.ofList part) = .ok x) parts parsed ∧
      IsFirsts items (seen ++ parsed) := by
  induction parts generalizing before seen with
  | nil =>
    cases h
    exact ⟨[], .nil, by rwa [List.append_nil]⟩
  | cons part rest ih =>
    rw [readParts] at h
    cases hpart : read (String.ofList part) with
    | error e =>
      rw [hpart] at h
      cases h
    | ok x =>
      rw [hpart] at h
      obtain ⟨parsed, hparsed, hitems⟩ := ih (hbefore.step x) h
      refine ⟨x :: parsed, .cons hpart hparsed, ?_⟩
      rwa [List.append_assoc, List.singleton_append] at hitems

theorem readParts_error {parts : List (List Char)} {e : Fault}
    (h : readParts read parts before = .error e) :
    ∃ front part rest, parts = front ++ part :: rest ∧
      (∀ p ∈ front, ∃ x, read (String.ofList p) = .ok x) ∧ read (String.ofList part) = .error e := by
  induction parts generalizing before with
  | nil => cases h
  | cons part rest ih =>
    rw [readParts] at h
    cases hpart : read (String.ofList part) with
    | error e' =>
      rw [hpart] at h
      cases h
      exact ⟨[], part, rest, rfl, by simp, hpart⟩
    | ok x =>
      rw [hpart] at h
      obtain ⟨front, bad, rest', rfl, hfront, hbad⟩ := ih h
      exact ⟨part :: front, bad, rest', rfl, List.forall_mem_cons.mpr ⟨⟨x, hpart⟩, hfront⟩, hbad⟩

/-- What the items of a text are, and how a text fails. -/
structure ReadsParts (read : String → Except Fault β) (text : String) : Prop where
  ok_iff : (∃ items, readList read text = .ok items) ↔
    ∀ part ∈ listParts text, ∃ x, read (String.ofList part) = .ok x
  firsts : ∀ items, readList read text = .ok items →
    ∃ parsed, List.Forall₂ (fun part x => read (String.ofList part) = .ok x) (listParts text) parsed ∧
      IsFirsts items parsed
  first_error : ∀ e, readList read text = .error e →
    ∃ front part rest, listParts text = front ++ part :: rest ∧
      (∀ p ∈ front, ∃ x, read (String.ofList p) = .ok x) ∧ read (String.ofList part) = .error e

theorem readsParts (read : String → Except Fault β) (text : String) : ReadsParts read text where
  ok_iff := by
    constructor
    · rintro ⟨items, h⟩ part hpart
      obtain ⟨parsed, hparsed, -⟩ := readParts_firsts .nil h
      obtain ⟨i, hi, rfl⟩ := List.mem_iff_getElem.mp hpart
      exact ⟨_, hparsed.get hi (hparsed.length_eq ▸ hi)⟩
    · intro hall
      cases h : readList read text with
      | ok items => exact ⟨items, rfl⟩
      | error e =>
        obtain ⟨front, part, rest, hparts, -, hpart⟩ := readParts_error h
        obtain ⟨x, hx⟩ := hall part (by simp [hparts])
        rw [hpart] at hx
        cases hx
  firsts _ h := readParts_firsts .nil h
  first_error _ h := readParts_error h

theorem readList_nodup {text : String} (h : readList read text = .ok items) : items.Nodup := by
  obtain ⟨parsed, -, hfirsts⟩ := (readsParts read text).firsts items h
  exact hfirsts.nodup

end

/-! ### Names -/

/-- A text that is read alone as it is read within a list. -/
structure IsItem (name : String) : Prop where
  noComma : ',' ∉ name.toList
  noBlank : ∀ c ∈ name.toList, Text.isBlank c = false
  nonempty : name.toList ≠ []

theorem listParts_names {names : List String} (h : ∀ name ∈ names, IsItem name) :
    listParts (",".intercalate names) = names.map String.toList := by
  have hkeep : ∀ name ∈ names.map String.toList, Text.trim name = name ∧ name ≠ [] := by
    intro cs hcs
    obtain ⟨name, hname, rfl⟩ := List.mem_map.mp hcs
    exact ⟨Text.trim_eq_self (h name hname).noBlank, (h name hname).nonempty⟩
  rcases eq_or_ne names [] with rfl | hne
  · rfl
  · have hsplit : (",".intercalate names).toList.splitOn ',' = names.map String.toList := by
      rw [String.toList_intercalate]
      refine List.splitOn_intercalate ',' ?_ (by simpa using hne)
      intro cs hcs
      obtain ⟨name, hname, rfl⟩ := List.mem_map.mp hcs
      exact (h name hname).noComma
    rw [listParts, hsplit, List.map_congr_left fun cs hcs => (hkeep cs hcs).1, List.map_id']
    exact List.filter_eq_self.mpr fun cs hcs => by simpa using (hkeep cs hcs).2

section

variable {β : Type} [DecidableEq β] {read : String → Except Fault β} {name : β → String}

theorem readParts_names {xs before : List β} (hread : ∀ x ∈ xs, read (name x) = .ok x)
    (hnodup : (before ++ xs).Nodup) :
    readParts read (xs.map fun x => (name x).toList) before = .ok (before ++ xs) := by
  induction xs generalizing before with
  | nil =>
    rw [List.append_nil]
    rfl
  | cons x xs ih =>
    have hnew : x ∉ before := fun hx =>
      (List.nodup_append.mp hnodup).2.2 x hx x List.mem_cons_self rfl
    have happend : before ++ x :: xs = before ++ [x] ++ xs := by simp
    rw [List.map_cons, readParts, String.ofList_toList, hread x List.mem_cons_self]
    rw [happend] at hnodup ⊢
    simp only [hnew, if_false]
    exact ih (fun y hy => hread y (List.mem_cons_of_mem _ hy)) hnodup

/-- Different items are read back from their names with commas between them. -/
theorem readList_names {xs : List β} (hnodup : xs.Nodup) (hitem : ∀ x ∈ xs, IsItem (name x))
    (hread : ∀ x ∈ xs, read (name x) = .ok x) :
    readList read (",".intercalate (xs.map name)) = .ok xs := by
  rw [readList, listParts_names (List.forall_mem_map.mpr hitem), List.map_map]
  exact readParts_names hread hnodup

end

theorem Policy.isItem (p : Policy) : IsItem p.name := by
  cases p <;> exact ⟨by decide, by simp [name, Text.isBlank], by decide⟩

theorem Policy.read_name (p : Policy) : read p.name = .ok p := by cases p <;> decide

namespace Rate

theorem isItem_display (r : Rate) : IsItem r.display where
  noComma h := by
    rcases mem_display h with hd | hu
    · exact absurd hd (by decide)
    · exact absurd hu (by decide)
  noBlank c h := by
    rcases mem_display h with hd | hu
    · exact Text.isBlank_of_isDigit hd
    · simp only [List.mem_cons, List.not_mem_nil, or_false] at hu
      rcases hu with rfl | rfl | rfl <;> rfl
  nonempty := by
    cases hr : r.inUnit with
    | none =>
      rw [display_none hr]
      exact Nat.toDigits_ne_nil
    | some u =>
      rw [display_some hr]
      simp

/-- The digits that a number is written with. -/
def digits (n : Nat) : Settings.Digits :=
  ⟨Nat.toDigits 10 n, Nat.toDigits_ne_nil, Decimal.isDigit_toDigits⟩

theorem digitsValue_digits (n : Nat) : Decimal.digitsValue (digits n).text = n :=
  Nat.ofDigitChars_ten_toDigits

theorem read_digits_of_word {text : String} {n : UInt64} (h : text.toList = (digits n.toNat).text) :
    read text = .ok ⟨n⟩ := by
  rw [read_digits h, digitsValue_digits, if_pos n.toNat_lt]
  simp

/-- Whole units are exact as long as the bits are. -/
theorem read_whole_units {text : String} {n unit : UInt64} {symbol : Char} {bits : Nat}
    (hunit : (unit, symbol) ∈ units) (h : text.toList = (digits n.toNat).text ++ [symbol])
    (hbits : bits = n.toNat * unit.toNat) (hsmall : bits < 2 ^ 53) :
    ∃ r, read text = .ok r ∧ r.bps.toNat = bits := by
  let q := Quantity.whole (digits n.toNat)
  have hvalue : q.value = n.toNat := congrArg Nat.cast (digitsValue_digits n.toNat)
  have hproduct : q.value * unit.toNat = bits := by
    rw [hvalue, hbits, Nat.cast_mul]
  have hunits : n.toNat < 2 ^ 53 :=
    (Nat.le_mul_of_pos_right _ (Nat.cast_pos.mp (unit_pos hunit))).trans_lt (hbits ▸ hsmall)
  have hfinite : q.value < Double.overflow := by
    refine lt_of_lt_of_le ?_ (Double.two_zpow_le_overflow (k := 53) (by decide))
    rw [hvalue]
    exact_mod_cast hunits
  have hread := read_quantity (q := q) hunit h
  rw [if_pos hfinite] at hread
  obtain ⟨r, hr, hrounded⟩ := hread
  have hexact := hrounded.exact
  rw [hproduct, hvalue, Nat.floor_natCast] at hexact
  have hword : (bits : ℚ) < 2 ^ 64 := by exact_mod_cast hsmall.trans (by decide)
  exact ⟨r, hr, hexact hword (Double.isHeld_natCast hunits) (Double.isHeld_natCast hsmall)⟩

/-- A rate is read back from its text when its bits are exact as a double. -/
theorem read_display {r : Rate} (h : r.bps.toNat < 2 ^ 53) : read r.display = .ok r := by
  cases hr : r.inUnit with
  | none => exact read_digits_of_word (display_none hr)
  | some u =>
    obtain ⟨n, symbol⟩ := u
    obtain ⟨-, -, unit, hunit, hbits⟩ := inUnit_some hr
    obtain ⟨r', hread, hr'⟩ := read_whole_units hunit (display_some hr) hbits h
    rw [hread]
    cases r
    cases r'
    simpa [UInt64.toNat_inj] using hr'

end Rate

/-- Lists are read part by part, and what they are read into is told by its names. -/
theorem lists_fit_names :
    (∀ text, ReadsParts Policy.read text) ∧ (∀ text, ReadsParts Rate.read text) ∧
    (∀ r s : Rate, r.display = s.display → r = s) ∧
    (∀ ps : List Policy, ps.Nodup →
      readList Policy.read (",".intercalate (ps.map Policy.name)) = .ok ps) ∧
    ∀ rs : List Rate, rs.Nodup → (∀ r ∈ rs, r.bps.toNat < 2 ^ 53) →
      readList Rate.read (",".intercalate (rs.map Rate.display)) = .ok rs := by
  refine ⟨readsParts _, readsParts _, fun _ _ => Rate.display_injective, fun ps hnodup => ?_,
    fun rs hnodup hsmall => ?_⟩
  · exact readList_names hnodup (fun p _ => p.isItem) fun p _ => p.read_name
  · exact readList_names hnodup (fun r _ => r.isItem_display) fun r hr => Rate.read_display (hsmall r hr)

/-- Three spellings of one rate, and rates in each unit. -/
theorem lists_fit_names_units :
    (∃ parsed, List.Forall₂ (fun part x => Rate.read (String.ofList part) = .ok x)
        (listParts "1G, 1000M,,500M ,1G") parsed ∧ IsFirsts [⟨1000000000⟩, ⟨500000000⟩] parsed) ∧
    readList Policy.read (",".intercalate ([.sjf, .fcfs].map Policy.name)) = .ok [.sjf, .fcfs] ∧
    readList Rate.read (",".intercalate ([⟨2000000000⟩, ⟨1500000⟩, ⟨1234⟩].map Rate.display)) =
      .ok [⟨2000000000⟩, ⟨1500000⟩, ⟨1234⟩] :=
  ⟨(lists_fit_names.2.1 _).firsts _ (by decide +kernel),
    lists_fit_names.2.2.2.1 _ (by decide),
    lists_fit_names.2.2.2.2 _ (by decide) (by decide)⟩

end Saturation
