import Saturation.Proofs.Files.Tree

/-!
Where a tree of files changes. An operation on a path changes the node at the location that the
path stands for, or below it; all it may do elsewhere is to make a directory where nothing was. The
paths to the directories that a path is in stand for locations above its own, unless one of its
names leads upwards.
-/

set_option autoImplicit false

namespace Saturation.FileTree

variable {t t' t'' : FileTree} {home top l : Location} {made : Location → Prop} {path : String}

/-- Nothing changes but what is at a location or below it; directories may be made elsewhere. -/
def Confined (top : Location) (made : Location → Prop) (t t' : FileTree) : Prop :=
  ∀ l, t'.get? l ≠ t.get? l → top <+: l ∨ made l ∧ t.get? l = none ∧ t'.get? l = some .directory

namespace Confined

theorem refl (top : Location) (made : Location → Prop) (t : FileTree) : Confined top made t t :=
  fun _ h => absurd rfl h

theorem trans (h : Confined top made t t') (h' : Confined top made t' t'') :
    Confined top made t t'' := by
  intro l hl
  by_cases hfirst : t'.get? l = t.get? l
  · rw [← hfirst] at hl ⊢
    exact h' l hl
  · rcases h l hfirst with htop | ⟨hmade, hnone, hdir⟩
    · exact .inl htop
    · by_cases hsecond : t''.get? l = t'.get? l
      · exact .inr ⟨hmade, hnone, hsecond.trans hdir⟩
      · -- What has been made is a directory by now, and that is never made again.
        refine (h' l hsecond).imp_right fun ⟨_, hnone', _⟩ => ?_
        rw [hdir] at hnone'
        cases hnone'

/-- A node elsewhere stays what it is. -/
theorem same {n : Node} (h : Confined top made t t') (hn : t.get? l = some n)
    (hl : ¬ top <+: l) : t'.get? l = some n := by
  by_contra hne
  rw [← hn] at hne
  rcases h l hne with htop | ⟨-, hnone, -⟩
  · exact hl htop
  · rw [hn] at hnone
    cases hnone

end Confined

/-! ### Operations -/

theorem confined_set {n : Node} (hne : l ≠ []) (h : top <+: l) : Confined top made t (t.set l n) := by
  intro k hk
  rw [get?_set hne] at hk
  split at hk
  · rename_i hkl
    exact .inl (hkl ▸ h)
  · exact absurd rfl hk

theorem confined_erase (hne : l ≠ []) (h : top <+: l) : Confined top made t (t.erase l) := by
  intro k hk
  rw [get?_erase hne] at hk
  split at hk
  · rename_i hkl
    exact .inl (hkl ▸ h)
  · exact absurd rfl hk

theorem confined_clear (h : top <+: l) : Confined top made t (t.clear l) := by
  intro k hk
  rw [get?_clear] at hk
  split at hk
  · rename_i hkl
    exact .inl (h.trans hkl.2.1)
  · exact absurd rfl hk

theorem put_confined {make : Option Bool → Bytes × Bool} (htop : top <+: location home path)
    (h : t.put home path make = .ok t') : Confined top made t t' := by
  unfold put at h
  split at h
  · cases h
  · cases h
  · cases h
  · rename_i l htarget
    have hne := target_ne_nil htarget
    rw [← target_location htarget] at htop
    split at h
    · cases h
    · split at h
      · cases h
      · cases h
        exact .refl _ _ t
      · cases h
        exact confined_set hne htop
      · cases h
        exact confined_set hne htop

theorem copy_confined {copied : String} (htop : top <+: location home copied)
    (h : t.copy home path copied = .ok t') : Confined top made t t' := by
  unfold copy at h
  split at h
  · cases h
  · exact put_confined htop h
  · cases h

theorem makeDirectory_confined (hmade : top <+: location home path ∨ made (location home path))
    (h : t.makeDirectory home path = .ok t') : Confined top made t t' := by
  unfold makeDirectory at h
  split at h
  · cases h
  · cases h
  · cases h
  · rename_i l htarget
    have hne := target_ne_nil htarget
    rw [← target_location htarget] at hmade
    split at h
    · cases h
    · rename_i hnone
      cases h
      intro k hk
      rw [get?_set hne] at hk ⊢
      split at hk
      · rename_i hkl
        subst hkl
        exact hmade.imp_right fun hmade => ⟨hmade, hnone, if_pos rfl⟩
      · exact absurd rfl hk

theorem removeFile_confined (htop : top <+: location home path)
    (h : t.removeFile home path = .ok t') : Confined top made t t' := by
  unfold removeFile at h
  split at h
  · cases h
  · cases h
  · cases h
  · rename_i l htarget
    have hne := target_ne_nil htarget
    rw [← target_location htarget] at htop
    split at h
    · cases h
    · cases h
    · split at h
      · cases h
      · cases h
        exact confined_erase hne htop

theorem removeEmpty_confined (htop : top <+: location home path)
    (h : t.removeEmpty home path = .ok t') : Confined top made t t' := by
  unfold removeEmpty at h
  split at h
  · cases h
  · cases h
  · cases h
  · rename_i l htarget
    have hne := target_ne_nil htarget
    rw [← target_location htarget] at htop
    split at h
    · cases h
    · cases h
      exact confined_erase hne htop
    · cases h

theorem removeTree_confined (htop : top <+: location home path) :
    Confined top made t (t.removeTree home path).1 := by
  unfold removeTree
  split
  · exact .refl _ _ t
  · rename_i l hlocate
    rw [← locate_location hlocate] at htop
    have hcleared : Confined top made t (t.clear l) := confined_clear htop
    dsimp only
    split
    · rename_i hempty
      rw [locate_location hlocate] at htop
      exact hcleared.trans (removeEmpty_confined htop hempty)
    · exact hcleared
    · exact hcleared
  · exact .refl _ _ t

theorem markExecutable_confined (htop : top <+: location home path)
    (h : t.markExecutable home path = .ok t') : Confined top made t t' := by
  unfold markExecutable at h
  split at h
  · cases h
  · rename_i l b x hlocate
    cases h
    rw [← locate_location hlocate] at htop
    refine confined_set ?_ htop
    rintro rfl
    cases (locate_ok hlocate).2.2.1
  · cases h
    exact .refl _ _ t

/-! ### Ancestors -/

/-- Without a name that leads upwards, the names of a path are the way down to its location. -/
theorem location_eq (h : ".." ∉ Path.parts path) :
    location home path = origin home path ++ Path.names path := by
  have hfold : ∀ (parts : List String) (here : Location), ".." ∉ parts →
      parts.foldl next here = here ++ parts.filter (· ≠ ".") := by
    intro parts
    induction parts with
    | nil => simp
    | cons name rest ih =>
      intro here hparts
      obtain ⟨hname, hrest⟩ := not_or.mp (List.mem_cons.not.mp hparts)
      rw [List.foldl_cons, ih _ hrest]
      by_cases hhere : name = "."
      · simp [next, hhere]
      · simp [next, hhere, Ne.symm hname]
  exact hfold _ _ h

theorem location_ancestor {p : String} (h : ".." ∉ Path.parts path) (hp : p ∈ Path.ancestors path) :
    location home p <+: location home path := by
  obtain ⟨habsolute, hparts, hnames⟩ := Path.ancestors_spec hp
  rw [location_eq h, location_eq fun hup => h (hparts _ hup), origin, origin, habsolute]
  exact (List.prefix_append_right_inj _).mpr hnames

end Saturation.FileTree
