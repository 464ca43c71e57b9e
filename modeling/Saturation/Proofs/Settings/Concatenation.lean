import Saturation.Proofs.Settings.Locality
import Saturation.Proofs.Settings.Normal

/-!
Documents one behind the other. A text whose last setting has a terminator and whose last line is
ended can be put in front of any other: the settings of both are read, and of two settings of one name
the second one counts. An error in the second text is the first error of both, as many lines later as
the first text has.
-/

set_option autoImplicit false

namespace Saturation.Settings

/-! ## Groups over groups -/

namespace Group

/-- The settings of two groups; of two settings of one name, the one in `m` counts. -/
def override (g m : Group) : Group := m.foldl (fun g f => g.insert f.1 f.2) g

variable {g m : Group} {key : String} {v : Value}

theorem override_cons (g m : Group) (f : String × Value) :
    g.override (f :: m) = (g.insert f.1 f.2).override m := rfl

theorem insert_override (h : ∀ f ∈ m, key ≠ f.1) (g : Group) :
    (g.override m).insert key v = (g.insert key v).override m := by
  induction m generalizing g with
  | nil => rfl
  | cons f m ih =>
    obtain ⟨hf, hm⟩ := List.forall_mem_cons.mp h
    rw [override_cons, override_cons, ih hm, insert_comm hf]

theorem override_insert (h : m.Pairwise fun f h => f.1 < h.1) (key : String) (v : Value) (g : Group) :
    g.override (m.insert key v) = (g.override m).insert key v := by
  induction m generalizing g with
  | nil => rfl
  | cons f m ih =>
    obtain ⟨k, w⟩ := f
    obtain ⟨hfirst, hrest⟩ := List.pairwise_cons.mp h
    rw [insert]
    split
    · rename_i hk
      refine (insert_override ?_ g).symm
      exact List.forall_mem_cons.mpr ⟨hk.ne, fun f hf => (hk.trans (hfirst f hf)).ne⟩
    · split
      · rename_i hk
        subst hk
        rw [override_cons, override_cons, insert_override fun f hf => (hfirst f hf).ne, insert_insert]
      · rw [override_cons, override_cons, ih hrest]

theorem ofList_sorted (fields : List (String × Value)) :
    (ofList fields).Pairwise fun f h => f.1 < h.1 := by
  induction fields using List.reverseRecOn with
  | nil => exact .nil
  | append_singleton fields f ih =>
    rw [ofList, List.foldl_append]
    exact insert_sorted f.1 f.2 ih

theorem override_ofList (g : Group) (fields : List (String × Value)) :
    g.override (ofList fields) = g.override fields := by
  induction fields using List.reverseRecOn with
  | nil => rfl
  | append_singleton fields f ih =>
    have hlist : ofList (fields ++ [f]) = (ofList fields).insert f.1 f.2 := by
      rw [ofList, List.foldl_append]
      rfl
    have hover : g.override (fields ++ [f]) = (g.override fields).insert f.1 f.2 := by
      rw [override, List.foldl_append]
      rfl
    rw [hlist, hover, override_insert (ofList_sorted fields), ih]

theorem get?_override (h : m.Pairwise fun f h => f.1 < h.1) (g : Group) (name : String) :
    get? name (g.override m) = (get? name m).or (get? name g) := by
  induction m generalizing g with
  | nil => rfl
  | cons f m ih =>
    obtain ⟨k, w⟩ := f
    obtain ⟨hfirst, hrest⟩ := List.pairwise_cons.mp h
    rw [override_cons, ih hrest, get?_insert, get?]
    by_cases hk : k = name
    · subst hk
      have hnone : get? k m = none := by
        cases hget : get? k m with
        | none => rfl
        | some u => exact absurd (hfirst _ (mem_of_get? hget)) (lt_irrefl k)
      simp [hnone]
    · simp [Ne.symm hk]

end Group

/-! ## The settings at the top -/

/-- The outcome with the value changed. -/
def Reading.map {α β : Type} (f : α → β) : Reading α → Reading β
  | found v rest => .found (f v) rest
  | missed rest => .missed rest
  | broken rest => .broken rest

namespace Reader

def isTerminated (s : List Char) : Bool :=
  match skip s with
  | ';' :: _ => true
  | ',' :: _ => true
  | _ => false

/-- For each setting at the top of a document, whether a terminator stands behind it. -/
def terminators (n : Nat) (s : List Char) : List Bool :=
  match n with
  | 0 => []
  | n + 1 =>
    match assignment n s with
    | .found _ rest => isTerminated rest :: terminators n (terminated rest)
    | _ => []

end Reader

/-- The last setting at the top has a terminator, if there is any. -/
def LastTerminated (s : List Char) : Prop :=
  (Reader.terminators (2 * s.length + 2) s).getLast? ≠ some false

instance (s : List Char) : Decidable (LastTerminated s) := inferInstanceAs (Decidable (_ ≠ _))

namespace Reader

variable {s x : List Char}

theorem isTerminated_followed (h : isTerminated s = true) : Followed s := by
  unfold isTerminated at h
  split at h
  · rename_i hskip
    exact .of_skip hskip (by simp)
  · rename_i hskip
    exact .of_skip hskip (by simp)
  · cases h

theorem terminators_followed {n : Nat} (h : terminators n s ≠ []) : Followed s := by
  cases n with
  | zero => exact absurd rfl h
  | succ n =>
    rw [terminators] at h
    split at h
    · rename_i hread
      exact assignment_followed hread
    · exact absurd rfl h

theorem terminated_endsLine (h : EndsLine s) : EndsLine (terminated s) := by
  unfold terminated
  split
  · rename_i hskip
    exact h.of_skip hskip (by decide)
  · rename_i hskip
    exact h.of_skip hskip (by decide)
  · exact h

/-- If the last setting is terminated, each one is terminated or has another one behind it. -/
theorem terminators_cons {n : Nat} {f : String × Value} {behind : List Char}
    (h : assignment n s = .found f behind) (hlast : (terminators (n + 1) s).getLast? ≠ some false) :
    Followed behind ∧ (terminators n (terminated behind)).getLast? ≠ some false := by
  simp only [terminators, h, List.getLast?_cons] at hlast
  constructor
  · cases hterm : isTerminated behind with
    | true => exact isTerminated_followed hterm
    | false =>
      refine (terminators_followed (n := n) fun hnone => hlast ?_).of_terminated
      rw [hterm, hnone]
      rfl
  · intro hfalse
    rw [hfalse] at hlast
    exact hlast rfl

/-- Settings are read in the same way whatever stands behind them, and the reading goes on there. -/
theorem settings_append {n N : Nat} {before g : Group} {rest : List Char} (hs : EndsLine s)
    (hlast : (terminators n s).getLast? ≠ some false) (hn : 2 * s.length + 2 ≤ n) (hnN : n ≤ N)
    (hN : 2 * (s ++ x).length + 2 ≤ N) (h : settings n s before = .found g rest)
    (hrest : skip rest = []) :
    ∃ m t, 2 * x.length + 2 ≤ m ∧ skip t = skip x ∧ settings N (s ++ x) before = settings m t g := by
  induction n generalizing s N before with
  | zero => omega
  | succ n ih =>
    obtain ⟨N, rfl⟩ : ∃ k, N = k + 1 := ⟨N - 1, by omega⟩
    rw [List.length_append] at hN
    rw [settings] at h
    split at h
    · rename_i name v behind hread
      obtain ⟨behind, ha, rfl⟩ := setting_found hread
      obtain ⟨hfollowed, hlast⟩ := terminators_cons ha hlast
      obtain ⟨hsuffix, hlt⟩ := assignment_suffix ha
      have hbehind := hfollowed.endsLine hs hsuffix
      have hstep : setting N (s ++ x) = .found (name, v) (terminated behind ++ x) := by
        have ha' := ha
        rw [← assignment_steps (m := N) (by omega) (by omega)] at ha'
        rw [setting_eq, (isLocal N x).assignment hs ha' hfollowed]
        simp only [terminated_local hbehind hfollowed]
      have hle := (terminated_suffix behind).length_le
      rw [settings, hstep]
      refine ih (terminated_endsLine hbehind) hlast (by omega) (by omega) ?_ h
      rw [List.length_append]
      omega
    · cases h
      exact ⟨N + 1, _, by omega, skip_local_nil hs hrest x, rfl⟩
    · cases h

/-- What becomes of a document when its settings have been read. -/
def finished : Reading Group → Except (List Char) Group
  | .found fields rest =>
    match skip rest with
    | [] => .ok fields
    | rest => .error rest
  | .missed at' => .error at'
  | .broken at' => .error at'

theorem document_eq (s : List Char) : document s = finished (settings (2 * s.length + 2) s []) := by
  unfold document finished
  cases settings (2 * s.length + 2) s [] <;> rfl

theorem finished_map (r : Reading Group) (f : Group → Group) :
    finished (r.map f) = (finished r).map f := by
  cases r with
  | found fields rest =>
    simp only [Reading.map, finished]
    cases skip rest <;> rfl
  | missed at' => rfl
  | broken at' => rfl

/-- Layout in front of the first setting makes no difference. -/
theorem finished_of_skip {t : List Char} (h : skip s = skip t) {n : Nat} (hn : 2 ≤ n)
    (before : Group) : finished (settings n s before) = finished (settings n t before) := by
  obtain ⟨n, rfl⟩ : ∃ k, n = k + 2 := ⟨n - 2, by omega⟩
  have hset : setting (n + 1) s = setting (n + 1) t := by rw [setting, setting, h]
  rw [settings, settings, hset]
  cases setting (n + 1) t with
  | found f rest => rfl
  | missed at' => simp only [finished, h]
  | broken at' => rfl

/-- The settings that are read do not depend on those in front of them. -/
theorem settings_override (n : Nat) (s : List Char) :
    ∃ r : Reading Group, ∀ before, settings n s before = r.map before.override := by
  induction n generalizing s with
  | zero => exact ⟨.missed s, fun before => rfl⟩
  | succ n ih =>
    cases hset : setting n s with
    | found f rest =>
      obtain ⟨r, hr⟩ := ih rest
      refine ⟨r.map (f :: ·), fun before => ?_⟩
      rw [settings, hset]
      simp only [hr]
      cases r <;> rfl
    | missed at' => exact ⟨.found [] s, fun before => by rw [settings, hset]; rfl⟩
    | broken at' => exact ⟨.broken at', fun before => by rw [settings, hset]; rfl⟩

theorem finished_settings (n : Nat) (s : List Char) (g : Group) :
    finished (settings n s g) = (finished (settings n s [])).map g.override := by
  obtain ⟨r, hr⟩ := settings_override n s
  rw [hr, hr, finished_map, finished_map]
  cases finished r with
  | error at' => rfl
  | ok fields => exact congrArg Except.ok (Group.override_ofList g fields).symm

theorem settings_of_document {g : Group} (h : document s = .ok g) :
    ∃ rest, settings (2 * s.length + 2) s [] = .found g rest ∧ skip rest = [] := by
  unfold document at h
  split at h
  · rename_i fields rest hread
    split at h
    · rename_i hrest
      cases h
      exact ⟨rest, hread, hrest⟩
    · cases h
  · cases h
  · cases h

theorem document_append {P : List Char} {g : Group} (h : document P = .ok g)
    (hlast : LastTerminated P) (hP : EndsLine P) (x : List Char) :
    document (P ++ x) = (document x).map g.override := by
  obtain ⟨rest, hread, hrest⟩ := settings_of_document h
  obtain ⟨m, t, hm, ht, heq⟩ := settings_append hP hlast (Nat.le_refl _)
    (N := 2 * (P ++ x).length + 2) (by rw [List.length_append]; omega) (Nat.le_refl _) hread hrest
  rw [document_eq, heq, finished_of_skip ht (by omega), settings_steps g (Nat.le_refl _) hm,
    finished_settings, ← document_eq]

end Reader

/-! ## Documents -/

theorem lineAt_append_of_suffix {s rest : List Char} (h : rest <:+ s) (P : List Char) :
    lineAt (P ++ s) rest = P.count '\n' + lineAt s rest := by
  have hle := h.sublist.count_le '\n'
  simp only [lineAt, List.count_append]
  omega

theorem document_of_read {s : List Char} {g : Group} (h : read s = .ok g) :
    Reader.document s = .ok g := by
  unfold read at h
  cases hs : Reader.document s with
  | ok m =>
    rw [hs] at h
    cases h
    rfl
  | error rest =>
    rw [hs] at h
    cases h

/-- A document whose last setting is terminated and whose last line is ended can be put in front of
any text. If the text is a document, its settings override those in front of it. If it is none, the
line of its error is counted on from the lines in front of it. -/
theorem read_append {P : List Char} {g : Group} (h : read P = .ok g) (hlast : LastTerminated P)
    (hP : EndsLine P) (x : List Char) :
    (∀ m, read x = .ok m → read (P ++ x) = .ok (g.override m) ∧
      ∀ name, (g.override m).get? name = (m.get? name).or (g.get? name)) ∧
    ∀ e, read x = .error e → read (P ++ x) = .error ⟨P.count '\n' + e.line⟩ := by
  have happend := Reader.document_append (document_of_read h) hlast hP x
  constructor
  · intro m hm
    rw [document_of_read hm] at happend
    refine ⟨?_, Group.get?_override (read_isReadable hm).sorted g⟩
    rw [read, happend]
    rfl
  · intro e he
    unfold read at he
    cases hx : Reader.document x with
    | ok m =>
      rw [hx] at he
      cases he
    | error rest =>
      rw [hx] at he happend
      cases he
      rw [read, happend]
      simp only [Except.map, lineAt_append_of_suffix (Reader.document_suffix hx)]

/-- Two lines, in front of a line that sets one of their names again and in front of a bad one. -/
theorem read_append_twoLines :
    let P := "a = 1;\nb = 2;\n".toList
    LastTerminated P ∧ EndsLine P ∧ ∃ g m, read P = .ok g ∧ read "b = 3".toList = .ok m ∧
      read (P ++ "b = 3".toList) = .ok (g.override m) ∧ read (P ++ "c = ;".toList) = .error ⟨3⟩ := by
  intro P
  have hlast : LastTerminated P := by decide +kernel
  have hends : P.getLast? = some '\n' := by decide +kernel
  obtain ⟨g, hg⟩ : ∃ g, read P = .ok g := exists_of_isOk (by decide +kernel)
  obtain ⟨m, hm⟩ : ∃ m, read "b = 3".toList = .ok m := exists_of_isOk (by decide +kernel)
  have hbad : (match read "c = ;".toList with
    | .ok _ => 0
    | .error e => P.count '\n' + e.line) = 3 := by decide +kernel
  refine ⟨hlast, hends, g, m, hg, hm, ((read_append hg hlast hends _).1 m hm).1, ?_⟩
  cases he : read "c = ;".toList with
  | ok d =>
    rw [he] at hbad
    cases hbad
  | error e =>
    rw [he] at hbad
    have hline : P.count '\n' + e.line = 3 := hbad
    rw [(read_append hg hlast hends _).2 e he, hline]

/-- A string goes on in the next line. -/
example : ¬ LastTerminated "a = \"x\"\n".toList ∧ (read "\"y\"\n".toList).isOk = false ∧
    (read "a = \"x\"\n\"y\"\n".toList).isOk = true := by
  decide +kernel

end Saturation.Settings
