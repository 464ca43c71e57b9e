import Saturation.Program.Jobs
import Saturation.Proofs.Decimal.Literal
import Saturation.Proofs.Files.Path

/-!
The names that jobs have: a rate is told by its text, a job by its name, and a run by the path of
its configuration. None of them has a slash or a line feed of its own.
-/

set_option autoImplicit false

namespace Saturation

/-! ### Rates -/

namespace Rate

theorem toList_toString (n : UInt64) : (toString n).toList = Nat.toDigits 10 n.toNat :=
  Nat.toList_repr

theorem toDigits_injective {m n : Nat} (h : Nat.toDigits 10 m = Nat.toDigits 10 n) : m = n := by
  rw [← Nat.ofDigitChars_ten_toDigits (n := m), h, Nat.ofDigitChars_ten_toDigits]

theorem inUnit_some {r : Rate} {n : UInt64} {unit : Char} (h : r.inUnit = some (n, unit)) :
    unit.isDigit = false ∧ unit ∈ ['G', 'M', 'K'] ∧
      ∃ size, (size, unit) ∈ units ∧ r.bps.toNat = n.toNat * size.toNat := by
  obtain ⟨⟨size, c⟩, hu, hn⟩ := Option.map_eq_some_iff.mp h
  cases hn
  have hmem := List.mem_of_find?_eq_some hu
  have hfits := List.find?_some hu
  simp only [decide_eq_true_eq] at hfits
  refine ⟨?_, ?_, size, hmem, ?_⟩
  · simp only [units, List.mem_cons, Prod.mk.injEq, List.not_mem_nil, or_false] at hmem
    rcases hmem with ⟨-, rfl⟩ | ⟨-, rfl⟩ | ⟨-, rfl⟩ <;> rfl
  · simp only [units, List.mem_cons, Prod.mk.injEq, List.not_mem_nil, or_false] at hmem
    rcases hmem with ⟨-, rfl⟩ | ⟨-, rfl⟩ | ⟨-, rfl⟩ <;> simp
  · have hmod : r.bps.toNat % size.toNat = 0 := by
      rw [← UInt64.toNat_mod, hfits.2]
      rfl
    rw [UInt64.toNat_div, Nat.div_mul_cancel (Nat.dvd_of_mod_eq_zero hmod)]

theorem display_some {r : Rate} {n : UInt64} {unit : Char} (h : r.inUnit = some (n, unit)) :
    r.display.toList = Nat.toDigits 10 n.toNat ++ [unit] := by
  have hdisplay : r.display = toString n ++ toString unit := by
    unfold display
    rw [h]
  rw [hdisplay, String.toList_append, toList_toString]
  exact congrArg _ (String.toList_singleton unit)

theorem display_none {r : Rate} (h : r.inUnit = none) :
    r.display.toList = Nat.toDigits 10 r.bps.toNat := by
  unfold display
  rw [h]
  exact toList_toString r.bps

/-- The characters of a rate are digits, and a unit at the end. -/
theorem mem_display {r : Rate} {c : Char} (h : c ∈ r.display.toList) :
    c.isDigit ∨ c ∈ ['G', 'M', 'K'] := by
  cases hr : r.inUnit with
  | none =>
    rw [display_none hr] at h
    exact .inl (Decimal.isDigit_toDigits c h)
  | some u =>
    obtain ⟨n, unit⟩ := u
    rw [display_some hr] at h
    rcases List.mem_append.mp h with h | h
    · exact .inl (Decimal.isDigit_toDigits c h)
    · rw [List.mem_singleton.mp h]
      exact .inr (inUnit_some hr).2.1

/-- Rates have different texts. -/
theorem display_injective {r s : Rate} (h : r.display = s.display) : r = s := by
  have hlist := congrArg String.toList h
  cases hr : r.inUnit with
  | none =>
    cases hs : s.inUnit with
    | none =>
      rw [display_none hr, display_none hs] at hlist
      have hbps := UInt64.toNat_inj.mp (toDigits_injective hlist)
      cases r
      cases s
      simpa using hbps
    | some u =>
      obtain ⟨n, unit⟩ := u
      rw [display_none hr, display_some hs] at hlist
      have hdigit : unit.isDigit := Decimal.isDigit_toDigits unit (by rw [hlist]; simp)
      rw [(inUnit_some hs).1] at hdigit
      cases hdigit
  | some u =>
    obtain ⟨n, unit⟩ := u
    cases hs : s.inUnit with
    | none =>
      rw [display_some hr, display_none hs] at hlist
      have hdigit : unit.isDigit := Decimal.isDigit_toDigits unit (by rw [← hlist]; simp)
      rw [(inUnit_some hr).1] at hdigit
      cases hdigit
    | some v =>
      obtain ⟨m, unit'⟩ := v
      rw [display_some hr, display_some hs] at hlist
      obtain ⟨hn, hunit⟩ := List.append_inj' hlist rfl
      cases hunit
      have hnm := UInt64.toNat_inj.mp (toDigits_injective hn)
      subst hnm
      obtain ⟨-, -, size, hsize, hbps⟩ := inUnit_some hr
      obtain ⟨-, -, size', hsize', hbps'⟩ := inUnit_some hs
      have hsame : size = size' := by
        simp only [units, List.mem_cons, Prod.mk.injEq, List.not_mem_nil, or_false] at hsize hsize'
        rcases hsize with ⟨rfl, rfl⟩ | ⟨rfl, rfl⟩ | ⟨rfl, rfl⟩ <;> simp at hsize' <;> exact hsize'.symm
      rw [hsame] at hbps
      have hwords := UInt64.toNat_inj.mp (hbps.trans hbps'.symm)
      cases r
      cases s
      simpa using hwords

end Rate

/-- What a run is for. -/
def Run.triple (r : Run) : Policy × Rate × Rate := (r.policy, r.innocentRate, r.attackRate)

theorem Policy.name_injective {p q : Policy} (h : p.name = q.name) : p = q := by
  cases p <;> cases q <;> first | rfl | exact absurd h (by decide)

theorem Policy.isName (p : Policy) : Path.IsName p.name := by cases p <;> decide

namespace Program

/-! ### Jobs -/

theorem jobName_toList (innocent attack : Rate) :
    (jobName innocent attack).toList =
      'I' :: innocent.display.toList ++ '_' :: 'A' :: attack.display.toList := by
  have hname : jobName innocent attack = "I" ++ innocent.display ++ "_A" ++ attack.display := rfl
  rw [hname]
  simp

theorem not_mem_display {c : Char} (hdigit : c.isDigit = false) (hunit : c ∉ ['G', 'M', 'K'])
    (r : Rate) : c ∉ r.display.toList := by
  intro h
  rcases Rate.mem_display h with hd | hu
  · rw [hdigit] at hd
    cases hd
  · exact hunit hu

/-- Jobs of different rates have different names. -/
theorem jobName_injective {i a i' a' : Rate} (h : jobName i a = jobName i' a') : i = i' ∧ a = a' := by
  have hlist := congrArg String.toList h
  rw [jobName_toList, jobName_toList, List.cons_append, List.cons_append, List.cons.injEq] at hlist
  have hmark : ∀ r : Rate, '_' ∉ r.display.toList := not_mem_display (by decide) (by decide)
  have hparts := congrArg (List.splitOn '_') hlist.2
  rw [Path.splitOn_append, Path.splitOn_append, Path.splitOn_of_not_mem (hmark i),
    Path.splitOn_of_not_mem (hmark i'), List.singleton_append, List.singleton_append,
    List.cons.injEq] at hparts
  have hfront := hparts.1
  have hrest := hlist.2
  rw [hfront, List.append_cancel_left_eq, List.cons.injEq, List.cons.injEq] at hrest
  exact ⟨Rate.display_injective (String.toList_inj.mp hfront),
    Rate.display_injective (String.toList_inj.mp hrest.2.2)⟩

theorem mem_fileName {c : Char} {innocent attack : Rate} {extension : String}
    (h : c ∈ (jobName innocent attack ++ "." ++ extension).toList) :
    c.isDigit ∨ c ∈ ['G', 'M', 'K', 'I', '_', 'A', '.'] ∨ c ∈ extension.toList := by
  simp only [String.toList_append, jobName_toList, List.mem_append, List.mem_cons] at h
  rcases h with ((((rfl | h) | rfl | rfl | h) | h) | h)
  · simp
  · rcases Rate.mem_display h with h | h
    · exact .inl h
    · exact .inr (.inl (List.mem_append_left ['I', '_', 'A', '.'] h))
  · simp
  · simp
  · rcases Rate.mem_display h with h | h
    · exact .inl h
    · exact .inr (.inl (List.mem_append_left ['I', '_', 'A', '.'] h))
  · have hdot : c = '.' := by simpa using h
    simp [hdot]
  · exact .inr (.inr h)

theorem fileName_isName (innocent attack : Rate) {extension : String}
    (h : '/' ∉ extension.toList) :
    Path.IsName (jobName innocent attack ++ "." ++ extension) := by
  have hhead : (jobName innocent attack ++ "." ++ extension).toList.head? = some 'I' := by
    simp [jobName_toList]
  refine ⟨fun hmem => ?_, ?_, ?_, ?_⟩
  · rcases mem_fileName hmem with hd | hc | he
    · cases hd
    · exact absurd hc (by decide)
    · exact h he
  all_goals
    intro heq
    rw [heq] at hhead
    cases hhead

/-! ### Paths of runs -/

namespace JobRequest

variable {j : JobRequest} {subdirectory extension : String}

theorem filePath_eq (hsub : Path.IsName subdirectory) (hext : '/' ∉ extension.toList) (r : Run) :
    j.filePath subdirectory extension r = Path.join j.outputDirectory subdirectory ++ "/" ++
      r.policy.name ++ "/" ++ (jobName r.innocentRate r.attackRate ++ "." ++ extension) := by
  rw [filePath, Path.join_eq (fileName_isName _ _ hext), Path.front_join r.policy.isName,
    Path.join_eq r.policy.isName, Path.front_join hsub]

/-- Files of one kind have different paths for different runs. -/
theorem filePath_injective (hsub : Path.IsName subdirectory) (hext : '/' ∉ extension.toList)
    {r s : Run} (h : j.filePath subdirectory extension r = j.filePath subdirectory extension s) :
    r.triple = s.triple := by
  rw [filePath_eq hsub hext, filePath_eq hsub hext] at h
  have hlist := congrArg String.toList h
  have hlead : ∀ r : Run, (Path.join j.outputDirectory subdirectory ++ "/" ++ r.policy.name ++ "/" ++
      (jobName r.innocentRate r.attackRate ++ "." ++ extension)).toList =
      (Path.join j.outputDirectory subdirectory ++ "/").toList ++
        (r.policy.name.toList ++ '/' ::
          (jobName r.innocentRate r.attackRate ++ "." ++ extension).toList) := by
    intro r
    simp
  rw [hlead, hlead, List.append_cancel_left_eq] at hlist
  have hsplit := congrArg (List.splitOn '/') hlist
  rw [Path.splitOn_append, Path.splitOn_append, Path.splitOn_of_not_mem r.policy.isName.noSlash,
    Path.splitOn_of_not_mem s.policy.isName.noSlash,
    Path.splitOn_of_not_mem (fileName_isName _ _ hext).noSlash,
    Path.splitOn_of_not_mem (fileName_isName _ _ hext).noSlash, List.singleton_append,
    List.singleton_append, List.cons.injEq, List.cons.injEq, String.toList_inj] at hsplit
  obtain ⟨hpolicy, hfile, -⟩ := hsplit
  simp only [String.toList_append, List.append_cancel_right_eq, String.toList_inj] at hfile
  obtain ⟨hinnocent, hattack⟩ := jobName_injective hfile
  rw [Run.triple, Run.triple, Policy.name_injective hpolicy, hinnocent, hattack]

theorem filePath_noFeed (hsub : Path.IsName subdirectory) (hext : '/' ∉ extension.toList)
    (hfeed : '\n' ∉ j.outputDirectory.toList) (hsub' : '\n' ∉ subdirectory.toList)
    (hext' : '\n' ∉ extension.toList) (r : Run) :
    '\n' ∉ (j.filePath subdirectory extension r).toList := by
  intro h
  rcases Path.mem_join (fileName_isName _ _ hext) h with hc | h | h
  · cases hc
  · rcases Path.mem_join r.policy.isName h with hc | h | h
    · cases hc
    · rcases Path.mem_join hsub h with hc | h | h
      · cases hc
      · exact hfeed h
      · exact hsub' h
    · revert h
      cases r.policy <;> decide
  · rcases mem_fileName h with hd | hc | he
    · cases hd
    · exact absurd hc (by decide)
    · exact hext' he

theorem command_noFeed (hsimulator : '\n' ∉ j.simulator.toList)
    (hfeed : '\n' ∉ j.outputDirectory.toList) (r : Run) : '\n' ∉ (j.command r).toList := by
  have hconfiguration : '\n' ∉ (j.configurationPath r).toList :=
    filePath_noFeed (by decide) (by decide) hfeed (by decide) (by decide) r
  have hpackets : '\n' ∉ (j.packetsPath r).toList :=
    filePath_noFeed (by decide) (by decide) hfeed (by decide) (by decide) r
  have hsummary : '\n' ∉ (j.summaryPath r).toList :=
    filePath_noFeed (by decide) (by decide) hfeed (by decide) (by decide) r
  have hcommand : j.command r = j.simulator ++ " --config=" ++ j.configurationPath r ++ " " ++
      (if j.keepPackets then "--packets=" ++ j.packetsPath r ++ " " else "") ++
      "| tee " ++ j.summaryPath r := rfl
  rw [hcommand]
  split <;> simp [hsimulator, hconfiguration, hpackets, hsummary]

/-- The lines of a script are the commands of its runs. -/
theorem script_lines (hsimulator : '\n' ∉ j.simulator.toList)
    (hfeed : '\n' ∉ j.outputDirectory.toList) (runs : List Run) :
    (j.script runs).toList.splitOn '\n' = (runs.map fun r => (j.command r).toList) ++ [[]] := by
  rw [script, String.toList_join]
  induction runs with
  | nil => rfl
  | cons r runs ih =>
    have hline : (j.command r ++ "\n").toList = (j.command r).toList ++ ['\n'] := by simp
    rw [List.map_cons, List.flatMap_cons, hline, List.append_assoc, List.singleton_append,
      Path.splitOn_append, Path.splitOn_of_not_mem (command_noFeed hsimulator hfeed r), ih]
    rfl

end JobRequest

end Program

end Saturation
