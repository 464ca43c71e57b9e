import Saturation.Proofs.Jobs

/-!
What is printed while jobs are laid out. The runs come one behind the other, and a heading is printed
where a policy or an innocent rate differs from the one before. No policy and no rate of a selection
is there twice, so each policy has its heading once and each innocent rate its own below it, as if
the policies, their innocent rates and their attack rates were gone through one inside the other.
-/

set_option autoImplicit false

namespace Saturation

namespace Machine

variable {β : Type} {w w' : Machine}

/-! ## Printing -/

/-- Lines as they are printed. -/
def printout (lines : List String) : String := String.join (lines.map fun line => line ++ "\n")

theorem printout_append (lines lines' : List String) :
    printout (lines ++ lines') = printout lines ++ printout lines' := by
  rw [printout, List.map_append, String.join_append]
  rfl

theorem printout_singleton (line : String) : printout [line] = line ++ "\n" := by
  simp [printout, String.join_cons]

/-- Lines have been printed, and nothing else. -/
def Prints (lines : List String) (w w' : Machine) : Prop := w'.printed = w.printed ++ printout lines

theorem Prints.trans {lines lines' : List String} {v : Machine} (h : Prints lines w v)
    (h' : Prints lines' v w') : Prints (lines ++ lines') w w' := by
  rw [Prints, h', h, printout_append, String.append_assoc]

theorem say_prints (text : String) : Keeps (Prints [text]) (Host.say text) := by
  intro w
  rw [Prints, printout_singleton]
  rfl

theorem sayAll_prints (lines : List String) : Keeps (Prints lines) (Program.sayAll lines) := by
  induction lines with
  | nil => exact fun w => String.append_empty.symm
  | cons line lines ih => exact fun w => (say_prints line w).trans (ih _)

/-- Nothing has been printed. -/
def Mute (w w' : Machine) : Prop := w'.printed = w.printed

instance : Std.Refl Mute := ⟨fun _ => rfl⟩

instance : IsTrans Machine Mute := ⟨fun _ _ _ h h' => Eq.trans h' h⟩

theorem Mute.prints {lines : List String} {v : Machine} (h : Mute w v) (h' : Prints lines v w') :
    Prints lines w w' := by
  rw [Prints, h', h]

theorem Prints.mute {lines : List String} {v : Machine} (h : Prints lines w v) (h' : Mute v w') :
    Prints lines w w' := Eq.trans h' h

theorem Silent.mute (h : Silent w w') : Mute w w' := h.printed

theorem change_mute (f : FileTree → Location → Except SystemError FileTree) : Keeps Mute (change f) := by
  intro w
  rcases change_cases f w with ⟨e, he⟩ | ⟨t, -, hok⟩
  · rw [he]
    exact refl_of Mute w
  · rw [hok]
    rfl

theorem launch_mute (simulator : String) (arguments : List String) :
    Keeps Mute (Host.launch simulator arguments) := by
  intro w
  show Mute w (launch simulator arguments w).2
  rcases launch_cases simulator arguments w with ⟨e, he⟩ | ⟨l, p, -, hok⟩
  · rw [he]
    exact refl_of Mute w
  · rw [hok]
    rfl

theorem log_mute (event : Event) : Keeps Mute (Host.log event) :=
  (log_silent event).mono fun _ _ => Silent.mute

theorem makeDirectory_mute (path : String) : Keeps Mute (Host.makeDirectory path) :=
  change_mute fun t home => t.makeDirectory home path

theorem writeText_mute (path text : String) : Keeps Mute (Host.writeText path text) :=
  change_mute fun t home => t.write home path text.toUTF8.toList

end Machine

namespace Program

open Machine (Step Keeps Prints Mute printout)

variable {j : JobRequest} {w w' : Machine}

/-! ## Steps that print nothing -/

theorem makeDirectories_mute (path : String) : Keeps Mute (makeDirectories path : Step _).run :=
  .attempt (.makeChain fun path _ => Machine.makeDirectory_mute path)

theorem prepareOutput_mute (j : JobRequest) : Keeps Mute (prepareOutput j : Step _).run := by
  have hremove : Keeps Mute (Host.removeTree j.outputDirectory) := fun _ => rfl
  exact prepareOutput_keeps (clearOutput_keeps Machine.log_mute (Machine.change_mute _) hremove)
    (makeDirectories_mute _) (Machine.change_mute _)

theorem obtainTrace_mute (j : JobRequest) : Keeps Mute (obtainTrace j : Step _).run :=
  obtainTrace_keeps Machine.log_mute (Machine.launch_mute _ _)

theorem makeJobDirectories_mute (j : JobRequest) : Keeps Mute (makeJobDirectories j : Step _).run :=
  .steps fun _ _ => .steps fun _ _ => makeDirectories_mute _

theorem writeTemplate_mute (t : Template) (job : JobValues) (path : String) :
    Keeps Mute (t.write job path) := writeTemplate_keeps (Machine.writeText_mute path) t job

theorem writeFile_mute (path text : String) : Keeps Mute (writeFile path text : Step _).run :=
  .attempt (Machine.writeText_mute path text)

/-! ## Runs -/

/-- What is printed for some runs behind a previous one. -/
def flatLines (colour : Bool) : Option Run → List Run → List String
  | _, [] => []
  | previous, r :: rest => runLines colour previous r ++ flatLines colour (some r) rest

theorem writeRuns_prints {t : Template} {size : UInt64} (runs : List Run) :
    ∀ {previous : Option Run} {w : Machine},
    (writeRuns j t size previous runs : Step _).run w = (.ok (), w') →
      Prints (flatLines j.colour previous runs) w w' := by
  induction runs with
  | nil =>
    intro previous w h
    obtain ⟨-, rfl⟩ := Machine.pure_ok h
    exact String.append_empty.symm
  | cons r rest ih =>
    intro previous w h
    rw [writeRuns] at h
    obtain ⟨_, v, hsaid, h⟩ := Machine.bind_ok h
    obtain ⟨_, u, hwrite, h⟩ := Machine.bind_ok h
    have hlines := (Machine.sayAll_prints _).of_eq (Machine.lift_ok hsaid)
    exact (hlines.mute ((writeTemplate_mute _ _ _).of_eq hwrite)).trans (ih h)

/-! ## Groups -/

/-- An innocent rate of a policy: its line, and one for each attack rate. -/
def rateLines (z : Analyzer Float) (attacks : List Rate) (i : Rate) : List String :=
  s!"\tFor r_I = {i.pretty}bps" :: attacks.map fun k => "\t\t" ++ summaryLine (Run.ofAnalyzer z i k)

/-- A policy: a blank line, its heading, and its innocent rates. -/
def policyLines (colour : Bool) (s : Selection) (z : Analyzer Float) : List String :=
  ["", "Policy: " ++ Text.toned colour [.bold] z.policy.name] ++
    s.innocentRates.flatMap (rateLines z s.attackRates)

/-- The policies of a selection, each with its innocent rates, and each of these with the attack
rates. -/
def nestedLines (colour : Bool) (s : Selection) (analyzers : List (Analyzer Float)) : List String :=
  analyzers.flatMap (policyLines colour s)

section

variable {colour : Bool} {z : Analyzer Float} {previous : Run}

/-- Further attack rates of a group have no headings. -/
theorem flatLines_attacks (i : Rate) (attacks : List Rate) : ∀ previous : Run,
    previous.policy = z.policy → previous.innocentRate = i →
    ∃ last : Run, last.policy = z.policy ∧ last.innocentRate = i ∧ ∀ rest,
      flatLines colour (some previous) (attacks.map (Run.ofAnalyzer z i) ++ rest) =
        (attacks.map fun k => "\t\t" ++ summaryLine (Run.ofAnalyzer z i k)) ++
          flatLines colour (some last) rest := by
  induction attacks with
  | nil => exact fun previous hpolicy hrate => ⟨previous, hpolicy, hrate, fun rest => rfl⟩
  | cons k attacks ih =>
    intro previous hpolicy hrate
    obtain ⟨last, hlast, hlast', hlines⟩ := ih (Run.ofAnalyzer z i k) rfl rfl
    refine ⟨last, hlast, hlast', fun rest => ?_⟩
    have hheadings : runHeadings colour (some previous) (Run.ofAnalyzer z i k) = [] := by
      simp [runHeadings, hpolicy, hrate, Run.ofAnalyzer]
    rw [List.map_cons, List.cons_append, flatLines, runLines, hheadings, hlines]
    rfl

/-- The runs of an innocent rate have the headings of the first one in front. -/
theorem flatLines_group {attacks : List Rate} (hattacks : attacks ≠ []) {i : Rate}
    {previous : Option Run} {front : List String}
    (hfront : ∀ k, runHeadings colour previous (Run.ofAnalyzer z i k) = front) :
    ∃ last : Run, last.policy = z.policy ∧ last.innocentRate = i ∧ ∀ rest,
      flatLines colour previous (attacks.map (Run.ofAnalyzer z i) ++ rest) =
        front ++ ((attacks.map fun k => "\t\t" ++ summaryLine (Run.ofAnalyzer z i k)) ++
          flatLines colour (some last) rest) := by
  obtain ⟨k, attacks, rfl⟩ := List.exists_cons_of_ne_nil hattacks
  obtain ⟨last, hlast, hlast', hlines⟩ := flatLines_attacks i attacks (Run.ofAnalyzer z i k) rfl rfl
  refine ⟨last, hlast, hlast', fun rest => ?_⟩
  rw [List.map_cons, List.cons_append, flatLines, runLines, hfront, hlines, List.append_assoc]
  rfl

/-- Further innocent rates of a policy, none of which is the one before it. -/
theorem flatLines_rates {attacks : List Rate} (hattacks : attacks ≠ []) (innocents : List Rate) :
    ∀ previous : Run, previous.policy = z.policy → (previous.innocentRate :: innocents).Nodup →
    ∃ last : Run, last.policy = z.policy ∧ ∀ rest,
      flatLines colour (some previous) (Run.grid z innocents attacks ++ rest) =
        innocents.flatMap (rateLines z attacks) ++ flatLines colour (some last) rest := by
  induction innocents with
  | nil => exact fun previous hpolicy _ => ⟨previous, hpolicy, fun rest => rfl⟩
  | cons i innocents ih =>
    intro previous hpolicy hnodup
    obtain ⟨hnew, hrest⟩ := List.nodup_cons.mp hnodup
    rw [List.mem_cons, not_or] at hnew
    have hfront : ∀ k, runHeadings colour (some previous) (Run.ofAnalyzer z i k) =
        [s!"\tFor r_I = {i.pretty}bps"] := by
      intro k
      simp [runHeadings, hpolicy, hnew.1, Run.ofAnalyzer]
    obtain ⟨first, hfirst, hfirst', hlines⟩ := flatLines_group hattacks hfront
    obtain ⟨last, hlast, hlines'⟩ := ih first hfirst (by rwa [hfirst'])
    refine ⟨last, hlast, fun rest => ?_⟩
    rw [Run.grid, List.flatMap_cons, List.append_assoc, hlines, List.flatMap_cons, List.append_assoc]
    exact congrArg (rateLines z attacks i ++ ·) (hlines' rest)

variable (colour) in
/-- A policy that is not the one before it. -/
theorem flatLines_policy {s : Selection} (hs : s.IsDistinct) (hinnocents : s.innocentRates ≠ [])
    (hattacks : s.attackRates ≠ []) {previous : Option Run}
    (hpolicy : previous.map Run.policy ≠ some z.policy) :
    ∃ last : Run, last.policy = z.policy ∧ ∀ rest,
      flatLines colour previous (Run.grid z s.innocentRates s.attackRates ++ rest) =
        policyLines colour s z ++ flatLines colour (some last) rest := by
  have hnodup := hs.innocentRates
  unfold policyLines
  obtain ⟨i, innocents, hcons⟩ := List.exists_cons_of_ne_nil hinnocents
  rw [hcons] at hnodup ⊢
  have hfront : ∀ k, runHeadings colour previous (Run.ofAnalyzer z i k) =
      ["", "Policy: " ++ Text.toned colour [.bold] z.policy.name, s!"\tFor r_I = {i.pretty}bps"] := by
    intro k
    have hother : (previous.map Run.policy == some z.policy) = false := beq_eq_false_iff_ne.mpr hpolicy
    simp [runHeadings, Run.ofAnalyzer, hother]
  obtain ⟨first, hfirst, hfirst', hlines⟩ := flatLines_group hattacks hfront
  obtain ⟨last, hlast, hlines'⟩ := flatLines_rates hattacks innocents first hfirst
    (by rwa [hfirst'])
  refine ⟨last, hlast, fun rest => ?_⟩
  rw [Run.grid, List.flatMap_cons, List.append_assoc, hlines, List.flatMap_cons, List.append_assoc,
    List.append_assoc]
  exact congrArg (["", "Policy: " ++ Text.toned colour [.bold] z.policy.name] ++
    rateLines z s.attackRates i ++ ·) (hlines' rest)

end

/-- Headings for what differs from the run before come to the same as going through the policies, the
innocent rates and the attack rates one inside the other. -/
theorem flatLines_eq_nested {colour : Bool} {s : Selection} (hs : s.IsDistinct)
    (hinnocents : s.innocentRates ≠ []) (hattacks : s.attackRates ≠ [])
    (analyzers : List (Analyzer Float)) : ∀ previous : Option Run,
    (analyzers.map Analyzer.policy).Nodup →
    (∀ z ∈ analyzers, previous.map Run.policy ≠ some z.policy) →
    flatLines colour previous
      (analyzers.flatMap fun z => Run.grid z s.innocentRates s.attackRates) =
        nestedLines colour s analyzers := by
  induction analyzers with
  | nil => exact fun _ _ _ => rfl
  | cons z analyzers ih =>
    intro previous hnodup hprevious
    obtain ⟨hnew, hrest⟩ := List.nodup_cons.mp hnodup
    obtain ⟨last, hlast, hlines⟩ := flatLines_policy colour hs hinnocents hattacks
      (hprevious z List.mem_cons_self)
    have hothers : ∀ y ∈ analyzers, (some last).map Run.policy ≠ some y.policy := by
      intro y hy heq
      have hsame : y.policy = z.policy := by simpa [hlast, eq_comm] using heq
      exact hnew (hsame ▸ List.mem_map_of_mem hy)
    rw [List.flatMap_cons, hlines, ih (some last) hrest hothers]
    rfl

/-! ## The whole printout -/

namespace Stages

theorem made_mute (s : Stages j w w') : Mute w s.made :=
  trans_of Mute ((Machine.loadBounds_silent _).of_eq s.loadBounds).mute <|
  trans_of Mute ((prepareOutput_mute j).of_eq s.prepare) <|
  trans_of Mute ((obtainTrace_mute j).of_eq s.traceObtained)
    ((makeJobDirectories_mute j).of_eq s.directoriesMade)

theorem start_mute (s : Stages j w w') : Mute s.opened s.start :=
  trans_of Mute ((Machine.log_mute _).of_eq s.ingestionLogged)
    ((Machine.reportOf_silent _ _ _).of_eq s.reported).mute

theorem finished_mute (s : Stages j w w') : Mute s.parted s.finished :=
  trans_of Mute ((writeFile_mute _ _).of_eq s.script) <|
  trans_of Mute ((Machine.change_mute _).of_eq s.mark) <|
  trans_of Mute ((Machine.log_mute _).of_eq s.scriptLogged) <|
  trans_of Mute ((writeFile_mute _ _).of_eq s.publish) ((Machine.log_mute _).of_eq s.reportLogged)

/-- A run prints in three places: in front of its analysis, run by run, and at its end. -/
theorem prints (s : Stages j w w') :
    Prints (openingLines j s.warnings ++ flatLines j.colour none s.report.runs ++
      ["", success j.colour ("Generated jobs: " ++ scriptPath j)]) w w' := by
  have hopening := s.made_mute.prints ((Machine.sayAll_prints _).of_eq s.opening)
  have hruns := writeRuns_prints _ s.runs
  have hparting := ((Machine.say_prints _).of_eq s.parting).mute s.finished_mute
  exact ((hopening.mute s.start_mute).trans hruns).trans
    (hparting.trans ((Machine.say_prints _).of_eq s.ending))

end Stages

/-- What a run that succeeds has printed: its opening, the strategies policy by policy, and behind a
blank line where the jobs are. The policies are those of the selection, in its order, and neither
among them nor among the rates is there one twice. -/
theorem layOutJobs_printed {policies innocents attacks : String}
    (hread : Selection.read policies innocents attacks = .ok j.selection)
    (hne : j.selection.isEmpty = false) (h : (layOutJobs j : Step _).run w = (.ok (), w')) :
    j.selection.IsDistinct ∧ ∃ s : Stages j w w',
      s.analysis.analyzers.map Analyzer.policy = j.selection.policies ∧
      w'.printed = w.printed ++ printout
        (heading j.colour "Job Generation" ++ s.warnings.map (warning j.colour) ++
          ["Computing optimal adversarial strategies"] ++
          nestedLines j.colour j.selection s.analysis.analyzers ++
          ["", success j.colour ("Generated jobs: " ++ scriptPath j)]) := by
  have hs := Selection.isDistinct_of_read hread
  obtain ⟨s⟩ := layOutJobs_stages hne h
  obtain ⟨bytes, -, hanalysis⟩ := analyzeFile_ok s.analyze
  obtain ⟨time, hreport⟩ := reportOf_ok s.reported
  have hpolicies := Analysis.policies_of_ofTrace hanalysis
  simp only [Selection.isEmpty, Bool.or_eq_false_iff, List.isEmpty_eq_false_iff] at hne
  have hnested : flatLines j.colour none s.report.runs =
      nestedLines j.colour j.selection s.analysis.analyzers := by
    rw [hreport]
    exact flatLines_eq_nested hs hne.1.2 hne.2 _ none (hpolicies ▸ hs.policies) (by simp)
  have hprints := s.prints
  rw [hnested] at hprints
  exact ⟨hs, s, hpolicies, hprints⟩

theorem layOutJobs_printed_fourRuns : ∃ w', (layOutJobs fourRuns : Step _).run usedMachine = (.ok (), w') ∧
    fourRuns.selection.IsDistinct ∧ ∃ s : Stages fourRuns usedMachine w',
      s.analysis.analyzers.map Analyzer.policy = [.fcfs, .fq] ∧
      w'.printed = usedMachine.printed ++ printout
        (heading fourRuns.colour "Job Generation" ++ s.warnings.map (warning fourRuns.colour) ++
          ["Computing optimal adversarial strategies"] ++
          nestedLines fourRuns.colour fourRuns.selection s.analysis.analyzers ++
          ["", success fourRuns.colour ("Generated jobs: " ++ scriptPath fourRuns)]) := by
  have hread : Selection.read "fcfs, fq,fcfs" "1G,1000M" "1M,1G" = .ok fourRuns.selection := by
    decide +kernel
  have hok : ((layOutJobs fourRuns : Step _).run usedMachine).1.isOk = true := by decide +kernel
  have hrun := Machine.run_of_isOk hok
  exact ⟨_, hrun, layOutJobs_printed hread rfl hrun⟩

end Program

end Saturation
