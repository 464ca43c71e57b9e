import Mathlib.Data.List.ProdSigma
import Saturation.Proofs.Collectors
import Saturation.Proofs.Json.RoundTrip
import Saturation.Proofs.Lists

/-!
The runs of a report are the grid of a selection, in its order. A selection that was read has each
policy and each rate once, however they were spelled, so that no run is for what another one is for.
The text of a report tells of its trace and of all its runs.
-/

set_option autoImplicit false

namespace Saturation

/-! ## Selections -/

namespace Selection

/-- Each policy and each rate of a selection is there once. -/
structure IsDistinct (s : Selection) : Prop where
  policies : s.policies.Nodup
  innocentRates : s.innocentRates.Nodup
  attackRates : s.attackRates.Nodup

theorem isDistinct_of_read {policies innocents attacks : String} {s : Selection}
    (h : read policies innocents attacks = .ok s) : s.IsDistinct := by
  unfold read at h
  dsimp only at h
  cases hp : readList Policy.read policies with
  | error e =>
    rw [hp] at h
    cases h
  | ok ps =>
    cases hi : readList Rate.read innocents with
    | error e =>
      rw [hp, hi] at h
      cases h
    | ok is =>
      cases ha : readList Rate.read attacks with
      | error e =>
        rw [hp, hi, ha] at h
        cases h
      | ok as =>
        rw [hp, hi, ha] at h
        cases h
        exact ⟨readList_nodup hp, readList_nodup hi, readList_nodup ha⟩

/-- What a selection asks for, in its order: the policies first, then the innocent rates, and the
attack rates for each of these. -/
def triples (s : Selection) : List (Policy × Rate × Rate) :=
  s.policies ×ˢ s.innocentRates ×ˢ s.attackRates

theorem length_triples (s : Selection) :
    s.triples.length = s.policies.length * s.innocentRates.length * s.attackRates.length := by
  rw [triples, List.length_product, List.length_product, Nat.mul_assoc]

theorem IsDistinct.triples {s : Selection} (h : s.IsDistinct) : s.triples.Nodup :=
  h.policies.product (h.innocentRates.product h.attackRates)

end Selection

/-! ## Reports -/

theorem Analysis.alone_policy {bytes : List UInt8} {bounds : AttackBounds Float}
    {stats : Statistics Float} {policy : Policy} {z : Analyzer Float}
    (h : alone bytes bounds stats policy = .ok z) : z.policy = policy := by
  unfold alone Analyzer.ofPackets at h
  split at h
  · cases h
    rfl
  · cases h

theorem Analysis.policies_of_ofTrace {bytes : List UInt8} {policies : List Policy}
    {bounds : AttackBounds Float} {a : Analysis} (h : ofTrace bytes policies bounds = .ok a) :
    a.analyzers.map Analyzer.policy = policies := by
  have hall := (ofTrace_ok_iff.mp h).2
  clear h
  generalize a.analyzers = zs at hall
  induction hall with
  | nil => rfl
  | cons hz _ ih => rw [List.map_cons, ih, alone_policy hz]

/-- Each analyzer is the one of its policy by itself, so that those of one policy are the same. -/
theorem Analysis.analyzer_unique {bytes : List UInt8} {policies : List Policy}
    {bounds : AttackBounds Float} {a : Analysis} (h : ofTrace bytes policies bounds = .ok a)
    {y z : Analyzer Float} (hy : y ∈ a.analyzers) (hz : z ∈ a.analyzers)
    (hpolicy : y.policy = z.policy) : y = z := by
  have halone : ∀ z ∈ a.analyzers, alone bytes bounds a.summary.statistics z.policy = .ok z := by
    have hall := (ofTrace_ok_iff.mp h).2
    clear h hy hz
    generalize a.analyzers = zs at hall
    induction hall with
    | nil => exact fun z hz => absurd hz List.not_mem_nil
    | cons hz _ ih =>
      refine List.forall_mem_cons.mpr ⟨?_, ih⟩
      rw [alone_policy hz, hz]
  have hsame := halone y hy
  rw [hpolicy, halone z hz] at hsame
  exact (Except.ok.inj hsame).symm

theorem Run.triples_grid (z : Analyzer Float) (innocents attacks : List Rate) :
    (grid z innocents attacks).map triple = (innocents ×ˢ attacks).map (Prod.mk z.policy) := by
  simp only [grid, List.map_flatMap, List.map_map, SProd.sprod, List.product]
  rfl

theorem Report.triples_ofAnalysis {bytes : List UInt8} {bounds : AttackBounds Float} {a : Analysis}
    {s : Selection} (h : Analysis.ofTrace bytes s.policies bounds = .ok a) (time : Int)
    (path : String) : (ofAnalysis time path a s).runs.map Run.triple = s.triples := by
  rw [Selection.triples, ← Analysis.policies_of_ofTrace h]
  simp only [ofAnalysis, List.map_flatMap, Run.triples_grid]
  simp only [SProd.sprod, List.product, List.flatMap_map]

namespace Report

variable {bytes : List UInt8} {bounds : AttackBounds Float} {a : Analysis} {s : Selection} {time : Int}
  {path : String}

theorem mem_runs {r : Run} : r ∈ (ofAnalysis time path a s).runs ↔
    ∃ z ∈ a.analyzers, ∃ i ∈ s.innocentRates, ∃ k ∈ s.attackRates, r = Run.ofAnalyzer z i k := by
  simp only [ofAnalysis, Run.grid, List.mem_flatMap, List.mem_map, eq_comm]

/-- A selection may ask for a triple several times; the answer is the same. -/
theorem runs_unique (h : Analysis.ofTrace bytes s.policies bounds = .ok a) :
    ∀ r ∈ (ofAnalysis time path a s).runs, ∀ r' ∈ (ofAnalysis time path a s).runs,
      r.triple = r'.triple → r = r' := by
  intro r hr r' hr' htriple
  obtain ⟨y, hy, i, -, k, -, rfl⟩ := mem_runs.mp hr
  obtain ⟨z, hz, i', -, k', -, rfl⟩ := mem_runs.mp hr'
  simp only [Run.triple, Run.ofAnalyzer, Prod.mk.injEq] at htriple
  obtain ⟨hpolicy, rfl, rfl⟩ := htriple
  rw [Analysis.analyzer_unique h hy hz hpolicy]

/-- The adversary of a run announces the job size that its packets have. -/
theorem runs_jobSize : ∀ r ∈ (ofAnalysis time path a s).runs,
    r.strategy.actualJobSize = r.strategy.estimatedJobSize := by
  intro r hr
  obtain ⟨z, -, i, -, k, -, rfl⟩ := mem_runs.mp hr
  show (z.strategy (Rates.ofPair i k)).actualJobSize = (z.strategy (Rates.ofPair i k)).estimatedJobSize
  unfold Analyzer.strategy
  cases z.model <;> rfl

end Report

/-! ## What reports tell -/

namespace Report

open Settings (Value Group)

/-- A number in JSON; what is not finite has none. -/
def figure (x : Float) : Value := if x.isFinite then .float x else .null

def statisticsMembers (s : Statistics Float) : Group :=
  .ofList [("total_packets", .int s.totalPackets),
    ("average_packet_size", .int s.averagePacketSize.toNat),
    ("maximum_packet_size", .int s.maximumPacketSize.toNat),
    ("average_job_size", figure s.averageJobSize), ("maximum_job_size", figure s.maximumJobSize),
    ("r_max", figure s.rMax)]

def strategyMembers (s : Strategy Float) : Group :=
  .ofList [("estimated_job_size_ns", figure s.estimatedJobSize),
    ("actual_job_size_ns", figure s.actualJobSize), ("packet_size_bits", .int s.packetSize.toNat),
    ("expected_goodput_gbps", figure s.expectedGoodput),
    ("expected_displacement", figure s.expectedDisplacement)]

def runMembers (r : Run) : Group :=
  .ofList [("policy", .str r.policy.name), ("innocent_rate", .int r.innocentRate.bps.toNat),
    ("attack_rate", .int r.attackRate.bps.toNat), ("strategy", .obj (strategyMembers r.strategy))]

/-- The members of a report, and of what it has about its trace, that do not depend on when and
where it was made. -/
structure HasMembers (report about : Group) (summary : TraceSummary) (runs : List Run) : Prop where
  trace : report.get? "trace" = some (.obj about)
  records : about.get? "records" = some (.int summary.statistics.totalPackets)
  sha256 : about.get? "sha256" = some (.str summary.sha256)
  statistics : about.get? "statistics" = some (.obj (statisticsMembers summary.statistics))
  runs : report.get? "runs" = some (.arr (runs.map fun r => .obj (runMembers r)))

/-- A text is the JSON of a report on a trace, with some runs. -/
def Tells (text : String) (summary : TraceSummary) (runs : List Run) : Prop :=
  ∃ report about, Json.readPrecisely? text.toList = some (.obj report) ∧
    HasMembers report about summary runs

theorem held_runValue (r : Run) : (runValue r).held = .obj (runMembers r) := by
  simp only [runValue, strategyValue, word, Value.held, Value.heldFields]
  rfl

theorem value_nests (r : Report) : Json.Nests Json.depthLimit r.value := by
  simp [Json.depthLimit, value, Json.Nests, statisticsValue, runValue, strategyValue, word]

/-- The text of a report tells of its trace and its runs. -/
theorem text_tells (r : Report) : Tells r.text r.summary r.runs := by
  have hread : Json.readPrecisely? r.text.toList = some r.value.held := by
    rw [text, String.toList_ofList, Json.readPrecisely?_pretty r.value_nests]
  have hruns : Value.heldItems (r.runs.map runValue) = r.runs.map fun r => .obj (runMembers r) := by
    rw [Value.heldItems_eq, List.map_map]
    exact List.map_congr_left fun r _ => held_runValue r
  simp only [value, statisticsValue, word, Value.held, Value.heldFields, hruns] at hread
  refine ⟨_, _, hread, by simp [Group.ofList]; rfl, ?_, ?_, ?_, ?_⟩
  all_goals simp [Group.ofList, statisticsMembers, figure]

/-! ### From the text to the runs -/

variable {text : String} {summary summary' : TraceSummary} {runs runs' : List Run}

/-- A text tells of one trace and of one list of runs, up to numbers that are not finite. -/
theorem Tells.unique (h : Tells text summary runs) (h' : Tells text summary' runs') :
    summary.sha256 = summary'.sha256 ∧
      statisticsMembers summary.statistics = statisticsMembers summary'.statistics ∧
      runs.map runMembers = runs'.map runMembers := by
  obtain ⟨report, about, hread, hmembers⟩ := h
  obtain ⟨report', about', hread', hmembers'⟩ := h'
  rw [hread] at hread'
  cases hread'
  have habout := hmembers.trace.symm.trans hmembers'.trace
  cases habout
  have hsha := hmembers.sha256.symm.trans hmembers'.sha256
  have hstatistics := hmembers.statistics.symm.trans hmembers'.statistics
  have hruns := hmembers.runs.symm.trans hmembers'.runs
  simp only [Option.some.injEq, Value.str.injEq, Value.obj.injEq, Value.arr.injEq]
    at hsha hstatistics hruns
  refine ⟨hsha, hstatistics, List.map_injective_iff.mpr (fun _ _ => Value.obj.inj) ?_⟩
  rwa [List.map_map, List.map_map]

theorem runMembers_triple {r s : Run} (h : runMembers r = runMembers s) : r.triple = s.triple := by
  have hpolicy := congrArg (Group.get? "policy") h
  have hinnocent := congrArg (Group.get? "innocent_rate") h
  have hattack := congrArg (Group.get? "attack_rate") h
  simp [runMembers, Group.ofList, UInt64.toNat_inj] at hpolicy hinnocent hattack
  exact Prod.ext (Policy.name_injective hpolicy)
    (Prod.ext (congrArg Rate.mk hinnocent) (congrArg Rate.mk hattack))

/-- Each number of a strategy has its place in JSON. -/
structure IsFinite (s : Strategy Float) : Prop where
  estimatedJobSize : s.estimatedJobSize.isFinite
  actualJobSize : s.actualJobSize.isFinite
  expectedGoodput : s.expectedGoodput.isFinite
  expectedDisplacement : s.expectedDisplacement.isFinite

theorem figure_inj {x y : Float} (hx : x.isFinite) (h : figure x = figure y) : x = y := by
  unfold figure at h
  rw [if_pos hx] at h
  split at h
  · exact Value.float.inj h
  · cases h

theorem runMembers_inj {r s : Run} (hr : IsFinite r.strategy) (h : runMembers r = runMembers s) :
    r = s := by
  have htriple := runMembers_triple h
  have hstrategy := congrArg (Group.get? "strategy") h
  simp [runMembers, Group.ofList] at hstrategy
  have hestimated := congrArg (Group.get? "estimated_job_size_ns") hstrategy
  have hactual := congrArg (Group.get? "actual_job_size_ns") hstrategy
  have hsize := congrArg (Group.get? "packet_size_bits") hstrategy
  have hgoodput := congrArg (Group.get? "expected_goodput_gbps") hstrategy
  have hdisplacement := congrArg (Group.get? "expected_displacement") hstrategy
  simp [strategyMembers, Group.ofList, UInt64.toNat_inj]
    at hestimated hactual hsize hgoodput hdisplacement
  obtain ⟨p, i, a, _, _, _, _, _⟩ := r
  obtain ⟨q, k, b, _, _, _, _, _⟩ := s
  simp only [Run.triple, Prod.mk.injEq] at htriple
  obtain ⟨rfl, rfl, rfl⟩ := htriple
  cases figure_inj hr.estimatedJobSize hestimated
  cases figure_inj hr.actualJobSize hactual
  cases figure_inj hr.expectedGoodput hgoodput
  cases figure_inj hr.expectedDisplacement hdisplacement
  cases hsize
  rfl

/-- A text determines its runs, as long as their numbers are finite. -/
theorem Tells.runs_eq (h : Tells text summary runs) (h' : Tells text summary' runs')
    (hfinite : ∀ r ∈ runs, IsFinite r.strategy) : runs = runs' := by
  have hmembers := (h.unique h').2.2
  clear h h'
  induction runs generalizing runs' with
  | nil => exact (List.map_eq_nil_iff.mp hmembers.symm).symm
  | cons r runs ih =>
    obtain ⟨hr, hruns⟩ := List.forall_mem_cons.mp hfinite
    cases runs' with
    | nil => cases hmembers
    | cons s runs' =>
      obtain ⟨hfirst, hrest⟩ := List.cons.inj hmembers
      rw [runMembers_inj hr hfirst, ih hruns hrest]

end Report

end Saturation
