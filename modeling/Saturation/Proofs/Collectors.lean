import Mathlib.Data.List.Forall2
import Mathlib.Data.List.Induction
import Mathlib.Data.List.Nodup
import Mathlib.Data.String.Basic
import Saturation.Analysis
import Saturation.Proofs.Ingest
import Saturation.Proofs.Keyed

/-!
Policies that share one pass over a trace. What a policy keeps is told by the packets that it has
taken in, so it ends with the model of these packets, whichever other policies there are.
-/

set_option autoImplicit false

namespace Saturation

section

variable {α : Type} [Scalar α]

theorem FlowTable.record_eq_update (p : Packet α) (t : FlowTable α) :
    record p t = Keyed.update p.flow (fun f => (f.getD Flow.empty).add p) t := by
  induction t with
  | nil => rfl
  | cons f t ih =>
    obtain ⟨name, f⟩ := f
    simp only [record, Keyed.update, Option.getD_none, Option.getD_some, ih]

theorem FlowTable.ofPackets_concat (ps : List (Packet α)) (p : Packet α) :
    ofPackets (ps ++ [p]) = record p (ofPackets ps) := by
  simp [ofPackets]

theorem FlowTable.ofPackets_eq_gather (ps : List (Packet α)) :
    ofPackets ps = Keyed.gather Packet.flow Flow.add Flow.empty ps := by
  simp only [ofPackets, record_eq_update]
  rfl

theorem FlowTable.ofPackets_isSorted (ps : List (Packet α)) : Keyed.IsSorted (ofPackets ps) := by
  rw [ofPackets_eq_gather]
  exact Keyed.gather_isSorted _ _ _ ps

theorem FlowTable.mem_names {name : String} {ps : List (Packet α)} :
    name ∈ (ofPackets ps).map Prod.fst ↔ name ∈ ps.map Packet.flow := by
  rw [ofPackets_eq_gather]
  exact Keyed.mem_keys_gather _ _ _

theorem Histogram.ofKeys_eq_gather (keys : List Nat) :
    ofKeys keys = Keyed.gather id (fun n _ => n + 1) 0 keys := by
  have hadd : ∀ (k : Nat) (h : List (Nat × Nat)),
      add k h = Keyed.update k (fun n => n.getD 0 + 1) h := by
    intro k h
    induction h with
    | nil => rfl
    | cons s h ih =>
      obtain ⟨l, n⟩ := s
      simp only [add, Keyed.update, Option.getD_none, Option.getD_some, ih]
  simp only [ofKeys, hadd]
  rfl

theorem Histogram.mem_keys {keys : List Nat} {key : Nat} :
    key ∈ (ofKeys keys).map Prod.fst ↔ key ∈ keys := by
  rw [ofKeys_eq_gather, Keyed.mem_keys_gather, List.map_id]

theorem Histogram.ofKeys_concat (keys : List Nat) (key : Nat) :
    ofKeys (keys ++ [key]) = add key (ofKeys keys) := by
  simp [ofKeys]

/-! ### One policy -/

namespace Collector

/-- A policy has taken in some packets, in order. -/
def Keeps (ps : List (Packet α)) : Collector α → Prop
  | arrival => True
  | shares names => names.Nodup ∧ ∀ name, name ∈ names ↔ name ∈ ps.map Packet.flow
  | jobSizes counts kept =>
    counts = Histogram.ofKeys (ps.map fun p => Model.jobSizeKey p.jobSize) ∧ kept = ps.reverse
  | costRatios kept => kept = ps.reverse
  | flowJobSizes t | flowCostRatios t => t = FlowTable.ofPackets ps

theorem start_keeps (policy : Policy) : (start policy : Collector α).Keeps [] := by
  cases policy with
  | fcfs => trivial
  | fq => exact ⟨List.nodup_nil, fun _ => Iff.rfl⟩
  | sjf => exact ⟨rfl, rfl⟩
  | sjfInorder | wsjf | wsjfInorder => rfl

theorem observe_keeps {c : Collector α} {ps : List (Packet α)} (h : c.Keeps ps) (p : Packet α) :
    (c.observe p).Keeps (ps ++ [p]) := by
  cases c with
  | arrival => trivial
  | shares names =>
    refine ⟨h.1.insert, fun name => ?_⟩
    rw [List.mem_insert_iff, h.2]
    simp [or_comm]
  | jobSizes counts kept =>
    obtain ⟨rfl, rfl⟩ := h
    exact ⟨by rw [List.map_append, List.map_singleton, Histogram.ofKeys_concat], by simp⟩
  | costRatios kept =>
    obtain rfl : kept = ps.reverse := h
    exact List.reverse_concat.symm
  | flowJobSizes t | flowCostRatios t =>
    obtain rfl : t = FlowTable.ofPackets ps := h
    exact (FlowTable.ofPackets_concat ps p).symm

theorem foldl_keeps {c : Collector α} {ps : List (Packet α)} (h : c.Keeps ps)
    (qs : List (Packet α)) : (qs.foldl observe c).Keeps (ps ++ qs) := by
  induction qs generalizing c ps with
  | nil => rwa [List.append_nil]
  | cons q qs ih => simpa using ih (observe_keeps h q)

omit [Scalar α] in
theorem start_policy (policy : Policy) : (start policy : Collector α).policy = policy := by
  cases policy <;> rfl

theorem observe_policy (c : Collector α) (p : Packet α) : (c.observe p).policy = c.policy := by
  cases c <;> rfl

theorem foldl_policy (c : Collector α) (ps : List (Packet α)) :
    (ps.foldl observe c).policy = c.policy := by
  induction ps generalizing c with
  | nil => rfl
  | cons p ps ih => rw [List.foldl_cons, ih, observe_policy]

/-- There are as many names of flows as flows. -/
theorem length_names {names : List String} {ps : List (Packet α)}
    (h : (shares names : Collector α).Keeps ps) :
    names.length = (FlowTable.ofPackets ps).length := by
  have hperm : names.Perm ((FlowTable.ofPackets ps).map Prod.fst) :=
    (List.perm_ext_iff_of_nodup h.1 (FlowTable.ofPackets_isSorted ps).nodup_keys).mpr
      fun name => (h.2 name).trans FlowTable.mem_names.symm
  rw [hperm.length_eq, List.length_map]

theorem model_eq {c : Collector α} {ps : List (Packet α)} (h : c.Keeps ps)
    (stats : Statistics α) : c.model stats = Model.ofPackets c.policy stats ps := by
  cases c with
  | arrival => rfl
  | shares names => rw [model, length_names h]; rfl
  | jobSizes counts kept =>
    obtain ⟨rfl, rfl⟩ := h
    rw [model, List.reverse_reverse]
    rfl
  | costRatios kept =>
    obtain rfl : kept = ps.reverse := h
    rw [model, List.reverse_reverse]
    rfl
  | flowJobSizes t | flowCostRatios t =>
    obtain rfl : t = FlowTable.ofPackets ps := h
    rfl

/-- A policy that has taken in all packets of a trace ends with the analyzer of these packets. -/
theorem finish_foldl (policy : Policy) (bounds : AttackBounds α) (stats : Statistics α)
    (ps : List (Packet α)) :
    (ps.foldl observe (start policy)).finish bounds stats =
      Analyzer.ofPackets policy bounds stats ps := by
  have hpolicy : (ps.foldl observe (start policy : Collector α)).policy = policy := by
    rw [foldl_policy, start_policy]
  rw [finish, model_eq (foldl_keeps (start_keeps policy) ps), List.nil_append, hpolicy]
  rfl

end Collector

end

/-! ### Several policies -/

namespace Analysis

theorem foldl_observe (cs : List (Collector Float)) (records : List Record) :
    records.foldl observe cs =
      cs.map fun c => (records.map Record.packet).foldl Collector.observe c := by
  induction records generalizing cs with
  | nil => exact (List.map_id' cs).symm
  | cons r records ih => rw [List.foldl_cons, ih, observe, List.map_map]; rfl

section

variable {β γ : Type} {f : β → Except Fault γ}

theorem mapM_ok_iff {xs : List β} {ys : List γ} :
    xs.mapM f = .ok ys ↔ List.Forall₂ (fun x y => f x = .ok y) xs ys := by
  induction xs generalizing ys with
  | nil =>
    rw [List.mapM_nil, List.forall₂_nil_left_iff]
    exact ⟨fun h => (by cases h; rfl), fun h => (by rw [h]; rfl)⟩
  | cons x xs ih =>
    rw [List.mapM_cons, List.forall₂_cons_left_iff]
    constructor
    · intro h
      obtain ⟨y, hy, h⟩ := Record.bind_ok h
      obtain ⟨rest, hrest, h⟩ := Record.bind_ok h
      cases h
      exact ⟨y, rest, hy, ih.mp hrest, rfl⟩
    · rintro ⟨y, rest, hy, hrest, rfl⟩
      rw [hy, ih.mpr hrest]
      rfl

/-- What fails is the first that fails. -/
theorem mapM_error {xs : List β} {e : Fault} (h : xs.mapM f = .error e) :
    ∃ before x behind, xs = before ++ x :: behind ∧ (∀ b ∈ before, ∃ y, f b = .ok y) ∧
      f x = .error e := by
  induction xs with
  | nil => cases h
  | cons x xs ih =>
    rw [List.mapM_cons] at h
    rcases Record.bind_error h with hx | ⟨y, hy, h⟩
    · exact ⟨[], x, xs, rfl, by simp, hx⟩
    rcases Record.bind_error h with hxs | ⟨_, _, h⟩
    · obtain ⟨before, x', behind, rfl, hbefore, hx'⟩ := ih hxs
      exact ⟨x :: before, x', behind, rfl, List.forall_mem_cons.mpr ⟨⟨y, hy⟩, hbefore⟩, hx'⟩
    · cases h

end

variable {bytes : List UInt8} {policies : List Policy} {bounds : AttackBounds Float}

/-- The analyzer of a policy for the packets of a trace, as if there were no other policy. -/
def alone (bytes : List UInt8) (bounds : AttackBounds Float) (stats : Statistics Float)
    (policy : Policy) : Except Fault (Analyzer Float) :=
  Analyzer.ofPackets policy bounds stats ((Trace.read bytes).1.map Record.packet)

theorem finish_eq (stats : Statistics Float) :
    finish ((Trace.read bytes).1.foldl observe (policies.map Collector.start)) bounds stats =
      policies.mapM (alone bytes bounds stats) := by
  simp only [finish, foldl_observe, List.map_map, List.mapM_map]
  refine congrArg (policies.mapM ·) (funext fun policy => ?_)
  exact Collector.finish_foldl policy bounds stats _

theorem ofTrace_of_fault {e : Fault} (h : (Trace.read bytes).2 = .error e) :
    ofTrace bytes policies bounds = .error e := by
  rw [ofTrace, Trace.ingest_eq_read, h]

theorem ofTrace_of_summary {summary : TraceSummary} (h : (Trace.read bytes).2 = .ok summary) :
    ofTrace bytes policies bounds = match policies.mapM (alone bytes bounds summary.statistics) with
      | .ok analyzers => .ok ⟨summary, analyzers⟩
      | .error e => .error e := by
  have hfinish : finish ((Trace.read bytes).1.foldl observe (policies.map Collector.start)) bounds
      summary.statistics = policies.mapM (alone bytes bounds summary.statistics) := finish_eq _
  rw [ofTrace, Trace.ingest_eq_read, h]
  cases hm : policies.mapM (alone bytes bounds summary.statistics) with
  | ok analyzers =>
    rw [hm] at hfinish
    simp only [hfinish]
  | error e =>
    rw [hm] at hfinish
    simp only [hfinish]

theorem ofTrace_ok_iff {a : Analysis} :
    ofTrace bytes policies bounds = .ok a ↔ (Trace.read bytes).2 = .ok a.summary ∧
      List.Forall₂ (fun p z => alone bytes bounds a.summary.statistics p = .ok z)
        policies a.analyzers := by
  cases hread : (Trace.read bytes).2 with
  | error e =>
    rw [ofTrace_of_fault hread]
    exact ⟨fun h => (by cases h), fun h => (by cases h.1)⟩
  | ok summary =>
    rw [ofTrace_of_summary hread, ← mapM_ok_iff]
    obtain ⟨summary', analyzers⟩ := a
    constructor
    · intro h
      split at h
      · rename_i zs hzs
        cases h
        exact ⟨rfl, hzs⟩
      · cases h
    · rintro ⟨hs, h⟩
      cases hs
      rw [h]

/-- A single policy is analyzed as it is among others. -/
theorem ofTrace_single {policy : Policy} {summary : TraceSummary} {z : Analyzer Float} :
    ofTrace bytes [policy] bounds = .ok ⟨summary, [z]⟩ ↔
      (Trace.read bytes).2 = .ok summary ∧ alone bytes bounds summary.statistics policy = .ok z := by
  rw [ofTrace_ok_iff, List.forall₂_cons, and_iff_left List.Forall₂.nil]

theorem ofTrace_single_isOk {policy : Policy} {summary : TraceSummary}
    (h : (Trace.read bytes).2 = .ok summary) :
    (∃ a, ofTrace bytes [policy] bounds = .ok a) ↔
      ∃ z, alone bytes bounds summary.statistics policy = .ok z := by
  constructor
  · rintro ⟨a, ha⟩
    obtain ⟨hs, hz⟩ := ofTrace_ok_iff.mp ha
    obtain ⟨z, _, hz, -, -⟩ := List.forall₂_cons_left_iff.mp hz
    rw [h] at hs
    cases hs
    exact ⟨z, hz⟩
  · rintro ⟨z, hz⟩
    exact ⟨_, ofTrace_single.mpr ⟨h, hz⟩⟩

theorem ofTrace_single_error {policy : Policy} {summary : TraceSummary} {e : Fault}
    (h : (Trace.read bytes).2 = .ok summary)
    (he : alone bytes bounds summary.statistics policy = .error e) :
    ofTrace bytes [policy] bounds = .error e := by
  rw [ofTrace_of_summary h, List.mapM_cons, he]
  rfl

/-- Sharing one pass changes nothing. Some policies, repeated ones included, can be analyzed if the
trace can be ingested and each of them can be analyzed by itself. Each analyzer is then the one of
its policy by itself, so that it has the same strategy at all rates, and the summary is the same.
Otherwise the fault is that of the trace, or that of the first policy that has one by itself. -/
theorem ofTrace_shared (bytes : List UInt8) (policies : List Policy) (bounds : AttackBounds Float) :
    ((∃ a, ofTrace bytes policies bounds = .ok a) ↔
      (∃ summary, (Trace.read bytes).2 = .ok summary) ∧
        ∀ policy ∈ policies, ∃ a, ofTrace bytes [policy] bounds = .ok a) ∧
    (∀ a, ofTrace bytes policies bounds = .ok a →
      (Trace.read bytes).2 = .ok a.summary ∧ a.analyzers.length = policies.length ∧
        ∀ (i : Nat) policy, policies[i]? = some policy →
          ∃ z, a.analyzers[i]? = some z ∧ ofTrace bytes [policy] bounds = .ok ⟨a.summary, [z]⟩) ∧
    ∀ e, ofTrace bytes policies bounds = .error e →
      (Trace.read bytes).2 = .error e ∨
        (∃ summary, (Trace.read bytes).2 = .ok summary) ∧
          ∃ before policy behind, policies = before ++ policy :: behind ∧
            (∀ other ∈ before, ∃ a, ofTrace bytes [other] bounds = .ok a) ∧
            ofTrace bytes [policy] bounds = .error e := by
  refine ⟨?_, ?_, ?_⟩
  · cases hread : (Trace.read bytes).2 with
    | error e =>
      rw [ofTrace_of_fault hread]
      exact ⟨fun ⟨_, h⟩ => (by cases h), fun ⟨⟨_, h⟩, _⟩ => (by cases h)⟩
    | ok summary =>
      constructor
      · rintro ⟨a, ha⟩
        obtain ⟨hs, hall⟩ := ofTrace_ok_iff.mp ha
        refine ⟨⟨summary, rfl⟩, fun policy hp => ?_⟩
        obtain ⟨i, hi, rfl⟩ := List.mem_iff_getElem.mp hp
        exact ⟨_, ofTrace_single.mpr ⟨hs, hall.get hi (hall.length_eq ▸ hi)⟩⟩
      · rintro ⟨-, hall⟩
        cases hm : policies.mapM (alone bytes bounds summary.statistics) with
        | ok zs => exact ⟨⟨summary, zs⟩, ofTrace_ok_iff.mpr ⟨hread, mapM_ok_iff.mp hm⟩⟩
        | error e =>
          obtain ⟨before, policy, behind, rfl, -, he⟩ := mapM_error hm
          obtain ⟨z, hz⟩ := (ofTrace_single_isOk hread).mp (hall policy (by simp))
          rw [hz] at he
          cases he
  · intro a ha
    obtain ⟨hs, hall⟩ := ofTrace_ok_iff.mp ha
    refine ⟨hs, hall.length_eq.symm, fun i policy hp => ?_⟩
    obtain ⟨hi, rfl⟩ := List.getElem?_eq_some_iff.mp hp
    have hi' : i < a.analyzers.length := hall.length_eq ▸ hi
    exact ⟨_, List.getElem?_eq_getElem hi', ofTrace_single.mpr ⟨hs, hall.get hi hi'⟩⟩
  · intro e he
    cases hread : (Trace.read bytes).2 with
    | error e' =>
      rw [ofTrace_of_fault hread] at he
      cases he
      exact .inl rfl
    | ok summary =>
      rw [ofTrace_of_summary hread] at he
      split at he
      · cases he
      · rename_i e' hm
        cases he
        obtain ⟨before, policy, behind, rfl, hbefore, hp⟩ := mapM_error hm
        exact .inr ⟨⟨summary, rfl⟩, before, policy, behind, rfl,
          fun other ho => (ofTrace_single_isOk hread).mpr (hbefore other ho),
          ofTrace_single_error hread hp⟩

end Analysis

end Saturation
