import Mathlib.Data.List.TakeWhile
import Saturation.Proofs.Digest
import Saturation.Proofs.Totals
import Saturation.Trace.Ingest

/-!
A pass over a trace, told by the lines of its bytes: whatever receives the records is handed those
in front of the line that ends the pass, in order, and the outcome is the fault of that line or the
statistics of all records and the digest of all bytes. A line ends a pass if it has no record, or if
its packet does not fit a word together with those in front of it.
-/

set_option autoImplicit false

namespace Saturation

/-- The number of the line that a fault of a record names. -/
def Fault.line? : Fault → Option Nat
  | malformedRecord line _ => some line
  | invalidField line _ _ => some line
  | _ => none

theorem ok_of_toOption {ε β : Type} {x : Except ε β} {b : β} (h : x.toOption = some b) : x = .ok b := by
  cases x with
  | error e => cases h
  | ok a =>
    cases h
    rfl

namespace Record

theorem bind_ok {β γ : Type} {x : Except Fault β} {f : β → Except Fault γ} {c : γ}
    (h : (x >>= f) = .ok c) : ∃ b, x = .ok b ∧ f b = .ok c := by
  cases x with
  | error e => simp [bind, Except.bind] at h
  | ok b => exact ⟨b, rfl, h⟩

theorem bind_error {β γ : Type} {x : Except Fault β} {f : β → Except Fault γ} {e : Fault}
    (h : (x >>= f) = .error e) : x = .error e ∨ ∃ b, x = .ok b ∧ f b = .error e := by
  cases x with
  | error e' => exact .inl (by simpa [bind, Except.bind] using h)
  | ok b => exact .inr ⟨b, rfl, h⟩

theorem numeric_error {β : Type} {read? : List Char → Option β} {n : Nat} {name : NumericField}
    {field : List Char} {e : Fault} (h : numeric read? n name field = .error e) :
    e.line? = some n := by
  unfold numeric at h
  split at h
  · cases h
  · cases h
    rfl

/-- A record at fault names its line. -/
theorem read_error {n : Nat} {line : List Char} {e : Fault} (h : read n line = .error e) :
    e.line? = some n := by
  unfold read at h
  split at h
  · rcases bind_error h with h | ⟨_, _, h⟩
    · exact numeric_error h
    rcases bind_error h with h | ⟨_, _, h⟩
    · exact numeric_error h
    rcases bind_error h with h | ⟨_, _, h⟩
    · exact numeric_error h
    rcases bind_error h with h | ⟨_, _, h⟩
    · exact numeric_error h
    · cases h
  · cases h
    rfl

end Record

namespace Trace

/-! ### Lines -/

/-- The lines of some bytes. A line feed ends a line and is part of it; the last line may have
none, but it is not empty. -/
inductive IsLines : List UInt8 → List (List UInt8) → Prop
  | nil : IsLines [] []
  | last {line : List UInt8} (hne : line ≠ []) (h : 10 ∉ line) : IsLines line [line]
  | feed {line rest : List UInt8} {lines : List (List UInt8)} (h : 10 ∉ line)
      (hrest : IsLines rest lines) : IsLines (line ++ 10 :: rest) ((line ++ [10]) :: lines)

theorem nextLine_last {line : List UInt8} (h : 10 ∉ line) : nextLine line = (line, []) := by
  have hdrop : line.dropWhile (· ≠ 10) = [] := by
    rw [List.dropWhile_eq_nil_iff]
    intro b hb
    exact decide_eq_true fun h10 => h (h10 ▸ hb)
  unfold nextLine
  rw [hdrop]

theorem nextLine_feed {line : List UInt8} (h : 10 ∉ line) (rest : List UInt8) :
    nextLine (line ++ 10 :: rest) = (line ++ [10], rest) := by
  have hall : ∀ b ∈ line, decide (b ≠ 10) = true := by
    intro b hb
    exact decide_eq_true fun h10 => h (h10 ▸ hb)
  have hdrop : (line ++ 10 :: rest).dropWhile (· ≠ 10) = 10 :: rest := by
    rw [List.dropWhile_append_of_pos hall]
    rfl
  have htake : (line ++ 10 :: rest).takeWhile (· ≠ 10) = line := by
    rw [List.takeWhile_append_of_pos hall]
    exact List.append_nil line
  unfold nextLine
  rw [hdrop, htake]

theorem exists_isLines (bytes : List UInt8) : ∃ lines, IsLines bytes lines := by
  by_cases h : 10 ∈ bytes
  · obtain ⟨line, rest, rfl, hline⟩ := List.eq_append_cons_of_mem h
    obtain ⟨lines, hlines⟩ := exists_isLines rest
    exact ⟨_, .feed hline hlines⟩
  · rcases eq_or_ne bytes [] with rfl | hne
    · exact ⟨[], .nil⟩
    · exact ⟨[bytes], .last hne h⟩
termination_by bytes.length
decreasing_by
  subst bytes
  simp only [List.length_append, List.length_cons]
  omega

/-- The first line is the one that a pass reads first. -/
theorem IsLines.first {bytes : List UInt8} {lines : List (List UInt8)} (h : IsLines bytes lines)
    (hne : bytes ≠ []) :
    ∃ rest, lines = (nextLine bytes).1 :: rest ∧ IsLines (nextLine bytes).2 rest := by
  cases h with
  | nil => exact absurd rfl hne
  | last _ h => exact ⟨[], by rw [nextLine_last h], by rw [nextLine_last h]; exact .nil⟩
  | feed h hrest => exact ⟨_, by rw [nextLine_feed h], by rw [nextLine_feed h]; exact hrest⟩

theorem IsLines.eq_nil {lines : List (List UInt8)} (h : IsLines [] lines) : lines = [] := by
  generalize hb : ([] : List UInt8) = bytes at h
  cases h with
  | nil => rfl
  | last hne _ => exact absurd hb.symm hne
  | feed _ _ => simp at hb

theorem IsLines.unique {bytes : List UInt8} {lines : List (List UInt8)} (h : IsLines bytes lines) :
    ∀ {others : List (List UInt8)}, IsLines bytes others → lines = others := by
  induction h with
  | nil => exact fun ho => ho.eq_nil.symm
  | last hne h =>
    intro others ho
    obtain ⟨rest, rfl, hrest⟩ := ho.first hne
    rw [nextLine_last h] at hrest ⊢
    rw [hrest.eq_nil]
  | feed h _ ih =>
    intro others ho
    obtain ⟨rest, rfl, hrest⟩ := ho.first (by simp)
    rw [nextLine_feed h] at hrest ⊢
    rw [ih hrest]

theorem IsLines.flatten {bytes : List UInt8} {lines : List (List UInt8)} (h : IsLines bytes lines) :
    lines.flatten = bytes := by
  induction h with
  | nil => rfl
  | last _ _ => simp
  | feed _ _ ih => simp [ih]

/-! ### Records -/

/-- The records on lines that are counted from a number on. -/
inductive RecordsOn : Nat → List (List UInt8) → List Record → Prop
  | nil (number : Nat) : RecordsOn number [] []
  | cons {number : Nat} {line : List UInt8} {r : Record} {lines : List (List UInt8)}
      {records : List Record} (h : readLine number line = .ok r)
      (hrest : RecordsOn (number + 1) lines records) :
      RecordsOn number (line :: lines) (r :: records)

theorem RecordsOn.concat {number : Nat} {lines : List (List UInt8)} {records : List Record}
    (h : RecordsOn number lines records) {line : List UInt8} {r : Record}
    (hline : readLine (lines.length + number) line = .ok r) :
    RecordsOn number (lines ++ [line]) (records ++ [r]) := by
  induction h with
  | nil number =>
    rw [List.length_nil, Nat.zero_add] at hline
    exact .cons hline (.nil _)
  | cons h _ ih =>
    rw [List.length_cons, Nat.add_right_comm, Nat.add_assoc] at hline
    exact .cons h (ih hline)

theorem RecordsOn.length_eq {number : Nat} {lines : List (List UInt8)} {records : List Record}
    (h : RecordsOn number lines records) : lines.length = records.length := by
  induction h with
  | nil => rfl
  | cons _ _ ih => rw [List.length_cons, List.length_cons, ih]

theorem RecordsOn.ne_nil {number : Nat} {lines : List (List UInt8)} {records : List Record}
    (h : RecordsOn number lines records) (hne : lines ≠ []) : records ≠ [] :=
  List.ne_nil_of_length_pos (h.length_eq ▸ List.length_pos_iff.mpr hne)

/-- The line of a record behind others. -/
theorem RecordsOn.split {seen : List Record} {r : Record} {rest : List Record} :
    ∀ {number : Nat} {lines : List (List UInt8)}, RecordsOn number lines (seen ++ r :: rest) →
      ∃ before line behind, lines = before ++ line :: behind ∧ RecordsOn number before seen ∧
        readLine (before.length + number) line = .ok r := by
  induction seen with
  | nil =>
    intro number lines h
    cases h with
    | cons h _ => exact ⟨[], _, _, rfl, .nil _, by rwa [List.length_nil, Nat.zero_add]⟩
  | cons s seen ih =>
    intro number lines h
    cases h with
    | cons h hrest =>
      obtain ⟨before, line, behind, rfl, hbefore, hline⟩ := ih hrest
      refine ⟨_ :: before, line, behind, rfl, .cons h hbefore, ?_⟩
      rwa [List.length_cons, Nat.add_right_comm, Nat.add_assoc]

/-- Behind some records, a line ends the pass: it has no record, or one whose packet does not fit a
word with those in front of it. -/
inductive EndsPass (number : Nat) (line : List UInt8) (records : List Record) : Fault → Prop
  | fault {e : Fault} (h : readLine number line = .error e) : EndsPass number line records e
  | overflow {r : Record} (h : readLine number line = .ok r)
      (hbits : 2 ^ 64 ≤ bits (records.map Record.packet) + r.packet.size.toNat) :
      EndsPass number line records .overflow

/-- Lines all have records that fit a word together, or one of them is the first to end the pass. -/
theorem records_or_end (lines : List (List UInt8)) :
    (∃ records, RecordsOn 1 lines records ∧ bits (records.map Record.packet) < 2 ^ 64) ∨
      ∃ before line behind records e, lines = before ++ line :: behind ∧
        RecordsOn 1 before records ∧ bits (records.map Record.packet) < 2 ^ 64 ∧
        EndsPass (before.length + 1) line records e := by
  induction lines using List.reverseRecOn with
  | nil => exact .inl ⟨[], .nil 1, by simp⟩
  | append_singleton lines line ih =>
    rcases ih with ⟨records, hr, hbits⟩ | ⟨before, bad, behind, records, e, rfl, hr, hbits, he⟩
    · cases hline : readLine (lines.length + 1) line with
      | error e => exact .inr ⟨lines, line, [], records, e, rfl, hr, hbits, .fault hline⟩
      | ok r =>
        rcases Nat.lt_or_ge (bits (records.map Record.packet) + r.packet.size.toNat) (2 ^ 64) with h | h
        · exact .inl ⟨records ++ [r], hr.concat hline, by simpa using h⟩
        · exact .inr ⟨lines, line, [], records, .overflow, rfl, hr, hbits, .overflow hline h⟩
    · exact .inr ⟨before, bad, behind ++ [line], records, e, by simp, hr, hbits, he⟩

theorem RecordsOn.forall {P : Record → Prop} (hP : ∀ n text r, Record.read n text = .ok r → P r)
    {number : Nat} {lines : List (List UInt8)} {records : List Record}
    (h : RecordsOn number lines records) : ∀ r ∈ records, P r := by
  induction h with
  | nil => simp
  | cons h _ ih =>
    unfold readLine at h
    split at h
    · exact List.forall_mem_cons.mpr ⟨hP _ _ _ h, ih⟩
    · cases h

/-! ### The pass -/

namespace Pass

variable {σ : Type} (receive : σ → Record → σ)

/-- The pass behind some lines and their records. -/
def behind (state : σ) (lines : List (List UInt8)) (records : List Record) : Pass σ where
  lines := lines.length
  hasher := Digest.Hasher.start.update lines.flatten
  totals := Totals.sum (records.map Record.packet)
  state := records.foldl receive state

theorem start_eq (state : σ) : start state = behind receive state [] [] := by
  have h : Digest.Hasher.start.update [] = .start := by
    simp [Digest.Hasher.update, Digest.Hasher.start, Digest.Hasher.partialBlock,
      Digest.Chain.blocks_short]
  simp [start, behind, h, Totals.sum]

theorem next_behind (state : σ) (lines : List (List UInt8)) {records : List Record}
    (line : List UInt8) {r : Record} (h : bits ((records ++ [r]).map Record.packet) < 2 ^ 64) :
    (behind receive state lines records).next receive line r =
      .ok (behind receive state (lines ++ [line]) (records ++ [r])) := by
  have hsum : (Totals.sum (records.map Record.packet)).observe r.packet =
      .ok (Totals.sum ((records ++ [r]).map Record.packet)) := by
    rw [List.map_append] at h ⊢
    exact Totals.observe_sum h
  simp only [next, behind, hsum, Digest.Hasher.update_update, List.length_append, List.flatten_append,
    List.foldl_append]
  simp [bind, Except.bind, pure, Except.pure]

theorem next_behind_of_le (state : σ) (lines : List (List UInt8)) {records : List Record}
    (line : List UInt8) {r : Record} (hbits : bits (records.map Record.packet) < 2 ^ 64)
    (h : 2 ^ 64 ≤ bits (records.map Record.packet) + r.packet.size.toNat) :
    (behind receive state lines records).next receive line r = .error .overflow := by
  simp only [next, behind, Totals.observe_sum_of_le hbits h]
  rfl

theorem run_line (p : Pass σ) {bytes : List UInt8} (hne : bytes ≠ []) :
    p.run receive bytes =
      match readLine (p.lines + 1) (nextLine bytes).1 >>= p.next receive (nextLine bytes).1 with
      | .ok p => p.run receive (nextLine bytes).2
      | .error e => (p.state, .error e) := by
  cases bytes with
  | nil => exact absurd rfl hne
  | cons b bytes =>
    cases hnext : readLine (p.lines + 1) (nextLine (b :: bytes)).1 >>=
        p.next receive (nextLine (b :: bytes)).1 with
    | ok q => simp only [run, hnext]
    | error e => simp only [run, hnext]

/-- A pass over lines with records that fit a word goes on behind them. -/
theorem run_records {number : Nat} {front : List (List UInt8)} {records : List Record}
    (hr : RecordsOn number front records) :
    ∀ {bytes : List UInt8} {rest : List (List UInt8)}, IsLines bytes (front ++ rest) →
      ∀ (state : σ) (seen : List (List UInt8)) (before : List Record), number = seen.length + 1 →
      bits ((before ++ records).map Record.packet) < 2 ^ 64 →
      ∃ bytes', IsLines bytes' rest ∧ (behind receive state seen before).run receive bytes =
        (behind receive state (seen ++ front) (before ++ records)).run receive bytes' := by
  induction hr with
  | nil =>
    intro bytes rest h state seen before _ _
    exact ⟨bytes, h, by rw [List.append_nil, List.append_nil]⟩
  | @cons number line r front records hline _ ih =>
    intro bytes rest h state seen before hn hbits
    have hne : bytes ≠ [] := by
      rintro rfl
      exact absurd h.eq_nil (by simp)
    obtain ⟨lines, hlines, hrest⟩ := h.first hne
    rw [List.cons_append, List.cons.injEq] at hlines
    obtain ⟨rfl, rfl⟩ := hlines
    rw [List.append_cons] at hbits
    obtain ⟨bytes', h', hrun⟩ := ih hrest state (seen ++ [(nextLine bytes).1]) (before ++ [r])
      (by rw [hn]; simp) hbits
    refine ⟨bytes', h', ?_⟩
    have hfront : bits ((before ++ [r]).map Record.packet) < 2 ^ 64 := by
      rw [List.map_append, bits_append] at hbits
      omega
    have hstep : readLine ((behind receive state seen before).lines + 1) (nextLine bytes).1 >>=
        (behind receive state seen before).next receive (nextLine bytes).1 =
          .ok (behind receive state (seen ++ [(nextLine bytes).1]) (before ++ [r])) := by
      rw [show (behind receive state seen before).lines + 1 = number from hn.symm, hline]
      exact next_behind receive state seen _ hfront
    rw [run_line receive _ hne, hstep]
    dsimp only
    rw [hrun, List.append_assoc, List.append_assoc, List.singleton_append, List.singleton_append]

end Pass

section

variable {σ : Type} (receive : σ → Record → σ) (state : σ)

/-- What a trace comes to if all its lines have records that fit a word together. -/
def outcome (bytes : List UInt8) (records : List Record) : Except Fault TraceSummary :=
  match Statistics.ofPackets (records.map Record.packet) with
  | .ok statistics => .ok ⟨statistics, Digest.hex (Digest.sha256 bytes)⟩
  | .error e => .error e

theorem ingest_records {bytes : List UInt8} {lines : List (List UInt8)} {records : List Record}
    (h : IsLines bytes lines) (hr : RecordsOn 1 lines records)
    (hbits : bits (records.map Record.packet) < 2 ^ 64) :
    ingest receive state bytes = (records.foldl receive state, outcome bytes records) := by
  rw [← List.append_nil lines] at h
  obtain ⟨bytes', h', hrun⟩ := Pass.run_records receive hr h state [] [] rfl hbits
  have hnil : bytes' = [] := by
    rw [← h'.flatten]
    rfl
  have hbytes : lines.flatten = bytes := by
    rw [← h.flatten, List.append_nil]
  rw [ingest, Pass.start_eq receive, hrun, hnil, Pass.run, outcome, Statistics.ofPackets_of_lt hbits]
  cases hs : (Totals.sum (records.map Record.packet)).statistics <;>
    simp only [Pass.summary, Pass.behind, List.nil_append, Digest.Hasher.finish_update, hbytes, hs]

theorem ingest_end {bytes : List UInt8} {before behind : List (List UInt8)} {line : List UInt8}
    {records : List Record} {e : Fault} (h : IsLines bytes (before ++ line :: behind))
    (hr : RecordsOn 1 before records) (hbits : bits (records.map Record.packet) < 2 ^ 64)
    (he : EndsPass (before.length + 1) line records e) :
    ingest receive state bytes = (records.foldl receive state, .error e) := by
  obtain ⟨bytes', h', hrun⟩ := Pass.run_records receive hr h state [] [] rfl hbits
  have hne : bytes' ≠ [] := by
    rintro rfl
    exact absurd h'.eq_nil (by simp)
  obtain ⟨_, hlines, _⟩ := h'.first hne
  obtain ⟨rfl, -⟩ := List.cons.inj hlines
  have hstep : readLine (before.length + 1) (nextLine bytes').1 >>=
      (Pass.behind receive state before records).next receive (nextLine bytes').1 = .error e := by
    cases he with
    | fault he =>
      rw [he]
      rfl
    | overflow hline hover =>
      rw [hline]
      exact Pass.next_behind_of_le receive state before _ hbits hover
  rw [ingest, Pass.start_eq receive, hrun, List.nil_append, List.nil_append,
    Pass.run_line receive _ hne, show (Pass.behind receive state before records).lines = before.length
    from rfl, hstep]
  rfl

end

theorem keep_records (records : List Record) :
    (records.foldl (fun kept r => r :: kept) []).reverse = records := by simp

theorem read_records {bytes : List UInt8} {lines : List (List UInt8)} {records : List Record}
    (h : IsLines bytes lines) (hr : RecordsOn 1 lines records)
    (hbits : bits (records.map Record.packet) < 2 ^ 64) :
    read bytes = (records, outcome bytes records) := by
  simp only [read, ingest_records _ _ h hr hbits, keep_records]

theorem read_end {bytes : List UInt8} {before behind : List (List UInt8)} {line : List UInt8}
    {records : List Record} {e : Fault} (h : IsLines bytes (before ++ line :: behind))
    (hr : RecordsOn 1 before records) (hbits : bits (records.map Record.packet) < 2 ^ 64)
    (he : EndsPass (before.length + 1) line records e) :
    read bytes = (records, .error e) := by
  simp only [read, ingest_end _ _ h hr hbits he, keep_records]

/-- A trace is read up to its end, or up to the first line that ends the pass. -/
theorem read_cases (bytes : List UInt8) :
    ∃ lines records, RecordsOn 1 lines records ∧ (read bytes).1 = records ∧
      bits (records.map Record.packet) < 2 ^ 64 ∧
      (IsLines bytes lines ∧ (read bytes).2 = outcome bytes records ∨
        ∃ line behind e, IsLines bytes (lines ++ line :: behind) ∧
          EndsPass (lines.length + 1) line records e ∧ (read bytes).2 = .error e) := by
  obtain ⟨lines, h⟩ := exists_isLines bytes
  rcases records_or_end lines with
    ⟨records, hr, hbits⟩ | ⟨before, line, behind, records, e, rfl, hr, hbits, he⟩
  · rw [read_records h hr hbits]
    exact ⟨lines, records, hr, rfl, hbits, .inl ⟨h, rfl⟩⟩
  · rw [read_end h hr hbits he]
    exact ⟨before, records, hr, rfl, hbits, .inr ⟨line, behind, e, h, he, rfl⟩⟩

/-- What is read of a trace fits a word. -/
theorem bits_read_lt (bytes : List UInt8) : bits ((read bytes).1.map Record.packet) < 2 ^ 64 := by
  obtain ⟨lines, records, -, rfl, hbits, -⟩ := read_cases bytes
  exact hbits

/-- Whatever receives the records is handed those that are read, and has no part in the outcome. -/
theorem ingest_eq_read {σ : Type} (receive : σ → Record → σ) (state : σ) (bytes : List UInt8) :
    ingest receive state bytes = ((read bytes).1.foldl receive state, (read bytes).2) := by
  obtain ⟨lines, records, hr, hrecords, hbits, ⟨h, houtcome⟩ | ⟨line, behind, e, h, he, houtcome⟩⟩ :=
    read_cases bytes
  · rw [ingest_records _ _ h hr hbits, hrecords, houtcome]
  · rw [ingest_end _ _ h hr hbits he, hrecords, houtcome]

/-- What holds of each record that a line can give holds of all records of a trace. -/
theorem read_forall {P : Record → Prop} (hP : ∀ n text r, Record.read n text = .ok r → P r)
    (bytes : List UInt8) : ∀ r ∈ (read bytes).1, P r := by
  obtain ⟨lines, records, hr, rfl, -⟩ := read_cases bytes
  exact hr.forall hP

/-- The outcome of an accepted trace is that of its records. -/
theorem read_outcome {bytes : List UInt8} {summary : TraceSummary}
    (h : (read bytes).2 = .ok summary) : outcome bytes (read bytes).1 = .ok summary := by
  obtain ⟨lines, records, hr, rfl, -, ⟨-, ho⟩ | ⟨line, behind, e, -, -, ho⟩⟩ := read_cases bytes
  · rw [← ho, h]
  · rw [h] at ho
    cases ho

theorem outcome_ok {bytes : List UInt8} {records : List Record} {summary : TraceSummary}
    (h : outcome bytes records = .ok summary) :
    Statistics.ofPackets (records.map Record.packet) = .ok summary.statistics := by
  unfold outcome at h
  split at h
  · rename_i statistics hs
    cases h
    exact hs
  · cases h

theorem readLine_error {number : Nat} {line : List UInt8} {e : Fault}
    (h : readLine number line = .error e) :
    decode line = none ∧ e = .unreadable .notText ∨
      ∃ text, decode line = some text ∧ Record.read number text.toList = .error e ∧
        e.line? = some number := by
  unfold readLine at h
  split at h
  · rename_i text ht
    exact .inr ⟨text, ht, h, Record.read_error h⟩
  · rename_i hnone
    cases h
    exact .inl ⟨hnone, rfl⟩

theorem outcome_nil (bytes : List UInt8) : outcome bytes [] = .error .emptyTrace := rfl

theorem outcome_of_ne_nil (bytes : List UInt8) {records : List Record} (h : records ≠ [])
    (hbits : bits (records.map Record.packet) < 2 ^ 64) :
    ∃ statistics, Statistics.ofPackets (records.map Record.packet) = .ok statistics ∧
      outcome bytes records = .ok ⟨statistics, Digest.hex (Digest.sha256 bytes)⟩ := by
  obtain ⟨statistics, hs⟩ := Statistics.exists_ofPackets (mt List.map_eq_nil_iff.mp h) hbits
  exact ⟨statistics, hs, by rw [outcome, hs]⟩

/-- Ingestion is exact on every sequence of bytes. It has lines in one way. Without a line, the
trace is empty. If all lines have records that fit a word together, the receiver is handed exactly
them, and the outcome is their statistics and the digest of all bytes. Otherwise the receiver is
handed the records in front of the first line that has no record or whose packet does not fit, and
the outcome is the fault of that line or the overflow, whatever stands behind it. -/
theorem ingest_exact {σ : Type} (receive : σ → Record → σ) (state : σ) (bytes : List UInt8) :
    ∃ lines, (∀ others, IsLines bytes others ↔ others = lines) ∧
      (lines = [] ∧ ingest receive state bytes = (state, .error .emptyTrace) ∨
        (∃ records statistics, lines ≠ [] ∧ RecordsOn 1 lines records ∧
          bits (records.map Record.packet) < 2 ^ 64 ∧
          Statistics.ofPackets (records.map Record.packet) = .ok statistics ∧
          ingest receive state bytes = (records.foldl receive state,
            .ok ⟨statistics, Digest.hex (Digest.sha256 bytes)⟩)) ∨
        ∃ before line behind records e, lines = before ++ line :: behind ∧
          RecordsOn 1 before records ∧ bits (records.map Record.packet) < 2 ^ 64 ∧
          ((decode line = none ∧ e = .unreadable .notText ∨
              ∃ text, decode line = some text ∧
                Record.read (before.length + 1) text.toList = .error e ∧
                e.line? = some (before.length + 1)) ∨
            ∃ r, readLine (before.length + 1) line = .ok r ∧
              2 ^ 64 ≤ bits (records.map Record.packet) + r.packet.size.toNat ∧ e = .overflow) ∧
          ∀ other behind', IsLines other (before ++ line :: behind') →
            ingest receive state other = (records.foldl receive state, .error e)) := by
  obtain ⟨lines, h⟩ := exists_isLines bytes
  refine ⟨lines, fun others => ⟨fun ho => (h.unique ho).symm, fun ho => ho ▸ h⟩, ?_⟩
  rcases records_or_end lines with
    ⟨records, hr, hbits⟩ | ⟨before, line, behind, records, e, rfl, hr, hbits, he⟩
  · cases hr with
    | nil =>
      refine .inl ⟨rfl, ?_⟩
      rw [ingest_records _ _ h (.nil 1) hbits, outcome_nil]
      rfl
    | cons hline hrest =>
      obtain ⟨statistics, hs, ho⟩ := outcome_of_ne_nil bytes (List.cons_ne_nil _ _) hbits
      refine .inr (.inl ⟨_, statistics, List.cons_ne_nil _ _, .cons hline hrest, hbits, hs, ?_⟩)
      rw [ingest_records _ _ h (.cons hline hrest) hbits, ho]
  · have hend : (decode line = none ∧ e = .unreadable .notText ∨
        ∃ text, decode line = some text ∧
          Record.read (before.length + 1) text.toList = .error e ∧
          e.line? = some (before.length + 1)) ∨
        ∃ r, readLine (before.length + 1) line = .ok r ∧
          2 ^ 64 ≤ bits (records.map Record.packet) + r.packet.size.toNat ∧ e = .overflow := by
      cases he with
      | fault he => exact .inl (readLine_error he)
      | overflow hline hover => exact .inr ⟨_, hline, hover, rfl⟩
    refine .inr (.inr ⟨before, line, behind, records, e, rfl, hr, hbits, hend, ?_⟩)
    exact fun other behind' hother => ingest_end _ _ hother hr hbits he

/-- Two flows with a packet each, whose sizes together are one more than the largest word. -/
def overfullWord : List UInt8 :=
  "0;1;a;x;18446744073709551615;100\n2;3;b;x;1;100\n".toUTF8.toList

theorem overfullWord_records : ∃ lines records, IsLines overfullWord lines ∧
    RecordsOn 1 lines records ∧ records.length = 2 ∧ 2 ^ 64 ≤ bits (records.map Record.packet) := by
  let first : List UInt8 := "0;1;a;x;18446744073709551615;100".toUTF8.toList
  let second : List UInt8 := "2;3;b;x;1;100".toUTF8.toList
  have hlines : IsLines (first ++ 10 :: (second ++ 10 :: [])) [first ++ [10], second ++ [10]] :=
    .feed (by decide +kernel) (.feed (by decide +kernel) .nil)
  have hbytes : overfullWord = first ++ 10 :: (second ++ 10 :: []) := by decide +kernel
  have hsizes : (readLine 1 (first ++ [10])).toOption.map (·.packet.size.toNat) = some (2 ^ 64 - 1) ∧
      (readLine 2 (second ++ [10])).toOption.map (·.packet.size.toNat) = some 1 := by decide +kernel
  obtain ⟨⟨r, hr, hrsize⟩, ⟨s, hs, hssize⟩⟩ := hsizes.imp Option.map_eq_some_iff.mp
    Option.map_eq_some_iff.mp
  refine ⟨_, [r, s], hbytes ▸ hlines, .cons (ok_of_toOption hr) (.cons (ok_of_toOption hs) (.nil 3)),
    rfl, ?_⟩
  show 2 ^ 64 ≤ r.packet.size.toNat + (s.packet.size.toNat + 0)
  omega

/-- All lines of a trace have records, and the receiver is handed only the first of them. -/
theorem not_ingest_exact : ¬ ∀ (bytes : List UInt8) (lines : List (List UInt8))
    (records : List Record), IsLines bytes lines → RecordsOn 1 lines records → lines ≠ [] →
      ∀ {σ : Type} (receive : σ → Record → σ) (state : σ), ∃ statistics,
        ingest receive state bytes = (records.foldl receive state,
          .ok ⟨statistics, Digest.hex (Digest.sha256 bytes)⟩) := by
  intro hexact
  obtain ⟨lines, records, h, hr, hlength, -⟩ := overfullWord_records
  have hne : lines ≠ [] := List.ne_nil_of_length_pos (by rw [hr.length_eq, hlength]; decide)
  obtain ⟨statistics, hingest⟩ := hexact _ _ _ h hr hne (fun n _ => n + 1) 0
  rw [ingest_eq_read, Prod.mk.injEq] at hingest
  have hfails : (read overfullWord).2.isOk = false := by decide +kernel
  rw [hingest.2] at hfails
  cases hfails

end Trace

end Saturation
