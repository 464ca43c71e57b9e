import Mathlib.Data.List.Forall2
import Mathlib.Logic.Relation
import Saturation.Proofs.Encoding
import Saturation.Proofs.Files.Path
import Saturation.Proofs.Ingest

/-!
The layout of a trace: line ends, blanks around fields, fields behind the sixth, and the line feed at
the end. A pass sees of each line its first six fields without the blanks around them, so texts that
differ in their layout give the same records and the same statistics, or the same fault.
-/

set_option autoImplicit false

namespace Saturation

/-! ### Fields -/

@[simp] theorem Text.isBlank_return : isBlank '\r' = true := rfl

@[simp] theorem Text.isBlank_feed : isBlank '\n' = true := rfl

theorem Text.trim_append_blanks {left right : List Char} (hleft : ∀ c ∈ left, isBlank c = true)
    (hright : ∀ c ∈ right, isBlank c = true) (cs : List Char) :
    trim (left ++ cs ++ right) = trim cs := by
  have hback : ∀ xs : List Char,
      (xs ++ right).reverse.dropWhile isBlank = xs.reverse.dropWhile isBlank := by
    intro xs
    rw [List.reverse_append, List.dropWhile_append_of_pos fun c hc => hright c (List.mem_reverse.mp hc)]
  rw [trim, trim, List.append_assoc, List.dropWhile_append_of_pos hleft, List.dropWhile_append]
  split
  · rename_i hblank
    have hnil : right.dropWhile isBlank = [] := List.dropWhile_eq_nil_iff.mpr hright
    rw [hnil, List.isEmpty_iff.mp hblank]
  · rw [hback]

namespace Record

theorem fields_append (cs ds : List Char) : fields (cs ++ ';' :: ds) = fields cs ++ fields ds := by
  rw [fields, Path.splitOn_append, List.map_append]
  rfl

theorem fields_of_not_mem {cs : List Char} (h : ';' ∉ cs) : fields cs = [Text.trim cs] := by
  rw [fields, Path.splitOn_of_not_mem h, List.map_singleton]

/-- Blanks at the end of a line are behind its last field. -/
theorem fields_append_blanks {blanks : List Char} (h : ∀ c ∈ blanks, Text.isBlank c = true)
    (cs : List Char) : fields (cs ++ blanks) = fields cs := by
  by_cases hcs : ';' ∈ cs
  · obtain ⟨front, rest, rfl, -⟩ := List.eq_append_cons_of_mem hcs
    rw [List.append_assoc, List.cons_append, fields_append, fields_append, fields_append_blanks h rest]
  · have hnot : ';' ∉ blanks := fun hm => absurd (h _ hm) (by decide)
    rw [fields_of_not_mem (by simp [hcs, hnot]), fields_of_not_mem hcs]
    exact congrArg (· :: []) (Text.trim_append_blanks (fun c hc => absurd hc List.not_mem_nil) h cs)
termination_by cs.length
decreasing_by
  subst cs
  simp only [List.length_append, List.length_cons]
  omega

/-- A record is read from the first six fields, and a fault that there are fewer names their number. -/
theorem read_congr {line line' : List Char} (h : (fields line').take 6 = (fields line).take 6)
    (number : Nat) : read number line' = read number line := by
  have hsix : ∀ fs : List (List Char), 6 ≤ fs.length → ∃ a b c d e f rest,
      fs = a :: b :: c :: d :: e :: f :: rest := by
    rintro (_ | ⟨a, _ | ⟨b, _ | ⟨c, _ | ⟨d, _ | ⟨e, _ | ⟨f, rest⟩⟩⟩⟩⟩⟩) hlength
    case cons.cons.cons.cons.cons.cons => exact ⟨a, b, c, d, e, f, rest, rfl⟩
    all_goals simp at hlength
  have hlengths := congrArg List.length h
  rw [List.length_take, List.length_take] at hlengths
  unfold read
  by_cases hlength : 6 ≤ (fields line).length
  · obtain ⟨a, b, c, d, e, f, rest, hline⟩ := hsix _ hlength
    obtain ⟨a', b', c', d', e', f', rest', hline'⟩ := hsix (fields line') (by omega)
    rw [hline, hline'] at h ⊢
    obtain ⟨rfl, rfl, rfl, rfl, rfl, rfl⟩ : a' = a ∧ b' = b ∧ c' = c ∧ d' = d ∧ e' = e ∧ f' = f := by
      simpa using h
    rfl
  · rw [List.take_of_length_le (by omega), List.take_of_length_le (by omega)] at h
    rw [h]

end Record

namespace Trace

/-! ### Lines -/

/-- The lines of a text. A line feed is part of the line that it ends. -/
def lines : List Char → List (List Char)
  | [] => []
  | c :: cs =>
    if c = '\n' then [c] :: lines cs
    else match lines cs with
      | [] => [[c]]
      | line :: rest => (c :: line) :: rest

theorem lines_feed (cs : List Char) : lines ('\n' :: cs) = ['\n'] :: lines cs := if_pos rfl

theorem lines_cons {c : Char} (hc : c ≠ '\n') {cs line : List Char} {rest : List (List Char)}
    (h : lines cs = line :: rest) : lines (c :: cs) = (c :: line) :: rest := by
  rw [lines, if_neg hc, h]

theorem lines_eq_nil {cs : List Char} (h : lines cs = []) : cs = [] := by
  cases cs with
  | nil => rfl
  | cons c cs =>
    rw [lines] at h
    split at h
    · cases h
    · split at h <;> cases h

/-- Bytes without a line feed can go in front of the first line. -/
theorem IsLines.prepend {bytes line : List UInt8} {rest : List (List UInt8)}
    (h : IsLines bytes (line :: rest)) {front : List UInt8} (hfront : 10 ∉ front) :
    IsLines (front ++ bytes) ((front ++ line) :: rest) := by
  cases h with
  | last hne h => exact .last (by simp [hne]) (by simp [hfront, h])
  | @feed line rest lines h hrest =>
    rw [← List.append_assoc, ← List.append_assoc]
    exact .feed (by simp [hfront, h]) hrest

/-- The lines of a text are those of its bytes. -/
theorem lines_isLines (cs : List Char) : IsLines (utf8 cs) ((lines cs).map utf8) := by
  induction cs with
  | nil => exact .nil
  | cons c cs ih =>
    by_cases hc : c = '\n'
    · subst hc
      rw [lines_feed]
      exact IsLines.feed List.not_mem_nil ih
    · have hfeed := feed_not_mem_utf8EncodeChar hc
      cases hlines : lines cs with
      | nil =>
        obtain rfl := lines_eq_nil hlines
        rw [lines, if_neg hc, hlines]
        exact .last (by simp [utf8]) (by simpa [utf8] using hfeed)
      | cons line rest =>
        rw [hlines] at ih
        rw [lines_cons hc hlines]
        exact IsLines.prepend ih hfeed

theorem readLine_utf8 (number : Nat) (line : List Char) :
    readLine number (utf8 line) = Record.read number line := by
  rw [readLine, decode_utf8]
  dsimp only
  rw [String.toList_ofList]

/-! ### What a pass sees -/

theorem RecordsOn.congr {number : Nat} {ls ls' : List (List UInt8)} {records : List Record}
    (hr : RecordsOn number ls records)
    (h : List.Forall₂ (fun l' l => ∀ n, readLine n l' = readLine n l) ls' ls) :
    RecordsOn number ls' records := by
  induction hr generalizing ls' with
  | nil =>
    cases h
    exact .nil _
  | cons hline _ ih =>
    cases h with
    | cons hsame hrest => exact .cons ((hsame _).trans hline) (ih hrest)

theorem EndsPass.congr {number : Nat} {line line' : List UInt8} {records : List Record} {e : Fault}
    (h : EndsPass number line records e) (hsame : ∀ n, readLine n line' = readLine n line) :
    EndsPass number line' records e := by
  cases h with
  | fault h => exact .fault ((hsame _).trans h)
  | overflow h hbits => exact .overflow ((hsame _).trans h) hbits

theorem outcome_statistics (bytes : List UInt8) (records : List Record) :
    (outcome bytes records).map TraceSummary.statistics =
      Statistics.ofPackets (records.map Record.packet) := by
  unfold outcome
  cases Statistics.ofPackets (records.map Record.packet) with
  | ok statistics => rfl
  | error e => rfl

/-- Passes over lines that have the same records, or the same faults, differ in the digest only. -/
theorem read_congr {bytes bytes' : List UInt8} {ls ls' : List (List UInt8)} (h : IsLines bytes ls)
    (h' : IsLines bytes' ls')
    (hsame : List.Forall₂ (fun l' l => ∀ n, readLine n l' = readLine n l) ls' ls) :
    (read bytes').1 = (read bytes).1 ∧
      (read bytes').2.map TraceSummary.statistics = (read bytes).2.map TraceSummary.statistics := by
  rcases records_or_end ls with
    ⟨records, hr, hbits⟩ | ⟨before, line, behind, records, e, rfl, hr, hbits, he⟩
  · rw [read_records h hr hbits, read_records h' (hr.congr hsame) hbits]
    exact ⟨rfl, by rw [outcome_statistics, outcome_statistics]⟩
  · have hbefore := List.forall₂_take_append _ _ _ hsame
    obtain ⟨line', behind', hline, -, hls'⟩ :=
      List.forall₂_cons_right_iff.mp (List.forall₂_drop_append _ _ _ hsame)
    rw [← List.take_append_drop before.length ls', hls'] at h'
    have he' := he.congr hline
    rw [← hbefore.length_eq] at he'
    rw [read_end h hr hbits he, read_end h' (hr.congr hbefore) hbits he']
    exact ⟨rfl, rfl⟩

/-- The fields of a text that records are read from, line by line. -/
def content (cs : List Char) : List (List (List Char)) :=
  (lines cs).map fun line => (Record.fields line).take 6

theorem read_of_content_eq {cs cs' : List Char} (h : content cs' = content cs) :
    (read (utf8 cs')).1 = (read (utf8 cs)).1 ∧
      (read (utf8 cs')).2.map TraceSummary.statistics =
        (read (utf8 cs)).2.map TraceSummary.statistics := by
  refine read_congr (lines_isLines cs) (lines_isLines cs') ?_
  rw [content, content, ← List.forall₂_eq_eq_eq, List.forall₂_map_left_iff,
    List.forall₂_map_right_iff] at h
  rw [List.forall₂_map_left_iff, List.forall₂_map_right_iff]
  refine h.imp fun line' line hline number => ?_
  rw [readLine_utf8, readLine_utf8]
  exact Record.read_congr hline number

/-! ### Edits -/

/-- A line of a text, without its line feed: it stands between line feeds or the ends of the text.
There is no line behind a line feed at the end. -/
structure IsLine (front line rest : List Char) : Prop where
  starts : front = [] ∨ ∃ before, front = before ++ ['\n']
  ends : rest = [] ∨ ∃ behind, rest = '\n' :: behind
  unbroken : '\n' ∉ line
  nonempty : line ≠ [] ∨ rest ≠ []

/-- A field of a line: it stands between semicolons or the ends of the line. A carriage return at the
end of a line may be part of its last field or stand behind it. -/
structure IsField (before field after : List Char) : Prop where
  starts : before = [] ∨ ∃ fields, before = fields ++ [';']
  ends : after = [] ∨ after = ['\r'] ∨ ∃ fields, after = ';' :: fields
  unbroken : ';' ∉ field

/-- Each line feed with a carriage return in front of it. -/
def withReturns (cs : List Char) : List Char :=
  cs.flatMap fun c => if c = '\n' then ['\r', '\n'] else [c]

/-- Changes of a text's layout. -/
inductive Edit : List Char → List Char → Prop
  | returns (cs : List Char) : Edit cs (withReturns cs)
  | pad (front rest before field after left right : List Char)
    (hline : IsLine front (before ++ field ++ after) rest) (hfield : IsField before field after)
    (hleft : ∀ c ∈ left, c = ' ' ∨ c = '\t') (hright : ∀ c ∈ right, c = ' ' ∨ c = '\t') :
    Edit (front ++ (before ++ field ++ after) ++ rest)
      (front ++ (before ++ (left ++ field ++ right) ++ after) ++ rest)
  | extend (front line rest ending more : List Char) (hline : IsLine front (line ++ ending) rest)
    (hending : ending = [] ∨ ending = ['\r']) (hsix : 6 ≤ (line.splitOn ';').length)
    (hmore : '\n' ∉ more) :
    Edit (front ++ (line ++ ending) ++ rest) (front ++ (line ++ ';' :: more ++ ending) ++ rest)
  | feed (front line : List Char) (hline : IsLine front line []) :
    Edit (front ++ line) (front ++ line ++ ['\n'])

theorem lines_append_feed (before cs : List Char) :
    lines (before ++ ['\n'] ++ cs) = lines (before ++ ['\n']) ++ lines cs := by
  induction before with
  | nil => exact lines_feed cs
  | cons c before ih =>
    by_cases hc : c = '\n'
    · subst hc
      simp only [List.cons_append, lines_feed] at ih ⊢
      rw [ih]
    · cases hlines : lines (before ++ ['\n']) with
      | nil => exact absurd (lines_eq_nil hlines) (by simp)
      | cons line rest =>
        rw [hlines] at ih
        have hall : lines (c :: (before ++ ['\n'] ++ cs)) = (c :: line) :: (rest ++ lines cs) :=
          lines_cons hc ih
        rw [List.cons_append, List.cons_append, hall, lines_cons hc hlines, List.cons_append]

theorem lines_unbroken {line rest : List Char} (hline : '\n' ∉ line)
    (hrest : rest = [] ∨ ∃ behind, rest = '\n' :: behind) (hne : line ≠ [] ∨ rest ≠ []) :
    lines (line ++ rest) = (line ++ rest.take 1) :: lines (rest.drop 1) := by
  induction line with
  | nil =>
    rcases hrest with rfl | ⟨behind, rfl⟩
    · simp at hne
    · exact lines_feed behind
  | cons c line ih =>
    rw [List.mem_cons, not_or] at hline
    by_cases hempty : line = [] ∧ rest = []
    · obtain ⟨rfl, rfl⟩ := hempty
      rw [List.append_nil, lines, if_neg (Ne.symm hline.1)]
      rfl
    · exact lines_cons (Ne.symm hline.1) (ih hline.2 (by tauto))

theorem IsLine.lines_eq {front line rest : List Char} (h : IsLine front line rest) :
    lines (front ++ line ++ rest) =
      lines front ++ (line ++ rest.take 1) :: lines (rest.drop 1) := by
  have hline := lines_unbroken h.unbroken h.ends h.nonempty
  rcases h.starts with rfl | ⟨before, rfl⟩
  · exact hline
  · rw [List.append_assoc, lines_append_feed, hline]

/-- A line can be replaced by one with the same first six fields. -/
theorem IsLine.content_eq {front line line' rest : List Char} (h : IsLine front line rest)
    (h' : IsLine front line' rest)
    (hfields : (Record.fields line').take 6 = (Record.fields line).take 6) :
    content (front ++ line' ++ rest) = content (front ++ line ++ rest) := by
  have hblank : ∀ c ∈ rest.take 1, Text.isBlank c = true := by
    rcases h.ends with rfl | ⟨behind, rfl⟩ <;> simp
  simp only [content, h.lines_eq, h'.lines_eq, List.map_append, List.map_cons,
    Record.fields_append_blanks hblank, hfields]

theorem IsField.fields_eq {before field field' after : List Char} (h : IsField before field after)
    (h' : ';' ∉ field') (htrim : Text.trim field' = Text.trim field) :
    Record.fields (before ++ field' ++ after) = Record.fields (before ++ field ++ after) := by
  have hfield : Record.fields (before ++ field') = Record.fields (before ++ field) := by
    have hsame : Record.fields field' = Record.fields field := by
      rw [Record.fields_of_not_mem h', Record.fields_of_not_mem h.unbroken, htrim]
    rcases h.starts with rfl | ⟨fs, rfl⟩
    · exact hsame
    · rw [List.append_assoc, List.append_assoc, List.singleton_append, List.singleton_append,
        Record.fields_append, Record.fields_append, hsame]
  rcases h.ends with rfl | rfl | ⟨fs, rfl⟩
  · rwa [List.append_nil, List.append_nil]
  · have hblank : ∀ c ∈ ['\r'], Text.isBlank c = true := by simp
    rw [Record.fields_append_blanks hblank, Record.fields_append_blanks hblank, hfield]
  · rw [Record.fields_append, Record.fields_append, hfield]

/-! The lines with carriage returns. -/

theorem withReturns_of_not_mem {cs : List Char} (h : '\n' ∉ cs) : withReturns cs = cs := by
  induction cs with
  | nil => rfl
  | cons c cs ih =>
    rw [List.mem_cons, not_or] at h
    rw [withReturns, List.flatMap_cons, if_neg (Ne.symm h.1)]
    exact congrArg (c :: ·) (ih h.2)

theorem lines_withReturns (cs : List Char) : lines (withReturns cs) = (lines cs).map withReturns := by
  induction cs with
  | nil => rfl
  | cons c cs ih =>
    by_cases hc : c = '\n'
    · subst hc
      have hlines : lines (withReturns ('\n' :: cs)) = ['\r', '\n'] :: lines (withReturns cs) :=
        lines_cons (by decide) (lines_feed _)
      rw [hlines, lines_feed, ih]
      rfl
    · have hcons : ∀ ds, withReturns (c :: ds) = c :: withReturns ds := fun ds => by
        rw [withReturns, List.flatMap_cons, if_neg hc]
        rfl
      rw [hcons]
      cases hlines : lines cs with
      | nil =>
        rw [hlines] at ih
        rw [lines, lines, if_neg hc, if_neg hc, ih, hlines]
        exact congrArg (· :: []) (hcons []).symm
      | cons line rest =>
        rw [hlines] at ih
        rw [lines_cons hc hlines, lines_cons hc ih, List.map_cons, hcons]

/-- A line has a line feed at its end, if it has one. -/
theorem mem_lines {cs line : List Char} (h : line ∈ lines cs) :
    ∃ l, '\n' ∉ l ∧ (line = l ∨ line = l ++ ['\n']) := by
  induction cs generalizing line with
  | nil => cases h
  | cons c cs ih =>
    by_cases hc : c = '\n'
    · subst hc
      rw [lines_feed, List.mem_cons] at h
      rcases h with rfl | h
      · exact ⟨[], List.not_mem_nil, .inr rfl⟩
      · exact ih h
    · cases hlines : lines cs with
      | nil =>
        rw [lines, if_neg hc, hlines, List.mem_singleton] at h
        exact ⟨[c], by simpa using Ne.symm hc, .inl h⟩
      | cons first rest =>
        rw [hlines] at ih
        rw [lines_cons hc hlines, List.mem_cons] at h
        rcases h with rfl | h
        · obtain ⟨l, hl, hfirst⟩ := ih List.mem_cons_self
          refine ⟨c :: l, by simp [hl, Ne.symm hc], ?_⟩
          rcases hfirst with rfl | rfl
          · exact .inl rfl
          · exact .inr rfl
        · exact ih (List.mem_cons_of_mem _ h)

theorem content_withReturns (cs : List Char) : content (withReturns cs) = content cs := by
  rw [content, content, lines_withReturns, List.map_map]
  refine List.map_congr_left fun line hline => congrArg (List.take 6) ?_
  obtain ⟨l, hl, rfl | rfl⟩ := mem_lines hline
  · rw [withReturns_of_not_mem hl]
  · have hline : withReturns (l ++ ['\n']) = l ++ ['\r', '\n'] := by
      have happend : withReturns (l ++ ['\n']) = withReturns l ++ ['\r', '\n'] := List.flatMap_append
      rw [happend, withReturns_of_not_mem hl]
    have hreturn : ∀ c ∈ ['\r', '\n'], Text.isBlank c = true := by simp
    have hfeed : ∀ c ∈ ['\n'], Text.isBlank c = true := by simp
    rw [hline, Record.fields_append_blanks hreturn, Record.fields_append_blanks hfeed]

/-- No edit of the layout changes what is seen of a text. -/
theorem Edit.content_eq {cs cs' : List Char} (h : Edit cs cs') : content cs' = content cs := by
  have hspace : ∀ {blanks : List Char}, (∀ c ∈ blanks, c = ' ' ∨ c = '\t') →
      (∀ c ∈ blanks, Text.isBlank c = true) ∧ ';' ∉ blanks ∧ '\n' ∉ blanks := by
    intro blanks hb
    refine ⟨fun c hc => ?_, fun hc => by simpa using hb _ hc, fun hc => by simpa using hb _ hc⟩
    rcases hb c hc with rfl | rfl <;> decide
  cases h with
  | returns cs => exact content_withReturns cs
  | pad front rest before field after left right hline hfield hleft hright =>
    obtain ⟨hleft, hleft', hleft''⟩ := hspace hleft
    obtain ⟨hright, hright', hright''⟩ := hspace hright
    have hunbroken := hline.unbroken
    simp only [List.mem_append, not_or] at hunbroken
    have hnonempty := hline.nonempty
    refine hline.content_eq ⟨hline.starts, hline.ends, ?_, ?_⟩ (congrArg (List.take 6) ?_)
    · simp only [List.mem_append, not_or]
      tauto
    · simp only [ne_eq, List.append_eq_nil_iff] at hnonempty ⊢
      tauto
    · refine hfield.fields_eq ?_ (Text.trim_append_blanks hleft hright field)
      simp only [List.mem_append, not_or]
      exact ⟨⟨hleft', hfield.unbroken⟩, hright'⟩
  | extend front line rest ending more hline hending hsix hmore =>
    have hblank : ∀ c ∈ ending, Text.isBlank c = true := by
      rcases hending with rfl | rfl <;> simp
    have hunbroken := hline.unbroken
    simp only [List.mem_append, not_or] at hunbroken
    refine hline.content_eq ⟨hline.starts, hline.ends, ?_, .inl (by simp)⟩ ?_
    · simp only [List.mem_append, List.mem_cons, not_or]
      exact ⟨⟨hunbroken.1, by decide, hmore⟩, hunbroken.2⟩
    · have hlength : 6 ≤ (Record.fields line).length := by rwa [Record.fields, List.length_map]
      rw [List.append_assoc, List.cons_append, Record.fields_append, List.take_append_of_le_length hlength,
        Record.fields_append_blanks hblank]
  | feed front line hline =>
    have hfeed : IsLine front line ['\n'] := ⟨hline.starts, .inr ⟨[], rfl⟩, hline.unbroken, .inr (by simp)⟩
    have hblank : ∀ c ∈ ['\n'], Text.isBlank c = true := by simp
    have hlines := hline.lines_eq
    rw [List.append_nil] at hlines
    simp only [content, hlines, hfeed.lines_eq, List.map_append, List.map_cons]
    have htaken : ['\n'].take 1 = ['\n'] := rfl
    rw [htaken, Record.fields_append_blanks hblank]
    simp

/-- The layout of a trace does not matter. After any edits of a text's layout, made or taken back, the
same records are read, and the outcome is the same but for the digest: the statistics, or the fault,
whose message is made of nothing else. -/
theorem read_edited {text text' : String} (h : Relation.EqvGen Edit text.toList text'.toList) :
    (read text'.toUTF8.toList).1 = (read text.toUTF8.toList).1 ∧
      (read text'.toUTF8.toList).2.map TraceSummary.statistics =
        (read text.toUTF8.toList).2.map TraceSummary.statistics := by
  have hcontent : ∀ {cs cs' : List Char}, Relation.EqvGen Edit cs cs' → content cs' = content cs := by
    intro cs cs' hedits
    induction hedits with
    | rel _ _ hedit => exact hedit.content_eq
    | refl => rfl
    | symm _ _ _ ih => exact ih.symm
    | trans _ _ _ _ _ ih ih' => exact ih'.trans ih
  rw [toUTF8_toList, toUTF8_toList]
  exact read_of_content_eq (hcontent h)

/-- Two lines, the second one at fault and without a line feed. -/
def plainLines : String := "0;1;a;x;512;100\n2;3;b;x;0;1"

/-- The same lines with returns, blanks around two fields, a field more and a line feed at the end. -/
def relaidLines : String := "0;1;\ta ;x;512;100;more\r\n2;3;b;x; 0;1\n"

theorem plainLines_edits : Relation.EqvGen Edit plainLines.toList relaidLines.toList := by
  have hreturns : Edit plainLines.toList "0;1;a;x;512;100\r\n2;3;b;x;0;1".toList := Edit.returns _
  have hflow : Edit "0;1;a;x;512;100\r\n2;3;b;x;0;1".toList
      "0;1;\ta ;x;512;100\r\n2;3;b;x;0;1".toList :=
    Edit.pad "".toList "\n2;3;b;x;0;1".toList "0;1;".toList "a".toList ";x;512;100\r".toList
      "\t".toList " ".toList ⟨.inl rfl, .inr ⟨_, rfl⟩, by decide, by decide⟩
      ⟨.inr ⟨"0;1".toList, rfl⟩, .inr (.inr ⟨_, rfl⟩), by decide⟩ (by simp) (by simp)
  have hmore : Edit "0;1;\ta ;x;512;100\r\n2;3;b;x;0;1".toList
      "0;1;\ta ;x;512;100;more\r\n2;3;b;x;0;1".toList :=
    Edit.extend "".toList "0;1;\ta ;x;512;100".toList "\n2;3;b;x;0;1".toList "\r".toList "more".toList
      ⟨.inl rfl, .inr ⟨_, rfl⟩, by decide, by decide⟩ (.inr rfl) (by decide) (by decide)
  have hfront : "0;1;\ta ;x;512;100;more\r\n".toList =
      "0;1;\ta ;x;512;100;more\r".toList ++ ['\n'] := rfl
  have hsize : Edit "0;1;\ta ;x;512;100;more\r\n2;3;b;x;0;1".toList
      "0;1;\ta ;x;512;100;more\r\n2;3;b;x; 0;1".toList :=
    Edit.pad "0;1;\ta ;x;512;100;more\r\n".toList "".toList "2;3;b;x;".toList "0".toList ";1".toList
      " ".toList "".toList ⟨.inr ⟨_, hfront⟩, .inl rfl, by decide, by decide⟩
      ⟨.inr ⟨"2;3;b;x".toList, rfl⟩, .inr (.inr ⟨_, rfl⟩), by decide⟩ (by simp) (by simp)
  have hfeed : Edit "0;1;\ta ;x;512;100;more\r\n2;3;b;x; 0;1".toList relaidLines.toList :=
    Edit.feed "0;1;\ta ;x;512;100;more\r\n".toList "2;3;b;x; 0;1".toList
      ⟨.inr ⟨_, hfront⟩, .inl rfl, by decide, by decide⟩
  exact .trans _ _ _ (.rel _ _ hreturns) (.trans _ _ _ (.rel _ _ hflow) (.trans _ _ _ (.rel _ _ hmore)
    (.trans _ _ _ (.rel _ _ hsize) (.rel _ _ hfeed))))

theorem read_edited_relaidLines :
    (read relaidLines.toUTF8.toList).1 = (read plainLines.toUTF8.toList).1 ∧
      (read relaidLines.toUTF8.toList).2.map TraceSummary.statistics =
        (read plainLines.toUTF8.toList).2.map TraceSummary.statistics :=
  read_edited plainLines_edits

end Trace

end Saturation
