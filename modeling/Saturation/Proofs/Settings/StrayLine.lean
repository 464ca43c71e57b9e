import Saturation.Proofs.Settings.Meaning

/-!
Where an error is reported. In a document of lines, one for each scalar setting and for the beginning
and the end of each group, a line that is no part of a document is put between two others. It is
reported by its own number outside of all groups. Within a group, the group is what cannot be read,
and the error is reported on the line on which the innermost one begins.
-/

set_option autoImplicit false

namespace Saturation.Settings

/-! ## Documents of lines -/

/-- What a line holds: a scalar setting, the beginning of a group, or the end of one. -/
inductive LinePart where
  | setting (label : Label) (x : Literal) (ending : Ending)
  | opening (label : Label)
  | closing (before : Layout) (ending : Ending)

def LinePart.text : LinePart → List Char
  | setting label x ending => label.text ++ (x.text ++ ending.text)
  | opening label => label.text ++ ['\x7b']
  | closing before ending => before.text ++ '\x7d' :: ending.text

/-- What is open behind a part that begins on the line `n`, where the groups that began on `outer` are
open. -/
def LinePart.openGroups (n : Nat) (outer : List Nat) : LinePart → Option (List Nat)
  | setting _ _ _ => some outer
  | opening label => some ((n + label.text.count '\n') :: outer)
  | closing _ _ =>
    match outer with
    | [] => none
    | _ :: outer => some outer

/-- A part with the layout behind it, which ends the line. -/
structure Line where
  part : LinePart
  behind : Layout
  ends : (part.text ++ behind.text).getLast? = some '\n'

namespace Line

def text (l : Line) : List Char := l.part.text ++ l.behind.text

/-- The number of the line that begins behind some lines. -/
def numberBehind (ls : List Line) : Nat := (ls.flatMap text).count '\n' + 1

/-- The numbers of the lines on which the groups begin that are open behind some lines, the innermost
first, if no more groups are closed than have been opened. The first of the lines has the number `n`,
and the groups that began on `outer` are open there. -/
def openGroups (n : Nat) (outer : List Nat) : List Line → Option (List Nat)
  | [] => some outer
  | l :: ls => (l.part.openGroups n outer).bind fun outer =>
    openGroups (n + l.text.count '\n') outer ls

end Line

/-! ## What is open behind some lines -/

theorem Layout.text_append (l k : Layout) : Layout.text (l ++ k) = l.text ++ k.text :=
  List.flatMap_append

/-- A setting with what ends it. -/
structure Entry where
  label : Label
  node : Node
  ending : Ending

namespace Entry

def text (e : Entry) : List Char := e.label.text ++ (e.node.text ++ e.ending.text)

def body (es : List Entry) : Body := es.foldr (fun e b => .cons e.label e.node e.ending b) .nil

theorem body_text (es : List Entry) : (body es).text = es.flatMap text := by
  induction es with
  | nil => rfl
  | cons e es ih =>
    rw [body, List.foldr_cons, ← body, Body.text, ih]
    simp [text]

end Entry

def Label.after (l : Label) (gap : Layout) : Label := { l with before := gap ++ l.before }

theorem Label.text_after (l : Label) (gap : Layout) : (l.after gap).text = gap.text ++ l.text := by
  have hsign : (l.after gap).sign = l.sign := rfl
  simp only [Label.text, hsign]
  simp [after, Layout.text_append]

/-- The settings that are complete in front of an open group, with its label. -/
abbrev Frame := List Entry × Label

/-- The settings that have been read up to a point, in the groups that are open there. -/
structure Context where
  outer : List Frame
  entries : List Entry
  gap : Layout

namespace Context

def outerText : List Frame → List Char
  | [] => []
  | (es, label) :: outer => outerText outer ++ (es.flatMap Entry.text ++ (label.text ++ ['\x7b']))

def text (c : Context) : List Char := outerText c.outer ++ (c.entries.flatMap Entry.text ++ c.gap.text)

/-- The numbers of the lines on which the open groups begin. -/
def openLines : List Frame → List Nat
  | [] => []
  | (es, label) :: outer =>
    ((outerText outer ++ (es.flatMap Entry.text ++ label.text)).count '\n' + 1) :: openLines outer

def add (c : Context) (l : Line) : Option Context :=
  match l.part with
  | .setting label x ending =>
    some ⟨c.outer, c.entries ++ [⟨label.after c.gap, .scalar x, ending⟩], l.behind⟩
  | .opening label => some ⟨(c.entries, label.after c.gap) :: c.outer, [], l.behind⟩
  | .closing before ending =>
    match c.outer with
    | [] => none
    | (es, label) :: outer =>
      some ⟨outer, es ++ [⟨label, .group (Entry.body c.entries) (c.gap ++ before), ending⟩], l.behind⟩

theorem text_add {c c' : Context} {l : Line} (h : c.add l = some c') : c'.text = c.text ++ l.text := by
  unfold add at h
  split at h
  · rename_i label x ending hpart
    cases h
    simp [text, Line.text, hpart, LinePart.text, Entry.text, Label.text_after, Node.text]
  · rename_i label hpart
    cases h
    simp [text, outerText, Line.text, hpart, LinePart.text, Label.text_after]
  · rename_i before ending hpart
    split at h
    · cases h
    · rename_i es label outer houter
      cases h
      simp [text, outerText, houter, Line.text, hpart, LinePart.text, Entry.text, Entry.body_text,
        Node.text, Layout.text_append]

theorem openGroups_add (c : Context) (l : Line) :
    l.part.openGroups (c.text.count '\n' + 1) (openLines c.outer) =
      (c.add l).map fun c => openLines c.outer := by
  unfold LinePart.openGroups add
  cases l.part with
  | setting label x ending => rfl
  | opening label =>
    simp only [Option.map_some, openLines, text, Label.text_after, List.count_append]
    congr 2
    omega
  | closing before ending =>
    cases c.outer with
    | nil => rfl
    | cons frame outer => rfl

theorem openGroups_eq (ls : List Line) (c : Context) :
    Line.openGroups (c.text.count '\n' + 1) (openLines c.outer) ls =
      (ls.foldlM add c).map fun c => openLines c.outer := by
  induction ls generalizing c with
  | nil => rfl
  | cons l ls ih =>
    rw [Line.openGroups, openGroups_add, List.foldlM_cons]
    cases hadd : c.add l with
    | none => rfl
    | some d =>
      have hnext : c.text.count '\n' + 1 + l.text.count '\n' = d.text.count '\n' + 1 := by
        rw [text_add hadd, List.count_append]
        omega
      simp only [Option.map_some, Option.bind_some, hnext, ih]
      rfl

theorem text_foldlM {ls : List Line} {c c' : Context} (h : ls.foldlM add c = some c') :
    c'.text = c.text ++ ls.flatMap Line.text := by
  induction ls generalizing c with
  | nil =>
    cases h
    simp
  | cons l ls ih =>
    rw [List.foldlM_cons] at h
    obtain ⟨d, hd, h⟩ := Option.bind_eq_some_iff.mp h
    rw [ih h, text_add hd, List.flatMap_cons, List.append_assoc]

/-- Where more groups are closed than have been opened, a brace stands outside of all groups. -/
theorem exists_brace {ls : List Line} {c : Context} (h : ls.foldlM add c = none) :
    ∃ (c' : Context) (s : List Char), c'.outer = [] ∧ c.text ++ ls.flatMap Line.text = c'.text ++ '\x7d' :: s := by
  induction ls generalizing c with
  | nil => cases h
  | cons l ls ih =>
    rw [List.foldlM_cons] at h
    cases hadd : c.add l with
    | some d =>
      rw [hadd] at h
      obtain ⟨c', s, houter, htext⟩ := ih h
      exact ⟨c', s, houter, by rw [← htext, text_add hadd, List.flatMap_cons, List.append_assoc]⟩
    | none =>
      unfold add at hadd
      split at hadd
      · cases hadd
      · cases hadd
      · rename_i before ending hpart
        split at hadd
        · rename_i houter
          refine ⟨⟨[], c.entries, c.gap ++ before⟩,
            ending.text ++ (l.behind.text ++ ls.flatMap Line.text), rfl, ?_⟩
          simp [text, houter, Line.text, hpart, LinePart.text, Layout.text_append]
        · cases hadd

end Context

/-! ## Reading up to a point -/

theorem EndsGroup.stray (gap : Layout) (s : List Char) : EndsGroup (gap.text ++ '?' :: s) := by
  have hskip : Reader.skip ('?' :: s) = '?' :: s :=
    Reader.skip_token (by decide) (by decide) (by decide) s
  refine ⟨Closes.append ⟨?_, ?_⟩ gap, Continues.append ?_ gap, ?_⟩
  · simp
  · simp [hskip]
  · simp [Continues, hskip]
  · simp [hskip, Reader.name?]
    decide

theorem Entry.continues (es : List Entry) {s : List Char} (hs : Continues s) :
    Continues (es.flatMap Entry.text ++ s) := by
  rw [← Entry.body_text]
  exact (Entry.body es).continues hs

/-- Complete settings are read one after the other, whatever comes behind them. -/
theorem settings_entries (es : List Entry) {s : List Char} (hs : Continues s) {k : Nat} :
    ∀ {t : List Char} {n : Nat} (g : Group), Reader.skip t = Reader.skip (es.flatMap Entry.text ++ s) →
      2 * (es.flatMap Entry.text).length + k ≤ n → ∃ m t' g', k ≤ m ∧
        Reader.skip t' = Reader.skip s ∧ Reader.settings n t g = Reader.settings m t' g' := by
  induction es with
  | nil => exact fun {t n} g ht hn => ⟨n, t, g, by simpa using hn, ht, rfl⟩
  | cons e es ih =>
    intro t n g ht hn
    have hlabel := e.label.length
    simp only [List.flatMap_cons, Entry.text, List.length_append] at hn
    simp only [List.flatMap_cons, Entry.text, List.append_assoc] at ht
    obtain ⟨m, rfl⟩ : ∃ m, n = m + 2 := ⟨n - 2, by omega⟩
    have hnext := Entry.continues es hs
    have hv := e.node.value_text (e.ending.closes hnext) (n := m) (by omega)
    have hset := e.label.setting_text ht hv
    obtain ⟨m', t', g', hm, ht', heq⟩ := ih (g.insert (String.ofList e.label.name) e.node.meaning)
      (e.ending.skip_terminated hnext) (n := m + 1) (by omega)
    refine ⟨m', t', g', hm, ht', ?_⟩
    rw [Reader.settings, hset]
    exact heq

theorem settings_stop (es : List Entry) {s : List Char} (hs : EndsGroup s) {n : Nat}
    (hn : 2 * (es.flatMap Entry.text).length + 2 ≤ n) (g : Group) : ∃ g' t',
      Reader.settings n (es.flatMap Entry.text ++ s) g = .found g' t' ∧
        Reader.skip t' = Reader.skip s := by
  obtain ⟨m, t', g', hm, ht', heq⟩ := settings_entries es hs.continues g rfl hn
  obtain ⟨m, rfl⟩ : ∃ j, m = j + 2 := ⟨m - 2, by omega⟩
  refine ⟨g', t', ?_, ht'⟩
  rw [heq, Reader.settings, Reader.setting, ht', hs.noName]

/-- The settings in front of a text are read, and the first error is at `at'`. -/
def BreaksAt (t at' : List Char) : Prop :=
  ∀ n g, 2 * t.length + 2 ≤ n → Reader.settings n t g = .broken at'

/-- A value that cannot be read breaks its setting. -/
theorem Label.setting_broken (l : Label) {t s at' : List Char} {n : Nat}
    (ht : Reader.skip t = Reader.skip (l.text ++ s)) (hs : Reader.skip s = s)
    (hv : Reader.value n s = .missed at' ∨ Reader.value n s = .broken at') :
    Reader.setting (n + 1) t = .broken at' := by
  rw [Reader.setting, ht, l.name?_text]
  simp only [Reader.skip_text, l.skip_sign, l.sign_cases, if_true, hs]
  rcases hv with hv | hv <;> rw [hv]

theorem breaksAt_value {es : List Entry} {label : Label} {s at' : List Char}
    (hs : Reader.skip s = s)
    (hv : ∀ n, 2 * s.length + 2 ≤ n → Reader.value n s = .missed at' ∨ Reader.value n s = .broken at') :
    BreaksAt (es.flatMap Entry.text ++ (label.text ++ s)) at' := by
  intro n g hn
  have hlabel := label.length
  simp only [List.length_append] at hn
  obtain ⟨m, t', g', hm, ht', heq⟩ := settings_entries es (label.continues s) g rfl
    (k := 2 * (label.text.length + s.length) + 2) (n := n) (by omega)
  obtain ⟨m, rfl⟩ : ∃ j, m = j + 2 := ⟨m - 2, by omega⟩
  rw [heq, Reader.settings, label.setting_broken ht' hs (hv m (by omega))]

theorem skip_brace (s : List Char) : Reader.skip ('\x7b' :: s) = '\x7b' :: s :=
  Reader.skip_token (by decide) (by decide) (by decide) s

namespace Context

/-- A group that breaks breaks all groups that it is in. -/
theorem breaksAt_outer (outer : List Frame) {t at' : List Char} (h : BreaksAt t at') :
    BreaksAt (outerText outer ++ t) at' := by
  induction outer generalizing t with
  | nil => exact h
  | cons frame outer ih =>
    obtain ⟨es, label⟩ := frame
    have htext : outerText ((es, label) :: outer) ++ t =
        outerText outer ++ (es.flatMap Entry.text ++ (label.text ++ '\x7b' :: t)) := by
      simp [outerText]
    rw [htext]
    refine ih (breaksAt_value (skip_brace t) fun n hn => .inr ?_)
    simp only [List.length_cons] at hn
    obtain ⟨m, rfl⟩ : ∃ m, n = m + 1 := ⟨n - 1, by omega⟩
    rw [Reader.value, h m [] (by omega)]

/-- A group is not read if no brace ends its settings. -/
theorem value_unclosed (es : List Entry) {s : List Char} (hs : EndsGroup s)
    (hbrace : ∀ c ∈ (Reader.skip s).head?, c ≠ '\x7d') {n : Nat}
    (hn : 2 * (es.flatMap Entry.text).length + 3 ≤ n) :
    Reader.value n ('\x7b' :: (es.flatMap Entry.text ++ s)) =
      .missed ('\x7b' :: (es.flatMap Entry.text ++ s)) := by
  obtain ⟨m, rfl⟩ : ∃ m, n = m + 1 := ⟨n - 1, by omega⟩
  obtain ⟨g, t, hread, ht⟩ := settings_stop es hs (n := m) (by omega) []
  rw [Reader.value, hread]
  simp only [ht]
  split
  · rename_i h
    exact absurd rfl (hbrace _ (by rw [h]; rfl))
  · rfl

end Context

/-! ## The line of the error -/

theorem lineAt_append (s rest : List Char) : lineAt (s ++ rest) rest = s.count '\n' + 1 := by
  rw [lineAt, List.count_append, Nat.add_sub_cancel]

theorem read_of_breaksAt {s rest : List Char} (h : BreaksAt (s ++ rest) rest) :
    read (s ++ rest) = .error ⟨s.count '\n' + 1⟩ := by
  unfold read Reader.document
  rw [h _ [] (Nat.le_refl _)]
  simp only [lineAt_append]

namespace Context

theorem read_outside {c : Context} (h : c.outer = []) {s : List Char} (hs : EndsGroup (c.gap.text ++ s))
    (hskip : Reader.skip s = s) (hne : s ≠ []) :
    read (c.text ++ s) = .error ⟨c.text.count '\n' + 1⟩ := by
  have htext : c.text ++ s = c.entries.flatMap Entry.text ++ (c.gap.text ++ s) := by
    simp [text, h, outerText]
  obtain ⟨g, t, hread, ht⟩ := settings_stop c.entries hs (n := 2 * (c.text ++ s).length + 2)
    (by simp only [htext, List.length_append]; omega) []
  rw [Reader.skip_text, hskip] at ht
  unfold read Reader.document
  rw [← htext] at hread
  rw [hread]
  simp only [ht]
  cases s with
  | nil => exact absurd rfl hne
  | cons d s => simp only [lineAt_append]

theorem read_inside {c : Context} {es : List Entry} {label : Label} {outer : List Frame}
    (h : c.outer = (es, label) :: outer) {s : List Char} (hs : EndsGroup (c.gap.text ++ s))
    (hskip : ∀ d ∈ (Reader.skip s).head?, d ≠ '\x7d') :
    read (c.text ++ s) =
      .error ⟨(outerText outer ++ (es.flatMap Entry.text ++ label.text)).count '\n' + 1⟩ := by
  have htext : c.text ++ s = outerText outer ++ (es.flatMap Entry.text ++ label.text) ++
      '\x7b' :: (c.entries.flatMap Entry.text ++ (c.gap.text ++ s)) := by
    simp [text, h, outerText]
  rw [htext]
  refine read_of_breaksAt ?_
  rw [List.append_assoc, List.append_assoc]
  refine breaksAt_outer outer (breaksAt_value (skip_brace _) fun n hn => .inl ?_)
  refine value_unclosed c.entries hs (by rwa [Reader.skip_text]) ?_
  simp only [List.length_cons, List.length_append] at hn
  omega

theorem read_stray (c : Context) (s : List Char) : read (c.text ++ '?' :: s) =
    .error ⟨(openLines c.outer).headD (c.text.count '\n' + 1)⟩ := by
  have hskip : Reader.skip ('?' :: s) = '?' :: s :=
    Reader.skip_token (by decide) (by decide) (by decide) s
  cases houter : c.outer with
  | nil => exact read_outside houter (.stray c.gap s) hskip (by simp)
  | cons frame outer => exact read_inside houter (.stray c.gap s) (by simp [hskip])

end Context

namespace Line

theorem count_opening {l : Line} {label : Label} (h : l.part = .opening label) :
    label.text.count '\n' < l.text.count '\n' := by
  have hends := l.ends
  have hbehind : '\n' ∈ l.behind.text := by
    rw [h, LinePart.text, List.getLast?_append] at hends
    cases hlast : l.behind.text.getLast? with
    | none => simp [hlast] at hends
    | some c =>
      rw [hlast] at hends
      cases hends
      exact List.mem_of_getLast? hlast
  have hpos := List.count_pos_iff.mpr hbehind
  simp only [text, h, LinePart.text, List.count_append]
  omega

theorem openGroups_part_lt {l : Line} {n : Nat} {outer inner : List Nat}
    (h : l.part.openGroups n outer = some inner) (houter : ∀ k ∈ outer, k < n) :
    ∀ k ∈ inner, k < n + l.text.count '\n' := by
  have hle : ∀ k ∈ outer, k < n + l.text.count '\n' := fun k hk => Nat.lt_add_right _ (houter k hk)
  cases hpart : l.part with
  | setting label x ending =>
    rw [hpart] at h
    cases h
    exact hle
  | opening label =>
    rw [hpart] at h
    cases h
    exact List.forall_mem_cons.mpr ⟨Nat.add_lt_add_left (count_opening hpart) n, hle⟩
  | closing before ending =>
    rw [hpart] at h
    cases outer with
    | nil => cases h
    | cons k outer =>
      cases h
      exact (List.forall_mem_cons.mp hle).2

/-- A group begins on a line in front of the next one. -/
theorem openGroups_lt (ls : List Line) {n : Nat} {outer inner : List Nat}
    (h : openGroups n outer ls = some inner) (houter : ∀ k ∈ outer, k < n) :
    ∀ k ∈ inner, k < n + (ls.flatMap text).count '\n' := by
  induction ls generalizing n outer with
  | nil =>
    cases h
    simpa using houter
  | cons l ls ih =>
    rw [openGroups] at h
    obtain ⟨next, hnext, h⟩ := Option.bind_eq_some_iff.mp h
    rw [List.flatMap_cons, List.count_append, ← Nat.add_assoc]
    exact ih h (openGroups_part_lt hnext houter)

theorem headD_eq_numberBehind_iff {ls : List Line} {outer : List Nat}
    (h : openGroups 1 [] ls = some outer) :
    outer.headD (numberBehind ls) = numberBehind ls ↔ outer = [] := by
  have hlt := openGroups_lt ls h nofun
  cases outer with
  | nil => simp
  | cons k outer =>
    have hk := (List.forall_mem_cons.mp hlt).1
    rw [Nat.add_comm] at hk
    exact ⟨fun heq => absurd heq (Nat.ne_of_lt hk), nofun⟩

end Line

/-- A line that holds only a question mark is reported by its own number where no group is open, and
else by the number of the line on which the innermost group begins. -/
theorem read_strayLine {front back : List Line} {g : Group}
    (h : read ((front ++ back).flatMap Line.text) = .ok g) :
    ∃ outer, Line.openGroups 1 [] front = some outer ∧
      read (front.flatMap Line.text ++ '?' :: '\n' :: back.flatMap Line.text) =
        .error ⟨outer.headD (Line.numberBehind front)⟩ ∧
      (outer.headD (Line.numberBehind front) = Line.numberBehind front ↔ outer = []) := by
  have hopen : Line.openGroups 1 [] front =
      (front.foldlM Context.add ⟨[], [], []⟩).map fun c => Context.openLines c.outer :=
    Context.openGroups_eq front ⟨[], [], []⟩
  cases hc : front.foldlM Context.add ⟨[], [], []⟩ with
  | none =>
    -- a brace outside of all groups is where the document cannot be read
    obtain ⟨c, s, houter, htext⟩ := Context.exists_brace hc
    have hbrace : Reader.skip ('\x7d' :: (s ++ back.flatMap Line.text)) = _ :=
      Reader.skip_token (by decide) (by decide) (by decide) _
    have hread := Context.read_outside houter (.brace c.gap (s ++ back.flatMap Line.text)) hbrace
      (List.cons_ne_nil _ _)
    have hwhole : (front ++ back).flatMap Line.text =
        c.text ++ '\x7d' :: (s ++ back.flatMap Line.text) := by
      rw [List.flatMap_append, ← List.cons_append, ← List.append_assoc, ← htext]
      rfl
    rw [hwhole, hread] at h
    cases h
  | some c =>
    rw [hc, Option.map_some] at hopen
    have htext : c.text = front.flatMap Line.text := Context.text_foldlM hc
    refine ⟨_, hopen, ?_, Line.headD_eq_numberBehind_iff hopen⟩
    rw [← htext, Context.read_stray, Line.numberBehind, htext]

/-! A group with one setting, and the line behind that setting. -/

def space : Piece := .blank ' ' (by decide)

def lineFeed : Piece := .blank '\n' (by decide)

def Label.plain (name : List Char) (h : Reader.isName name) : Label :=
  ⟨[], name, h, [space], false, [space]⟩

def Line.groupFront : List Line :=
  [⟨.opening (.plain ['a'] (by decide)), [lineFeed], by decide⟩,
    ⟨.setting (.plain ['b'] (by decide)) (.boolean true ⟨['t', 'r', 'u', 'e'], by decide⟩)
      (.closed [] false), [lineFeed], by decide⟩]

def Line.groupBack : List Line := [⟨.closing [] (.closed [] false), [lineFeed], by decide⟩]

theorem Line.read_group : ∃ g, read ((groupFront ++ groupBack).flatMap text) = .ok g :=
  exists_of_isOk (by decide +kernel)

theorem read_strayLine_group :
    (∃ g, read ((Line.groupFront ++ Line.groupBack).flatMap Line.text) = .ok g) ∧
      Line.openGroups 1 [] Line.groupFront = some [1] ∧ Line.numberBehind Line.groupFront = 3 ∧
      read (Line.groupFront.flatMap Line.text ++ '?' :: '\n' :: Line.groupBack.flatMap Line.text) =
        .error ⟨1⟩ := by
  have hopen : Line.openGroups 1 [] Line.groupFront = some [1] := by decide +kernel
  obtain ⟨g, h⟩ := Line.read_group
  obtain ⟨outer, houter, hread, -⟩ := read_strayLine h
  rw [hopen] at houter
  cases houter
  exact ⟨⟨g, h⟩, hopen, by decide +kernel, hread⟩

/-- Not every line is reported by its own number. -/
theorem not_read_strayLine_eq : ¬ ∀ (front back : List Line) (g : Group),
    read ((front ++ back).flatMap Line.text) = .ok g →
      read (front.flatMap Line.text ++ '?' :: '\n' :: back.flatMap Line.text) =
        .error ⟨Line.numberBehind front⟩ := by
  intro hall
  have hline : (match read (Line.groupFront.flatMap Line.text ++
      '?' :: '\n' :: Line.groupBack.flatMap Line.text) with
    | .ok _ => 0
    | .error e => e.line) = 1 := by decide +kernel
  obtain ⟨g, h⟩ := Line.read_group
  rw [hall _ _ g h] at hline
  exact absurd hline (by decide +kernel)

end Saturation.Settings
