import Saturation.Proofs.Settings.Meaning
import Saturation.Proofs.Settings.Remainder

/-!
Where values stand. From the beginning of a text, the reader comes to the values in it one after the
other, inwards and onwards. In a printed document it comes to each of the literals, and it does so
whatever text stands in the place of the literal and behind it.
-/

set_option autoImplicit false

namespace Saturation.Settings

open Reader (skip name? scalar? skip_text skip_token)

namespace Reader

/-- What is read at some point: a value; the scalars of an array or the items of a list, behind the
bracket or a comma; or the settings of a group. -/
inductive Part where
  | value
  | cells
  | items
  | settings

/-- While a part is read from the front of a text, the reader comes to the end `t` of the text to read
a value there. -/
inductive ValueAt (t : List Char) : Part → List Char → Prop
  | here : ValueAt t .value t
  | array {s : List Char} (h : ValueAt t .cells s) : ValueAt t .value ('[' :: s)
  | list {s : List Char} (h : ValueAt t .items s) : ValueAt t .value ('(' :: s)
  | group {s : List Char} (h : ValueAt t .settings s) : ValueAt t .value ('\x7b' :: s)
  | cell {s : List Char} (h : skip s = t) : ValueAt t .cells s
  | nextCell {s cs rest : List Char} {v : Value} (hv : scalar? (skip s) = some (v, rest))
      (hcomma : skip rest = ',' :: cs) (h : ValueAt t .cells cs) : ValueAt t .cells s
  | item {s : List Char} (h : ValueAt t .value (skip s)) : ValueAt t .items s
  | nextItem {s cs rest : List Char} {v : Value}
      (hv : value (2 * s.length + 1) (skip s) = .found v rest) (hcomma : skip rest = ',' :: cs)
      (h : ValueAt t .items cs) : ValueAt t .items s
  | assigned {s cs rest name : List Char} {c : Char} (hname : name? (skip s) = some (name, rest))
      (hsign : skip rest = c :: cs) (hc : c = '=' ∨ c = ':') (h : ValueAt t .value (skip cs)) :
      ValueAt t .settings s
  | nextSetting {s rest : List Char} {f : String × Value}
      (hf : setting (2 * s.length + 1) s = .found f rest) (h : ValueAt t .settings rest) :
      ValueAt t .settings s

/-- A value in front of another one opens a bracket. -/
theorem ValueAt.value_cases {t s : List Char} (h : ValueAt t .value s) :
    s = t ∨ ∃ c cs, s = c :: cs ∧ (c = '\x7b' ∨ c = '[' ∨ c = '(') := by
  cases h with
  | here => exact .inl rfl
  | array h => exact .inr ⟨'[', _, rfl, by simp⟩
  | list h => exact .inr ⟨'(', _, rfl, by simp⟩
  | group h => exact .inr ⟨'\x7b', _, rfl, by simp⟩

theorem ValueAt.skip_eq {t s : List Char} (h : ValueAt t .value s) (ht : skip t = t) :
    skip s = s := by
  rcases h.value_cases with rfl | ⟨c, cs, rfl, hc⟩
  · exact ht
  · rcases hc with rfl | rfl | rfl <;> exact skip_token (by decide) (by decide) (by decide) cs

end Reader

open Reader (ValueAt)

/-! ## The literals of a document -/

/-- A literal with the texts in front of it and behind it. -/
structure Site where
  front : List Char
  literal : Literal
  behind : List Char

namespace Site

def text (x : Site) : List Char := x.front ++ (x.literal.text ++ x.behind)

/-- The site in a longer text. -/
def within (before after : List Char) (x : Site) : Site :=
  ⟨before ++ x.front, x.literal, x.behind ++ after⟩

theorem text_within (before after : List Char) (x : Site) :
    (x.within before after).text = before ++ (x.text ++ after) := by
  simp [text, within]

end Site

/-- The literals of an array. The comma in front of the first one is left out. -/
def cellSites : List Cell → List Site
  | [] => []
  | x :: cells =>
    ⟨x.before.text, x.literal, x.after.text ++ cellsText cells⟩ ::
      (cellSites cells).map (.within (x.text ++ [',']) [])

mutual

/-- The literals of a value, in the order of the text. -/
def Node.sites : Node → List Site
  | .scalar x => [⟨[], x, []⟩]
  | .array cells close => (cellSites cells).map (.within ['['] (close.text ++ [']']))
  | .list items close => items.sites.map (.within ['('] (close.text ++ [')']))
  | .group body close => body.sites.map (.within ['\x7b'] (close.text ++ ['\x7d']))

/-- The literals of a list. The comma in front of the first item is left out. -/
def Items.sites : Items → List Site
  | .nil => []
  | .cons before item after rest =>
    item.sites.map (.within before.text (after.text ++ rest.text)) ++
      rest.sites.map (.within (before.text ++ (item.text ++ (after.text ++ [',']))) [])

def Body.sites : Body → List Site
  | .nil => []
  | .last label node => node.sites.map (.within label.text [])
  | .cons label node ending rest =>
    node.sites.map (.within label.text (ending.text ++ rest.text)) ++
      rest.sites.map (.within (label.text ++ (node.text ++ ending.text)) [])

end

def Document.sites (d : Document) : List Site :=
  d.body.sites.map (.within [] (d.close.text ++ d.comment.elim [] LastComment.text))

theorem cellsText_of_site {cells : List Cell} {x : Site} (hx : x ∈ cellSites cells) :
    cellsText cells = ',' :: x.text := by
  induction cells generalizing x with
  | nil => cases hx
  | cons cell cells ih =>
    rw [cellSites, List.mem_cons, List.mem_map] at hx
    rw [cellsText_cons]
    rcases hx with rfl | ⟨y, hy, rfl⟩
    · rfl
    · rw [Site.text_within, ih hy, Cell.text]
      simp

-- By recursion on the tree.
mutual

theorem Node.text_of_site (v : Node) {x : Site} (hx : x ∈ v.sites) : x.text = v.text := by
  cases v with
  | scalar y =>
    rw [Node.sites, List.mem_singleton] at hx
    subst hx
    simp [Site.text, Node.text]
  | array cells close =>
    rw [Node.sites, List.mem_map] at hx
    obtain ⟨y, hy, rfl⟩ := hx
    rw [Site.text_within, Node.text, cellsText_of_site hy]
    rfl
  | list items close =>
    rw [Node.sites, List.mem_map] at hx
    obtain ⟨y, hy, rfl⟩ := hx
    rw [Site.text_within, Node.text, Items.text_of_site items hy]
    rfl
  | group body close =>
    rw [Node.sites, List.mem_map] at hx
    obtain ⟨y, hy, rfl⟩ := hx
    rw [Site.text_within, Node.text, Body.text_of_site body hy]
    rfl

theorem Items.text_of_site (items : Items) {x : Site} (hx : x ∈ items.sites) :
    items.text = ',' :: x.text := by
  cases items with
  | nil => cases hx
  | cons before item after rest =>
    rw [Items.sites, List.mem_append, List.mem_map, List.mem_map] at hx
    rw [Items.text]
    rcases hx with ⟨y, hy, rfl⟩ | ⟨y, hy, rfl⟩
    · rw [Site.text_within, Node.text_of_site item hy]
    · rw [Site.text_within, Items.text_of_site rest hy]
      simp

theorem Body.text_of_site (body : Body) {x : Site} (hx : x ∈ body.sites) : x.text = body.text := by
  cases body with
  | nil => cases hx
  | last label node =>
    rw [Body.sites, List.mem_map] at hx
    obtain ⟨y, hy, rfl⟩ := hx
    rw [Site.text_within, Node.text_of_site node hy, Body.text, List.append_nil]
  | cons label node ending rest =>
    rw [Body.sites, List.mem_append, List.mem_map, List.mem_map] at hx
    rw [Body.text]
    rcases hx with ⟨y, hy, rfl⟩ | ⟨y, hy, rfl⟩
    · rw [Site.text_within, Node.text_of_site node hy]
    · rw [Site.text_within, Body.text_of_site rest hy]
      simp

end

theorem Document.text_of_site {d : Document} {x : Site} (hx : x ∈ d.sites) : x.text = d.text := by
  rw [sites, List.mem_map] at hx
  obtain ⟨y, hy, rfl⟩ := hx
  rw [Site.text_within, Body.text_of_site d.body hy]
  rfl

/-! ## The reader at a site -/

theorem skip_comma (gap : Layout) (s : List Char) : skip (gap.text ++ ',' :: s) = ',' :: s := by
  rw [skip_text, skip_token (by decide) (by decide) (by decide)]

section Reading

variable {t : List Char}

theorem valueAt_cells (ht : skip t = t) {cells : List Cell} {x : Site} (hx : x ∈ cellSites cells) :
    ValueAt t .cells (x.front ++ t) := by
  induction cells generalizing x with
  | nil => cases hx
  | cons cell cells ih =>
    rw [cellSites, List.mem_cons, List.mem_map] at hx
    rcases hx with rfl | ⟨y, hy, rfl⟩
    · exact .cell (by rw [skip_text, ht])
    · have htext : (y.within (cell.text ++ [',']) []).front ++ t = cell.before.text ++
          (cell.literal.text ++ (cell.after.text ++ ',' :: (y.front ++ t))) := by
        simp [Site.within, Cell.text]
      have hcloses := (Closes.token (c := ',') (by simp) (y.front ++ t)).append cell.after
      rw [htext]
      have hv := cell.literal.scalar?_text hcloses
      refine .nextCell (v := cell.literal.meaning) ?_ (skip_comma cell.after _) (ih hy)
      rw [skip_text, skip_literal cell.literal hcloses, hv]

/-- In front of a literal of some settings stands the name of the first one. -/
theorem Body.site_continues (body : Body) {x : Site} (hx : x ∈ body.sites) (s : List Char) :
    Continues (x.front ++ s) := by
  cases body with
  | nil => cases hx
  | last label node =>
    rw [Body.sites, List.mem_map] at hx
    obtain ⟨y, -, rfl⟩ := hx
    rw [Site.within, List.append_assoc]
    exact label.continues _
  | cons label node ending rest =>
    rw [Body.sites, List.mem_append, List.mem_map, List.mem_map] at hx
    rcases hx with ⟨y, -, rfl⟩ | ⟨y, -, rfl⟩
    · rw [Site.within, List.append_assoc]
      exact label.continues _
    · rw [Site.within, List.append_assoc, List.append_assoc]
      exact label.continues _

theorem Label.valueAt (l : Label) (ht : skip t = t) (gap : Layout) {s : List Char}
    (h : ValueAt t .value s) : ValueAt t .settings (gap.text ++ (l.text ++ s)) := by
  have hname : name? (skip (gap.text ++ (l.text ++ s))) =
      some (l.name, l.between.text ++ l.sign :: (l.behind.text ++ s)) := by
    rw [skip_text, l.name?_text]
  have hsign : skip (l.between.text ++ l.sign :: (l.behind.text ++ s)) =
      l.sign :: (l.behind.text ++ s) := by
    rw [skip_text, l.skip_sign]
  refine .assigned hname hsign l.sign_cases ?_
  rw [skip_text, h.skip_eq ht]
  exact h

-- By recursion on the tree. What is complete in front of the site is read as what it means.
mutual

theorem Node.valueAt (v : Node) (ht : skip t = t) {x : Site} (hx : x ∈ v.sites) :
    ValueAt t .value (x.front ++ t) := by
  cases v with
  | scalar y =>
    rw [Node.sites, List.mem_singleton] at hx
    subst hx
    exact .here
  | array cells close =>
    rw [Node.sites, List.mem_map] at hx
    obtain ⟨y, hy, rfl⟩ := hx
    exact .array (valueAt_cells ht hy)
  | list items close =>
    rw [Node.sites, List.mem_map] at hx
    obtain ⟨y, hy, rfl⟩ := hx
    exact .list (Items.valueAt items ht hy)
  | group body close =>
    rw [Node.sites, List.mem_map] at hx
    obtain ⟨y, hy, rfl⟩ := hx
    exact .group (Body.valueAt body ht hy [])

theorem Items.valueAt (items : Items) (ht : skip t = t) {x : Site} (hx : x ∈ items.sites) :
    ValueAt t .items (x.front ++ t) := by
  cases items with
  | nil => cases hx
  | cons before item after rest =>
    rw [Items.sites, List.mem_append, List.mem_map, List.mem_map] at hx
    rcases hx with ⟨y, hy, rfl⟩ | ⟨y, hy, rfl⟩
    · have hitem := Node.valueAt item ht hy
      refine .item ?_
      rw [Site.within, List.append_assoc, skip_text, hitem.skip_eq ht]
      exact hitem
    · have htext : (y.within (before.text ++ (item.text ++ (after.text ++ [',']))) []).front ++ t =
          before.text ++ (item.text ++ (after.text ++ ',' :: (y.front ++ t))) := by
        simp [Site.within]
      have hcloses := (Closes.token (c := ',') (by simp) (y.front ++ t)).append after
      rw [htext]
      have hv := item.value_text hcloses (n := 2 * (before.text ++ (item.text ++
        (after.text ++ ',' :: (y.front ++ t)))).length + 1)
        (by simp only [List.length_append]; omega)
      refine .nextItem (v := item.meaning) ?_ (skip_comma after _) (Items.valueAt rest ht hy)
      rw [skip_text, Reader.skip_of_value hv, hv]

theorem Body.valueAt (body : Body) (ht : skip t = t) {x : Site} (hx : x ∈ body.sites)
    (gap : Layout) : ValueAt t .settings (gap.text ++ (x.front ++ t)) := by
  cases body with
  | nil => cases hx
  | last label node =>
    rw [Body.sites, List.mem_map] at hx
    obtain ⟨y, hy, rfl⟩ := hx
    rw [Site.within, List.append_assoc]
    exact label.valueAt ht gap (Node.valueAt node ht hy)
  | cons label node ending rest =>
    rw [Body.sites, List.mem_append, List.mem_map, List.mem_map] at hx
    rcases hx with ⟨y, hy, rfl⟩ | ⟨y, hy, rfl⟩
    · rw [Site.within, List.append_assoc]
      exact label.valueAt ht gap (Node.valueAt node ht hy)
    · have hnext := rest.site_continues hy t
      obtain ⟨gap', hgap⟩ := ending.terminated_text hnext
      rw [Site.within]
      simp only [List.append_assoc]
      have hv := node.value_text (ending.closes hnext) (n := 2 * (gap.text ++ (label.text ++
        (node.text ++ (ending.text ++ (y.front ++ t))))).length)
        (by simp only [List.length_append]; omega)
      refine .nextSetting (label.setting_text (by rw [skip_text]) hv) ?_
      rw [hgap]
      exact Body.valueAt rest ht hy gap'

end

/-- The reader comes to each literal of a document, whatever stands there. -/
theorem Document.valueAt {d : Document} (ht : skip t = t) {x : Site} (hx : x ∈ d.sites) :
    ValueAt t .settings (x.front ++ t) := by
  rw [sites, List.mem_map] at hx
  obtain ⟨y, hy, rfl⟩ := hx
  exact d.body.valueAt ht hy []

end Reading

end Saturation.Settings
