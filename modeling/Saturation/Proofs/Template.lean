import Saturation.Proofs.Json.Reader
import Saturation.Template

/-!
Templates hold documents, whichever kind of file they come from, and so does what is rendered from
them. A rendered document that can be written reads back as what was rendered.
-/

set_option autoImplicit false

namespace Saturation

open Settings (Value Group)

/-! ## Groups -/

namespace Settings

theorem Group.get?_isDocument {g : Group} (h : (Value.obj g).IsDocument) {name : String} {v : Value}
    (hv : g.get? name = some v) : v.IsDocument :=
  (Value.areFields_iff g).mp h.2 _ (Group.mem_of_get? hv)

theorem Group.insert_isDocument {g : Group} (h : (Value.obj g).IsDocument) (name : String)
    {v : Value} (hv : v.IsDocument) : (Value.obj (g.insert name v)).IsDocument := by
  refine ⟨Group.insert_sorted name v h.1, (Value.areFields_iff _).mpr fun f hf => ?_⟩
  rcases Group.mem_insert hf with rfl | hf
  · exact hv
  · exact (Value.areFields_iff g).mp h.2 f hf

theorem nil_isDocument : (Value.obj []).IsDocument := ⟨.nil, trivial⟩

end Settings

open Settings (Group.insert_isDocument Group.get?_isDocument nil_isDocument)

/-! ## Layers -/

namespace Configuration

theorem fieldsOf_isDocument {v : Value} (h : v.IsDocument) : (Value.obj (fieldsOf v)).IsDocument := by
  cases v with
  | obj fields => exact h
  | null | bool | int | float | str | arr => exact nil_isDocument

theorem itemsOf_isDocument {v : Value} (h : v.IsDocument) : ∀ w ∈ itemsOf v, w.IsDocument := by
  cases v with
  | arr items => exact (Value.areDocuments_iff items).mp h
  | null | bool | int | float | str | obj => exact fun w hw => absurd hw List.not_mem_nil

theorem field_isDocument {g : Group} (h : (Value.obj g).IsDocument) (name : String) {v : Value}
    (hv : v.IsDocument) : ((g.get? name).getD v).IsDocument := by
  cases hg : g.get? name with
  | none => exact hv
  | some w => exact Group.get?_isDocument h hg

mutual

theorem overlay_isDocument {target : Value} (ht : target.IsDocument) (v : Value)
    (hv : v.IsDocument) : (overlay target v).IsDocument := by
  cases v with
  | obj fields => exact overlayFields_isDocument ht fields hv.2
  | null | bool | int | float | str | arr => exact hv

theorem overlayFields_isDocument {target : Value} (ht : target.IsDocument)
    (fields : List (String × Value)) (hf : Value.AreFields fields) :
    (overlayFields target fields).IsDocument := by
  cases fields with
  | nil => exact ht
  | cons f fields =>
    obtain ⟨name, v⟩ := f
    have hgroup := fieldsOf_isDocument ht
    have hv := overlay_isDocument (field_isDocument hgroup (Text.lower name) nil_isDocument) v hf.1
    exact overlayFields_isDocument (Group.insert_isDocument hgroup _ hv) fields hf.2

end

theorem setItem_isDocument {n : Nat} {v : Value} {items : List Value} (hv : v.IsDocument)
    (h : ∀ w ∈ items, w.IsDocument) : ∀ w ∈ setItem n v items, w.IsDocument := by
  intro w hw
  rcases List.mem_or_eq_of_mem_set hw with hw | rfl
  · rcases List.mem_append.mp hw with hw | hw
    · exact h w hw
    · rw [List.eq_of_mem_replicate hw]
      trivial
  · exact hv

theorem setItem_elim_isDocument {place : Option Nat} {v : Nat → Value} {items : List Value}
    (hv : ∀ n, (v n).IsDocument) (h : ∀ w ∈ items, w.IsDocument) :
    (Value.arr (place.elim items fun n => setItem n (v n) items)).IsDocument := by
  rw [Value.IsDocument, Value.areDocuments_iff]
  cases place with
  | none => exact h
  | some n => exact setItem_isDocument (hv n) h

theorem item_isDocument {items : List Value} (h : ∀ w ∈ items, w.IsDocument) (n : Nat) :
    (items[n]?.getD .null).IsDocument := by
  cases hn : items[n]? with
  | none => trivial
  | some w => exact h w (List.mem_of_getElem? hn)

theorem put_isDocument {v : Value} (hv : v.IsDocument) (ps : List Place) {target : Value}
    (ht : target.IsDocument) : (put v ps target).IsDocument := by
  fun_induction put v ps target with
  | case1 target => exact overlay_isDocument ht v hv
  | case2 target key =>
    exact overlayFields_isDocument (fieldsOf_isDocument ht) _ ⟨hv, trivial⟩
  | case3 target name rest hrest key group ih =>
    have hgroup := fieldsOf_isDocument ht
    exact Group.insert_isDocument hgroup _ (ih (field_isDocument hgroup _ trivial))
  | case4 target i items =>
    exact setItem_elim_isDocument (fun _ => hv) (itemsOf_isDocument ht)
  | case5 target i rest hrest items ih =>
    have hitems := itemsOf_isDocument ht
    exact setItem_elim_isDocument (fun n => ih n (item_isDocument hitems n)) hitems

theorem layer_isDocument {source : Group} (hs : Value.AreFields source) : ∀ {below : Group},
    (Value.obj below).IsDocument → (Value.obj (layer source below)).IsDocument := by
  induction source with
  | nil => exact fun h => h
  | cons f source ih =>
    intro below h
    exact ih hs.2 (fieldsOf_isDocument (put_isDocument hs.1 _ h))

theorem layers_isDocument {sources : List Group} (hs : ∀ g ∈ sources, (Value.obj g).IsDocument) :
    (Value.obj (layers sources)).IsDocument := by
  suffices ∀ below : Group, (Value.obj below).IsDocument →
      (Value.obj (sources.foldl (fun below source => layer source below) below)).IsDocument from
    layer_isDocument (this [] nil_isDocument).2 nil_isDocument
  induction sources with
  | nil => exact fun _ h => h
  | cons g sources ih =>
    intro below h
    exact ih (fun g' hg' => hs g' (List.mem_cons_of_mem g hg')) _
      (layer_isDocument (hs g List.mem_cons_self).2 h)

end Configuration

/-! ## Rendering -/

namespace Template

theorem numberSetting_isDocument (x : Float) : (numberSetting x).IsDocument := by
  unfold numberSetting
  split
  · rename_i hx
    exact hx
  · trivial

theorem fieldsUnder_isDocument {g : Group} (h : (Value.obj g).IsDocument) (name : String) :
    (Value.obj (fieldsUnder name g)).IsDocument := by
  unfold fieldsUnder
  split
  · rename_i hfields
    exact Group.get?_isDocument h hfields
  · exact nil_isDocument

theorem render_isDocument {t : Template} (h : (Value.obj t.settings).IsDocument) (job : JobValues) :
    (Value.obj (t.render job)).IsDocument := by
  have hword : ∀ n, (wordSetting n).IsDocument := fun _ => trivial
  have hstr : ∀ s, (Value.str s).IsDocument := fun _ => trivial
  have hflows : (Value.int attackFlows).IsDocument := trivial
  have hinnocent : (Value.obj (innocentTraffic job
      (fieldsUnder "innocent_traffic" t.settings))).IsDocument :=
    Group.insert_isDocument (Group.insert_isDocument (fieldsUnder_isDocument h _) _ (hword _)) _
      (hword _)
  have hattack : (Value.obj (attackTraffic job
      (fieldsUnder "attack_traffic" t.settings))).IsDocument := by
    refine Group.insert_isDocument ?_ _ (numberSetting_isDocument _)
    refine Group.insert_isDocument ?_ _ (hword _)
    refine Group.insert_isDocument ?_ _ hflows
    refine Group.insert_isDocument ?_ _ (hstr _)
    exact Group.insert_isDocument (fieldsUnder_isDocument h _) _ (hword _)
  exact Group.insert_isDocument
    (Group.insert_isDocument (Group.insert_isDocument h _ (hstr _)) _ hinnocent) _ hattack

/-- What is rendered reads back from its document. -/
theorem read_document {t : Template} (h : (Value.obj t.settings).IsDocument) {job : JobValues}
    {text : String} (hw : t.document job = .ok text) :
    Settings.read text.toList = .ok (t.render job) := by
  unfold document at hw
  split at hw
  · rename_i cs hcs
    cases hw
    have hdocument := render_isDocument h job
    have hwritable := (Settings.Writer.settings_isOk (t.render job) 0 []).mp ⟨cs, hcs⟩
    have hreadable : Group.IsReadable (t.render job) := ⟨hdocument.1, fun f hf =>
      ⟨((Value.areWritableFields_iff _).mp hwritable f hf).1,
        (Value.areFields_iff _).mp hdocument.2 f hf,
        ((Value.areWritableFields_iff _).mp hwritable f hf).2⟩⟩
    rw [String.toList_ofList, Settings.read, Settings.document_written hreadable hcs]
  · cases hw

end Template

end Saturation
