import Saturation.Proofs.Jobs

/-!
What a template says is kept by the configurations made from it. A configuration sets eight values
of its job, each at its path through the groups of the template. Values at different paths do not
interfere, and the later of two values at one path counts, so that a configuration is as good a
template as the one that it was made from.
-/

set_option autoImplicit false

namespace Saturation

open Settings (Value Group)
open Template (fieldsUnder)

/-! ## Values at paths -/

/-- Neither of two paths leads to the other or to something below it. -/
def Apart (p q : List String) : Prop := ¬ p <+: q ∧ ¬ q <+: p

theorem Apart.symm {p q : List String} (h : Apart p q) : Apart q p := ⟨h.2, h.1⟩

theorem Apart.of_cons {name : String} {p q : List String} (h : Apart (name :: p) (name :: q)) :
    Apart p q := by
  simpa [Apart, List.cons_prefix_cons] using h

namespace Settings.Group

variable {name key : String} {v u : Value} {g : Group} {p q : List String}

theorem fieldsUnder_insert (name : String) (fields g : Group) :
    fieldsUnder name (g.insert name (.obj fields)) = fields := by
  rw [fieldsUnder, get?_insert, if_pos rfl]

theorem fieldsUnder_insert_ne (h : name ≠ key) (v : Value) (g : Group) :
    fieldsUnder name (g.insert key v) = fieldsUnder name g := by
  rw [fieldsUnder, get?_insert, if_neg h]
  rfl

/-- The value at a path; what is no group has nothing below it. -/
def at? : List String → Group → Option Value
  | [], g => some (.obj g)
  | [name], g => g.get? name
  | name :: next :: rest, g => at? (next :: rest) (fieldsUnder name g)

/-- Sets the value at a path. What is in the way and no group gives way to one. -/
def assign : List String → Value → Group → Group
  | [], _, g => g
  | [name], v, g => g.insert name v
  | name :: next :: rest, v, g => g.insert name (.obj (assign (next :: rest) v (fieldsUnder name g)))

theorem at?_assign (hp : p ≠ []) (v : Value) (g : Group) : at? p (assign p v g) = some v := by
  fun_induction assign p v g with
  | case1 => exact absurd rfl hp
  | case2 => simp [at?]
  | case3 name next rest v g ih => rw [at?, fieldsUnder_insert, ih (by simp)]

theorem at?_assign_apart (h : Apart p q) (v : Value) (g : Group) :
    at? q (assign p v g) = at? q g := by
  fun_induction assign p v g generalizing q with
  | case1 => rfl
  | case2 name v g =>
    match q with
    | [] => exact absurd List.nil_prefix h.2
    | [key] =>
      have hne : key ≠ name := fun he => h.1 (by simp [he])
      rw [at?, at?, get?_insert, if_neg hne]
    | key :: next :: rest =>
      have hne : key ≠ name := fun he => h.1 (by simp [he])
      rw [at?, at?, fieldsUnder_insert_ne hne]
  | case3 name next rest v g ih =>
    match q with
    | [] => exact absurd List.nil_prefix h.2
    | [key] =>
      have hne : key ≠ name := fun he => h.2 (by simp [he])
      rw [at?, at?, get?_insert, if_neg hne]
    | key :: next' :: rest' =>
      rw [at?, at?]
      by_cases he : key = name
      · subst he
        rw [fieldsUnder_insert, ih h.of_cons]
      · rw [fieldsUnder_insert_ne he]

theorem assign_assign (p : List String) (u v : Value) (g : Group) :
    assign p v (assign p u g) = assign p v g := by
  fun_induction assign p u g with
  | case1 => rfl
  | case2 => exact insert_insert ..
  | case3 name next rest u g ih => rw [assign, assign, fieldsUnder_insert, insert_insert, ih]

theorem assign_comm (h : Apart p q) (u v : Value) (g : Group) :
    assign p v (assign q u g) = assign q u (assign p v g) := by
  fun_induction assign p v g generalizing q with
  | case1 => rfl
  | case2 name v g =>
    match q with
    | [] => rfl
    | [key] =>
      have hne : name ≠ key := fun he => h.1 (by simp [he])
      exact insert_comm hne u v g
    | key :: next :: rest =>
      have hne : name ≠ key := fun he => h.1 (by simp [he])
      rw [assign, assign, assign, insert_comm hne, fieldsUnder_insert_ne hne.symm]
  | case3 name next rest v g ih =>
    match q with
    | [] => rfl
    | [key] =>
      have hne : name ≠ key := fun he => h.2 (by simp [he])
      rw [assign, assign, assign, insert_comm hne, fieldsUnder_insert_ne hne]
    | key :: next' :: rest' =>
      rw [assign, assign, assign]
      by_cases he : name = key
      · subst he
        rw [fieldsUnder_insert, fieldsUnder_insert, insert_insert, insert_insert, ih h.of_cons]
      · rw [insert_comm he, fieldsUnder_insert_ne he, fieldsUnder_insert_ne (Ne.symm he)]

theorem at?_isWritable (h : (Value.obj g).IsWritable) (hv : at? p g = some v) : v.IsWritable := by
  have hget : ∀ {g : Group} {name : String} {v : Value}, (Value.obj g).IsWritable →
      g.get? name = some v → v.IsWritable :=
    fun h hv => ((Value.areWritableFields_iff _).mp h _ (mem_of_get? hv)).2
  fun_induction at? p g with
  | case1 g =>
    cases hv
    exact h
  | case2 g name => exact hget h hv
  | case3 g name next rest ih =>
    refine ih ?_ hv
    unfold fieldsUnder
    split
    · exact hget h ‹_›
    · trivial

/-- Sets several values, one after the other. -/
def assignAll (s : List (List String × Value)) (g : Group) : Group :=
  s.foldl (fun g f => assign f.1 f.2 g) g

variable {s s' : List (List String × Value)}

theorem at?_assignAll_apart (h : ∀ f ∈ s, Apart f.1 p) : ∀ g, at? p (assignAll s g) = at? p g := by
  induction s with
  | nil => exact fun _ => rfl
  | cons f s ih =>
    obtain ⟨hf, hs⟩ := List.forall_mem_cons.mp h
    intro g
    rw [assignAll, List.foldl_cons, ← assignAll, ih hs, at?_assign_apart hf]

theorem at?_assignAll (hne : ∀ f ∈ s, f.1 ≠ []) (h : s.Pairwise fun e f => Apart e.1 f.1) :
    ∀ g, ∀ f ∈ s, at? f.1 (assignAll s g) = some f.2 := by
  induction s with
  | nil => exact fun _ f hf => absurd hf List.not_mem_nil
  | cons e s ih =>
    obtain ⟨he, hs⟩ := List.forall_mem_cons.mp hne
    obtain ⟨hapart, h⟩ := List.pairwise_cons.mp h
    intro g
    refine List.forall_mem_cons.mpr ⟨?_, ih hs h _⟩
    rw [assignAll, List.foldl_cons, ← assignAll, at?_assignAll_apart fun f hf => (hapart f hf).symm,
      at?_assign he]

theorem assign_assignAll (h : ∀ f ∈ s, Apart p f.1) (v : Value) :
    ∀ g, assign p v (assignAll s g) = assignAll s (assign p v g) := by
  induction s with
  | nil => exact fun _ => rfl
  | cons f s ih =>
    obtain ⟨hf, hs⟩ := List.forall_mem_cons.mp h
    intro g
    rw [assignAll, List.foldl_cons, ← assignAll, ih hs, assign_comm hf, assignAll, assignAll,
      List.foldl_cons]

/-- Of two values for each path the later one counts. -/
theorem assignAll_assignAll (h : s.Pairwise fun e f => Apart e.1 f.1)
    (hpaths : s.map Prod.fst = s'.map Prod.fst) :
    ∀ g, assignAll s' (assignAll s g) = assignAll s' g := by
  induction s generalizing s' with
  | nil => exact fun _ => rfl
  | cons e s ih =>
    cases s' with
    | nil => cases hpaths
    | cons f s' =>
      obtain ⟨p, u⟩ := e
      obtain ⟨q, v⟩ := f
      obtain ⟨rfl, hrest⟩ := List.cons.inj hpaths
      obtain ⟨hapart, h⟩ := List.pairwise_cons.mp h
      intro g
      calc assignAll s' (assign p v (assignAll s (assign p u g)))
          = assignAll s' (assignAll s (assign p v g)) := by
            rw [assign_assignAll hapart, assign_assign]
        _ = assignAll s' (assign p v g) := ih h hrest _

end Settings.Group

/-! ## Rendering -/

open Settings.Group (at? assign assignAll fieldsUnder_insert fieldsUnder_insert_ne insert_insert)

/-- What a configuration sets for a job, by the paths of the settings. -/
def JobValues.settings (job : JobValues) : List (List String × Value) :=
  [(["policy"], .str job.policy.name),
    (["innocent_traffic", "rate_bps"], Template.wordSetting job.innocentRate.bps),
    (["innocent_traffic", "average_packet_size_bits"], Template.wordSetting job.averagePacketSize),
    (["attack_traffic", "rate_bps"], Template.wordSetting job.attackRate.bps),
    (["attack_traffic", "type"], .str "synthetic"),
    (["attack_traffic", "num_flows"], .int Template.attackFlows),
    (["attack_traffic", "packet_size_bits"], Template.wordSetting job.strategy.packetSize),
    (["attack_traffic", "job_size_ns"], Template.numberSetting job.strategy.estimatedJobSize)]

namespace JobValues

theorem settings_paths (j k : JobValues) : j.settings.map Prod.fst = k.settings.map Prod.fst := rfl

theorem settings_apart (job : JobValues) : job.settings.Pairwise fun e f => Apart e.1 f.1 := by
  simp [settings, Apart]

theorem settings_ne_nil (job : JobValues) : ∀ f ∈ job.settings, f.1 ≠ [] := by
  simp [settings]

end JobValues

namespace Template

variable {t : Template}

/-- Rendering sets the values of a job one after the other. -/
theorem render_eq (t : Template) (job : JobValues) : t.render job = assignAll job.settings t.settings := by
  have hinnocent : fieldsUnder "innocent_traffic" (t.settings.insert "policy" (.str job.policy.name)) =
      fieldsUnder "innocent_traffic" t.settings := fieldsUnder_insert_ne (by decide) ..
  have hattack : ∀ v, fieldsUnder "attack_traffic" ((t.settings.insert "policy"
      (.str job.policy.name)).insert "innocent_traffic" v) = fieldsUnder "attack_traffic" t.settings := by
    intro v
    rw [fieldsUnder_insert_ne (by decide), fieldsUnder_insert_ne (by decide)]
  simp only [assignAll, JobValues.settings, List.foldl_cons, List.foldl_nil, assign, hinnocent, hattack,
    fieldsUnder_insert, insert_insert, render, innocentTraffic, attackTraffic]

/-- A template may be replaced by what was rendered from it. -/
theorem render_render (t : Template) (j k : JobValues) :
    (⟨t.render j⟩ : Template).render k = t.render k := by
  rw [render_eq, render_eq, render_eq]
  exact Settings.Group.assignAll_assignAll j.settings_apart (JobValues.settings_paths j k) _

theorem at?_render (t : Template) (job : JobValues) :
    ∀ f ∈ job.settings, at? f.1 (t.render job) = some f.2 := by
  rw [render_eq]
  exact Settings.Group.at?_assignAll job.settings_ne_nil job.settings_apart _

theorem at?_render_packetSize (t : Template) (job : JobValues) :
    at? ["attack_traffic", "packet_size_bits"] (t.render job) =
      some (wordSetting job.strategy.packetSize) :=
  at?_render t job (["attack_traffic", "packet_size_bits"], wordSetting job.strategy.packetSize)
    (by simp [JobValues.settings])

theorem at?_render_jobSize (t : Template) (job : JobValues) :
    at? ["attack_traffic", "job_size_ns"] (t.render job) =
      some (numberSetting job.strategy.estimatedJobSize) :=
  at?_render t job (["attack_traffic", "job_size_ns"], numberSetting job.strategy.estimatedJobSize)
    (by simp [JobValues.settings])

theorem at?_render_apart (t : Template) {job : JobValues} {p : List String}
    (h : ∀ f ∈ job.settings, Apart f.1 p) : at? p (t.render job) = at? p t.settings := by
  rw [render_eq, Settings.Group.at?_assignAll_apart h]

/-- What can be written has a finite job size. -/
theorem document_jobSize {job : JobValues} {text : String} (h : t.document job = .ok text) :
    numberSetting job.strategy.estimatedJobSize = .float job.strategy.estimatedJobSize := by
  have hwritable : (Value.obj (t.render job)).IsWritable := by
    unfold document at h
    split at h
    · rename_i cs hcs
      exact (Settings.Writer.settings_isOk (t.render job) 0 []).mp ⟨cs, hcs⟩
    · cases h
  have hnumber := Settings.Group.at?_isWritable hwritable (at?_render_jobSize t job)
  unfold numberSetting at hnumber ⊢
  split
  · rfl
  · rw [if_neg ‹_›] at hnumber
    cases hnumber

variable {w w' w₀ w₁ : Machine} {source path : String} {job : JobValues}

/-- What a configuration reads back as. -/
theorem load_written (ht : (Value.obj t.settings).IsDocument)
    (hpath : Configuration.isDocumentPath path = true) {text : String}
    (htext : t.document job = .ok text) (hholds : w.Holds path text) :
    Template.load (m := StateM Machine) path w = (.ok ⟨t.render job⟩, w) := by
  unfold load
  rw [if_pos hpath, Machine.bind_run hholds.readText]
  dsimp only
  rw [read_document ht htext]
  rfl

/-- A configuration that has been written is the template with the values of its job, and as good a
template as that. -/
theorem write_isFaithful (hload : Template.load (m := StateM Machine) source w₀ = (.ok t, w₁))
    (hpath : Configuration.isDocumentPath path = true)
    (hdevice : w.tree.get? (FileTree.location w.home path) ≠ some .device)
    (hwrite : t.write (m := StateM Machine) job path w = (.ok (), w')) :
    ∃ t' : Template, Template.load (m := StateM Machine) path w' = (.ok t', w') ∧
      t'.settings = t.render job ∧
      (∀ f ∈ job.settings, at? f.1 t'.settings = some f.2) ∧
      at? ["attack_traffic", "job_size_ns"] t'.settings = some (.float job.strategy.estimatedJobSize) ∧
      (∀ p, (∀ f ∈ job.settings, Apart f.1 p) → at? p t'.settings = at? p t.settings) ∧
      ∀ k, t'.render k = t.render k ∧ t'.document k = t.document k := by
  obtain ⟨text, htext, hwritten⟩ := Program.writeTemplate_ok hwrite
  have hholds := (Machine.writeText_ok hwritten).2 hdevice
  refine ⟨⟨t.render job⟩, load_written (Machine.loadTemplate_isDocument hload) hpath htext hholds, rfl,
    at?_render t job, ?_, fun p => at?_render_apart t, fun k => ⟨render_render t job k, ?_⟩⟩
  · rw [← document_jobSize htext]
    exact at?_render_jobSize t job
  · rw [document, render_render, document]

/-- A template with one group of traffic, and others of the settings that a job has but not of
their kinds. -/
def mixedTemplate : Machine where
  tree := ⟨[(["t.cfg"], .file ("policy = \x7b old = 1; \x7d; innocent_traffic = 5; " ++
    "attack_traffic = \x7b seed = [ 1, 2 ]; type = \"burst\"; \x7d;").toUTF8.toList false)]⟩
  home := []
  programs := []
  searched := []
  environment := []
  formats := []
  time := 0
  printed := ""
  logged := []

def sampleJob : JobValues := ⟨.wsjf, ⟨1000000000⟩, 768, ⟨500000000⟩, ⟨199.5, 199.5, 512, 0.5, 1⟩⟩

theorem write_isFaithful_mixedTemplate : ∃ t w',
    Template.load (m := StateM Machine) "t.cfg" mixedTemplate = (.ok t, mixedTemplate) ∧
    t.write (m := StateM Machine) sampleJob "job.cfg" mixedTemplate = (.ok (), w') ∧
    Configuration.isDocumentPath "job.cfg" = true ∧
    mixedTemplate.tree.get? (FileTree.location mixedTemplate.home "job.cfg") ≠ some .device ∧
    ∃ t' : Template, Template.load (m := StateM Machine) "job.cfg" w' = (.ok t', w') ∧
      t'.settings = t.render sampleJob ∧
      (∀ f ∈ sampleJob.settings, at? f.1 t'.settings = some f.2) ∧
      at? ["attack_traffic", "job_size_ns"] t'.settings =
        some (.float sampleJob.strategy.estimatedJobSize) ∧
      (∀ p, (∀ f ∈ sampleJob.settings, Apart f.1 p) → at? p t'.settings = at? p t.settings) ∧
      ∀ k, t'.render k = t.render k ∧ t'.document k = t.document k := by
  have hpath : Configuration.isDocumentPath "job.cfg" = true := by decide +kernel
  have hdevice : mixedTemplate.tree.get? (FileTree.location mixedTemplate.home "job.cfg") ≠
      some .device := by decide +kernel
  have hok : ((Template.load (m := StateM Machine) "t.cfg" mixedTemplate).1.toOption.map fun t =>
      (t.write (m := StateM Machine) sampleJob "job.cfg" mixedTemplate).1.isOk) = some true := by
    decide +kernel
  cases hload : Template.load (m := StateM Machine) "t.cfg" mixedTemplate with
  | mk r w =>
    rw [hload] at hok
    obtain rfl := (Machine.loadTemplate_same _).of_eq hload
    cases r with
    | error e => cases hok
    | ok t =>
      cases hwrite : t.write (m := StateM Machine) sampleJob "job.cfg" mixedTemplate with
      | mk r w' =>
        cases r with
        | error e => simp [Except.toOption, hwrite, Except.isOk, Except.toBool] at hok
        | ok u =>
          exact ⟨t, w', rfl, hwrite, hpath, hdevice, write_isFaithful hload hpath hdevice hwrite⟩

end Template

end Saturation
