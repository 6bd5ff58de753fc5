/-
**Rendering a directory in any order.**

The templates of a directory are rendered while the directory is walked, and what they are rendered
to is written into it.  No template sees what another one was rendered to: an output is no template
and no data, and it is the output of one template only.  So what is rendered, and where it is
written, is decided by the files that were there before, in whichever order the walk meets them.

Main definitions:

* `PageTemplate.Command.rendering?` — what rendering one path leads to;
* `PageTemplate.Command.Renderable` — directories whose templates can be read and outputs written;
* `PageTemplate.Command.Visits` — the orders in which a walk can meet what is in a directory;
* `PageTemplate.Command.Output` — the outputs with their contents;
* `PageTemplate.Command.Renders` — what a run has to lead to;
* `PageTemplate.Command.Along` — what a run has led to so far.

Main results:

* `PageTemplate.Command.Output.unique` — every output is that of one template;
* `PageTemplate.Command.Along.renderEntry` — one step of the walk;
* `PageTemplate.Command.renderDirectory_order` — **the order makes no difference, and neither does a
  second run**.
-/

import PageTemplate.Command.Run
import PageTemplate.Proofs.Command.Files

set_option relaxedAutoImplicit false
set_option autoImplicit false

namespace PageTemplate.Command

open PageTemplate.Binding PageTemplate.Diagnostic
open PageTemplate.Command.Path

/-! ### One template -/

/-- What rendering a path leads to, unless it is no template, has no data or cannot be read. -/
def rendering? (options : Options) (t : FileTree) (path : String) :
    Option (Except PageError Page.Rendered) :=
  if isTemplate path then
    match neighbourData? t path, loadSource t path with
    | some data, .ok source =>
        some (match data with
          | .error message => .error (.data message)
          | .ok data => Page.render source data options)
    | _, _ => none
  else none

theorem isTemplate_of_rendering? {options : Options} {t : FileTree} {path : String}
    {e : Except PageError Page.Rendered} (h : rendering? options t path = some e) :
    isTemplate path = true := by
  rw [rendering?] at h
  split at h
  · assumption
  · simp at h

/-- Rendering a template that can be read is rendering it and writing its output. -/
theorem renderEntry_eq {palette : Palette} {options : Options} {p : Progress} {path source : String}
    (htemplate : isTemplate path = true) (hsource : loadSource p.files path = .ok source) :
    renderEntry palette options p path =
      match rendering? options p.files path with
      | none => .ok p
      | some (.error e) =>
          .ok { p with errors := p.errors ++ e.render palette source path, failed := true }
      | some (.ok r) =>
          match p.files.write (withExtension path renderedExtension) r.markup with
          | .error e =>
              .error (.failure p.files p.errors
                ("failed to write " ++ withExtension path renderedExtension ++ ": " ++ e.message))
          | .ok files =>
              .ok { p with
                files := files
                errors := p.errors ++ doneLine palette (withExtension path renderedExtension)
                done := p.done + 1 } := by
  rw [renderEntry, rendering?, htemplate, hsource]
  cases neighbourData? p.files path with
  | none => rfl
  | some data =>
      cases data with
      | error message => rfl
      | ok data =>
          cases hpage : Page.render source data options with
          | error e => simp [hpage]
          | ok r =>
              simp only [hpage]
              rfl

/-- What is rendered depends on what the paths of the template and of its data lead to. -/
theorem rendering?_congr {options : Options} {t t' : FileTree} {path : String}
    (hpath : t'.entry path = t.entry path)
    (hdata : t'.entry (withExtension path "json") = t.entry (withExtension path "json")) :
    rendering? options t' path = rendering? options t path := by
  have hsource : loadSource t' path = loadSource t path := by
    rw [loadSource, loadSource, FileTree.read, FileTree.read, hpath]
  have hread : t'.read (withExtension path "json") = t.read (withExtension path "json") := by
    rw [FileTree.read, FileTree.read, hdata]
  have hfile : t'.isFile (withExtension path "json") = t.isFile (withExtension path "json") := by
    rw [FileTree.isFile, FileTree.isFile, hdata]
  have hneighbour : neighbourData? t' path = neighbourData? t path := by
    simp only [neighbourData?, loadData, loadSource, hread, hfile]
  rw [rendering?, rendering?, hsource, hneighbour]

/-- The location beside another one, with another extension on the last name. -/
def beside (l : Location) (extension : String) : Location :=
  match l.getLast? with
  | some name => l.dropLast ++ [(splitName name).1 ++ "." ++ extension]
  | none => l

theorem beside_concat {l : Location} {stem extension : String} (hstem : stem ≠ "") :
    beside (l ++ [stem ++ ".html"]) extension = l ++ [stem ++ "." ++ extension] := by
  rw [beside, List.getLast?_concat, List.dropLast_concat, html_name]
  change l ++ [(splitName (stem ++ "." ++ "html")).1 ++ "." ++ extension] = _
  rw [splitName_append hstem (by decide)]

/-! ### Directories with templates -/

/-- A directory whose templates are files, with names as they can occur, so that whatever a template
is rendered to can be written beside it. -/
structure Renderable (options : Options) (t : FileTree) (directory : String)
    (location : Location) : Prop where
  entry : t.entry directory = .ok (.directory location)
  names : ∀ l ∈ t.files.map (·.1) ++ t.directories, ∀ name ∈ l, IsName name
  templates : ∀ path ∈ t.walk directory location, isTemplate path = true → t.isFile path = true
  writable : ∀ path ∈ t.walk directory location, ∀ r,
    rendering? options t path = some (.ok r) →
      ∃ t', t.write (withExtension path renderedExtension) r.markup = .ok t'

/-- What a walk can meet, in any order: everything that was known before, and what templates have
been rendered to meanwhile. -/
structure Visits (t : FileTree) (directory : String) (location : Location)
    (paths : List String) : Prop where
  all : ∀ path ∈ t.walk directory location, path ∈ paths
  only : ∀ path ∈ paths, path ∈ t.walk directory location ∨
    ∃ template ∈ t.walk directory location, isTemplate template = true ∧
      path = withExtension template renderedExtension

/-- A content that a template is rendered to, with its location beside the template. -/
def Output (options : Options) (t : FileTree) (directory : String) (location l : Location)
    (content : String) : Prop :=
  ∃ path ∈ t.walk directory location, ∃ r, rendering? options t path = some (.ok r) ∧
    (∃ m c, t.entry path = .ok (.file m c) ∧ l = beside m renderedExtension) ∧
    content = r.markup

/-- A template in a directory below `directory`, which the names `names` lead to. -/
structure TemplateAt (t : FileTree) (directory : String) (location : Location) (path : String)
    (names : List String) (stem : String) : Prop where
  path_eq : path = join (joinAll directory names) (stem ++ ".html")
  stem_ne : stem ≠ ""
  whole : '/' ∉ stem.toList
  known : t.Known (location ++ names ++ [stem ++ ".html"])
  parent : t.entry (joinAll directory names) = .ok (.directory (location ++ names))
  file : ∃ c, t.entry path = .ok (.file (location ++ names ++ [stem ++ ".html"]) c)

variable {options : Options} {t t' : FileTree} {directory : String} {location : Location}

namespace TemplateAt

variable {path stem : String} {names : List String}

theorem isName (h : TemplateAt t directory location path names stem) {extension : String}
    (hne : extension ≠ "") (hwhole : '/' ∉ extension.toList) :
    IsName (stem ++ "." ++ extension) :=
  isName_append h.stem_ne h.whole hne hwhole

theorem isName_html (h : TemplateAt t directory location path names stem) :
    IsName (stem ++ ".html") := by
  rw [html_name]
  exact h.isName (by decide) (by decide)

theorem withExtension_eq (h : TemplateAt t directory location path names stem) {extension : String}
    (hwhole : '/' ∉ extension.toList) :
    withExtension path extension = join (joinAll directory names) (stem ++ "." ++ extension) := by
  rw [h.path_eq, withExtension_stem h.stem_ne h.whole hwhole]

theorem location_eq (h : TemplateAt t directory location path names stem) {m : Location}
    {c : String} (hm : t.entry path = .ok (.file m c)) :
    m = location ++ names ++ [stem ++ ".html"] := by
  obtain ⟨c', hc'⟩ := h.file
  rw [hc'] at hm
  cases hm
  rfl

end TemplateAt

/-- Every template that a walk meets is in some directory below. -/
theorem Renderable.templateAt (h : Renderable options t directory location) {path : String}
    (hpath : path ∈ t.walk directory location) (htemplate : isTemplate path = true) :
    ∃ names stem, TemplateAt t directory location path names stem := by
  obtain ⟨names, hknown, rfl⟩ := FileTree.mem_walk.1 hpath
  have hfile := h.templates _ hpath htemplate
  obtain ⟨l, c, hentry⟩ : ∃ l c, t.entry (joinAll directory names) = .ok (.file l c) := by
    rw [FileTree.isFile] at hfile
    split at hfile
    · rename_i l c hentry
      exact ⟨l, c, hentry⟩
    · simp at hfile
  rcases List.eq_nil_or_concat names with rfl | ⟨names, name, rfl⟩
  · rw [joinAll_nil, h.entry] at hentry
    simp at hentry
  · rw [List.concat_eq_append] at *
    have hknown : t.Known (location ++ (names ++ [name])) := hknown.resolve_left (by simp)
    rw [← List.append_assoc] at hknown
    have hnames : ∀ other ∈ names ++ [name], IsName other := by
      obtain ⟨x, hx, hfront⟩ := hknown
      intro other hother
      refine h.names x hx other (hfront.subset ?_)
      rw [List.append_assoc]
      exact List.mem_append_right _ hother
    have hname : IsName name := hnames name (by simp)
    rw [joinAll_concat] at htemplate hentry ⊢
    obtain ⟨stem, hne, hwhole, rfl⟩ := exists_stem_of_isTemplate hname htemplate
    have hnames' : ∀ other ∈ names, IsName other := fun other ho =>
      hnames other (List.mem_append_left _ ho)
    obtain ⟨m, hparent⟩ := FileTree.exists_entry_of_join hname
      (FileTree.joinAll_ne_empty (FileTree.entry_eq h.entry).1 hnames') hentry
    obtain rfl : m = location ++ names := FileTree.entry_joinAll h.entry names hnames' hparent
    refine ⟨names, stem, rfl, hne, hwhole, hknown, hparent, c, ?_⟩
    rcases FileTree.entry_join_cases hname hparent hentry with ⟨c', -, he⟩ | ⟨-, -, he⟩
    · cases he
      exact hentry
    · simp at he

/-! ### Outputs -/

/-- An output is in the directory of its template. -/
theorem Renderable.output (h : Renderable options t directory location) {l : Location}
    {content : String} (hout : Output options t directory location l content) :
    ∃ path names stem r, TemplateAt t directory location path names stem ∧
      path ∈ t.walk directory location ∧ rendering? options t path = some (.ok r) ∧
      l = location ++ names ++ [stem ++ "." ++ renderedExtension] ∧ content = r.markup := by
  obtain ⟨path, hpath, r, hr, ⟨m, c, hm, rfl⟩, rfl⟩ := hout
  obtain ⟨names, stem, hat⟩ := h.templateAt hpath (isTemplate_of_rendering? hr)
  obtain rfl := hat.location_eq hm
  exact ⟨path, names, stem, r, hat, hpath, hr, beside_concat hat.stem_ne, rfl⟩

theorem TemplateAt.output {path stem : String} {names : List String} {r : Page.Rendered}
    (h : TemplateAt t directory location path names stem)
    (hpath : path ∈ t.walk directory location) (hr : rendering? options t path = some (.ok r)) :
    Output options t directory location
      (location ++ names ++ [stem ++ "." ++ renderedExtension]) r.markup := by
  obtain ⟨c, hfile⟩ := h.file
  exact ⟨path, hpath, r, hr, ⟨_, c, hfile, (beside_concat h.stem_ne).symm⟩, rfl⟩

/-- Templates whose outputs are at the same location are the same. -/
theorem TemplateAt.path_unique {path path' stem stem' : String} {names names' : List String}
    (h : TemplateAt t directory location path names stem)
    (h' : TemplateAt t directory location path' names' stem')
    (heq : location ++ names ++ [stem ++ "." ++ renderedExtension] =
      location ++ names' ++ [stem' ++ "." ++ renderedExtension]) : path = path' := by
  obtain ⟨hnames, hstem⟩ := List.append_inj' heq rfl
  rw [h.path_eq, h'.path_eq, List.append_cancel_left hnames,
    stem_append_inj (List.singleton_inj.1 hstem)]

/-- **Every output is that of one template.** -/
theorem Output.unique (h : Renderable options t directory location) {l : Location} {c c' : String}
    (hc : Output options t directory location l c)
    (hc' : Output options t directory location l c') : c = c' := by
  obtain ⟨path, names, stem, r, hat, -, hr, rfl, rfl⟩ := h.output hc
  obtain ⟨path', names', stem', r', hat', -, hr', heq, rfl⟩ := h.output hc'
  obtain rfl := hat.path_unique hat' heq
  rw [hr] at hr'
  cases hr'
  rfl

/-- No output is the data of a template. -/
theorem Renderable.not_output_json (h : Renderable options t directory location) (l : Location)
    (stem c : String) : ¬ Output options t directory location (l ++ [stem ++ "." ++ "json"]) c := by
  intro hout
  obtain ⟨-, names, stem', -, -, -, -, heq, -⟩ := h.output hout
  have hname := List.singleton_inj.1 (List.append_inj' heq rfl).2
  have hlast := congrArg (fun name => name.toList.getLast?) hname
  simp [renderedExtension] at hlast

/-- No output is a template. -/
theorem TemplateAt.not_output {path stem : String} {names : List String}
    (h : TemplateAt t directory location path names stem)
    (hr : Renderable options t directory location) (htemplate : isTemplate path = true)
    (c : String) :
    ¬ Output options t directory location (location ++ names ++ [stem ++ ".html"]) c := by
  intro hout
  obtain ⟨-, names', stem', -, -, -, -, heq, -⟩ := hr.output hout
  have hname := List.singleton_inj.1 (List.append_inj' heq rfl).2
  rw [h.path_eq, hname, isTemplate_rendered] at htemplate
  simp at htemplate

/-- A template is the same file when outputs have been gained. -/
theorem TemplateAt.entry_gains {path stem : String} {names : List String}
    (h : TemplateAt t directory location path names stem)
    (hr : Renderable options t directory location)
    (hg : t.Gains (Output options t directory location) t') (htemplate : isTemplate path = true) :
    t'.entry path = t.entry path := by
  rw [h.path_eq]
  exact hg.entry_join h.isName_html h.parent (h.not_output hr htemplate)

/-- A tree that has gained outputs has the same to render. -/
theorem Renderable.rendering?_gains (h : Renderable options t directory location)
    (hg : t.Gains (Output options t directory location) t') {path : String}
    (hpath : path ∈ t.walk directory location) :
    rendering? options t' path = rendering? options t path := by
  by_cases htemplate : isTemplate path = true
  · obtain ⟨names, stem, hat⟩ := h.templateAt hpath htemplate
    refine rendering?_congr (hat.entry_gains h hg htemplate) ?_
    rw [hat.withExtension_eq (by decide)]
    exact hg.entry_join (hat.isName (by decide) (by decide)) hat.parent (h.not_output_json _ stem)
  · rw [rendering?, rendering?, if_neg htemplate, if_neg htemplate]

/-! ### The walk -/

/-- What rendering the paths `done` has led to: each output is written that any of them has, and the
failures among them are counted. -/
structure Along (options : Options) (t : FileTree) (directory : String) (location : Location)
    (done : List String) (p : Progress) : Prop where
  gains : t.Gains (Output options t directory location) p.files
  written : ∀ path ∈ done, ∀ names stem r, TemplateAt t directory location path names stem →
    rendering? options t path = some (.ok r) →
      p.files.content? (location ++ names ++ [stem ++ "." ++ renderedExtension]) = some r.markup
  failed : p.failed = true ↔ ∃ path ∈ done, ∃ e, rendering? options t path = some (.error e)
  done : p.done = 0 ↔ ∀ path ∈ done, ∀ r, rendering? options t path ≠ some (.ok r)
  still : (∀ l c, Output options t directory location l c → t.content? l = some c) → p.files = t

namespace Along

variable {done : List String} {p : Progress} {path : String}

theorem start : Along options t directory location [] { files := t } where
  gains := .refl _ _
  written := by simp
  failed := by simp
  done := by simp
  still _ := rfl

/-- A path with nothing to render. -/
theorem skip (h : Along options t directory location done p)
    (hnone : rendering? options t path = none) :
    Along options t directory location (done ++ [path]) p where
  gains := h.gains
  written other hother names stem r hat hr := by
    rcases List.mem_append.1 hother with hother | hother
    · exact h.written other hother names stem r hat hr
    · rw [List.mem_singleton.1 hother, hnone] at hr
      simp at hr
  failed := by
    rw [h.failed]
    simp [or_and_right, exists_or, hnone]
  done := by
    rw [h.done]
    simp [or_imp, forall_and, hnone]
  still := h.still

/-- A template that cannot be rendered. -/
theorem fail (h : Along options t directory location done p) {e : PageError} (errors : String)
    (he : rendering? options t path = some (.error e)) :
    Along options t directory location (done ++ [path])
      { p with errors := errors, failed := true } where
  gains := h.gains
  written other hother names stem r hat hr := by
    rcases List.mem_append.1 hother with hother | hother
    · exact h.written other hother names stem r hat hr
    · rw [List.mem_singleton.1 hother, he] at hr
      simp at hr
  failed := by simp [or_and_right, exists_or, he]
  done := by
    rw [h.done]
    simp [or_imp, forall_and, he]
  still := h.still

/-- A template that is rendered. -/
theorem write (h : Along options t directory location done p) {names : List String} {stem : String}
    {r : Page.Rendered} (errors : String) (hpath : path ∈ t.walk directory location)
    (hat : TemplateAt t directory location path names stem)
    (hrendering : rendering? options t path = some (.ok r))
    (happart : p.files.content? (location ++ names ++ [stem ++ "." ++ renderedExtension]) = none →
      p.files.isDirectory (location ++ names ++ [stem ++ "." ++ renderedExtension]) = false) :
    Along options t directory location (done ++ [path])
      { p with
        files := p.files.store (location ++ names ++ [stem ++ "." ++ renderedExtension]) r.markup
        errors := errors
        done := p.done + 1 } where
  gains := h.gains.store (FileTree.isDirectory_of_entry hat.parent)
    (hat.output hpath hrendering) happart
  written other hother names' stem' r' hat' hr' := by
    rw [FileTree.content?_store]
    rcases List.mem_append.1 hother with hother | hother
    · split
      · -- another template with this output would be the same one
        rename_i heq
        obtain rfl := hat'.path_unique hat heq
        rw [hrendering] at hr'
        cases hr'
        rfl
      · exact h.written other hother names' stem' r' hat' hr'
    · obtain rfl := List.mem_singleton.1 hother
      rw [hrendering] at hr'
      cases hr'
      obtain ⟨c, hfile⟩ := hat.file
      have heq := hat'.location_eq hfile
      obtain ⟨hnames, hstem⟩ := List.append_inj' heq rfl
      have hstem : stem ++ "." ++ "html" = stem' ++ "." ++ "html" := by
        rw [← html_name, ← html_name]
        exact List.singleton_inj.1 hstem
      rw [hnames, stem_append_inj hstem, if_pos rfl]
  failed := by
    rw [h.failed]
    simp [or_and_right, exists_or, hrendering]
  done := by simp [or_imp, forall_and, hrendering]
  still hstill := by
    have hsame := h.still hstill
    dsimp only
    rw [hsame]
    exact FileTree.store_eq_self (hstill _ _ (hat.output hpath hrendering))

/-- **One step of the walk.** -/
theorem renderEntry (hr : Renderable options t directory location)
    (h : Along options t directory location done p) (palette : Palette)
    (hpath : path ∈ t.walk directory location ∨ isTemplate path = false) :
    ∃ p', Command.renderEntry palette options p path = .ok p' ∧
      Along options t directory location (done ++ [path]) p' := by
  by_cases htemplate : isTemplate path = true
  · replace hpath : path ∈ t.walk directory location := hpath.resolve_right (by simp [htemplate])
    obtain ⟨names, stem, hat⟩ := hr.templateAt hpath htemplate
    have hsame := hr.rendering?_gains h.gains hpath
    obtain ⟨c, hfile⟩ := hat.file
    have hsource : loadSource p.files path = .ok c := by
      rw [loadSource, FileTree.read, hat.entry_gains hr h.gains htemplate, hfile]
    rw [renderEntry_eq htemplate hsource, hsame]
    match hrendering : rendering? options t path with
    | none => exact ⟨p, rfl, h.skip hrendering⟩
    | some (.error e) => exact ⟨_, rfl, h.fail _ hrendering⟩
    | some (.ok r) =>
        obtain ⟨u, hu⟩ := hr.writable path hpath r hrendering
        rw [hat.withExtension_eq (by decide)] at hu
        obtain ⟨hwrite, happart⟩ := h.gains.write
          (hat.isName (by decide) (by decide)) hat.parent hu r.markup
        dsimp only
        rw [hat.withExtension_eq (by decide), hwrite]
        exact ⟨_, rfl, h.write _ hpath hat hrendering happart⟩
  · have hnone : rendering? options t path = none := by rw [rendering?, if_neg htemplate]
    exact ⟨p, by rw [Command.renderEntry]; simp [htemplate], h.skip hnone⟩

/-- All steps of the walk. -/
theorem renderEntries (hr : Renderable options t directory location) (palette : Palette)
    (paths : List String) (h : Along options t directory location done p)
    (hpaths : ∀ path ∈ paths, path ∈ t.walk directory location ∨ isTemplate path = false) :
    ∃ p', Command.renderEntries palette options p paths = .ok p' ∧
      Along options t directory location (done ++ paths) p' := by
  induction paths generalizing done p with
  | nil => exact ⟨p, rfl, by simpa using h⟩
  | cons path paths ih =>
      obtain ⟨p', hp', h'⟩ := h.renderEntry hr palette (hpaths path List.mem_cons_self)
      obtain ⟨p'', hp'', h''⟩ := ih h' fun other ho => hpaths other (List.mem_cons_of_mem _ ho)
      refine ⟨p'', ?_, by simpa using h''⟩
      unfold Command.renderEntries
      simp only [hp', hp'']

end Along

/-! ### A whole run -/

/-- A directory is rendered without a fault: some template has data, and all that have data are
rendered. -/
def Clean (options : Options) (t : FileTree) (directory : String) (location : Location) : Prop :=
  (∃ path ∈ t.walk directory location, ∃ r, rendering? options t path = some (.ok r)) ∧
    ∀ path ∈ t.walk directory location, ∀ e, rendering? options t path ≠ some (.error e)

/-- What a run has to lead to: each template that can be rendered has its output beside it, no other
file is new or changed, and the exit code says whether all went well. -/
structure Renders (options : Options) (t : FileTree) (directory : String) (location : Location)
    (r : Result) : Prop where
  exitCode : r.exitCode = 0 ∧ Clean options t directory location ∨
    r.exitCode = 1 ∧ ¬ Clean options t directory location
  written : ∀ path ∈ t.walk directory location, ∀ o,
    rendering? options t path = some (.ok o) → ∀ l c, t.entry path = .ok (.file l c) →
      r.files.content? (beside l renderedExtension) = some o.markup ∧
        r.files.entry (withExtension path renderedExtension) =
          .ok (.file (beside l renderedExtension) o.markup)
  kept : ∀ l, (∀ c, ¬ Output options t directory location l c) →
    r.files.content? l = t.content? l
  directories : r.files.directories = t.directories
  workingDirectory : r.files.workingDirectory = t.workingDirectory

theorem Renders.content_of_output {r : Result} (hr : Renders options t directory location r)
    {l : Location} {c : String} (hout : Output options t directory location l c) :
    r.files.content? l = some c := by
  obtain ⟨path, hpath, o, ho, ⟨m, c', hm, rfl⟩, rfl⟩ := hout
  exact (hr.written path hpath o ho m c' hm).1

/-- The exit code says no more than whether the directory is rendered without a fault. -/
theorem Renders.exitCode_eq {r r' : Result} (hr : Renders options t directory location r)
    (hr' : Renders options t' directory location r')
    (hclean : Clean options t' directory location ↔ Clean options t directory location) :
    r'.exitCode = r.exitCode := by
  rcases hr.exitCode with ⟨he, hc⟩ | ⟨he, hc⟩ <;> rcases hr'.exitCode with ⟨he', hc'⟩ | ⟨he', hc'⟩
  · rw [he, he']
  · exact absurd (hclean.2 hc) hc'
  · exact absurd (hclean.1 hc') hc
  · rw [he, he']

/-- Runs that have to lead to the same exit code and the same files do. -/
theorem Renders.same {r r' : Result} (hr : Renders options t directory location r)
    (hr' : Renders options t directory location r') :
    r'.exitCode = r.exitCode ∧ ∀ l, r'.files.content? l = r.files.content? l := by
  refine ⟨hr.exitCode_eq hr' .rfl, fun l => ?_⟩
  by_cases hl : ∃ c, Output options t directory location l c
  · obtain ⟨c, hout⟩ := hl
    rw [hr.content_of_output hout, hr'.content_of_output hout]
  · rw [hr.kept l (not_exists.1 hl), hr'.kept l (not_exists.1 hl)]

namespace Visits

variable {paths : List String}

theorem self : Visits t directory location (t.walk directory location) where
  all _ h := h
  only _ h := .inl h

/-- Whatever else a walk meets is no template. -/
theorem cases (h : Renderable options t directory location)
    (hv : Visits t directory location paths) {path : String} (hpath : path ∈ paths) :
    path ∈ t.walk directory location ∨ isTemplate path = false := by
  refine (hv.only path hpath).imp_right ?_
  rintro ⟨template, hwalk, htemplate, rfl⟩
  obtain ⟨names, stem, hat⟩ := h.templateAt hwalk htemplate
  rw [hat.withExtension_eq (by decide)]
  exact isTemplate_rendered ..

theorem mem_iff (h : Renderable options t directory location)
    (hv : Visits t directory location paths) {path : String}
    {e : Except PageError Page.Rendered} (he : rendering? options t path = some e) :
    path ∈ paths ↔ path ∈ t.walk directory location := by
  refine ⟨fun hpath => (hv.cases h hpath).resolve_right ?_, hv.all path⟩
  simp [isTemplate_of_rendering? he]

end Visits

/-- The exit code of a run whose steps all went through. -/
theorem renderDirectory_of_renderEntries (directory : String) {palette : Palette} {paths : List String}
    {p : Progress} (hp : renderEntries palette options { files := t } paths = .ok p) :
    (renderDirectory palette options t directory paths).files = p.files ∧
      ((renderDirectory palette options t directory paths).exitCode = 0 ∧
          (p.failed = false ∧ p.done ≠ 0) ∨
        (renderDirectory palette options t directory paths).exitCode = 1 ∧
          ¬(p.failed = false ∧ p.done ≠ 0)) := by
  rw [renderDirectory, hp]
  dsimp only
  split
  · next hfailed => exact ⟨rfl, .inr ⟨rfl, fun h => by simp [hfailed] at h⟩⟩
  · next hfailed =>
      split
      · next hdone => exact ⟨rfl, .inr ⟨rfl, fun h => h.2 hdone⟩⟩
      · next hdone => exact ⟨rfl, .inl ⟨rfl, by simpa using hfailed, hdone⟩⟩

namespace Along

variable {paths : List String} {p : Progress}

/-- Whether a directory is rendered without a fault can be seen at the end of a walk. -/
theorem clean_iff (ha : Along options t directory location paths p)
    (h : Renderable options t directory location) (hv : Visits t directory location paths) :
    Clean options t directory location ↔ p.failed = false ∧ p.done ≠ 0 := by
  have hfailed : p.failed = false ↔
      ∀ path ∈ t.walk directory location, ∀ e, rendering? options t path ≠ some (.error e) := by
    rw [← Bool.not_eq_true, ha.failed]
    simp only [not_exists, not_and]
    exact ⟨fun hnone path hpath => hnone path (hv.all path hpath),
      fun hnone path hpath e he => hnone path ((hv.mem_iff h he).1 hpath) e he⟩
  have hdone : p.done ≠ 0 ↔
      ∃ path ∈ t.walk directory location, ∃ r, rendering? options t path = some (.ok r) := by
    rw [ne_eq, ha.done]
    simp only [not_forall, not_not, exists_prop]
    refine exists_congr fun path => and_comm.trans (Iff.trans ?_ and_comm)
    exact and_congr_right fun ⟨_, hr⟩ => hv.mem_iff h hr
  rw [Clean, hfailed, hdone, and_comm]

/-- At the end of a walk each output is where its path leads. -/
theorem output (ha : Along options t directory location paths p)
    (h : Renderable options t directory location) (hv : Visits t directory location paths)
    {path : String} (hpath : path ∈ t.walk directory location) {o : Page.Rendered}
    (ho : rendering? options t path = some (.ok o)) {l : Location} {c : String}
    (hl : t.entry path = .ok (.file l c)) :
    p.files.content? (beside l renderedExtension) = some o.markup ∧
      p.files.entry (withExtension path renderedExtension) =
        .ok (.file (beside l renderedExtension) o.markup) := by
  obtain ⟨names, stem, hat⟩ := h.templateAt hpath (isTemplate_of_rendering? ho)
  obtain rfl := hat.location_eq hl
  have hcontent := ha.written path (hv.all path hpath) names stem o hat ho
  obtain ⟨u, hu⟩ := h.writable path hpath o ho
  rw [hat.withExtension_eq (by decide)] at hu
  have hname : IsName (stem ++ "." ++ renderedExtension) := hat.isName (by decide) (by decide)
  rw [beside_concat hat.stem_ne, hat.withExtension_eq (by decide),
    FileTree.entry_join_of_fits hname (ha.gains.entry_directory hat.parent)
      (FileTree.fits_of_write hname hat.parent hu), hcontent]
  exact ⟨rfl, rfl⟩

end Along

/-- **A run over any order of a walk leads to what it has to**, and to the same tree if all outputs
are there already. -/
theorem Renderable.run (h : Renderable options t directory location) {paths : List String}
    (hv : Visits t directory location paths) (palette : Palette) :
    Renders options t directory location (renderDirectory palette options t directory paths) ∧
      t.Gains (Output options t directory location)
        (renderDirectory palette options t directory paths).files ∧
      ((∀ l c, Output options t directory location l c → t.content? l = some c) →
        (renderDirectory palette options t directory paths).files = t) := by
  obtain ⟨p, hp, ha⟩ := Along.start.renderEntries h palette paths fun _ hpath => hv.cases h hpath
  rw [List.nil_append] at ha
  obtain ⟨hfiles, hexit⟩ := renderDirectory_of_renderEntries directory hp
  rw [← ha.clean_iff h hv] at hexit
  rw [hfiles]
  refine ⟨⟨hexit, ?_, ?_, ?_, ?_⟩, ha.gains, ha.still⟩ <;> rw [hfiles]
  · exact fun path hpath o ho l c hl => ha.output h hv hpath ho hl
  · exact fun l hl => ha.gains.kept hl
  · exact ha.gains.directories
  · exact ha.gains.workingDirectory

/-! ### A second run -/

namespace Renderable

/-- What was rendered is no template of a second walk. -/
theorem mem_walk_iff (h : Renderable options t directory location)
    (hg : t.Gains (Output options t directory location) t') {path : String}
    (htemplate : isTemplate path = true) :
    path ∈ t'.walk directory location ↔ path ∈ t.walk directory location := by
  rw [FileTree.mem_walk, FileTree.mem_walk]
  constructor
  · rintro ⟨names, hknown, rfl⟩
    refine ⟨names, hknown.imp_right fun hknown => ?_, rfl⟩
    rcases hg.known _ hknown with hknown | ⟨m, c, hout, hfront⟩
    · exact hknown
    · obtain ⟨_, names', stem, _, hat, -, -, rfl, -⟩ := h.output hout
      rcases List.prefix_concat_iff.1 hfront with heq | hfront
      · rw [List.append_assoc] at heq
        rw [List.append_cancel_left heq, joinAll_concat, isTemplate_rendered] at htemplate
        simp at htemplate
      · -- the directory of the output was known before
        exact hat.known.of_front (hfront.trans (List.prefix_append ..))
  · rintro ⟨names, hknown, rfl⟩
    exact ⟨names, hknown.imp_right (hg.keeps _), rfl⟩

theorem names_gains (h : Renderable options t directory location)
    (hg : t.Gains (Output options t directory location) t') :
    ∀ l ∈ t'.files.map (·.1) ++ t'.directories, ∀ name ∈ l, IsName name := by
  have hbefore : ∀ l, t.Known l → ∀ name ∈ l, IsName name := by
    rintro l ⟨x, hx, hl⟩ name hname
    exact h.names x hx name (hl.subset hname)
  intro l hl name hname
  rcases hg.known l ⟨l, hl, List.prefix_refl l⟩ with hknown | ⟨m, c, hout, hfront⟩
  · exact hbefore l hknown name hname
  · obtain ⟨_, names, stem, _, hat, -, -, rfl, -⟩ := h.output hout
    rcases List.mem_append.1 (hfront.subset hname) with hname | hname
    · exact hbefore _ hat.known name (List.mem_append_left _ hname)
    · rw [List.mem_singleton.1 hname]
      exact hat.isName (by decide) (by decide)

/-- A directory that has been rendered can be rendered again, with the same to render. -/
theorem again (h : Renderable options t directory location) {r : Result}
    (hr : Renders options t directory location r)
    (hg : t.Gains (Output options t directory location) r.files) :
    Renderable options r.files directory location where
  entry := hg.entry_directory h.entry
  names := h.names_gains hg
  templates path hpath htemplate := by
    have hpath' := (h.mem_walk_iff hg htemplate).1 hpath
    obtain ⟨names, stem, hat⟩ := h.templateAt hpath' htemplate
    have hfile := h.templates path hpath' htemplate
    rw [FileTree.isFile] at hfile ⊢
    rwa [hat.entry_gains h hg htemplate]
  writable path hpath o ho := by
    have hpath' := (h.mem_walk_iff hg (isTemplate_of_rendering? ho)).1 hpath
    obtain ⟨names, stem, hat⟩ := h.templateAt hpath' (isTemplate_of_rendering? ho)
    rw [h.rendering?_gains hg hpath'] at ho
    obtain ⟨c, hfile⟩ := hat.file
    exact ⟨_, FileTree.write_of_file (hr.written path hpath' o ho _ c hfile).2⟩

theorem mem_walk_again (h : Renderable options t directory location)
    (hg : t.Gains (Output options t directory location) t') {path : String}
    {e : Except PageError Page.Rendered} :
    path ∈ t'.walk directory location ∧ rendering? options t' path = some e ↔
      path ∈ t.walk directory location ∧ rendering? options t path = some e := by
  constructor
  · rintro ⟨hpath, he⟩
    have hpath' := (h.mem_walk_iff hg (isTemplate_of_rendering? he)).1 hpath
    exact ⟨hpath', h.rendering?_gains hg hpath' ▸ he⟩
  · rintro ⟨hpath, he⟩
    exact ⟨(h.mem_walk_iff hg (isTemplate_of_rendering? he)).2 hpath,
      (h.rendering?_gains hg hpath).trans he⟩

theorem clean_again (h : Renderable options t directory location)
    (hg : t.Gains (Output options t directory location) t') :
    Clean options t' directory location ↔ Clean options t directory location := by
  have hmem {path : String} {e : Except PageError Page.Rendered} :
      path ∈ t'.walk directory location ∧ rendering? options t' path = some e ↔
        path ∈ t.walk directory location ∧ rendering? options t path = some e :=
    h.mem_walk_again hg
  constructor
  · rintro ⟨⟨path, hpath, r, hr⟩, hnone⟩
    exact ⟨⟨path, (hmem.1 ⟨hpath, hr⟩).1, r, (hmem.1 ⟨hpath, hr⟩).2⟩, fun other ho e he =>
      hnone other (hmem.2 ⟨ho, he⟩).1 e (hmem.2 ⟨ho, he⟩).2⟩
  · rintro ⟨⟨path, hpath, r, hr⟩, hnone⟩
    exact ⟨⟨path, (hmem.2 ⟨hpath, hr⟩).1, r, (hmem.2 ⟨hpath, hr⟩).2⟩, fun other ho e he =>
      hnone other (hmem.1 ⟨ho, he⟩).1 e (hmem.1 ⟨ho, he⟩).2⟩

/-- The outputs of a second run are those of the first. -/
theorem output_again (h : Renderable options t directory location)
    (hg : t.Gains (Output options t directory location) t') {l : Location} {c : String}
    (hout : Output options t' directory location l c) :
    Output options t directory location l c := by
  obtain ⟨path, hpath, r, hr, ⟨m, c', hm, rfl⟩, rfl⟩ := hout
  obtain ⟨hpath', hr'⟩ := (h.mem_walk_again hg).1 ⟨hpath, hr⟩
  have htemplate := isTemplate_of_rendering? hr
  obtain ⟨names, stem, hat⟩ := h.templateAt hpath' htemplate
  exact ⟨path, hpath', r, hr', ⟨m, c', (hat.entry_gains h hg htemplate).symm.trans hm, rfl⟩, rfl⟩

end Renderable

/-- **Rendering a directory does not depend on the order of the walk, and a second run changes
nothing.**  In whichever order a walk meets what is in the directory, the same templates get the
same outputs, each beside its template and at a location of its own, no other file is new or
changed, and the exit code is the same.  The outputs are no templates and no data, so rendering the
directory again, in any order, leads to the same exit code and leaves every file as it is. -/
theorem renderDirectory_order {request : Request} {data : Option String} {json : Bool}
    {palette : Palette} {paths paths' again : List String} {first other second : Result}
    (htask : request.task = .render (some directory) data false json)
    (h : Renderable request.options t directory location)
    (hv : Visits t directory location paths)
    (hfirst : renderDirectory palette request.options t directory paths = first)
    (hv' : Visits t directory location paths')
    (hother : renderDirectory palette request.options t directory paths' = other)
    (ha : Visits first.files directory location again)
    (hsecond : renderDirectory palette request.options first.files directory again = second) :
    (∀ input, run palette request t input =
        renderDirectory palette request.options t directory (t.walk directory location)) ∧
      Visits t directory location (t.walk directory location) ∧
      Renders request.options t directory location first ∧
      (∀ path ∈ t.walk directory location, isTemplate path = true →
        ∀ path' ∈ t.walk directory location, isTemplate path' = true → path ≠ path' →
          ∃ m c m' c', t.entry path = .ok (.file m c) ∧ t.entry path' = .ok (.file m' c') ∧
            beside m renderedExtension ≠ beside m' renderedExtension) ∧
      (other.exitCode = first.exitCode ∧
        ∀ l, other.files.content? l = first.files.content? l) ∧
      second.exitCode = first.exitCode ∧ second.files = first.files := by
  subst hfirst hother hsecond
  obtain ⟨hrenders, hg, -⟩ := h.run hv palette
  obtain ⟨hrenders', -, -⟩ := h.run hv' palette
  obtain ⟨hagain, -, hstill⟩ := (h.again hrenders hg).run ha palette
  refine ⟨fun input => ?_, .self, hrenders, ?_, hrenders.same hrenders',
    hrenders.exitCode_eq hagain (h.clean_again hg), ?_⟩
  · rw [Command.run, htask]
    dsimp only
    rw [if_neg (by simp), h.entry]
  · intro path hpath htemplate path' hpath' htemplate' hne
    obtain ⟨names, stem, hat⟩ := h.templateAt hpath htemplate
    obtain ⟨names', stem', hat'⟩ := h.templateAt hpath' htemplate'
    obtain ⟨c, hfile⟩ := hat.file
    obtain ⟨c', hfile'⟩ := hat'.file
    refine ⟨_, c, _, c', hfile, hfile', ?_⟩
    rw [beside_concat hat.stem_ne, beside_concat hat'.stem_ne]
    exact fun heq => hne (hat.path_unique hat' heq)
  · exact hstill fun l c hout => hrenders.content_of_output (h.output_again hg hout)

/-- A directory with two templates that have data, one of them below another directory and with an
old output, and one without. -/
def sampleTree : FileTree where
  files := [
    (["w", "site", "a.html"], "<p>\x7b\x7b x \x7d\x7d</p>"),
    (["w", "site", "a.json"], "\x7b\"x\": 1\x7d"),
    (["w", "site", "a.rendered.html"], "<p>0</p>"),
    (["w", "site", "sub", "c.html"], "<i></i>"),
    (["w", "site", "sub", "v1.2.html"], "<b hb-repeat=\"x in xs\">\x7b\x7b x \x7d\x7d</b>"),
    (["w", "site", "sub", "v1.2.json"], "\x7b\"xs\": [1, 2]\x7d")]
  directories := []
  workingDirectory := ["w"]

theorem walk_sampleTree : sampleTree.walk "site" ["w", "site"] =
    ["site", "site/a.html", "site/a.json", "site/a.rendered.html", "site/sub", "site/sub/c.html",
      "site/sub/v1.2.html", "site/sub/v1.2.json"] := by
  have hsite : sampleTree.namesIn ["w", "site"] = ["a.html", "a.json", "a.rendered.html", "sub"] :=
    FileTree.namesIn_eq (by decide +kernel) (by decide +kernel)
  have hsub : sampleTree.namesIn ["w", "site", "sub"] = ["c.html", "v1.2.html", "v1.2.json"] :=
    FileTree.namesIn_eq (by decide +kernel) (by decide +kernel)
  have hfiles : ∀ name ∈ ["a.html", "a.json", "a.rendered.html"],
      sampleTree.namesIn ["w", "site", name] = [] := fun name hname =>
    FileTree.namesIn_eq (by revert name; decide +kernel) .nil
  have hfiles' : ∀ name ∈ ["c.html", "v1.2.html", "v1.2.json"],
      sampleTree.namesIn ["w", "site", "sub", name] = [] := fun name hname =>
    FileTree.namesIn_eq (by revert name; decide +kernel) .nil
  have hdepth : sampleTree.depth = 4 := by decide +kernel
  simp only [FileTree.walk, hdepth, FileTree.walkFrom, hsite, hsub, hfiles, hfiles',
    List.flatMap_cons, List.flatMap_nil, List.cons_append, List.nil_append, List.append_nil,
    List.mem_cons, true_or, or_true]
  decide +kernel

theorem renderable_sampleTree : Renderable {} sampleTree "site" ["w", "site"] where
  entry := by decide +kernel
  names := by decide +kernel
  templates := by
    rw [walk_sampleTree]
    decide +kernel
  writable := by
    rw [walk_sampleTree]
    intro path hpath r hr
    have hwrite : ∀ path ∈ ["site", "site/a.html", "site/a.json", "site/a.rendered.html",
        "site/sub", "site/sub/c.html", "site/sub/v1.2.html", "site/sub/v1.2.json"],
        isTemplate path = true →
          (sampleTree.write (withExtension path renderedExtension) "").toOption.isSome := by
      decide +kernel
    have hsome := hwrite path hpath (isTemplate_of_rendering? hr)
    cases hw : sampleTree.write (withExtension path renderedExtension) "" with
    | error e => simp [hw, Except.toOption] at hsome
    | ok u => exact FileTree.exists_write hw r.markup

/-- The directory is walked from its end, and then once more with an output that was not there the
first time. -/
theorem renderDirectory_order_sample :
    let backwards := ["site/sub/v1.2.rendered.html", "site/sub/v1.2.json", "site/sub/v1.2.html",
      "site/sub/c.html", "site/sub", "site/a.rendered.html", "site/a.json", "site/a.html", "site"]
    let first := renderDirectory .plain {} sampleTree "site" backwards
    Visits sampleTree "site" ["w", "site"] backwards ∧ first.exitCode = 0 ∧
      first.files.content? ["w", "site", "a.rendered.html"] = some "<p>1</p>" ∧
      first.files.content? ["w", "site", "sub", "v1.2.rendered.html"] = some "<b>1</b><b>2</b>" ∧
      (renderDirectory .plain {} first.files "site"
        (first.files.walk "site" ["w", "site"])).files = first.files := by
  intro backwards first
  have hvisits : Visits sampleTree "site" ["w", "site"] backwards := by
    constructor
    · rw [walk_sampleTree]
      decide +kernel
    · rw [walk_sampleTree]
      decide +kernel
  let request : Request := ⟨.render (some "site") none false false, {}⟩
  have htask : request.task = .render (some "site") none false false := rfl
  have hrun : renderDirectory .plain request.options sampleTree "site" backwards = first := rfl
  have h := renderDirectory_order htask renderable_sampleTree hvisits hrun .self rfl .self rfl
  have hfirst : first.exitCode = 0 ∧
      first.files.content? ["w", "site", "a.rendered.html"] = some "<p>1</p>" ∧
      first.files.content? ["w", "site", "sub", "v1.2.rendered.html"] =
        some "<b>1</b><b>2</b>" := by
    decide +kernel
  exact ⟨hvisits, hfirst.1, hfirst.2.1, hfirst.2.2, h.2.2.2.2.2.2⟩

end PageTemplate.Command
