/-
**The paths of what is in a directory.**

The path of a directory leads to what is in it once a name is put behind it.  The neighbours of a
file differ from it in this name alone, and this module says which name that is: a template has a
stem before `.html`, and its neighbours have the same stem before another extension.

Main definitions:

* `PageTemplate.Command.Path.IsName` — the names that something in a directory can have;
* `PageTemplate.Command.Path.front` — the names of a directory's path;
* `PageTemplate.Command.Path.joinAll` — the path behind several names.

Main results:

* `PageTemplate.Command.Path.names_join` — a name stands behind those of its directory;
* `PageTemplate.Command.Path.withExtension_join` — **a neighbour is in the same directory**;
* `PageTemplate.Command.Path.exists_stem_of_isTemplate` — a template has a stem;
* `PageTemplate.Command.Path.isTemplate_rendered` — what a template is rendered to is no template.
-/

import PageTemplate.Command.Path
import Mathlib.Data.List.Basic

set_option relaxedAutoImplicit false
set_option autoImplicit false

namespace PageTemplate

/-- A text with a separator in it has the parts before the separator and those behind it. -/
theorem Text.split_append (separator : Char) (cs ds : List Char) :
    Text.split separator (cs ++ separator :: ds) =
      Text.split separator cs ++ Text.split separator ds := by
  induction cs with
  | nil => simp
  | cons c cs ih =>
      by_cases h : c = separator
      · subst h
        rw [List.cons_append, Text.split_separator, Text.split_separator, ih, List.cons_append]
      · obtain ⟨part, parts, hsplit, hcons⟩ := Text.split_cons_of_ne cs h
        obtain ⟨part', parts', hsplit', hcons'⟩ :=
          Text.split_cons_of_ne (cs ++ separator :: ds) h
        rw [ih, hsplit, List.cons_append] at hsplit'
        obtain ⟨rfl, rfl⟩ := List.cons.inj hsplit'
        rw [List.cons_append, hcons', hcons, List.cons_append]

namespace Command.Path

/-! ### Names -/

/-- A name that something in a directory can have: it leads somewhere, but not upwards, and there is
no slash in it. -/
structure IsName (name : String) : Prop where
  active : isIdle name = false
  down : name ≠ ".."
  whole : '/' ∉ name.toList

theorem isName_iff {name : String} :
    IsName name ↔ isIdle name = false ∧ name ≠ ".." ∧ '/' ∉ name.toList :=
  ⟨fun h => ⟨h.active, h.down, h.whole⟩, fun h => ⟨h.1, h.2.1, h.2.2⟩⟩

instance (name : String) : Decidable (IsName name) := decidable_of_iff _ isName_iff.symm

/-- The names of a path, with the slashes between them, are the path. -/
theorem intercalate_names (path : String) : "/".intercalate (names path) = path := by
  have hmap : (names path).map String.toList = Text.split '/' path.toList := by
    simp [names, Function.comp_def]
  rw [← String.toList_inj, String.toList_intercalate, hmap]
  exact Text.intercalate_split '/' path.toList

theorem names_of_whole {name : String} (h : '/' ∉ name.toList) : names name = [name] := by
  simp [names, Text.split_of_not_mem h]

theorem names_slash (path rest : String) :
    names (path ++ "/" ++ rest) = names path ++ names rest := by
  have h : (path ++ "/" ++ rest).toList = path.toList ++ '/' :: rest.toList := by simp
  rw [names, h, Text.split_append, List.map_append]
  rfl

/-! ### Paths of directories -/

/-- The names of the path of a directory, without the empty one at its end. -/
def front (path : String) : List String :=
  if path = "" || path.toList.getLast? == some '/' then (names path).dropLast else names path

/-- A path either does not end or ends with a slash, where the empty one counts as ending so. -/
theorem join_cases (path : String) :
    (path = "" ∨ ∃ before, path = before ++ "/") ∧ (∀ name, join path name = path ++ name) ∨
      front path = names path ∧ (∀ name, join path name = path ++ "/" ++ name) := by
  by_cases h : (path = "" || path.toList.getLast? == some '/') = true
  · refine .inl ⟨?_, fun name => by rw [join, if_pos h]⟩
    rcases Bool.or_eq_true_iff.1 h with h | h
    · exact .inl (by simpa using h)
    · obtain ⟨before, hbefore⟩ := List.getLast?_eq_some_iff.1 (by simpa using h)
      exact .inr ⟨String.ofList before, by rw [← String.toList_inj, hbefore]; simp⟩
  · exact .inr ⟨by rw [front, if_neg h], fun name => by rw [join, if_neg h]⟩

theorem front_empty : front "" = [] := by decide

theorem front_slash (path : String) : front (path ++ "/") = names path := by
  have hnames := names_slash path ""
  rw [String.append_empty, show names "" = [""] by decide] at hnames
  rw [front, if_pos (by simp), hnames, List.dropLast_concat]

/-- **A name stands behind those of its directory.** -/
theorem names_join {path name : String} (h : '/' ∉ name.toList) :
    names (join path name) = front path ++ [name] := by
  rcases join_cases path with ⟨rfl | ⟨before, rfl⟩, hjoin⟩ | ⟨hfront, hjoin⟩
  · rw [hjoin, String.empty_append, names_of_whole h, front_empty, List.nil_append]
  · rw [hjoin, names_slash, names_of_whole h, front_slash]
  · rw [hjoin, names_slash, names_of_whole h, hfront]

/-- A path has its front, and perhaps an empty name behind it. -/
theorem names_eq_front (path : String) :
    names path = front path ∨ names path = front path ++ [""] := by
  rcases join_cases path with ⟨rfl | ⟨before, rfl⟩, -⟩ | ⟨hfront, -⟩
  · exact .inr (by decide)
  · have hnames := names_slash before ""
    rw [String.append_empty, show names "" = [""] by decide] at hnames
    exact .inr (by rw [hnames, front_slash])
  · exact .inl hfront.symm

theorem exists_join_eq (path name : String) :
    ∃ between, join path name = path ++ between ++ name := by
  rcases join_cases path with ⟨-, hjoin⟩ | ⟨-, hjoin⟩
  · exact ⟨"", by rw [hjoin, String.append_empty]⟩
  · exact ⟨"/", hjoin name⟩

theorem join_ne_empty {path name : String} (h : IsName name) : join path name ≠ "" := by
  obtain ⟨between, hjoin⟩ := exists_join_eq path name
  have hne : name ≠ "" := by
    rintro rfl
    exact absurd h.active (by decide)
  rw [hjoin]
  simp [hne]

/-- A path starts as its directory does. -/
theorem head?_join {path : String} (name : String) (h : path ≠ "") :
    (join path name).toList.head? = path.toList.head? := by
  obtain ⟨between, hjoin⟩ := exists_join_eq path name
  have hne : path.toList ≠ [] := by simpa using h
  rw [hjoin, String.toList_append, String.toList_append, List.append_assoc,
    List.head?_append_of_ne_nil _ hne]

theorem utf8ByteSize_le_join (path name : String) :
    path.utf8ByteSize ≤ (join path name).utf8ByteSize := by
  obtain ⟨between, hjoin⟩ := exists_join_eq path name
  rw [hjoin, String.utf8ByteSize_append, String.utf8ByteSize_append]
  omega

/-- The path behind several names. -/
def joinAll (path : String) (names : List String) : String :=
  names.foldl join path

@[simp] theorem joinAll_nil (path : String) : joinAll path [] = path := rfl

theorem joinAll_concat (path name : String) (names : List String) :
    joinAll path (names ++ [name]) = join (joinAll path names) name := by
  simp [joinAll]

/-! ### Extensions -/

/-- A name with a dot that is not at its front is cut at its last dot. -/
theorem splitName_append {stem extension : String} (hstem : stem ≠ "")
    (hextension : '.' ∉ extension.toList) :
    splitName (stem ++ "." ++ extension) = (stem, some extension) := by
  have hlist : (stem ++ "." ++ extension).toList.reverse =
      extension.toList.reverse ++ '.' :: stem.toList.reverse := by simp
  have hall : ∀ c ∈ extension.toList.reverse, (c != '.') = true := by
    intro c hc
    have hne : c ≠ '.' := by
      rintro rfl
      exact hextension (List.mem_reverse.1 hc)
    simpa using hne
  have hbehind : ((stem ++ "." ++ extension).toList.reverse.takeWhile (· != '.')).reverse =
      extension.toList := by
    rw [hlist, List.takeWhile_append_of_pos hall]
    simp
  have hbefore : (((stem ++ "." ++ extension).toList.reverse.dropWhile (· != '.')).drop 1).reverse =
      stem.toList := by
    rw [hlist, List.dropWhile_append_of_pos hall]
    simp
  have hne : stem.toList ≠ [] := by simpa using hstem
  rw [splitName]
  simp only [hbehind, hbefore, if_neg hne, String.ofList_toList]

/-- A name with an extension has it behind its stem and a dot. -/
theorem eq_stem_append {name extension : String} (h : (splitName name).2 = some extension) :
    (splitName name).1 ≠ "" ∧ name = (splitName name).1 ++ "." ++ extension := by
  have hparts := List.takeWhile_append_dropWhile (p := (· != '.')) (l := name.toList.reverse)
  set behind := name.toList.reverse.takeWhile (· != '.') with hbehind
  cases hrest : name.toList.reverse.dropWhile (· != '.') with
  | nil =>
      simp [splitName, hrest] at h
  | cons dot stem =>
      have hdot : dot = '.' := by
        have hhead := List.head_dropWhile_not (p := (· != '.')) (l := name.toList.reverse)
          (by rw [hrest]; simp)
        simpa [hrest] using hhead
      by_cases hstem : stem = []
      · simp [splitName, hrest, hstem] at h
      · have hsplit : splitName name =
            (String.ofList stem.reverse, some (String.ofList behind.reverse)) := by
          simp [splitName, hrest, hstem, ← hbehind]
        rw [hsplit] at h ⊢
        have hextension : extension = String.ofList behind.reverse := by simpa using h.symm
        refine ⟨by simpa using hstem, ?_⟩
        rw [hrest, hdot] at hparts
        have hname := congrArg List.reverse hparts
        rw [← String.toList_inj, hextension]
        simpa using hname.symm

/-- The stem of a name is made of its letters. -/
theorem whole_stem {name : String} (h : '/' ∉ name.toList) : '/' ∉ (splitName name).1.toList := by
  unfold splitName
  extract_lets behind before
  split
  · exact h
  · rw [String.toList_ofList, List.mem_reverse]
    intro hmem
    exact h (List.mem_reverse.1 ((List.dropWhile_sublist _).subset (List.mem_of_mem_drop hmem)))

theorem trimmed_join {path name : String} (h : IsName name) :
    trimmed (join path name) = front path ++ [name] := by
  rw [trimmed, names_join h.whole]
  simp [h.active]

theorem fileName?_join {path name : String} (h : IsName name) :
    fileName? (join path name) = some name := by
  rw [fileName?, trimmed_join h]
  simp [Option.filter, h.down]

/-- **A neighbour is in the same directory.** -/
theorem withExtension_join {path name extension : String} (h : IsName name)
    (hextension : '/' ∉ extension.toList) :
    withExtension (join path name) extension =
      join path ((splitName name).1 ++ "." ++ extension) := by
  have hwhole : '/' ∉ ((splitName name).1 ++ "." ++ extension).toList := by
    simp [whole_stem h.whole, hextension]
  rw [withExtension, fileName?_join h, trimmed_join h, List.dropLast_concat]
  change "/".intercalate (front path ++ [_]) = _
  rw [← names_join hwhole, intercalate_names]

theorem isName_append {stem extension : String} (hstem : stem ≠ "") (hwhole : '/' ∉ stem.toList)
    (hextension : extension ≠ "") (hwhole' : '/' ∉ extension.toList) :
    IsName (stem ++ "." ++ extension) := by
  have hlength : 3 ≤ (stem ++ "." ++ extension).toList.length := by
    have h₁ : stem.toList.length ≠ 0 := by simpa using hstem
    have h₂ : extension.toList.length ≠ 0 := by simpa using hextension
    simp only [String.toList_append, List.length_append]
    have h₃ : ".".toList.length = 1 := by decide
    omega
  have hne : ∀ short : String, short.toList.length < 3 → stem ++ "." ++ extension ≠ short := by
    rintro short hshort rfl
    omega
  exact {
    active := by
      rw [isIdle, Bool.or_eq_false_iff, beq_eq_false_iff_ne, beq_eq_false_iff_ne]
      exact ⟨hne "" (by decide), hne "." (by decide)⟩
    down := hne ".." (by decide)
    whole := by simp [hwhole, hwhole'] }

/-! ### Templates -/

/-- The extension of a template with its dot. -/
theorem html_name (stem : String) : stem ++ ".html" = stem ++ "." ++ "html" := by
  rw [String.append_assoc]
  rfl

/-- **A template has a stem**, which stands before `.html`. -/
theorem exists_stem_of_isTemplate {path name : String} (h : IsName name)
    (htemplate : isTemplate (join path name) = true) :
    ∃ stem, stem ≠ "" ∧ '/' ∉ stem.toList ∧ name = stem ++ ".html" := by
  have hextension : extension? (join path name) = some "html" := by
    simp only [isTemplate, Bool.and_eq_true, beq_iff_eq] at htemplate
    exact htemplate.1.1
  rw [extension?, fileName?_join h] at hextension
  obtain ⟨hne, hname⟩ := eq_stem_append hextension
  exact ⟨(splitName name).1, hne, whole_stem h.whole, hname.trans (html_name _).symm⟩

theorem withExtension_stem {path stem extension : String} (hstem : stem ≠ "")
    (hwhole : '/' ∉ stem.toList) (hextension : '/' ∉ extension.toList) :
    withExtension (join path (stem ++ ".html")) extension =
      join path (stem ++ "." ++ extension) := by
  have h : IsName (stem ++ "." ++ "html") :=
    isName_append hstem hwhole (by decide) (by decide)
  rw [html_name, withExtension_join h hextension, splitName_append hstem (by decide)]

/-- What a template is rendered to is no template. -/
theorem isTemplate_rendered (path stem : String) :
    isTemplate (join path (stem ++ "." ++ renderedExtension)) = false := by
  obtain ⟨between, hjoin⟩ := exists_join_eq path (stem ++ "." ++ renderedExtension)
  have hends : endsWith (join path (stem ++ "." ++ renderedExtension))
      ("." ++ renderedExtension) = true := by
    rw [endsWith, hjoin, List.isSuffixOf_iff_suffix]
    exact ⟨(path ++ between ++ stem).toList, by simp⟩
  simp [isTemplate, hends]

/-- The neighbours of a file differ from those of other files, and from those with another
extension. -/
theorem stem_append_inj {stem other extension : String}
    (h : stem ++ "." ++ extension = other ++ "." ++ extension) : stem = other := by
  have hlist := congrArg String.toList h
  simp only [String.toList_append] at hlist
  rw [← String.toList_inj]
  exact List.append_cancel_right (List.append_cancel_right hlist)

end Command.Path

end PageTemplate
