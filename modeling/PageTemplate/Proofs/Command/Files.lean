/-
**What paths lead to, and what a written file changes.**

The entries below a directory have paths that lead to them, and a path that leads somewhere leads
there alone.  A file that is written next to others adds one location, and every path that leads to
a directory still does.

Main definitions:

* `PageTemplate.Command.FileTree.Known` — a location of something known;
* `PageTemplate.Command.FileTree.Gains` — a file tree with some files written into another one.

Main results:

* `PageTemplate.Command.FileTree.mem_walk` — what a walk meets;
* `PageTemplate.Command.FileTree.entry_join` — what the path of a name in a directory leads to;
* `PageTemplate.Command.FileTree.entry_joinAll` — **what is met on a walk is where it was found**;
* `PageTemplate.Command.FileTree.write_join` — where a file is written;
* `PageTemplate.Command.FileTree.Gains.entry_join` — paths that lead to no new file are as before.
-/

import PageTemplate.Command.FileTree
import PageTemplate.Proofs.Command.Paths
import Mathlib.Data.List.Fold
import Mathlib.Data.List.Induction
import Mathlib.Data.List.MinMax

set_option relaxedAutoImplicit false
set_option autoImplicit false

namespace PageTemplate.Command

/-- Where an entry is. -/
def Entry.location : Entry → Location
  | file l _ => l
  | directory l => l

namespace FileTree

open PageTemplate.Command.Path

variable {t : FileTree}

/-! ### Walks -/

/-- A location of something known, or above it. -/
def Known (t : FileTree) (l : Location) : Prop :=
  ∃ x ∈ t.files.map (·.1) ++ t.directories, l <+: x

theorem Known.of_front {l m : Location} (h : t.Known m) (hl : l <+: m) : t.Known l := by
  obtain ⟨x, hx, hm⟩ := h
  exact ⟨x, hx, hl.trans hm⟩

/-- The names in a directory are those of what is known there. -/
theorem mem_namesIn {l : Location} {name : String} :
    name ∈ t.namesIn l ↔ t.Known (l ++ [name]) := by
  rw [namesIn, List.mem_mergeSort, List.mem_eraseDups, List.mem_filterMap]
  refine exists_congr fun x => and_congr_right fun _ => ?_
  constructor
  · intro h
    split at h
    · rename_i hl
      obtain ⟨rest, rfl⟩ := List.isPrefixOf_iff_prefix.1 hl
      rw [List.drop_left] at h
      obtain ⟨rest', rfl⟩ := List.head?_eq_some_iff.1 h
      exact ⟨rest', by simp⟩
    · simp at h
  · rintro ⟨rest, rfl⟩
    rw [List.append_assoc, if_pos (List.isPrefixOf_iff_prefix.2 (List.prefix_append ..)),
      List.drop_left]
    rfl

/-- Names that are in order already. -/
theorem namesIn_eq {l : Location} {names : List String}
    (h : ((t.files.map (·.1) ++ t.directories).filterMap fun x =>
      if l.isPrefixOf x then (x.drop l.length).head? else none).eraseDups = names)
    (hsorted : names.Pairwise fun a b => decide (a ≤ b) = true) : t.namesIn l = names := by
  rw [namesIn, h]
  exact List.mergeSort_of_pairwise hsorted

theorem Known.length_le {l : Location} (h : t.Known l) : l.length ≤ t.depth := by
  obtain ⟨x, hx, hl⟩ := h
  rw [depth, List.foldl_eq_foldr]
  exact List.le_max_of_le' 0 (List.mem_map_of_mem hx) hl.length_le

theorem mem_walkFrom {p : String} : ∀ (fuel : Nat) (path : String) (l : Location),
    p ∈ t.walkFrom fuel path l ↔
      ∃ names, names.length < fuel ∧ (names = [] ∨ t.Known (l ++ names)) ∧
        p = joinAll path names := by
  intro fuel
  induction fuel with
  | zero =>
      intro path l
      simp [walkFrom]
  | succ fuel ih =>
      intro path l
      rw [walkFrom, List.mem_cons, List.mem_flatMap]
      constructor
      · rintro (rfl | ⟨name, hname, hp⟩)
        · exact ⟨[], by simp, .inl rfl, rfl⟩
        · obtain ⟨names, hlength, hknown, rfl⟩ := (ih _ _).1 hp
          refine ⟨name :: names, by simpa using hlength, .inr ?_, rfl⟩
          rcases hknown with rfl | hknown
          · exact mem_namesIn.1 hname
          · simpa using hknown
      · rintro ⟨names, hlength, hknown, rfl⟩
        cases names with
        | nil => exact .inl rfl
        | cons name names =>
            have hknown : t.Known (l ++ name :: names) := hknown.resolve_left (by simp)
            have hsplit : l ++ name :: names = l ++ [name] ++ names := by simp
            rw [hsplit] at hknown
            exact .inr ⟨name, mem_namesIn.2 (hknown.of_front (List.prefix_append ..)),
              (ih _ _).2 ⟨names, by simpa using hlength, .inr hknown, rfl⟩⟩

/-- A walk meets the directory itself and whatever is known below it, each under the names that lead
there. -/
theorem mem_walk {p path : String} {l : Location} :
    p ∈ t.walk path l ↔
      ∃ names, (names = [] ∨ t.Known (l ++ names)) ∧ p = joinAll path names := by
  rw [walk, mem_walkFrom]
  refine exists_congr fun names => ⟨fun h => h.2, fun h => ⟨?_, h⟩⟩
  rcases h.1 with rfl | hknown
  · simp
  · have hlength := hknown.length_le
    rw [List.length_append] at hlength
    omega

/-! ### Directories -/

theorem isDirectory_iff {l : Location} :
    t.isDirectory l = true ↔
      l <+: t.workingDirectory ∨ (∃ x ∈ t.directories, l <+: x) ∨
        ∃ x ∈ t.files.map (·.1), l <+: x ∧ x ≠ l := by
  simp [isDirectory, or_assoc]

/-- Whatever leads to a directory is one. -/
theorem isDirectory_of_front {l m : Location} (hl : l <+: m) (hm : t.isDirectory m = true) :
    t.isDirectory l = true := by
  rw [isDirectory_iff] at hm ⊢
  rcases hm with hm | ⟨x, hx, hm⟩ | ⟨x, hx, hm, hne⟩
  · exact .inl (hl.trans hm)
  · exact .inr (.inl ⟨x, hx, hl.trans hm⟩)
  · refine .inr (.inr ⟨x, hx, hl.trans hm, ?_⟩)
    rintro rfl
    exact hne (hl.eq_of_length_le hm.length_le)

theorem isDirectory_start (path : String) : t.isDirectory (t.start path) = true := by
  rw [isDirectory_iff, start]
  split
  · exact .inl (List.nil_prefix ..)
  · exact .inl (List.prefix_refl _)

/-! ### What names lead to -/

/-- Names behind others start in the directory that those lead to. -/
theorem entryFrom_append {names rest : List String} (hrest : rest ≠ []) (l : Location) :
    t.entryFrom l (names ++ rest) =
      match t.entryFrom l names with
      | .ok (.directory m) => t.entryFrom m rest
      | .ok (.file _ _) => .error .notDirectory
      | .error e => .error e := by
  induction names generalizing l with
  | nil => rfl
  | cons name names ih =>
      rw [List.cons_append, entryFrom, entryFrom]
      split
      · exact ih l
      · split
        · exact ih _
        · split
          · rfl
          · dsimp only
            cases t.content? (l ++ [name]) with
            | some c =>
                dsimp only
                rw [if_neg (by simp [hrest])]
                by_cases hnames : names = [] <;> simp [hnames]
            | none =>
                dsimp only
                split
                · exact ih _
                · rfl

/-- What a name leads to. -/
theorem entryFrom_name {name : String} (h : IsName name) (l : Location) :
    t.entryFrom l [name] =
      if nameLimit < name.utf8ByteSize then .error .nameTooLong
      else
        match t.content? (l ++ [name]) with
        | some c => .ok (.file (l ++ [name]) c)
        | none =>
            if t.isDirectory (l ++ [name]) then .ok (.directory (l ++ [name]))
            else .error .notFound := by
  rw [entryFrom, if_neg (by simp [h.active]), if_neg h.down]
  rfl

/-- From a directory, only directories are reached on the way. -/
theorem isDirectory_of_entryFrom {names : List String} {l m : Location}
    (hl : t.isDirectory l = true) (h : t.entryFrom l names = .ok (.directory m)) :
    t.isDirectory m = true := by
  induction names generalizing l with
  | nil =>
      cases h
      exact hl
  | cons name names ih =>
      rw [entryFrom] at h
      split at h
      · exact ih hl h
      · split at h
        · exact ih (isDirectory_of_front (List.dropLast_prefix l) hl) h
        · split at h
          · simp at h
          · dsimp only at h
            split at h
            · split at h <;> simp at h
            · split at h
              · rename_i hdirectory
                exact ih hdirectory h
              · simp at h

/-- A path of a directory leads to the same as its front. -/
theorem entryFrom_front {path : String} {l m : Location} :
    t.entryFrom l (names path) = .ok (.directory m) ↔
      t.entryFrom l (front path) = .ok (.directory m) := by
  rcases names_eq_front path with h | h
  · rw [h]
  · rw [h, entryFrom_append (by simp)]
    cases t.entryFrom l (front path) with
    | error e => simp
    | ok e =>
        cases e with
        | file _ _ => simp
        | directory m' => simp [entryFrom, isIdle]

/-! ### What paths lead to -/

theorem entry_eq {path : String} {e : Entry} (h : t.entry path = .ok e) :
    path ≠ "" ∧ path.utf8ByteSize ≤ pathLimit ∧
      t.entryFrom (t.start path) (names path) = .ok e := by
  rw [entry] at h
  split at h
  · simp at h
  · rename_i hne
    split at h
    · simp at h
    · rename_i hlimit
      exact ⟨hne, by omega, h⟩

theorem isDirectory_of_entry {path : String} {l : Location}
    (h : t.entry path = .ok (.directory l)) : t.isDirectory l = true :=
  isDirectory_of_entryFrom (isDirectory_start path) (entry_eq h).2.2

theorem start_join {path : String} (name : String) (h : path ≠ "") :
    t.start (join path name) = t.start path := by
  rw [start, start, head?_join name h]

/-- **What the path of a name in a directory leads to** is there or nowhere. -/
theorem entry_join {path name : String} {l : Location} (h : IsName name)
    (hl : t.entry path = .ok (.directory l)) :
    t.entry (join path name) =
      if pathLimit < (join path name).utf8ByteSize then .error .nameTooLong
      else t.entryFrom l [name] := by
  obtain ⟨hne, -, hfrom⟩ := entry_eq hl
  rw [entry, if_neg (join_ne_empty h), start_join name hne, names_join h.whole,
    entryFrom_append (by simp), entryFrom_front.1 hfrom]

/-- A path that leads somewhere does so from a directory. -/
theorem exists_entry_of_join {path name : String} {e : Entry} (h : IsName name) (hne : path ≠ "")
    (he : t.entry (join path name) = .ok e) : ∃ l, t.entry path = .ok (.directory l) := by
  obtain ⟨-, hlimit, hfrom⟩ := entry_eq he
  rw [start_join name hne, names_join h.whole, entryFrom_append (by simp)] at hfrom
  have hlimit' : path.utf8ByteSize ≤ pathLimit :=
    Nat.le_trans (utf8ByteSize_le_join path name) hlimit
  cases hfront : t.entryFrom (t.start path) (front path) with
  | error e' => simp [hfront] at hfrom
  | ok e' =>
      cases e' with
      | file _ _ => simp [hfront] at hfrom
      | directory l =>
          refine ⟨l, ?_⟩
          rw [entry, if_neg hne, if_neg (by omega)]
          exact entryFrom_front.2 hfront

theorem joinAll_ne_empty {path : String} {names : List String} (hne : path ≠ "")
    (hnames : ∀ name ∈ names, IsName name) : joinAll path names ≠ "" := by
  rcases List.eq_nil_or_concat names with rfl | ⟨names, name, rfl⟩
  · exact hne
  · rw [List.concat_eq_append, joinAll_concat]
    exact join_ne_empty (hnames name (by simp))

/-- The path of a name in a directory leads to the file or to the directory of this name. -/
theorem entry_join_cases {path name : String} {l : Location} {e : Entry} (h : IsName name)
    (hl : t.entry path = .ok (.directory l)) (he : t.entry (join path name) = .ok e) :
    (∃ c, t.content? (l ++ [name]) = some c ∧ e = .file (l ++ [name]) c) ∨
      t.content? (l ++ [name]) = none ∧ t.isDirectory (l ++ [name]) = true ∧
        e = .directory (l ++ [name]) := by
  rw [entry_join h hl] at he
  split at he
  · simp at he
  · rw [entryFrom_name h] at he
    split at he
    · simp at he
    · split at he
      · rename_i c hcontent
        cases he
        exact .inl ⟨c, hcontent, rfl⟩
      · rename_i hcontent
        split at he
        · rename_i hdirectory
          cases he
          exact .inr ⟨hcontent, hdirectory, rfl⟩
        · simp at he

theorem isDirectory_of_notFound {path name : String} {l : Location} (h : IsName name)
    (hl : t.entry path = .ok (.directory l)) (he : t.entry (join path name) = .error .notFound) :
    t.isDirectory (l ++ [name]) = false := by
  rw [entry_join h hl] at he
  split at he
  · simp at he
  · rw [entryFrom_name h] at he
    split at he
    · simp at he
    · split at he
      · simp at he
      · split at he
        · simp at he
        · rename_i hdirectory
          simpa using hdirectory

/-- **What is met on a walk is where it was found**, if its path leads anywhere. -/
theorem entry_joinAll {path : String} {l : Location} (hl : t.entry path = .ok (.directory l))
    (names : List String) (hnames : ∀ name ∈ names, IsName name) {e : Entry}
    (he : t.entry (joinAll path names) = .ok e) : e.location = l ++ names := by
  induction names using List.reverseRecOn generalizing e with
  | nil =>
      rw [joinAll_nil, hl] at he
      cases he
      simp [Entry.location]
  | append_singleton names name ih =>
      have hname : IsName name := hnames name (by simp)
      have hnames' : ∀ other ∈ names, IsName other := fun other h =>
        hnames other (List.mem_append_left _ h)
      rw [joinAll_concat] at he
      obtain ⟨m, hm⟩ := exists_entry_of_join hname (joinAll_ne_empty (entry_eq hl).1 hnames') he
      obtain rfl : m = l ++ names := ih hnames' hm
      rcases entry_join_cases hname hm he with ⟨c, -, rfl⟩ | ⟨-, -, rfl⟩ <;> simp [Entry.location]

/-! ### Written files -/

theorem find?_put (l m : Location) (content : String) (files : List (Location × String)) :
    ((put l content files).find? (·.1 == m)).map (·.2) =
      if m = l then some content else (files.find? (·.1 == m)).map (·.2) := by
  induction files with
  | nil =>
      by_cases h : m = l
      · simp [put, h]
      · simp [put, h, Ne.symm h]
  | cons f files ih =>
      rw [put]
      by_cases hf : f.1 = l
      · by_cases h : m = l
        · simp [hf, h]
        · simp [hf, h, Ne.symm h]
      · by_cases h : f.1 = m
        · have hne : m ≠ l := fun e => hf (h.trans e)
          simp [h, hne]
        · simpa [hf, h] using ih

theorem mem_locations_put {l x : Location} {content : String} {files : List (Location × String)} :
    x ∈ (put l content files).map (·.1) ↔ x = l ∨ x ∈ files.map (·.1) := by
  induction files with
  | nil => simp [put]
  | cons f files ih =>
      rw [put]
      by_cases hf : f.1 = l
      · simp [hf]
      · rw [if_neg hf, List.map_cons, List.mem_cons, ih, List.map_cons, List.mem_cons]
        exact or_left_comm

theorem put_eq_self {l : Location} {content : String} {files : List (Location × String)}
    (h : (files.find? (·.1 == l)).map (·.2) = some content) : put l content files = files := by
  induction files with
  | nil => simp at h
  | cons f files ih =>
      rw [put]
      by_cases hf : f.1 = l
      · rw [if_pos hf]
        have hcontent : f.2 = content := by simpa [hf] using h
        rw [← hf, ← hcontent]
      · rw [if_neg hf, ih (by simpa [hf] using h)]

/-- A file tree with a file in it, in the place of one at the same location. -/
def store (t : FileTree) (l : Location) (content : String) : FileTree :=
  { t with files := put l content t.files }

theorem content?_store (l m : Location) (content : String) :
    (t.store l content).content? m = if m = l then some content else t.content? m :=
  find?_put l m content t.files

theorem mem_locations_store {l x : Location} {content : String} :
    x ∈ (t.store l content).files.map (·.1) ↔ x = l ∨ x ∈ t.files.map (·.1) :=
  mem_locations_put

/-- A file that is as it was changes nothing. -/
theorem store_eq_self {l : Location} {content : String} (h : t.content? l = some content) :
    t.store l content = t := by
  rw [store, put_eq_self h]

theorem write_of_file {path content content' : String} {l : Location}
    (h : t.entry path = .ok (.file l content)) :
    t.write path content' = .ok (t.store l content') := by
  rw [write, h]
  rfl

/-- A file is written over the one that its path leads to, or else to a new place. -/
theorem write_cases {path content : String} {t' : FileTree} (h : t.write path content = .ok t') :
    (∃ l c, t.entry path = .ok (.file l c) ∧ t' = t.store l content) ∨
      t.entry path = .error .notFound ∧ ∃ l, t.place path = .ok l ∧ t' = t.store l content := by
  rw [write] at h
  split at h
  · rename_i l c hentry
    cases h
    exact .inl ⟨l, c, hentry, rfl⟩
  · simp at h
  · rename_i hentry
    cases hplace : t.place path with
    | error e => simp [hplace, Except.map] at h
    | ok l =>
        rw [hplace] at h
        cases h
        exact .inr ⟨hentry, l, rfl, rfl⟩
  · simp at h

/-- Whether a file can be written does not depend on what is written. -/
theorem exists_write {path content : String} {t' : FileTree} (h : t.write path content = .ok t')
    (content' : String) : ∃ u, t.write path content' = .ok u := by
  rcases write_cases h with ⟨l, c, hentry, -⟩ | ⟨hentry, l, hplace, -⟩
  · exact ⟨_, write_of_file hentry⟩
  · rw [write, hentry]
    simp [hplace, Except.map]

theorem place_join {path name : String} {l : Location} (h : IsName name)
    (hl : t.entry path = .ok (.directory l)) : t.place (join path name) = .ok (l ++ [name]) := by
  obtain ⟨hne, -, hfrom⟩ := entry_eq hl
  rw [place, names_join h.whole, start_join name hne]
  simp [entryFrom_front.1 hfrom]

/-- **Where a file is written.**  There is no directory in its place. -/
theorem write_join {path name content : String} {l : Location} {t' : FileTree} (h : IsName name)
    (hl : t.entry path = .ok (.directory l)) (hw : t.write (join path name) content = .ok t') :
    t' = t.store (l ++ [name]) content ∧
      (t.content? (l ++ [name]) = none → t.isDirectory (l ++ [name]) = false) := by
  rcases write_cases hw with ⟨m, c, hentry, rfl⟩ | ⟨hentry, m, hplace, rfl⟩
  · rcases entry_join_cases h hl hentry with ⟨c', hcontent, he⟩ | ⟨-, -, he⟩
    · cases he
      exact ⟨rfl, by simp [hcontent]⟩
    · simp at he
  · rw [place_join h hl] at hplace
    cases hplace
    exact ⟨rfl, fun _ => isDirectory_of_notFound h hl hentry⟩

/-- A name and a path that are short enough. -/
def Fits (path name : String) : Prop :=
  (join path name).utf8ByteSize ≤ pathLimit ∧ name.utf8ByteSize ≤ nameLimit

theorem entry_join_of_fits {path name : String} {l : Location} (h : IsName name)
    (hl : t.entry path = .ok (.directory l)) (hfits : Fits path name) :
    t.entry (join path name) =
      match t.content? (l ++ [name]) with
      | some c => .ok (.file (l ++ [name]) c)
      | none =>
          if t.isDirectory (l ++ [name]) then .ok (.directory (l ++ [name]))
          else .error .notFound := by
  rw [entry_join h hl, if_neg (Nat.not_lt.2 hfits.1), entryFrom_name h,
    if_neg (Nat.not_lt.2 hfits.2)]

/-- Only what is short enough can be written. -/
theorem fits_of_write {path name content : String} {l : Location} {t' : FileTree} (h : IsName name)
    (hl : t.entry path = .ok (.directory l)) (hw : t.write (join path name) content = .ok t') :
    Fits path name := by
  have hlong : t.entry (join path name) ≠ .error .nameTooLong := by
    rcases write_cases hw with ⟨m, c', hentry, -⟩ | ⟨hentry, -⟩ <;> simp [hentry]
  rw [entry_join h hl] at hlong
  split at hlong
  · exact absurd rfl hlong
  · rename_i hlimit
    rw [entryFrom_name h] at hlong
    split at hlong
    · exact absurd rfl hlong
    · rename_i hname
      exact ⟨Nat.not_lt.1 hlimit, Nat.not_lt.1 hname⟩

/-- A file that is written into a directory makes no other directory. -/
theorem isDirectory_store {l m : Location} {name content : String}
    (hl : t.isDirectory l = true) :
    (t.store (l ++ [name]) content).isDirectory m = t.isDirectory m := by
  rw [Bool.eq_iff_iff, isDirectory_iff]
  constructor
  · rintro (hm | hm | ⟨x, hx, hm, hne⟩)
    · exact isDirectory_iff.2 (.inl hm)
    · exact isDirectory_iff.2 (.inr (.inl hm))
    · rcases mem_locations_store.1 hx with rfl | hx
      · -- what leads to the new file leads to its directory
        refine isDirectory_of_front ?_ hl
        rcases List.prefix_concat_iff.1 hm with rfl | hm
        · exact absurd rfl hne
        · exact hm
      · exact isDirectory_iff.2 (.inr (.inr ⟨x, hx, hm, hne⟩))
  · intro hm
    rcases isDirectory_iff.1 hm with hm | hm | ⟨x, hx, hm, hne⟩
    · exact .inl hm
    · exact .inr (.inl hm)
    · exact .inr (.inr ⟨x, mem_locations_store.2 (.inr hx), hm, hne⟩)

theorem known_store {l m : Location} {content : String} :
    (t.store l content).Known m ↔ t.Known m ∨ m <+: l := by
  simp only [Known, List.mem_append, mem_locations_store]
  constructor
  · rintro ⟨x, (rfl | hx) | hx, hm⟩
    · exact .inr hm
    · exact .inl ⟨x, .inl hx, hm⟩
    · exact .inl ⟨x, .inr hx, hm⟩
  · rintro (⟨x, hx | hx, hm⟩ | hm)
    · exact ⟨x, .inl (.inr hx), hm⟩
    · exact ⟨x, .inr hx, hm⟩
    · exact ⟨l, .inl (.inl rfl), hm⟩

/-- A file tree with some of the files in it that `out` lists with their contents, and the files and
directories that were there before. -/
structure Gains (out : Location → String → Prop) (t t' : FileTree) : Prop where
  content : ∀ l, t'.content? l = t.content? l ∨ ∃ c, out l c ∧ t'.content? l = some c
  apart : ∀ l, t.content? l = none → t.isDirectory l = true → t'.content? l = none
  isDirectory : ∀ l, t'.isDirectory l = t.isDirectory l
  keeps : ∀ l, t.Known l → t'.Known l
  known : ∀ l, t'.Known l → t.Known l ∨ ∃ m c, out m c ∧ l <+: m
  directories : t'.directories = t.directories
  workingDirectory : t'.workingDirectory = t.workingDirectory

namespace Gains

variable {out : Location → String → Prop} {t' : FileTree}

theorem refl (out : Location → String → Prop) (t : FileTree) : Gains out t t where
  content _ := .inl rfl
  apart _ h _ := h
  isDirectory _ := rfl
  keeps _ h := h
  known _ h := .inl h
  directories := rfl
  workingDirectory := rfl

/-- One more of the files. -/
theorem store {l : Location} {name c : String} (h : Gains out t t') (hl : t.isDirectory l = true)
    (hout : out (l ++ [name]) c)
    (happart : t'.content? (l ++ [name]) = none → t'.isDirectory (l ++ [name]) = false) :
    Gains out t (t'.store (l ++ [name]) c) where
  content m := by
    rw [content?_store]
    split
    · rename_i hm
      exact .inr ⟨c, hm ▸ hout, rfl⟩
    · exact h.content m
  apart m hnone hm := by
    have hnone' := h.apart m hnone hm
    rw [content?_store]
    split
    · rename_i heq
      rw [heq] at hnone' hm
      rw [← h.isDirectory, happart hnone'] at hm
      simp at hm
    · exact hnone'
  isDirectory m := by
    rw [isDirectory_store (by rw [h.isDirectory, hl]), h.isDirectory]
  keeps m hm := known_store.2 (.inl (h.keeps m hm))
  known m hm := by
    rcases known_store.1 hm with hm | hm
    · exact h.known m hm
    · exact .inr ⟨_, c, hout, hm⟩
  directories := h.directories
  workingDirectory := h.workingDirectory

theorem kept {l : Location} (h : Gains out t t') (hl : ∀ c, ¬ out l c) :
    t'.content? l = t.content? l :=
  (h.content l).resolve_right fun ⟨c, hout, _⟩ => hl c hout

/-- A path to a directory leads there still. -/
theorem entryFrom (h : Gains out t t') {names : List String} {l m : Location}
    (hm : t.entryFrom l names = .ok (.directory m)) :
    t'.entryFrom l names = .ok (.directory m) := by
  induction names generalizing l with
  | nil => exact hm
  | cons name names ih =>
      rw [FileTree.entryFrom] at hm ⊢
      by_cases hidle : isIdle name = true
      · rw [if_pos hidle] at hm ⊢
        exact ih hm
      rw [if_neg hidle] at hm ⊢
      by_cases hup : name = ".."
      · rw [if_pos hup] at hm ⊢
        exact ih hm
      rw [if_neg hup] at hm ⊢
      by_cases hlimit : nameLimit < name.utf8ByteSize
      · simp [hlimit] at hm
      rw [if_neg hlimit] at hm ⊢
      dsimp only at hm ⊢
      cases hcontent : t.content? (l ++ [name]) with
      | some c =>
          rw [hcontent] at hm
          by_cases hnames : names = [] <;> simp [hnames] at hm
      | none =>
          rw [hcontent] at hm
          by_cases hdirectory : t.isDirectory (l ++ [name]) = true
          · rw [h.apart _ hcontent hdirectory]
            simp only [h.isDirectory, hdirectory, if_true] at hm ⊢
            exact ih hm
          · simp [hdirectory] at hm

theorem entry_directory (h : Gains out t t') {path : String} {l : Location}
    (hl : t.entry path = .ok (.directory l)) : t'.entry path = .ok (.directory l) := by
  obtain ⟨hne, hlimit, hfrom⟩ := entry_eq hl
  have hstart : t'.start path = t.start path := by rw [start, start, h.workingDirectory]
  rw [FileTree.entry, if_neg hne, if_neg (by omega), hstart]
  exact h.entryFrom hfrom

/-- A path that leads to none of the files leads where it did. -/
theorem entry_join (h : Gains out t t') {path name : String} {l : Location} (hname : IsName name)
    (hl : t.entry path = .ok (.directory l)) (hkept : ∀ c, ¬ out (l ++ [name]) c) :
    t'.entry (join path name) = t.entry (join path name) := by
  rw [FileTree.entry_join hname hl, FileTree.entry_join hname (h.entry_directory hl),
    entryFrom_name hname, entryFrom_name hname, h.kept hkept, h.isDirectory]

/-- What could be written can be written again. -/
theorem write (h : Gains out t t') {path name content : String} {l : Location} {u : FileTree}
    (hname : IsName name) (hl : t.entry path = .ok (.directory l))
    (hw : t.write (join path name) content = .ok u) (content' : String) :
    t'.write (join path name) content' = .ok (t'.store (l ++ [name]) content') ∧
      (t'.content? (l ++ [name]) = none → t'.isDirectory (l ++ [name]) = false) := by
  have hl' := h.entry_directory hl
  have hentry := entry_join_of_fits hname hl' (fits_of_write hname hl hw)
  cases hcontent : t'.content? (l ++ [name]) with
  | some c =>
      rw [hcontent] at hentry
      exact ⟨write_of_file hentry, by simp⟩
  | none =>
      have hnone : t.content? (l ++ [name]) = none := by
        rcases h.content (l ++ [name]) with hsame | ⟨c, -, hc⟩
        · rw [← hsame, hcontent]
        · simp [hc] at hcontent
      have hdirectory : t'.isDirectory (l ++ [name]) = false := by
        rw [h.isDirectory]
        exact (write_join hname hl hw).2 hnone
      rw [hcontent, hdirectory] at hentry
      refine ⟨?_, fun _ => hdirectory⟩
      rw [FileTree.write, hentry]
      simp [place_join hname hl', Except.map, FileTree.store]

end Gains

end FileTree

end PageTemplate.Command
