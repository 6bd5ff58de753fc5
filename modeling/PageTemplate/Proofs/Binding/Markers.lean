/-
**Which markers a text is cut at.**

A marker is a path between braces, where one blank may stand on either side of the path.  At any place
of a text no more than one marker starts, since neither a blank nor a brace can be part of a path.  A
text is cut at the leftmost marker that is in it, and then at the leftmost one in what stands behind
this, until there are none.

Main definitions:

* `PageTemplate.Binding.Marker` — a marker with its path;
* `PageTemplate.Binding.Bare`, `PageTemplate.Binding.Leftmost` — a text without markers, and the first
  marker of one;
* `PageTemplate.Binding.Segment` — what a text is cut into;
* `PageTemplate.Binding.Segmented` — a text with its segments.

Main results:

* `PageTemplate.Binding.exists_marker_of_placeholderAt?`, `PageTemplate.Binding.placeholderAt?_marker` —
  the placeholder that a text starts with is a marker, and each marker is one;
* `PageTemplate.Binding.findPlaceholder?_eq_none_iff`, `PageTemplate.Binding.findPlaceholder?_leftmost`
  — the first placeholder is the leftmost marker;
* `PageTemplate.Binding.Segmented.source`, `PageTemplate.Binding.Segmented.fits`,
  `PageTemplate.Binding.Segmented.unique` — the segments make up the text, those that are no markers have
  none, and there are no other segments;
* `PageTemplate.Binding.exists_segmented` — the pieces of a text are those of its segments.
-/

import PageTemplate.Proofs.Binding.Cutting

set_option relaxedAutoImplicit false
set_option autoImplicit false

namespace PageTemplate.Binding

open PageTemplate.Text

/-! ### Markers -/

/-- One blank or none. -/
def Padding (cs : List Char) : Prop := cs = [] ∨ ∃ c, isBlank c = true ∧ cs = [c]

/-- Two opening braces, a blank or none, a path, a blank or none, and two closing braces. -/
def Marker (cs path : List Char) : Prop :=
  path ≠ [] ∧ (∀ c ∈ path, isPathChar c = true) ∧
    ∃ left right, Padding left ∧ Padding right ∧
      cs = ['{', '{'] ++ (left ++ (path ++ (right ++ ['}', '}'])))

theorem Marker.ne_nil {cs path : List Char} (h : Marker cs path) : cs ≠ [] := by
  obtain ⟨-, -, _, _, -, -, rfl⟩ := h
  exact List.cons_ne_nil _ _

/-- There is no marker in a text. -/
def Bare (cs : List Char) : Prop :=
  ∀ before marker path rest, cs = before ++ (marker ++ rest) → ¬Marker marker path

/-- The characters of paths are among the first ones. -/
theorem toNat_lt_of_isPathChar {c : Char} (h : isPathChar c = true) : c.toNat < 128 := by
  have hle : ∀ hi : Char, c.val ≤ hi.val → hi.toNat < 128 → c.toNat < 128 := fun hi hc hhi =>
    Nat.lt_of_le_of_lt (UInt32.le_iff_toNat_le.1 hc) hhi
  unfold isPathChar Char.isAlphanum Char.isAlpha Char.isUpper Char.isLower Char.isDigit at h
  simp only [Bool.or_eq_true, Bool.and_eq_true, decide_eq_true_eq] at h
  rcases h with ((((⟨-, h⟩ | ⟨-, h⟩) | ⟨-, h⟩) | rfl) | rfl) | rfl
  · exact hle 'Z' h (by decide)
  · exact hle 'z' h (by decide)
  · exact hle '9' h (by decide)
  all_goals decide

/-- There is no blank in a path. -/
theorem not_isBlank_of_isPathChar {c : Char} (h : isPathChar c = true) : isBlank c = false := by
  have hall : ∀ n < 128, isPathChar (Char.ofNat n) = true → isBlank (Char.ofNat n) = false := by
    decide +kernel
  have hc := hall c.toNat (toNat_lt_of_isPathChar h)
  rw [Char.ofNat_toNat] at hc
  exact hc h

/-! ### The placeholder that a text starts with -/

/-- What is dropped at the front of a text is one blank or none. -/
theorem exists_padding (cs : List Char) : ∃ left, Padding left ∧ cs = left ++ dropBlank cs := by
  cases cs with
  | nil => exact ⟨[], .inl rfl, rfl⟩
  | cons c cs =>
      rw [dropBlank]
      split
      · rename_i hc
        exact ⟨[c], .inr ⟨c, hc, rfl⟩, rfl⟩
      · exact ⟨[], .inl rfl, rfl⟩

/-- A blank is dropped in front of anything but another one. -/
theorem dropBlank_padding {left cs : List Char} {c : Char} (h : Padding left)
    (hc : isBlank c = false) : dropBlank (left ++ c :: cs) = c :: cs := by
  rcases h with rfl | ⟨b, hb, rfl⟩
  · rw [List.nil_append, dropBlank, hc, if_neg Bool.false_ne_true]
  · rw [List.singleton_append, dropBlank, if_pos hb]

/-- What stands behind a path, up to a brace, does not go on with it. -/
theorem Padding.exists_cons {right : List Char} (h : Padding right) (cs : List Char) :
    ∃ b ds, right ++ '}' :: cs = b :: ds ∧ isPathChar b = false := by
  rcases h with rfl | ⟨b, hb, rfl⟩
  · exact ⟨'}', cs, rfl, by decide⟩
  · refine ⟨b, '}' :: cs, rfl, ?_⟩
    by_contra hpath
    rw [not_isBlank_of_isPathChar (Bool.of_not_eq_false hpath)] at hb
    cases hb

/-- The placeholder that a text starts with is a marker. -/
theorem exists_marker_of_placeholderAt? {cs path rest : List Char}
    (h : placeholderAt? cs = some (path, rest)) :
    ∃ marker, cs = marker ++ rest ∧ Marker marker path := by
  unfold placeholderAt? at h
  split at h
  · rename_i cs
    simp only at h
    split at h
    · rename_i tail hclose
      split at h
      · cases h
      · rename_i hpath
        obtain ⟨rfl, rfl⟩ := Prod.mk.inj (Option.some.inj h)
        obtain ⟨left, hleft, hcs⟩ := exists_padding cs
        obtain ⟨right, hright, hend⟩ := exists_padding ((dropBlank cs).dropWhile isPathChar)
        have hinner := List.takeWhile_append_dropWhile (p := isPathChar) (l := dropBlank cs)
        rw [hend, hclose] at hinner
        refine ⟨['{', '{'] ++ (left ++ ((dropBlank cs).takeWhile isPathChar ++
          (right ++ ['}', '}']))), ?_, hpath, List.all_eq_true.1 List.all_takeWhile, left, right,
          hleft, hright, rfl⟩
        calc '{' :: '{' :: cs = '{' :: '{' :: (left ++ dropBlank cs) := by rw [← hcs]
          _ = '{' :: '{' :: (left ++ ((dropBlank cs).takeWhile isPathChar ++
              (right ++ '}' :: '}' :: tail))) := by rw [hinner]
          _ = _ := by simp
    · cases h
  · cases h

/-- **A marker at the front of a text is found**, whatever stands behind it. -/
theorem placeholderAt?_marker {marker path : List Char} (h : Marker marker path)
    (rest : List Char) : placeholderAt? (marker ++ rest) = some (path, rest) := by
  obtain ⟨hpath, hchars, left, right, hleft, hright, rfl⟩ := h
  obtain ⟨c, tail, rfl⟩ := List.exists_cons_of_ne_nil hpath
  obtain ⟨b, ds, hbehind, hb⟩ := hright.exists_cons ('}' :: rest)
  have hinner : dropBlank (left ++ (c :: tail ++ b :: ds)) = c :: tail ++ b :: ds :=
    dropBlank_padding hleft (not_isBlank_of_isPathChar (hchars c (List.mem_cons_self ..)))
  have htake : (c :: tail ++ b :: ds).takeWhile isPathChar = c :: tail := by
    rw [List.takeWhile_append_of_pos hchars, List.takeWhile_cons, hb]
    simp
  have hdrop : (c :: tail ++ b :: ds).dropWhile isPathChar = b :: ds := by
    rw [List.dropWhile_append_of_pos hchars, List.dropWhile_cons, hb]
    simp
  have hclose : dropBlank (b :: ds) = '}' :: '}' :: rest := by
    rw [← hbehind]
    exact dropBlank_padding hright (by decide)
  have htext : ['{', '{'] ++ (left ++ (c :: tail ++ (right ++ ['}', '}']))) ++ rest =
      '{' :: '{' :: (left ++ (c :: tail ++ b :: ds)) := by
    rw [← hbehind]
    simp
  rw [htext, placeholderAt?]
  simp only [hinner, htake, hdrop, hclose, if_neg hpath]

/-! ### The leftmost marker -/

/-- There is a marker in a text if one starts at its front, or if there is one behind its first
character. -/
theorem bare_cons_iff {c : Char} {cs : List Char} :
    Bare (c :: cs) ↔ placeholderAt? (c :: cs) = none ∧ Bare cs := by
  constructor
  · intro h
    refine ⟨?_, fun before marker path rest hcs => ?_⟩
    · rw [Option.eq_none_iff_forall_ne_some]
      rintro ⟨path, rest⟩ hat
      obtain ⟨marker, hcs, hmarker⟩ := exists_marker_of_placeholderAt? hat
      exact h [] marker path rest hcs hmarker
    · exact h (c :: before) marker path rest (by rw [hcs, List.cons_append])
  · rintro ⟨hat, h⟩ before marker path rest hcs hmarker
    cases before with
    | nil =>
        rw [hcs, List.nil_append, placeholderAt?_marker hmarker] at hat
        cases hat
    | cons b before => exact h before marker path rest (List.cons.inj hcs).2 hmarker

/-- A text in which no placeholder is found has no marker. -/
theorem findPlaceholder?_eq_none_iff {cs : List Char} : findPlaceholder? cs = none ↔ Bare cs := by
  induction cs with
  | nil =>
      refine iff_of_true rfl fun before marker path rest hcs hmarker => ?_
      obtain ⟨-, hcs⟩ := List.append_eq_nil_iff.1 hcs.symm
      exact hmarker.ne_nil (List.append_eq_nil_iff.1 hcs).1
  | cons c cs ih =>
      rw [bare_cons_iff, ← ih, findPlaceholder?]
      cases placeholderAt? (c :: cs) with
      | none => simp
      | some p => simp

/-- A marker in a text in which none starts before it. -/
structure Leftmost (cs before marker path rest : List Char) : Prop where
  text : cs = before ++ (marker ++ rest)
  marker : Marker marker path
  first : ∀ before' marker' path' rest', cs = before' ++ (marker' ++ rest') →
    Marker marker' path' → before.length ≤ before'.length

/-- **The first placeholder is the leftmost marker.** -/
theorem findPlaceholder?_leftmost {cs : List Char} {p : Placeholder}
    (h : findPlaceholder? cs = some p) : ∃ marker, Leftmost cs p.before marker p.path p.rest := by
  induction cs generalizing p with
  | nil => cases h
  | cons c cs ih =>
      rw [findPlaceholder?] at h
      split at h
      · rename_i path rest hat
        cases h
        obtain ⟨marker, hcs, hmarker⟩ := exists_marker_of_placeholderAt? hat
        exact ⟨marker, hcs, hmarker, fun _ _ _ _ _ _ => Nat.zero_le _⟩
      · rename_i hat
        obtain ⟨q, hq, rfl⟩ := Option.map_eq_some_iff.1 h
        obtain ⟨marker, hcs, hmarker, hfirst⟩ := ih hq
        refine ⟨marker, by rw [hcs]; rfl, hmarker, fun before marker' path rest hcs' hmarker' => ?_⟩
        cases before with
        | nil =>
            rw [hcs', List.nil_append, placeholderAt?_marker hmarker'] at hat
            cases hat
        | cons b before =>
            exact Nat.succ_le_succ (hfirst before marker' path rest (List.cons.inj hcs').2 hmarker')

section Leftmost

variable {cs before marker path rest : List Char}

theorem Leftmost.bare (h : Leftmost cs before marker path rest) : Bare before := by
  intro before' marker' path' rest' heq hmarker
  have hle := h.first before' marker' path' (rest' ++ (marker ++ rest)) (by
    rw [h.text, heq]
    simp) hmarker
  obtain ⟨-, -, _, _, -, -, rfl⟩ := hmarker
  rw [heq] at hle
  simp only [List.length_append, List.length_cons] at hle
  omega

theorem Leftmost.not_bare (h : Leftmost cs before marker path rest) : ¬Bare cs :=
  fun hbare => hbare before marker path rest h.text h.marker

/-- There is only one leftmost marker. -/
theorem Leftmost.unique {before' marker' path' rest' : List Char}
    (h : Leftmost cs before marker path rest) (h' : Leftmost cs before' marker' path' rest') :
    before = before' ∧ marker = marker' ∧ path = path' ∧ rest = rest' := by
  have hlength := Nat.le_antisymm (h.first _ _ _ _ h'.text h'.marker)
    (h'.first _ _ _ _ h.text h.marker)
  obtain ⟨hbefore, hbehind⟩ := List.append_inj (h.text.symm.trans h'.text) hlength
  have hat := placeholderAt?_marker h.marker rest
  rw [hbehind, placeholderAt?_marker h'.marker rest', Option.some.injEq, Prod.mk.injEq] at hat
  obtain ⟨hpath, hrest⟩ := hat
  rw [hrest] at hbehind
  exact ⟨hbefore, List.append_cancel_right hbehind, hpath.symm, hrest.symm⟩

end Leftmost

/-! ### Segments -/

/-- A part of a text: a stretch without markers, or a marker with its path. -/
inductive Segment where
  | literal (cs : List Char)
  | marker (cs path : List Char)

namespace Segment

/-- The text of a segment. -/
def source : Segment → List Char
  | literal cs => cs
  | marker cs _ => cs

/-- The stretches without markers have none, and the markers are some. -/
def Fits : Segment → Prop
  | literal cs => Bare cs
  | marker cs path => Marker cs path

/-- The piece that is laid out for a segment. -/
def piece : Segment → Piece
  | literal cs => .literal cs
  | marker _ path => .slot path

/-- The stretch of text before a marker, unless it is empty. -/
def ofLiteral (cs : List Char) : List Segment :=
  if cs = [] then [] else [literal cs]

theorem source_ofLiteral (cs : List Char) : (ofLiteral cs).flatMap source = cs := by
  rw [ofLiteral]
  split
  · rename_i h
    rw [h, List.flatMap_nil]
  · rw [List.flatMap_singleton, source]

theorem map_piece_ofLiteral (cs : List Char) :
    (ofLiteral cs).map piece = Piece.ofLiteral cs := by
  rw [ofLiteral, Piece.ofLiteral]
  split <;> rfl

end Segment

/-- **The segments of a text.**  It is cut at its leftmost marker, if it has one, and so is what stands
behind this marker, if there is anything. -/
inductive Segmented : List Char → List Segment → Prop
  | bare {cs : List Char} (h : Bare cs) : Segmented cs [.literal cs]
  | marker {cs before marker path rest : List Char} {segs : List Segment}
      (h : Leftmost cs before marker path rest) (hend : rest = [] → segs = [])
      (hrest : rest ≠ [] → Segmented rest segs) :
      Segmented cs (Segment.ofLiteral before ++ .marker marker path :: segs)

variable {cs : List Char} {segs : List Segment}

/-- **The segments make up the text.** -/
theorem Segmented.source (h : Segmented cs segs) : segs.flatMap Segment.source = cs := by
  induction h with
  | bare => rw [List.flatMap_singleton, Segment.source]
  | @marker cs before marker path rest segs h hend _ ih =>
      have hsegs : segs.flatMap Segment.source = rest := by
        by_cases hrest : rest = []
        · rw [hend hrest, hrest, List.flatMap_nil]
        · exact ih hrest
      rw [List.flatMap_append, List.flatMap_cons, hsegs, Segment.source_ofLiteral, Segment.source,
        h.text]

/-- **There are no markers in what is no marker**, and the others are markers with their paths. -/
theorem Segmented.fits (h : Segmented cs segs) {s : Segment} (hs : s ∈ segs) : s.Fits := by
  induction h with
  | bare h =>
      rw [List.mem_singleton.1 hs]
      exact h
  | @marker cs before marker path rest segs h hend _ ih =>
      rw [List.mem_append, List.mem_cons] at hs
      rcases hs with hs | rfl | hs
      · rw [Segment.ofLiteral] at hs
        split at hs
        · cases hs
        · rw [List.mem_singleton.1 hs]
          exact h.bare
      · exact h.marker
      · by_cases hrest : rest = []
        · rw [hend hrest] at hs
          cases hs
        · exact ih hrest hs

/-- A text can be cut in one way only. -/
theorem Segmented.unique {segs' : List Segment} (h : Segmented cs segs) (h' : Segmented cs segs') :
    segs = segs' := by
  induction h generalizing segs' with
  | bare h =>
      cases h' with
      | bare => rfl
      | marker h' => exact absurd h h'.not_bare
  | @marker cs before marker path rest segs h hend _ ih =>
      cases h' with
      | bare h' => exact absurd h' h.not_bare
      | @marker _ before' marker' path' rest' segs' h' hend' hrest' =>
          obtain ⟨rfl, rfl, rfl, rfl⟩ := h.unique h'
          by_cases hrest : rest = []
          · rw [hend hrest, hend' hrest]
          · rw [ih hrest (hrest' hrest)]

theorem exists_segments (cs : List Char) :
    ∃ segs, Segmented cs segs ∧ (cs = [] → segs = [.literal []]) ∧
      (cs ≠ [] → segs.map Segment.piece = pieces cs) := by
  induction cs using pieces.induct with
  | case1 cs hnone =>
      refine ⟨[.literal cs], .bare (findPlaceholder?_eq_none_iff.1 hnone), ?_, fun hcs => ?_⟩
      · rintro rfl
        rfl
      · rw [pieces_of_none hnone, Piece.ofLiteral, if_neg hcs]
        rfl
  | case2 cs p hp ih =>
      obtain ⟨marker, hfirst⟩ := findPlaceholder?_leftmost hp
      obtain ⟨segs, hsegs, -, hpieces⟩ := ih
      have hne : cs ≠ [] := by
        rintro rfl
        cases hp
      rw [pieces_of_some hp]
      by_cases hrest : p.rest = []
      · refine ⟨_, .marker hfirst (fun _ => rfl) fun h => absurd hrest h, fun h => absurd h hne,
          fun _ => ?_⟩
        rw [List.map_append, Segment.map_piece_ofLiteral, hrest, pieces_of_none rfl]
        rfl
      · refine ⟨_, .marker hfirst (fun h => absurd h hrest) fun _ => hsegs, fun h => absurd h hne,
          fun _ => ?_⟩
        rw [List.map_append, Segment.map_piece_ofLiteral, List.map_cons, hpieces hrest]
        rfl

/-- **The pieces of a text are those of its segments**, where the empty text is one piece. -/
theorem exists_segmented (t : String) :
    ∃ segs, Segmented t.toList segs ∧ segs.map Segment.piece = textPieces t := by
  obtain ⟨segs, hsegs, hnil, hpieces⟩ := exists_segments t.toList
  refine ⟨segs, hsegs, ?_⟩
  rw [textPieces]
  by_cases ht : t.toList = []
  · rw [hnil ht, ht, pieces_of_none rfl]
    rfl
  · rw [hpieces ht]
    split
    · rename_i hp
      exact absurd (pieces_eq_nil_iff.1 hp) ht
    · rfl

end PageTemplate.Binding
