/-
**The line that a message shows.**

A position counts line feeds and the characters since the last one.  A message prints the line of that
number, as cutting the source into lines gives it, and sets its carets by counting characters.  A reader
thinks of neither: what is wrong are the characters between two bytes, and the line is the one that they
stand in, without its line end.  Both agree on every stretch of a source that starts with a character of
a line and does not stop inside a line end.

Main definitions:

* `PageTemplate.Text.WholeLines`, `PageTemplate.Text.LineAt` — a line of a text, by what stands before
  it;
* `PageTemplate.Text.Span.Marks` — the characters of a line that lie between the bytes of a stretch;
* `PageTemplate.Text.Span.Legible` — the stretches on which both agree;
* `PageTemplate.Diagnostic.block`, `PageTemplate.Diagnostic.IsBlock` — a line behind its number, with
  carets below it;
* `PageTemplate.Diagnostic.PointsAt`, `PageTemplate.Diagnostic.PointsBehind` — a block that points at
  the characters of a stretch, and one that points behind the last character of a source.

Main results:

* `PageTemplate.Text.getElem?_lines` — the number of a line is that of the line feeds before it;
* `PageTemplate.Text.Span.Legible.exists_marks` — a legible stretch marks some characters of a line;
* `PageTemplate.Diagnostic.length_margin` — a line and the carets below it start in the same column;
* `PageTemplate.Diagnostic.underline_legible`, `PageTemplate.Diagnostic.underline_end` — what a message
  shows for such a stretch, and for the end of a source.
-/

import PageTemplate.Diagnostic.Snippet
import PageTemplate.Proofs.Markup.Tiling

set_option relaxedAutoImplicit false
set_option autoImplicit false

namespace PageTemplate

namespace Text

/-! ### Lines -/

/-- The text is empty, or it ends with a line feed. -/
def WholeLines (cs : List Char) : Prop := ∀ c ∈ cs.getLast?, c = '\n'

/-- A line ends before what follows: at the end of the text, if it has a character; at a line feed, if
no carriage return comes before it; or at both of them. -/
inductive Ends (line : List Char) : List Char → Prop
  | text (h : line ≠ []) : Ends line []
  | feed (h : line.getLast? ≠ some '\r') (below : List Char) : Ends line ('\n' :: below)
  | returnFeed (below : List Char) : Ends line ('\r' :: '\n' :: below)

/-- Behind the text `above`, the source has this line, which does not include its line end. -/
structure LineAt (source above line : List Char) : Prop where
  starts : WholeLines above
  unbroken : '\n' ∉ line
  ends : ∃ below, source = above ++ line ++ below ∧ Ends line below

theorem wholeLines_nil : WholeLines [] := by simp [WholeLines]

theorem wholeLines_concat (cs : List Char) : WholeLines (cs ++ ['\n']) := by simp [WholeLines]

theorem wholeLines_iff {cs : List Char} : WholeLines cs ↔ cs = [] ∨ cs.getLast? = some '\n' := by
  cases cs using List.reverseRecOn with
  | nil => simp [wholeLines_nil]
  | append_singleton cs c => simp [WholeLines]

/-- Lines may be cut off from the front of a text. -/
theorem linesFrom_append {above : List Char} (h : WholeLines above) (line rest : List Char)
    (hline : above = [] → line = []) :
    linesFrom line (above ++ rest) = linesFrom line above ++ lines rest ∧
      (linesFrom line above).length = above.count '\n' := by
  induction above generalizing line with
  | nil => simp [linesFrom, hline rfl, lines]
  | cons c above ih =>
      have habove : WholeLines above := by
        intro d hd
        refine h d ?_
        cases above with
        | nil => cases hd
        | cons e above => rwa [List.getLast?_cons_cons]
      by_cases hc : c = '\n'
      · subst hc
        obtain ⟨hlines, hlength⟩ := ih habove [] fun _ => rfl
        rw [List.cons_append, linesFrom, linesFrom, hlines, List.length_cons, hlength]
        simp
      · -- the line goes on, so it is not the end of the text
        have hne : above ≠ [] := by
          rintro rfl
          exact hc (h c rfl)
        obtain ⟨hlines, hlength⟩ := ih habove (c :: line) fun hnil => absurd hnil hne
        rw [List.cons_append, linesFrom, linesFrom, hlines, hlength]
        · simp [hc]
        · exact hc
        · exact hc

theorem lines_append {above : List Char} (h : WholeLines above) (rest : List Char) :
    lines (above ++ rest) = lines above ++ lines rest :=
  (linesFrom_append h [] rest fun _ => rfl).1

/-- A text of whole lines has as many as it has line feeds. -/
theorem length_lines {above : List Char} (h : WholeLines above) :
    (lines above).length = above.count '\n' :=
  (linesFrom_append h [] [] fun _ => rfl).2

/-- The first line of a text is what stands before its first line end. -/
theorem head?_lines {line below : List Char} (hline : '\n' ∉ line) (h : Ends line below) :
    (lines (line ++ below)).head? = some line := by
  cases h with
  | text hne => rw [List.append_nil, lines_of_no_newline line hne hline]; rfl
  | feed hnot below => rw [lines_cons_newline line below hline, dropReturn, if_neg hnot]; rfl
  | returnFeed below =>
      have hreturn : '\n' ∉ line ++ ['\r'] := by simpa using hline
      have hcut := lines_cons_newline (line ++ ['\r']) below hreturn
      rw [List.append_assoc, List.singleton_append] at hcut
      simp [hcut, dropReturn]

/-- **The number of a line is that of the line feeds before it.** -/
theorem getElem?_lines {source above line : List Char} (h : LineAt source above line) :
    (lines source)[above.count '\n']? = some line := by
  obtain ⟨habove, hline, below, rfl, hends⟩ := h
  rw [List.append_assoc, lines_append habove, ← length_lines habove,
    List.getElem?_append_right le_rfl, Nat.sub_self, ← List.head?_eq_getElem?]
  exact head?_lines hline hends

/-- A line that has more characters in front ends where it did, unless these end with a carriage return
that is now the last character before a line feed. -/
theorem Ends.append_left {line below : List Char} (h : below = [] ∨ Ends line below)
    (text : List Char) (hne : text ++ line ≠ [])
    (hlast : line = [] → below.head? = some '\n' → text.getLast? ≠ some '\r') :
    Ends (text ++ line) below := by
  rcases h with rfl | h
  · exact .text hne
  · cases h with
    | text => exact .text hne
    | feed hnot below =>
        refine .feed ?_ below
        by_cases hline : line = []
        · rw [hline, List.append_nil]
          exact hlast hline rfl
        · rwa [List.getLast?_append_of_ne_nil _ hline]
    | returnFeed below => exact .returnFeed below

theorem Ends.append_right {line below : List Char} (h : Ends line below) (hne : below ≠ [])
    (later : List Char) : Ends line (below ++ later) := by
  cases h with
  | text => exact absurd rfl hne
  | feed hnot below => exact .feed hnot (below ++ later)
  | returnFeed below => exact .returnFeed (below ++ later)

/-- Every text is cut in front of its last line. -/
theorem exists_wholeLines (cs : List Char) :
    ∃ above left, cs = above ++ left ∧ WholeLines above ∧ '\n' ∉ left := by
  induction cs using List.reverseRecOn with
  | nil => exact ⟨[], [], rfl, wholeLines_nil, by simp⟩
  | append_singleton cs c ih =>
      obtain ⟨above, left, rfl, habove, hleft⟩ := ih
      by_cases hc : c = '\n'
      · subst hc
        exact ⟨above ++ left ++ ['\n'], [], by simp, wholeLines_concat _, by simp⟩
      · exact ⟨above, left ++ [c], by simp, habove, by simp [hleft, Ne.symm hc]⟩

/-- Every text is cut at its first line end, or has none. -/
theorem exists_line (cs : List Char) : ∃ line below, cs = line ++ below ∧ '\n' ∉ line ∧
    (below = [] ∨ Ends line below) := by
  by_cases hfeed : '\n' ∈ cs
  · obtain ⟨line, below, rfl, hline⟩ := List.eq_append_cons_of_mem hfeed
    by_cases hreturn : line.getLast? = some '\r'
    · obtain ⟨line, rfl⟩ := List.getLast?_eq_some_iff.1 hreturn
      exact ⟨line, '\r' :: '\n' :: below, by simp, fun h => hline (List.mem_append_left _ h),
        .inr (.returnFeed below)⟩
    · exact ⟨line, '\n' :: below, rfl, hline, .inr (.feed hreturn below)⟩
  · exact ⟨cs, [], by simp, hfeed, .inl rfl⟩

/-- A place in a line counts the line feeds above the line, and the characters of the line before it. -/
theorem Position.behind_append {above left : List Char} (habove : WholeLines above)
    (hleft : '\n' ∉ left) :
    behind (above ++ left) = ⟨byteSize (above ++ left), above.count '\n', left.length⟩ := by
  have hplain : ∀ c ∈ left.reverse, decide (c ≠ '\n') = true := by
    intro c hc
    simpa using fun h : c = '\n' => hleft (h ▸ List.mem_reverse.1 hc)
  have hstop : above.reverse.takeWhile (· ≠ '\n') = [] := by
    rcases wholeLines_iff.1 habove with rfl | hlast
    · rfl
    · obtain ⟨above, rfl⟩ := List.getLast?_eq_some_iff.1 hlast
      simp
  rw [behind, List.count_append, List.count_eq_zero.2 hleft, Nat.add_zero, List.reverse_append,
    List.takeWhile_append_of_pos hplain, hstop, List.append_nil, List.length_reverse]

/-! ### Stretches that can be shown -/

namespace Span

/-- The characters `marked` of the line `left ++ marked ++ right` behind `above` are those between the
bytes of the stretch, where a stretch that goes on behind the line has those up to its end. -/
structure Marks (span : Span) (above left marked right : List Char) : Prop where
  starts : byteSize (above ++ left) = span.start.byte
  stops : byteSize (above ++ left ++ marked) = span.stop.byte ∨
    right = [] ∧ byteSize (above ++ left ++ marked) < span.stop.byte

/-- The stretch has characters, of which the first one is in no line end, and it does not stop inside a
line end. -/
def Legible (source : List Char) (span : Span) : Prop :=
  ∃ before first more later, source = before ++ (first :: more) ++ later ∧
    span = ⟨.behind before, .behind (before ++ first :: more)⟩ ∧ first ≠ '\n' ∧ first ≠ '\r' ∧
    ((first :: more).getLast? = some '\r' → later.head? ≠ some '\n')

variable {source : List Char} {span : Span}

theorem Legible.byte_lt (h : span.Legible source) : span.start.byte < span.stop.byte := by
  obtain ⟨before, first, more, later, -, rfl, -⟩ := h
  have hpos := first.utf8Size_pos
  simp only [Position.behind, byteSize_append, byteSize_cons]
  omega

/-- A stretch without a line feed lies on one line. -/
theorem exists_lineAt {above left slice : List Char} (later : List Char) (habove : WholeLines above)
    (hleft : '\n' ∉ left) (hne : slice ≠ []) (hslice : '\n' ∉ slice)
    (hstop : slice.getLast? = some '\r' → later.head? ≠ some '\n') :
    ∃ right, LineAt (above ++ left ++ slice ++ later) above (left ++ slice ++ right) := by
  obtain ⟨right, below, rfl, hright, hends⟩ := exists_line later
  refine ⟨right, habove, by simp [hleft, hslice, hright], below, by simp, ?_⟩
  refine Ends.append_left hends (left ++ slice) (by simp [hne]) ?_
  rintro rfl hhead hlast
  rw [List.getLast?_append_of_ne_nil _ hne] at hlast
  exact hstop hlast hhead

/-- A stretch with a line feed goes on behind the line on which it starts. -/
theorem exists_lineAt_of_mem {above left more : List Char} {first : Char} (later : List Char)
    (habove : WholeLines above) (hleft : '\n' ∉ left) (hfeed : '\n' ∈ first :: more)
    (hfirst : first ≠ '\n') (hreturn : first ≠ '\r') :
    ∃ marked others, first :: more = marked ++ others ∧ marked ≠ [] ∧ others ≠ [] ∧
      LineAt (above ++ left ++ (first :: more) ++ later) above (left ++ marked) := by
  obtain ⟨marked, others, hslice, hmarked, hends⟩ := exists_line (first :: more)
  have hothers : others ≠ [] := by
    rintro rfl
    rw [hslice, List.append_nil] at hfeed
    exact hmarked hfeed
  have hends := hends.resolve_left hothers
  have hne : marked ≠ [] := by
    -- the first character is in no line end
    rintro rfl
    cases hends with
    | text h => exact h rfl
    | feed => exact hfirst (List.cons.inj hslice).1
    | returnFeed => exact hreturn (List.cons.inj hslice).1
  refine ⟨marked, others, hslice, hne, hothers, habove, by simp [hleft, hmarked], others ++ later,
    by simp [hslice], ?_⟩
  exact Ends.append_left (.inr (hends.append_right hothers later)) left (by simp [hne])
    fun hnil => absurd hnil hne

/-- **A legible stretch marks some characters of the line on which it starts**, and its lines and columns
say which. -/
theorem Legible.exists_marks (h : span.Legible source) :
    ∃ above left marked right, LineAt source above (left ++ marked ++ right) ∧
      span.Marks above left marked right ∧ marked ≠ [] ∧
      span.start.line = above.count '\n' ∧ span.start.col = left.length ∧
      if span.stop.line = span.start.line then span.stop.col = left.length + marked.length
      else right = [] := by
  obtain ⟨before, first, more, later, rfl, rfl, hfirst, hreturn, hstop⟩ := h
  obtain ⟨above, left, rfl, habove, hleft⟩ := exists_wholeLines before
  have hstart := Position.behind_append habove hleft
  by_cases hfeed : '\n' ∈ first :: more
  · obtain ⟨marked, others, hslice, hne, hothers, hline⟩ :=
      exists_lineAt_of_mem later habove hleft hfeed hfirst hreturn
    have hpos : 0 < byteSize others := by
      obtain ⟨c, cs, rfl⟩ := List.exists_cons_of_ne_nil hothers
      exact Nat.add_pos_left c.utf8Size_pos _
    refine ⟨above, left, marked, [], by simpa using hline, ⟨rfl, .inr ⟨rfl, ?_⟩⟩, hne,
      by rw [hstart], by rw [hstart], ?_⟩
    · simp only [Position.behind, hslice, byteSize_append]
      omega
    · have hcount : 0 < (first :: more).count '\n' := List.count_pos_iff.2 hfeed
      rw [if_neg]
      simp only [Position.behind, List.count_append]
      omega
  · obtain ⟨right, hline⟩ :=
      exists_lineAt later habove hleft (List.cons_ne_nil first more) hfeed hstop
    have hinside : '\n' ∉ left ++ first :: more := by
      simp only [List.mem_append, not_or]
      exact ⟨hleft, hfeed⟩
    have hstops := Position.behind_append habove hinside
    rw [← List.append_assoc] at hstops
    refine ⟨above, left, first :: more, right, hline, ⟨rfl, .inl rfl⟩, List.cons_ne_nil _ _,
      by rw [hstart], by rw [hstart], ?_⟩
    rw [hstart, hstops, if_pos rfl, List.length_append]

end Span

end Text

namespace Diagnostic

open PageTemplate.Text

/-! ### Blocks -/

/-- What stands in front of a line of a block, where `shown` is the number of the line or nothing. -/
def margin (p : Palette) (number : Nat) (shown : String) : String :=
  p.dim ++ alignRight (max (toString number).length 2) shown ++ " |" ++ p.reset

/-- A line behind its number, and below it so many carets behind so many blanks. -/
def block (p : Palette) (mark label : String) (number : Nat) (line : List Char)
    (indent carets : Nat) : String :=
  margin p number "" ++ "\n" ++
    margin p number (toString number) ++ " " ++ String.ofList line ++ "\n" ++
    margin p number "" ++ " " ++ String.ofList (List.replicate indent ' ') ++
      mark ++ String.ofList (List.replicate carets '^') ++ label ++ p.reset ++ "\n"

/-- The text is the block for a line, and the carets stand under the characters of the line from number
`indent` on: the margins before the line and before the carets take up the same columns. -/
structure IsBlock (p : Palette) (mark label : String) (number : Nat) (line : List Char)
    (indent carets : Nat) (text : String) : Prop where
  text_eq : text = block p mark label number line indent carets
  aligned : (margin p number (toString number)).length = (margin p number "").length

/-- The block shows the line of the source in which the stretch starts.  It is numbered by the line feeds
before it, and the carets stand under its characters between the bytes of the stretch, of which there
are some. -/
def PointsAt (p : Palette) (mark label : String) (source : List Char) (span : Span)
    (text : String) : Prop :=
  ∃ above left marked right, LineAt source above (left ++ marked ++ right) ∧
    span.Marks above left marked right ∧ marked ≠ [] ∧
    IsBlock p mark label (above.count '\n' + 1) (left ++ marked ++ right) left.length marked.length
      text

/-- The block shows the last line of the source with one caret behind its last character.  If the source
ends with a line feed there is no block. -/
def PointsBehind (p : Palette) (mark label : String) (source : List Char) (text : String) : Prop :=
  (source.getLast? = some '\n' → text = "") ∧
  (source.getLast? ≠ some '\n' → ∃ above line, source = above ++ line ∧
    LineAt source above line ∧
      IsBlock p mark label (above.count '\n' + 1) line line.length 1 text)

/-- The number of a line is set off to the right, so that all margins take up the same columns. -/
theorem length_margin (p : Palette) (number : Nat) :
    (margin p number (toString number)).length = (margin p number "").length := by
  simp only [margin, alignRight, String.length_append, String.length_ofList, List.length_replicate,
    String.length_empty]
  omega

variable {source : List Char} {span : Span}

/-- A line that a source has is shown as a block. -/
theorem isBlock_underline {above line : List Char} (p : Palette) (mark label : String)
    (hline : LineAt source above line) (hstart : span.start.line = above.count '\n') :
    IsBlock p mark label (above.count '\n' + 1) line span.start.col (underlineLength line span)
      (underline p mark source span label) := by
  refine ⟨?_, length_margin p _⟩
  rw [underline, hstart, getElem?_lines hline]
  simp only [block, margin, String.append_assoc]

/-- **A legible stretch is pointed at.** -/
theorem underline_legible (h : span.Legible source) (p : Palette) (mark label : String) :
    PointsAt p mark label source span (underline p mark source span label) := by
  obtain ⟨above, left, marked, right, hline, hmarks, hne, hstart, hcol, hstop⟩ := h.exists_marks
  have hpos := List.length_pos_iff.2 hne
  have hlength : underlineLength (left ++ marked ++ right) span = marked.length := by
    unfold underlineLength
    split at hstop
    · rename_i hone
      rw [if_pos hone, hstop, hcol]
      omega
    · rename_i hmany
      rw [if_neg hmany, hstop, hcol, List.append_nil, List.length_append]
      omega
  have hblock := isBlock_underline p mark label hline hstart
  rw [hcol, hlength] at hblock
  exact ⟨above, left, marked, right, hline, hmarks, hne, hblock⟩

/-- **The end of a source is pointed at from behind**, if the source has a character at all. -/
theorem underline_end (hne : source ≠ []) (p : Palette) (mark label : String) :
    PointsBehind p mark label source
      (underline p mark source (Span.empty (.behind source)) label) := by
  refine ⟨fun hlast => ?_, fun hlast => ?_⟩
  · have hwhole : WholeLines source := wholeLines_iff.2 (.inr hlast)
    have hnone : (lines source)[source.count '\n']? = none :=
      List.getElem?_eq_none (length_lines hwhole).le
    rw [underline, Span.empty, Position.behind, hnone]
  · obtain ⟨above, line, rfl, habove, hline⟩ := exists_wholeLines source
    have hsome : line ≠ [] := by
      rintro rfl
      rw [List.append_nil] at hne hlast
      exact hlast ((wholeLines_iff.1 habove).resolve_left hne)
    have hat : LineAt (above ++ line) above line := ⟨habove, hline, [], by simp, .text hsome⟩
    have hplace := Position.behind_append habove hline
    have hstart : (Span.empty (.behind (above ++ line))).start.line = above.count '\n' := by
      rw [Span.empty, hplace]
    have hblock := isBlock_underline p mark label hat hstart
    have hone : underlineLength line (Span.empty (.behind (above ++ line))) = 1 := by
      simp [underlineLength, Span.empty]
    rw [hone, Span.empty, hplace] at hblock
    refine ⟨above, line, rfl, hat, ?_⟩
    rwa [Span.empty, hplace]

end Diagnostic

end PageTemplate
