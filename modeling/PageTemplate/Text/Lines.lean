/-
**The lines of a text.**

A line ends at a line feed, and a carriage return just before the line feed belongs to the line
end.  A text that ends with a line end has no further, empty line.

Main definitions:

* `PageTemplate.Text.lines` — the lines of a text, without their line ends.

Main results:

* `PageTemplate.Text.lines_cons_newline`, `PageTemplate.Text.lines_of_no_newline` — what the first
  line feed does, and what a text without one is.
-/

set_option relaxedAutoImplicit false
set_option autoImplicit false

namespace PageTemplate.Text

/-- Removes a carriage return from the end of a line. -/
def dropReturn (line : List Char) : List Char :=
  if line.getLast? = some '\r' then line.dropLast else line

/-- Splits a text into lines, where `line` holds, in reverse, what the current line has so far. -/
def linesFrom (line : List Char) : List Char → List (List Char)
  | [] => if line = [] then [] else [line.reverse]
  | '\n' :: rest => dropReturn line.reverse :: linesFrom [] rest
  | c :: rest => linesFrom (c :: line) rest

/-- The lines of a text, each without its line end. -/
def lines (cs : List Char) : List (List Char) :=
  linesFrom [] cs

theorem linesFrom_append_newline (line cs rest : List Char) (h : '\n' ∉ cs) :
    linesFrom line (cs ++ '\n' :: rest) =
      dropReturn (line.reverse ++ cs) :: linesFrom [] rest := by
  induction cs generalizing line with
  | nil => simp [linesFrom]
  | cons c cs ih =>
      have hc : c ≠ '\n' := fun e => h (by simp [e])
      have hcs : '\n' ∉ cs := fun e => h (by simp [e])
      have step : linesFrom line (c :: (cs ++ '\n' :: rest)) =
          linesFrom (c :: line) (cs ++ '\n' :: rest) := by
        rw [linesFrom]
        exact hc
      rw [List.cons_append, step, ih _ hcs]
      simp

/-- The first line ends at the first line feed. -/
theorem lines_cons_newline (cs rest : List Char) (h : '\n' ∉ cs) :
    lines (cs ++ '\n' :: rest) = dropReturn cs :: lines rest := by
  simpa [lines] using linesFrom_append_newline [] cs rest h

/-- A text that is not empty and has no line feed is one line. -/
theorem lines_of_no_newline (cs : List Char) (hne : cs ≠ []) (h : '\n' ∉ cs) :
    lines cs = [cs] := by
  have key : ∀ (ds line : List Char), '\n' ∉ ds → line.reverse ++ ds ≠ [] →
      linesFrom line ds = [line.reverse ++ ds] := by
    intro ds
    induction ds with
    | nil =>
        intro line _ hline
        have : line ≠ [] := by simpa using hline
        simp [linesFrom, this]
    | cons d ds ih =>
        intro line hd hline
        have hd' : d ≠ '\n' := fun e => hd (by simp [e])
        have hds : '\n' ∉ ds := fun e => hd (by simp [e])
        have step : linesFrom line (d :: ds) = linesFrom (d :: line) ds := by
          rw [linesFrom]
          exact hd'
        rw [step, ih _ hds (by simp)]
        simp
  simpa [lines] using key cs [] h (by simpa using hne)

end PageTemplate.Text
