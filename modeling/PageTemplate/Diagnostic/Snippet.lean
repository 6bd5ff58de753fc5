/-
**Messages that point at a source text.**

A snippet names a place, says what is wrong there, shows the line with the place underlined, then
perhaps a second line that has to do with it, and perhaps a word of help.  The place that it names
first is that of the second line if there is one, for this is where the text has to be mended.

Main definitions:

* `PageTemplate.Diagnostic.Palette` — the marks that set off the parts of a message, empty without
  color;
* `PageTemplate.Diagnostic.Snippet` — a message with its places;
* `PageTemplate.Diagnostic.underline` — the block that shows one line and underlines a span;
* `PageTemplate.Diagnostic.Snippet.render` — the whole message;
* `PageTemplate.Diagnostic.renderPlain` — a message without a place.
-/

import PageTemplate.Text.Lines
import PageTemplate.Text.Position

set_option relaxedAutoImplicit false
set_option autoImplicit false

namespace PageTemplate.Diagnostic

open PageTemplate.Text

/-- The marks that start and end a highlighted part of a message. -/
structure Palette where
  error : String
  dim : String
  help : String
  done : String
  strong : String
  reset : String
  deriving DecidableEq, Repr

namespace Palette

/-- No highlighting. -/
def plain : Palette := ⟨"", "", "", "", "", ""⟩

/-- Red for an error alone, blue-green for help, green for what is done, bold for what is strong,
and the frame dimmed. -/
def color : Palette :=
  ⟨"\x1b[1;31m", "\x1b[2m", "\x1b[1;38;5;73m", "\x1b[32m", "\x1b[1m", "\x1b[0m"⟩

end Palette

/-- A second place that a message shows, and what is written beside it. -/
structure Related where
  span : Span
  label : String
  deriving DecidableEq, Repr

/-- A message that points at a place in a source text. -/
structure Snippet where
  message : String
  span : Span
  related : Option Related
  help : Option String
  deriving DecidableEq, Repr

/-- The text `s` behind as many spaces as make it `width` characters long. -/
def alignRight (width : Nat) (s : String) : String :=
  String.ofList (List.replicate (width - s.length) ' ') ++ s

/-- The number of characters of `line`, which stands at line number `span.start.line`, that are
underlined for `span`: up to the end of the line if the span goes on behind it, and at least one. -/
def underlineLength (line : List Char) (span : Span) : Nat :=
  if span.stop.line = span.start.line then max (span.stop.col - span.start.col) 1
  else max (line.length - span.start.col) 1

/-- The line of the source in which a span starts, under its number, with the span underlined and a
label behind the carets.  A span that starts behind the last line is not shown. -/
def underline (p : Palette) (mark : String) (source : List Char) (span : Span) (label : String) :
    String :=
  match (lines source)[span.start.line]? with
  | none => ""
  | some line =>
      let number := toString (span.start.line + 1)
      let width := max number.length 2
      let margin := p.dim ++ alignRight width "" ++ " |" ++ p.reset
      let indent := String.ofList (List.replicate span.start.col ' ')
      let carets := String.ofList (List.replicate (underlineLength line span) '^')
      margin ++ "\n" ++
        p.dim ++ alignRight width number ++ " |" ++ p.reset ++ " " ++ String.ofList line ++ "\n" ++
        margin ++ " " ++ indent ++ mark ++ carets ++ label ++ p.reset ++ "\n"

/-- The lines of help, the first one behind the word itself. -/
def helpLines (p : Palette) (help : String) : String :=
  match lines help.toList with
  | [] => ""
  | first :: more =>
      " " ++ p.help ++ "help:" ++ p.reset ++ " " ++ String.ofList first ++ "\n" ++
        String.join (more.map fun line => "       " ++ String.ofList line ++ "\n")

namespace Snippet

/-- The place that the message names: that of the related span if there is one. -/
def place (s : Snippet) : Position :=
  match s.related with
  | some r => r.span.start
  | none => s.span.start

/-- The message for a reader of `source`, which is named `fileName`. -/
def render (s : Snippet) (p : Palette) (source fileName : String) : String :=
  let cs := source.toList
  let related :=
    match s.related with
    | some r => underline p p.dim cs r.span (" " ++ r.label)
    | none => ""
  let help :=
    match s.help with
    | some text => "\n" ++ helpLines p text
    | none => ""
  "\n" ++
    " " ++ p.dim ++ "file:" ++ p.reset ++ " " ++ fileName ++ ":" ++
      toString (s.place.line + 1) ++ ":" ++ toString (s.place.col + 1) ++ "\n" ++
    p.error ++ "error:" ++ p.reset ++ " " ++ s.message ++ "\n" ++
    underline p p.error cs s.span "" ++ related ++ help ++ "\n"

end Snippet

/-- A message that points at no place. -/
def renderPlain (p : Palette) (message : String) : String :=
  p.error ++ "error:" ++ p.reset ++ " " ++ message ++ "\n"

end PageTemplate.Diagnostic
