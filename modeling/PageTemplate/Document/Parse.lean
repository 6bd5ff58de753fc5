/-
**Reading documents.**

A document is read from the tokens of its source by recursion on its elements.  An element ends at
its closing tag, or where an element around it is closed.  A closing tag that closes nothing is
passed over.  An element that is neither closed at the end of the input is a fault, and so is an
opening tag with two attributes of one name.

Main definitions:

* `PageTemplate.OpenElement` — an element whose content is being read;
* `PageTemplate.Document.repeated?` — the first attribute that repeats a name;
* `PageTemplate.Document.readContent` — the content of the innermost open element;
* `PageTemplate.Document.parse` — the document that a source text writes.
-/

import PageTemplate.Document.Edit
import PageTemplate.Diagnostic.ParseError
import PageTemplate.Markup.Token

set_option relaxedAutoImplicit false
set_option autoImplicit false

namespace PageTemplate

open PageTemplate.Markup PageTemplate.Text PageTemplate.Diagnostic

/-- An element that is not closed yet, with the stretch of its opening tag. -/
structure OpenElement where
  tag : String
  span : Span
  deriving DecidableEq, Repr

namespace Document

/-- The first attribute whose name has occurred, and the first use of this name.  Here `seen` holds
the attributes before the list. -/
def repeated? (seen : List SourceAttribute) :
    List SourceAttribute → Option (SourceAttribute × SourceAttribute)
  | [] => none
  | a :: rest =>
      match seen.find? (·.name == a.name) with
      | some first => some (a, first)
      | none => repeated? (seen ++ [a]) rest

/-- Makes a new node the last child of `parent`. -/
def push (d : Document) (parent : NodeId) (kind : NodeKind) (span : Span) : Document × NodeId :=
  let (d, id) := d.alloc kind (some span)
  (d.append parent id, id)

/-- Reads tokens into the node `parent`, which is the innermost of the open elements, or the
document node if there are none.  Gives the tokens that are left behind the end of this element.
Every round uses a token or ends an element, and an element takes one round of those that its
opening tag leaves, so rounds one more than the tokens are enough. -/
def readContent : Nat → List OpenElement → NodeId → Document → List Token →
    Except ParseError (Document × List Token)
  | 0, _, _, d, tokens => .ok (d, tokens)
  | _ + 1, _, _, d, [] => .ok (d, [])
  | fuel + 1, opened, parent, d, token :: tokens =>
      match token.content with
      | .text text | .rawText text =>
          readContent fuel opened parent (d.push parent (.text text) token.span).1 tokens
      | .comment text =>
          readContent fuel opened parent (d.push parent (.comment text) token.span).1 tokens
      | .doctype text =>
          readContent fuel opened parent (d.push parent (.doctype text) token.span).1 tokens
      | .openTag tag _ attributes selfClosing =>
          match repeated? [] attributes with
          | some (again, first) => .error (.repeated again.name again.span first.span)
          | none =>
              let kind := .element ⟨tag, attributes.map fun a => ⟨a.name, a.value⟩⟩
              let (d, id) := d.push parent kind token.span
              if selfClosing || isVoid tag then readContent fuel opened parent d tokens
              else
                match readContent fuel (⟨tag, token.span⟩ :: opened) id d tokens with
                | .error e => .error e
                | .ok (d, tokens) => readContent fuel opened parent d tokens
      | .closeTag tag =>
          match opened with
          | [] => readContent fuel opened parent d tokens
          | innermost :: around =>
              if tag = innermost.tag then .ok (d, tokens)
              else if around.any (·.tag == tag) then .ok (d, token :: tokens)
              else readContent fuel opened parent d tokens
      | .endOfInput =>
          match opened with
          | [] => .ok (d, tokens)
          | innermost :: _ => .error (.unclosed innermost.tag token.span innermost.span)

/-- The document that a source text writes. -/
def parse (source : String) : Except ParseError Document :=
  let tokens := tokenize source
  (readContent (tokens.length + 1) [] root empty tokens).map (·.1)

end Document

end PageTemplate
