/-
**The tokens of a markup text.**

A source text is a sequence of stretches: text, comments, doctypes, opening tags, closing tags, and
the content of a script or style element, which is not markup.  A less-than sign opens markup only
before an exclamation mark, a letter, or a slash and a letter; elsewhere it is text.

Main definitions:

* `PageTemplate.Markup.SourceAttribute`, `PageTemplate.Markup.Token` — what the stretches are;
* `PageTemplate.Markup.startsMarkup` — whether markup starts here;
* `PageTemplate.Markup.readAttribute?`, `PageTemplate.Markup.readAttributes` — the attributes of an
  opening tag;
* `PageTemplate.Markup.readTokens` — the next stretch, and the raw text behind it if it opens a
  script or style element;
* `PageTemplate.Markup.tokenize` — the tokens of a source text, the end of input last.
-/

import PageTemplate.Text.Cursor
import PageTemplate.Text.Numeric
import PageTemplate.Markup.Element
import PageTemplate.Markup.Reference

set_option relaxedAutoImplicit false
set_option autoImplicit false

namespace PageTemplate.Markup

open PageTemplate.Text

/-! ### Tokens -/

/-- An attribute as an opening tag writes it.  Its stretch reaches from its name to the end of its
value, or of its name if it has no value. -/
structure SourceAttribute where
  name : String
  value : Option String
  span : Span
  deriving DecidableEq, Repr

/-- What a stretch of a source text is. -/
inductive Token.Content where
  /-- Text, with its character references replaced. -/
  | text (text : String)
  /-- The content of a script or style element, as written. -/
  | rawText (text : String)
  | comment (text : String)
  | doctype (text : String)
  /-- An opening tag in lower case.  `tagSpan` is its stretch from the less-than sign to the end of
  the tag's name. -/
  | openTag (tag : String) (tagSpan : Span) (attributes : List SourceAttribute)
      (selfClosing : Bool)
  /-- A closing tag in lower case. -/
  | closeTag (tag : String)
  | endOfInput
  deriving DecidableEq, Repr

/-- A stretch of a source text. -/
structure Token where
  content : Token.Content
  span : Span
  deriving DecidableEq, Repr

/-! ### Characters -/

/-- Letters of the English alphabet, digits, and three signs make up the name of a tag. -/
def isTagChar (c : Char) : Bool :=
  c.isAlphanum || c = '-' || c = '_' || c = ':'

/-- What the name of an attribute starts with. -/
def isNameStart (c : Char) : Bool :=
  isAlphabetic c || c = '_' || c = '-' || c = '@' || c = ':'

/-- What the name of an attribute goes on with. -/
def isNameChar (c : Char) : Bool :=
  isAlphanumeric c || c = '_' || c = '-' || c = '@' || c = ':' || c = '.'

/-- What an attribute value without quotes consists of. -/
def isBareChar (c : Char) : Bool :=
  !isBlank c && c != '>' && c != '"' && c != '\''

/-- Whether an opening tag starts here. -/
def startsOpen : List Char → Bool
  | '<' :: c :: _ => c.isAlpha
  | _ => false

/-- Whether a closing tag starts here. -/
def startsClose : List Char → Bool
  | '<' :: '/' :: c :: _ => c.isAlpha
  | _ => false

/-- Whether a comment or a doctype starts here. -/
def startsDeclaration : List Char → Bool
  | '<' :: '!' :: _ => true
  | _ => false

/-- Whether a comment starts here. -/
def startsComment : List Char → Bool
  | '<' :: '!' :: '-' :: '-' :: _ => true
  | _ => false

/-- Whether markup of any kind starts here. -/
def startsMarkup (cs : List Char) : Bool :=
  startsDeclaration cs || startsOpen cs || startsClose cs

/-- Whether the closing tag of raw text starts here.  The letter case does not matter, and nothing
is asked of what follows the tag. -/
def startsRawClose (tag : List Char) : List Char → Bool
  | '<' :: '/' :: cs => (cs.take tag.length).map Char.toLower == tag
  | _ => false

/-- The name of a tag in lower case. -/
def lowerTag (cs : List Char) : String :=
  String.ofList (cs.map Char.toLower)

/-! ### Attributes -/

/-- The value behind the equals sign of an attribute, and the cursor behind it.  A value between
quotes reaches to the same quote, or to the end of the input. -/
def readValue (c : Cursor) : List Char × Cursor :=
  match c.rest with
  | '"' :: _ =>
      let (value, d) := (c.skip 1).readUntil (['"'].isPrefixOf ·)
      (value, d.skip 1)
  | '\'' :: _ =>
      let (value, d) := (c.skip 1).readUntil (['\''].isPrefixOf ·)
      (value, d.skip 1)
  | _ => c.readWhile isBareChar

/-- The attribute that starts here, and the cursor behind it.  Behind a name without a value, the
cursor also passes the blanks. -/
def readAttribute? (c : Cursor) : Option (SourceAttribute × Cursor) :=
  match c.rest with
  | [] => none
  | first :: _ =>
      if isNameStart first then
        let (name, afterName) := c.readWhile isNameChar
        let next := afterName.skipBlanks
        match next.rest with
        | '=' :: _ =>
            let (value, d) := readValue (next.skip 1).skipBlanks
            some (⟨String.ofList name, some (String.ofList (decode value)), c.spanTo d⟩, d)
        | _ => some (⟨String.ofList name, none, c.spanTo afterName⟩, next)
      else none

/-- The attributes up to the end of an opening tag, whether the tag closes itself, and the cursor
behind it.  A character that no attribute starts with is passed over.  Every round reads at least
one character or is the last, so rounds one more than the characters left are enough. -/
def readAttributes : Nat → Cursor → List SourceAttribute × Bool × Cursor
  | 0, c => ([], false, c)
  | rounds + 1, c =>
      let d := c.skipBlanks
      match d.rest with
      | [] => ([], false, d)
      | '/' :: '>' :: _ => ([], true, d.skip 2)
      | '>' :: _ => ([], false, d.skip 1)
      | _ =>
          match readAttribute? d with
          | some (a, e) =>
              let (attributes, selfClosing, f) := readAttributes rounds e
              (a :: attributes, selfClosing, f)
          | none => readAttributes rounds (d.skip 1)

/-! ### Stretches -/

/-- A comment, and the cursor behind it.  Without an end it reaches to the end of the input. -/
def readComment (c : Cursor) : Token × Cursor :=
  let (text, d) := (c.skip 4).readUntil (['-', '-', '>'].isPrefixOf ·)
  let e := d.skip 3
  (⟨.comment (String.ofList text), c.spanTo e⟩, e)

/-- A doctype, and the cursor behind it. -/
def readDoctype (c : Cursor) : Token × Cursor :=
  let (text, d) := (c.skip 2).readUntil (['>'].isPrefixOf ·)
  let e := d.skip 1
  (⟨.doctype (String.ofList text), c.spanTo e⟩, e)

/-- A closing tag, and the cursor behind it.  What stands between its name and the greater-than sign
is passed over. -/
def readClose (c : Cursor) : Token × Cursor :=
  let (tag, d) := (c.skip 2).readWhile isTagChar
  let e := (d.readUntil (['>'].isPrefixOf ·)).2.skip 1
  (⟨.closeTag (lowerTag tag), c.spanTo e⟩, e)

/-- A stretch of text, which has at least one character, and the cursor behind it. -/
def readText (c : Cursor) : Token × Cursor :=
  let (more, d) := (c.skip 1).readUntil startsMarkup
  (⟨.text (String.ofList (decode (c.rest.take 1 ++ more))), c.spanTo d⟩, d)

/-- The raw text up to the closing tag, if there is any, and the cursor behind it. -/
def readRawText (tag : List Char) (c : Cursor) : List Token × Cursor :=
  let (text, d) := c.readUntil (startsRawClose tag)
  (if text = [] then [] else [⟨.rawText (String.ofList text), c.spanTo d⟩], d)

/-- An opening tag and the raw text behind it, if it opens a script or style element. -/
def readOpen (c : Cursor) : List Token × Cursor :=
  let (name, afterName) := (c.skip 1).readWhile isTagChar
  let tag := lowerTag name
  let (attributes, selfClosing, d) := readAttributes (afterName.rest.length + 1) afterName
  let token : Token := ⟨.openTag tag (c.spanTo afterName) attributes selfClosing, c.spanTo d⟩
  if !selfClosing && isRawText tag then
    let (raw, e) := readRawText tag.toList d
    (token :: raw, e)
  else ([token], d)

/-- The next stretch of a text that has not ended. -/
def readTokens (c : Cursor) : List Token × Cursor :=
  if startsOpen c.rest then readOpen c
  else
    let (token, d) :=
      if startsComment c.rest then readComment c
      else if startsDeclaration c.rest then readDoctype c
      else if startsClose c.rest then readClose c
      else readText c
    ([token], d)

/-- The tokens from here on.  Every round reads at least one character, so as many rounds as there
are characters are enough. -/
def tokensFrom : Nat → Cursor → List Token
  | 0, c => [⟨.endOfInput, Span.empty c.pos⟩]
  | rounds + 1, c =>
      if c.rest = [] then [⟨.endOfInput, Span.empty c.pos⟩]
      else
        let (tokens, d) := readTokens c
        tokens ++ tokensFrom rounds d

/-- The tokens of a source text. -/
def tokenize (source : String) : List Token :=
  tokensFrom source.toList.length (Cursor.ofSource source.toList)

end PageTemplate.Markup
