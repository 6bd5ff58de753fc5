/-
**Reading JSON texts.**

A text is read from front to back, and the first fault ends the reading.  A fault is known by its
cause and by the number of bytes that are not read yet; some faults count the byte that they stop at
as read, others do not.  Lists and objects may be nested in each other up to a limit.

Main definitions:

* `PageTemplate.Data.JsonFault` — why a text is no JSON text, and where;
* `PageTemplate.Data.readNumber`, `PageTemplate.Data.readString` — numbers and strings;
* `PageTemplate.Data.readValue` — values, nested up to a given depth;
* `PageTemplate.Data.Value.ofJson` — the value of a whole text;
* `PageTemplate.Data.JsonFault.message` — what a reader is told about a fault.
-/

import PageTemplate.Data.Value
import PageTemplate.Text.Digits
import PageTemplate.Text.Position

set_option relaxedAutoImplicit false
set_option autoImplicit false

namespace PageTemplate.Data

open PageTemplate.Text

/-! ### Faults -/

/-- Why a text is no JSON text. -/
inductive JsonFault.Cause where
  | endInList
  | endInObject
  | endInString
  | endInValue
  | expectedColon
  | expectedCommaOrBracket
  | expectedCommaOrBrace
  | expectedWord
  | expectedValue
  | invalidEscape
  | invalidNumber
  | numberOutOfRange
  | controlCharacter
  | keyNotString
  | loneSurrogate
  | trailingComma
  | trailingCharacters
  | unfinishedSurrogatePair
  | tooDeep
  deriving DecidableEq, Repr

/-- What a cause is called. -/
def JsonFault.Cause.message : JsonFault.Cause → String
  | endInList => "EOF while parsing a list"
  | endInObject => "EOF while parsing an object"
  | endInString => "EOF while parsing a string"
  | endInValue => "EOF while parsing a value"
  | expectedColon => "expected `:`"
  | expectedCommaOrBracket => "expected `,` or `]`"
  | expectedCommaOrBrace => "expected `,` or `\x7d`"
  | expectedWord => "expected ident"
  | expectedValue => "expected value"
  | invalidEscape => "invalid escape"
  | invalidNumber => "invalid number"
  | numberOutOfRange => "number out of range"
  | controlCharacter => "control character (\\u0000-\\u001F) found while parsing a string"
  | keyNotString => "key must be a string"
  | loneSurrogate => "lone leading surrogate in hex escape"
  | trailingComma => "trailing comma"
  | trailingCharacters => "trailing characters"
  | unfinishedSurrogatePair => "unexpected end of hex escape"
  | tooDeep => "recursion limit exceeded"

/-- A cause, and the number of bytes that were not read when it showed. -/
structure JsonFault where
  cause : JsonFault.Cause
  left : Nat
  deriving DecidableEq, Repr

/-- A value that was read, and the text behind it. -/
abbrev ReadResult (α : Type) := Except JsonFault (α × List Char)

/-- A fault before the text `cs`. -/
def faultBefore (cause : JsonFault.Cause) (cs : List Char) : JsonFault :=
  ⟨cause, byteSize cs⟩

/-- A fault behind the first byte of the text `cs`, or at the end if there is none. -/
def faultAt (cause : JsonFault.Cause) (cs : List Char) : JsonFault :=
  ⟨cause, byteSize cs - 1⟩

/-! ### Blanks and words -/

/-- The blanks that may stand between the parts of a JSON text. -/
def isJsonBlank (c : Char) : Bool :=
  c = ' ' || c = '\n' || c = '\t' || c = '\r'

/-- The text without the blanks at its front. -/
def skipJsonBlanks (cs : List Char) : List Char :=
  cs.dropWhile isJsonBlank

/-- Reads the rest of one of the three words of JSON. -/
def readWord (v : Value) : List Char → List Char → ReadResult Value
  | [], cs => .ok (v, cs)
  | _ :: _, [] => .error (faultBefore .endInValue [])
  | w :: ws, c :: cs =>
      if c = w then readWord v ws cs else .error (faultAt .expectedWord (c :: cs))

/-! ### Numbers -/

/-- The value of decimal digits. -/
def decimalValue (digits : List Char) : Nat :=
  (readDigits 10 0 digits).getD 0

/-- A double as a value, if it is not too large. -/
def doubleValue (negative : Bool) (digits : Nat) (exponent : Int) (cs : List Char) :
    ReadResult Value :=
  match Double.ofDecimal? negative digits exponent with
  | some x => .ok (.number (.double x), cs)
  | none => .error (faultBefore .numberOutOfRange cs)

/-- The greatest exponent that is taken at its word. -/
def exponentLimit : Nat := Nat.pow 2 31 - 1

/-- Reads on in the digits of an exponent, where `e` is the number that the digits before make.  An
exponent beyond the limit makes zero of every number if it is negative, and is out of range
otherwise, except for zero. -/
def readExponentDigits (negative : Bool) (digits : Nat) (exponent : Int) (down : Bool) :
    Nat → List Char → ReadResult Value
  | e, [] => doubleValue negative digits (exponent + if down then -(e : Int) else e) []
  | e, c :: cs =>
      if isDigit c then
        let e := e * 10 + decimalValue [c]
        if exponentLimit < e then
          if digits ≠ 0 ∧ !down then .error (faultBefore .numberOutOfRange cs)
          else .ok (.number (.double (.zero negative)), cs.dropWhile isDigit)
        else readExponentDigits negative digits exponent down e cs
      else doubleValue negative digits (exponent + if down then -(e : Int) else e) (c :: cs)

/-- Reads an exponent behind its letter.  There is at least one digit. -/
def readExponent (negative : Bool) (digits : Nat) (exponent : Int) (cs : List Char) :
    ReadResult Value :=
  let (down, cs) :=
    match cs with
    | '+' :: rest => (false, rest)
    | '-' :: rest => (true, rest)
    | _ => (false, cs)
  match cs with
  | [] => .error (faultBefore .endInValue [])
  | c :: _ =>
      if isDigit c then readExponentDigits negative digits exponent down 0 cs
      else .error (faultAt .invalidNumber cs)

/-- Reads a fraction behind its point.  There is at least one digit. -/
def readFraction (negative : Bool) (whole : List Char) (cs : List Char) : ReadResult Value :=
  let fraction := cs.takeWhile isDigit
  let rest := cs.dropWhile isDigit
  let digits := decimalValue (whole ++ fraction)
  let exponent : Int := -(fraction.length : Int)
  if fraction = [] then
    .error (faultAt (if cs = [] then .endInValue else .invalidNumber) cs)
  else
    match rest with
    | 'e' :: rest | 'E' :: rest => readExponent negative digits exponent rest
    | _ => doubleValue negative digits exponent rest

/-- A whole number as a value: one that fits into 64 bits, with a sign if it is negative, and a
double beyond that.  Zero with a minus sign is a double as well. -/
def wholeValue (negative : Bool) (n : Nat) (cs : List Char) : ReadResult Value :=
  if negative then
    if n ≠ 0 ∧ n ≤ Nat.pow 2 63 then .ok (.number (.int (-(n : Int))), cs)
    else doubleValue true n 0 cs
  else if n < Nat.pow 2 64 then .ok (.number (.int n), cs)
  else doubleValue false n 0 cs

/-- Reads a number behind its sign.  A zero at the front is the only digit before the point. -/
def readNumber (negative : Bool) (cs : List Char) : ReadResult Value :=
  match cs with
  | [] => .error (faultBefore .endInValue [])
  | c :: _ =>
      if isDigit c then
        let whole := if c = '0' then ['0'] else cs.takeWhile isDigit
        let rest := cs.drop whole.length
        match rest with
        | '.' :: rest => readFraction negative whole rest
        | 'e' :: rest | 'E' :: rest => readExponent negative (decimalValue whole) 0 rest
        | d :: _ =>
            if isDigit d then .error (faultAt .invalidNumber rest)
            else wholeValue negative (decimalValue whole) rest
        | [] => wholeValue negative (decimalValue whole) []
      else .error (faultAt .invalidNumber cs)

/-! ### Strings -/

/-- Reads four hexadecimal digits.  They are looked for in the next four bytes. -/
def readUnit (cs : List Char) : ReadResult Nat :=
  if byteSize cs < 4 then .error ⟨.endInString, 0⟩
  else
    let digits := cs.take 4
    match if byteSize digits = 4 then readDigits 16 0 digits else none with
    | some n => .ok (n, cs.drop 4)
    | none => .error ⟨.invalidEscape, byteSize cs - 4⟩

/-- Whether a unit of UTF-16 is the first of a pair. -/
def isHighSurrogate (n : Nat) : Bool := 0xD800 ≤ n && n ≤ 0xDBFF

/-- Whether a unit of UTF-16 is the second of a pair. -/
def isLowSurrogate (n : Nat) : Bool := 0xDC00 ≤ n && n ≤ 0xDFFF

/-- Reads the second unit of a pair behind the first one, which is `high`. -/
def readLowSurrogate (high : Nat) (cs : List Char) : ReadResult Char :=
  match cs with
  | [] | ['\\'] => .error (faultBefore .endInString [])
  | '\\' :: 'u' :: rest =>
      match readUnit rest with
      | .error e => .error e
      | .ok (low, rest) =>
          if isLowSurrogate low then
            .ok (Char.ofNat (0x10000 + (high - 0xD800) * 0x400 + (low - 0xDC00)), rest)
          else .error (faultBefore .loneSurrogate rest)
  | '\\' :: rest => .error (faultAt .unfinishedSurrogatePair rest)
  | _ => .error (faultAt .unfinishedSurrogatePair cs)

/-- Reads an escape behind its backslash. -/
def readEscape (cs : List Char) : ReadResult Char :=
  match cs with
  | [] => .error (faultBefore .endInString [])
  | '"' :: rest => .ok ('"', rest)
  | '\\' :: rest => .ok ('\\', rest)
  | '/' :: rest => .ok ('/', rest)
  | 'b' :: rest => .ok ('\x08', rest)
  | 'f' :: rest => .ok ('\x0c', rest)
  | 'n' :: rest => .ok ('\n', rest)
  | 'r' :: rest => .ok ('\r', rest)
  | 't' :: rest => .ok ('\t', rest)
  | 'u' :: rest =>
      match readUnit rest with
      | .error e => .error e
      | .ok (n, rest) =>
          if isLowSurrogate n then .error (faultBefore .loneSurrogate rest)
          else if isHighSurrogate n then readLowSurrogate n rest
          else .ok (Char.ofNat n, rest)
  | _ => .error (faultAt .invalidEscape cs)

/-- Reads on in a string, where `read` holds, in reverse, its characters so far.  Every round reads
a character or an escape. -/
def readStringFrom : Nat → List Char → List Char → ReadResult String
  | 0, _, cs => .error (faultBefore .endInString cs)
  | _ + 1, _, [] => .error (faultBefore .endInString [])
  | fuel + 1, read, c :: cs =>
      if c = '"' then .ok (String.ofList read.reverse, cs)
      else if c = '\\' then
        match readEscape cs with
        | .error e => .error e
        | .ok (d, cs) => readStringFrom fuel (d :: read) cs
      else if c.toNat < 0x20 then .error (faultBefore .controlCharacter cs)
      else readStringFrom fuel (c :: read) cs

/-- Reads a string behind its first quote. -/
def readString (cs : List Char) : ReadResult String :=
  readStringFrom (cs.length + 1) [] cs

/-! ### Values -/

/-- The text from the next item of a list on, or nothing if the list ends here. -/
def nextItem (first : Bool) (cs : List Char) : Except JsonFault (Option (List Char) × List Char) :=
  match skipJsonBlanks cs with
  | [] => .error (faultAt .endInList [])
  | ']' :: rest => .ok (none, rest)
  | c :: rest =>
      if first then .ok (some (c :: rest), [])
      else if c = ',' then
        match skipJsonBlanks rest with
        | [] => .error (faultAt .endInValue [])
        | ']' :: rest => .error (faultAt .trailingComma (']' :: rest))
        | rest => .ok (some rest, [])
      else .error (faultAt .expectedCommaOrBracket (c :: rest))

/-- Reads the items of a list up to its end. -/
def readItems (item : List Char → ReadResult Value) :
    Nat → Bool → List Char → ReadResult (List Value)
  | 0, _, cs => .error (faultAt .endInList cs)
  | fuel + 1, first, cs =>
      match nextItem first cs with
      | .error e => .error e
      | .ok (none, rest) => .ok ([], rest)
      | .ok (some cs, _) =>
          match item cs with
          | .error e => .error e
          | .ok (v, cs) =>
              match readItems item fuel false cs with
              | .error e => .error e
              | .ok (vs, cs) => .ok (v :: vs, cs)

/-- The text behind the quote of the next key of an object, or nothing if the object ends here. -/
def nextKey (first : Bool) (cs : List Char) : Except JsonFault (Option (List Char) × List Char) :=
  match skipJsonBlanks cs with
  | [] => .error (faultAt .endInObject [])
  | '}' :: rest => .ok (none, rest)
  | c :: rest =>
      if first then
        if c = '"' then .ok (some rest, []) else .error (faultAt .keyNotString (c :: rest))
      else if c = ',' then
        match skipJsonBlanks rest with
        | [] => .error (faultAt .endInValue [])
        | '"' :: rest => .ok (some rest, [])
        | '}' :: rest => .error (faultAt .trailingComma ('}' :: rest))
        | rest => .error (faultAt .keyNotString rest)
      else .error (faultAt .expectedCommaOrBrace (c :: rest))

/-- The text behind the colon of a field. -/
def readColon (cs : List Char) : Except JsonFault (List Char) :=
  match skipJsonBlanks cs with
  | [] => .error (faultAt .endInObject [])
  | ':' :: rest => .ok rest
  | rest => .error (faultAt .expectedColon rest)

/-- Reads the fields of an object up to its end, where `read` holds those before.  A key that comes
again sets its field again. -/
def readFields (item : List Char → ReadResult Value) :
    Nat → Bool → Fields → List Char → ReadResult Fields
  | 0, _, _, cs => .error (faultAt .endInObject cs)
  | fuel + 1, first, read, cs =>
      match nextKey first cs with
      | .error e => .error e
      | .ok (none, rest) => .ok (read, rest)
      | .ok (some cs, _) =>
          match readString cs with
          | .error e => .error e
          | .ok (key, cs) =>
              match readColon cs with
              | .error e => .error e
              | .ok cs =>
                  match item cs with
                  | .error e => .error e
                  | .ok (v, cs) => readFields item fuel false (Fields.set key v read) cs

/-- Reads a value in which lists and objects are nested up to `depth` levels. -/
def readValue : Nat → List Char → ReadResult Value
  | depth, cs =>
      match skipJsonBlanks cs with
      | [] => .error (faultAt .endInValue [])
      | c :: rest =>
          if c = 'n' then readWord .null "ull".toList rest
          else if c = 't' then readWord (.bool true) "rue".toList rest
          else if c = 'f' then readWord (.bool false) "alse".toList rest
          else if c = '-' then readNumber true rest
          else if isDigit c then readNumber false (c :: rest)
          else if c = '"' then (readString rest).map fun p => (.string p.1, p.2)
          else if c = '[' then
            match depth with
            | 0 => .error (faultAt .tooDeep (c :: rest))
            | depth + 1 =>
                (readItems (readValue depth) (rest.length + 1) true rest).map
                  fun p => (.array p.1, p.2)
          else if c = '{' then
            match depth with
            | 0 => .error (faultAt .tooDeep (c :: rest))
            | depth + 1 =>
                (readFields (readValue depth) (rest.length + 1) true [] rest).map
                  fun p => (.object p.1, p.2)
          else .error (faultAt .expectedValue (c :: rest))

/-- How deep lists and objects may be nested. -/
def nestingLimit : Nat := 127

/-- The value that a JSON text writes. -/
def Value.ofJson (text : String) : Except JsonFault Value :=
  match readValue nestingLimit text.toList with
  | .error e => .error e
  | .ok (v, rest) =>
      match skipJsonBlanks rest with
      | [] => .ok v
      | rest => .error (faultAt .trailingCharacters rest)

/-! ### Messages -/

/-- The line and the column behind the first `bytes` bytes of a text that starts at the given line
and column.  Columns count bytes. -/
def byteColumn (line col : Nat) : Nat → List Char → Nat × Nat
  | _, [] => (line, col)
  | bytes, c :: cs =>
      if bytes = 0 then (line, col)
      else if c = '\n' then byteColumn (line + 1) 0 (bytes - 1) cs
      else if c.utf8Size ≤ bytes then byteColumn line (col + c.utf8Size) (bytes - c.utf8Size) cs
      else (line, col + bytes)

/-- What a reader of `text` is told about a fault in it. -/
def JsonFault.message (e : JsonFault) (text : String) : String :=
  let cs := text.toList
  let (line, col) := byteColumn 1 0 (byteSize cs - e.left) cs
  e.cause.message ++ " at line " ++ toString line ++ " column " ++ toString col

end PageTemplate.Data
