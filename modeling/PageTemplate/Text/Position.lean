/-
**Places in a source text.**

A `Position` counts what lies before a place of a source text: its bytes, its line ends, and the
characters after the last line end.  All three start at zero.  A `Span` is the stretch between two
positions.

Main definitions:

* `PageTemplate.Text.Position`, `PageTemplate.Text.Span` — a place, and a stretch of a text;
* `PageTemplate.Text.Position.next`, `PageTemplate.Text.Position.after` — the place behind one
  character, and behind a run of them;
* `PageTemplate.Text.byteSize` — the bytes that a run of characters takes in UTF-8.

Main results:

* `PageTemplate.Text.Position.after_append` — reading two runs is reading one after the other;
* `PageTemplate.Text.Position.byte_after` — the byte offset grows by the bytes read.
-/

set_option relaxedAutoImplicit false
set_option autoImplicit false

namespace PageTemplate.Text

/-- The number of bytes of a run of characters in UTF-8. -/
def byteSize : List Char → Nat
  | [] => 0
  | c :: cs => c.utf8Size + byteSize cs

@[simp] theorem byteSize_nil : byteSize [] = 0 := rfl

@[simp] theorem byteSize_cons (c : Char) (cs : List Char) :
    byteSize (c :: cs) = c.utf8Size + byteSize cs := rfl

@[simp] theorem byteSize_append (cs ds : List Char) :
    byteSize (cs ++ ds) = byteSize cs + byteSize ds := by
  induction cs with
  | nil => simp
  | cons c cs ih => simp [ih, Nat.add_assoc]

/-- A place in a source text: the bytes before it, the line ends before it, and the characters
since the last of these. -/
structure Position where
  byte : Nat
  line : Nat
  col : Nat
  deriving DecidableEq, Repr

/-- A stretch of a source text, from `start` up to, not including, `stop`. -/
structure Span where
  start : Position
  stop : Position
  deriving DecidableEq, Repr

namespace Position

/-- The beginning of every text. -/
def origin : Position := ⟨0, 0, 0⟩

/-- The place behind the character `c` that stands at `p`.  Only a line feed ends a line. -/
def next (p : Position) (c : Char) : Position :=
  if c = '\n' then ⟨p.byte + c.utf8Size, p.line + 1, 0⟩
  else ⟨p.byte + c.utf8Size, p.line, p.col + 1⟩

/-- The place behind the characters `cs` that start at `p`. -/
def after (p : Position) (cs : List Char) : Position :=
  cs.foldl next p

@[simp] theorem after_nil (p : Position) : p.after [] = p := rfl

@[simp] theorem after_cons (p : Position) (c : Char) (cs : List Char) :
    p.after (c :: cs) = (p.next c).after cs := rfl

theorem after_append (p : Position) (cs ds : List Char) :
    p.after (cs ++ ds) = (p.after cs).after ds := by
  simp [after]

theorem byte_next (p : Position) (c : Char) : (p.next c).byte = p.byte + c.utf8Size := by
  unfold next
  split <;> rfl

theorem byte_after (p : Position) (cs : List Char) :
    (p.after cs).byte = p.byte + byteSize cs := by
  induction cs generalizing p with
  | nil => simp
  | cons c cs ih => rw [after_cons, ih, byte_next, byteSize_cons, Nat.add_assoc]

end Position

namespace Span

/-- The stretch without characters at `p`. -/
def empty (p : Position) : Span := ⟨p, p⟩

end Span

end PageTemplate.Text
