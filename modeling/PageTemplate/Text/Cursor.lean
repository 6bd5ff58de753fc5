/-
**Reading a text from front to back.**

A `Cursor` is a position in a source text together with the characters from there on.  Every way of
reading takes characters from the front and moves the position behind them, so the position is
always the one that the characters read so far lead to.

Main definitions:

* `PageTemplate.Text.splitWhere` — the part of a text before the first place that passes a test,
  and the rest;
* `PageTemplate.Text.Cursor` — a position, and what follows it;
* `PageTemplate.Text.Cursor.skip`, `PageTemplate.Text.Cursor.readWhile`,
  `PageTemplate.Text.Cursor.readUntil` — the ways of reading;
* `PageTemplate.Text.Cursor.Reads` — reading given characters leads from one cursor to another.

Main results:

* `PageTemplate.Text.splitWhere_append` — the two parts make up the text;
* `PageTemplate.Text.splitWhere_before`, `PageTemplate.Text.splitWhere_stop` — the first place that
  passes the test is where the second part starts;
* `PageTemplate.Text.Cursor.reads_skip`, `PageTemplate.Text.Cursor.reads_readWhile`,
  `PageTemplate.Text.Cursor.reads_readUntil` — what each way of reading takes.
-/

import PageTemplate.Text.Position
import PageTemplate.Text.Blank

set_option relaxedAutoImplicit false
set_option autoImplicit false

namespace PageTemplate.Text

/-! ### Cutting a text -/

/-- The characters before the first place at which `stop` holds of what follows, and those from
there on.  Without such a place the whole text comes first. -/
def splitWhere (stop : List Char → Bool) : List Char → List Char × List Char
  | [] => ([], [])
  | c :: cs =>
      if stop (c :: cs) then ([], c :: cs)
      else (c :: (splitWhere stop cs).1, (splitWhere stop cs).2)

@[simp] theorem splitWhere_nil (stop : List Char → Bool) : splitWhere stop [] = ([], []) := rfl

theorem splitWhere_cons_of_stop {stop : List Char → Bool} {c : Char} {cs : List Char}
    (h : stop (c :: cs) = true) : splitWhere stop (c :: cs) = ([], c :: cs) := by
  simp [splitWhere, h]

theorem splitWhere_cons_of_not {stop : List Char → Bool} {c : Char} {cs : List Char}
    (h : stop (c :: cs) = false) :
    splitWhere stop (c :: cs) = (c :: (splitWhere stop cs).1, (splitWhere stop cs).2) := by
  simp [splitWhere, h]

/-- Nothing is lost in cutting. -/
theorem splitWhere_append (stop : List Char → Bool) (cs : List Char) :
    (splitWhere stop cs).1 ++ (splitWhere stop cs).2 = cs := by
  induction cs with
  | nil => rfl
  | cons c cs ih =>
      cases h : stop (c :: cs) with
      | true => simp [splitWhere_cons_of_stop h]
      | false => simp [splitWhere_cons_of_not h, ih]

/-- The second part starts where the test holds, or it is empty. -/
theorem splitWhere_stop (stop : List Char → Bool) (cs : List Char) :
    (splitWhere stop cs).2 = [] ∨ stop (splitWhere stop cs).2 = true := by
  induction cs with
  | nil => exact Or.inl rfl
  | cons c cs ih =>
      cases h : stop (c :: cs) with
      | true => exact Or.inr (by simpa [splitWhere_cons_of_stop h] using h)
      | false => simpa [splitWhere_cons_of_not h] using ih

/-- The test holds nowhere in the first part. -/
theorem splitWhere_before {stop : List Char → Bool} {cs before behind : List Char} {c : Char}
    (h : (splitWhere stop cs).1 = before ++ c :: behind) :
    stop (c :: behind ++ (splitWhere stop cs).2) = false := by
  induction cs generalizing before with
  | nil => simp at h
  | cons d ds ih =>
      cases hd : stop (d :: ds) with
      | true => simp [splitWhere_cons_of_stop hd] at h
      | false =>
          rw [splitWhere_cons_of_not hd] at h ⊢
          cases before with
          | nil =>
              obtain ⟨rfl, rfl⟩ := List.cons.inj h
              rw [List.cons_append, splitWhere_append, hd]
          | cons b before => exact ih (List.cons.inj h).2

/-! ### Cursors -/

/-- A place in a source text, and the characters from there on. -/
structure Cursor where
  pos : Position
  rest : List Char
  deriving DecidableEq, Repr

namespace Cursor

/-- The beginning of a text. -/
def ofSource (cs : List Char) : Cursor := ⟨.origin, cs⟩

/-- The cursor behind the next `n` characters, or at the end if there are fewer. -/
def skip (n : Nat) (c : Cursor) : Cursor :=
  ⟨c.pos.after (c.rest.take n), c.rest.drop n⟩

/-- The longest run of characters that pass `p`, and the cursor behind it. -/
def readWhile (p : Char → Bool) (c : Cursor) : List Char × Cursor :=
  (c.rest.takeWhile p, ⟨c.pos.after (c.rest.takeWhile p), c.rest.dropWhile p⟩)

/-- The characters before the first place at which `stop` holds of what follows, and the cursor at
that place. -/
def readUntil (stop : List Char → Bool) (c : Cursor) : List Char × Cursor :=
  let parts := splitWhere stop c.rest
  (parts.1, ⟨c.pos.after parts.1, parts.2⟩)

/-- The cursor behind the blanks that come next. -/
def skipBlanks (c : Cursor) : Cursor :=
  (c.readWhile isBlank).2

/-- The stretch from one cursor to another. -/
def spanTo (c d : Cursor) : Span := ⟨c.pos, d.pos⟩

/-- Reading the characters `cs` leads from `c` to `d`. -/
def Reads (c : Cursor) (cs : List Char) (d : Cursor) : Prop :=
  c.rest = cs ++ d.rest ∧ d.pos = c.pos.after cs

theorem Reads.refl (c : Cursor) : c.Reads [] c := ⟨rfl, rfl⟩

theorem Reads.trans {c d e : Cursor} {cs ds : List Char} (h : c.Reads cs d) (k : d.Reads ds e) :
    c.Reads (cs ++ ds) e := by
  refine ⟨?_, ?_⟩
  · rw [h.1, k.1, List.append_assoc]
  · rw [k.2, h.2, Position.after_append]

theorem reads_skip (n : Nat) (c : Cursor) : c.Reads (c.rest.take n) (c.skip n) :=
  ⟨(List.take_append_drop n c.rest).symm, rfl⟩

theorem reads_readWhile (p : Char → Bool) (c : Cursor) :
    c.Reads (c.readWhile p).1 (c.readWhile p).2 :=
  ⟨List.takeWhile_append_dropWhile.symm, rfl⟩

theorem reads_readUntil (stop : List Char → Bool) (c : Cursor) :
    c.Reads (c.readUntil stop).1 (c.readUntil stop).2 :=
  ⟨(splitWhere_append stop c.rest).symm, rfl⟩

theorem reads_skipBlanks (c : Cursor) : c.Reads (c.readWhile isBlank).1 c.skipBlanks :=
  reads_readWhile isBlank c

end Cursor

end PageTemplate.Text
