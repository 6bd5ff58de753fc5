/-
**Stretches that can be pointed at.**

Opening tags and attributes are what messages point at.  Each starts with a character that can be seen,
and none of them stops between a carriage return and a line feed: an opening tag ends with its
greater-than sign, and an attribute ends with a character of its name, with a quote, with a character of
a value without quotes or, if such a value is empty, in front of something that is not blank.  Otherwise
they end with the input.

Main definitions:

* `PageTemplate.Text.Cursor.ReadsClear` — reading some characters does not stop inside a line end,
  whatever has been read before;
* `PageTemplate.Markup.Token.Legible` — an opening tag and its attributes can be pointed at.

Main results:

* `PageTemplate.Markup.readAttribute?_clear` — where an attribute stops;
* `PageTemplate.Markup.readAttributes_clear` — where an opening tag stops, with rounds enough;
* `PageTemplate.Markup.tokenize_legible` — the opening tags of a source text can be pointed at.
-/

import PageTemplate.Proofs.Diagnostic.Excerpts

set_option relaxedAutoImplicit false
set_option autoImplicit false

namespace PageTemplate

namespace Text.Cursor

/-! ### Where reading stops -/

/-- Reading the characters `cs` leads from `c` to `d`, and if they do not end with a character other than
a carriage return, no line feed follows. -/
structure ReadsClear (c : Cursor) (cs : List Char) (d : Cursor) : Prop where
  reads : c.Reads cs d
  clear : (∀ x ∈ cs.getLast?, x = '\r') → d.rest.head? ≠ some '\n'

variable {source cs ds : List Char} {c d e : Cursor} {x : Char}

/-- What has been read before does not matter. -/
theorem ReadsClear.trans (h : c.Reads cs d) (k : d.ReadsClear ds e) :
    c.ReadsClear (cs ++ ds) e := by
  refine ⟨h.trans k.reads, fun hlast => k.clear fun x hx => hlast x ?_⟩
  rw [List.getLast?_append, Option.mem_def.1 hx]
  rfl

theorem Reads.clear_of_last (h : c.Reads cs d) (hlast : cs.getLast? = some x) (hx : x ≠ '\r') :
    c.ReadsClear cs d :=
  ⟨h, fun hreturn => absurd (hreturn x hlast) hx⟩

theorem Reads.clear_of_next (h : c.Reads cs d) (hnext : d.rest.head? ≠ some '\n') :
    c.ReadsClear cs d :=
  ⟨h, fun _ => hnext⟩

/-- Passing over a character, if there is one, and it is not a carriage return. -/
theorem readsClear_skip (hnext : ∀ y ∈ c.rest.head?, y ≠ '\r') :
    c.ReadsClear (c.rest.take 1) (c.skip 1) := by
  refine ⟨c.reads_skip 1, fun hlast hfeed => ?_⟩
  cases hrest : c.rest with
  | nil => simp [skip, hrest] at hfeed
  | cons y rest => exact hnext y (by rw [hrest]; rfl) (hlast y (by rw [hrest]; rfl))

/-- What is read from a place of the source, beginning with a character of a line, can be pointed at. -/
theorem IsAt.legible {first : Char} {more : List Char} (h : c.IsAt source)
    (hreads : c.ReadsClear (first :: more) d) (hfirst : first ≠ '\n') (hreturn : first ≠ '\r') :
    (c.spanTo d).Legible source := by
  obtain ⟨before, hsource, hpos⟩ := h
  obtain ⟨⟨hrest, hd⟩, hclear⟩ := hreads
  refine ⟨before, first, more, d.rest, ?_, ?_, hfirst, hreturn, fun hlast => hclear fun x hx => ?_⟩
  · rw [hsource, hrest, List.append_assoc]
  · rw [spanTo, hd, hpos, Position.after_behind]
  · exact (Option.some.inj (hlast.symm.trans hx)).symm

/-- No blank follows blanks that have been passed over. -/
theorem head?_skipBlanks (c : Cursor) : ∀ x ∈ c.skipBlanks.rest.head?, isBlank x = false := by
  intro x hx
  have hstop := List.head?_dropWhile_not isBlank c.rest
  rw [show c.rest.dropWhile isBlank = c.skipBlanks.rest from rfl, Option.mem_def.1 hx] at hstop
  exact hstop

end Text.Cursor

namespace Markup

open PageTemplate.Text

/-! ### Attributes -/

section Attributes

variable {source : List Char} {c d : Cursor} {a : SourceAttribute}

/-- A value between quotes stops behind a quote or at the end of the input. -/
theorem readUntil_quote_clear (quote : Char) (hquote : quote ≠ '\r') (c : Cursor) :
    ∃ cs, c.ReadsClear cs ((c.readUntil ([quote].isPrefixOf ·)).2.skip 1) := by
  refine ⟨_, .trans (c.reads_readUntil _) (Cursor.readsClear_skip fun y hy => ?_)⟩
  rcases splitWhere_stop ([quote].isPrefixOf ·) c.rest with hnil | hstop
  · rw [show (c.readUntil ([quote].isPrefixOf ·)).2.rest = [] from hnil] at hy
    cases hy
  · obtain ⟨rest, hrest⟩ := List.isPrefixOf_iff_prefix.1 hstop
    rw [show (c.readUntil ([quote].isPrefixOf ·)).2.rest = quote :: rest from hrest.symm] at hy
    cases hy
    exact hquote

/-- A value stops behind a quote, behind a character that is not blank, or where it starts. -/
theorem readValue_clear (c : Cursor) (hnext : ∀ x ∈ c.rest.head?, isBlank x = false) :
    ∃ cs, c.ReadsClear cs (readValue c).2 := by
  unfold readValue
  split
  · obtain ⟨cs, hcs⟩ := readUntil_quote_clear '"' (by decide) (c.skip 1)
    exact ⟨_, .trans (c.reads_skip 1) hcs⟩
  · obtain ⟨cs, hcs⟩ := readUntil_quote_clear '\'' (by decide) (c.skip 1)
    exact ⟨_, .trans (c.reads_skip 1) hcs⟩
  · have hreads := c.reads_readWhile isBareChar
    refine ⟨_, hreads, fun hlast hfeed => ?_⟩
    cases hvalue : (c.readWhile isBareChar).1.getLast? with
    | none =>
        have hnil := List.getLast?_eq_none_iff.1 hvalue
        have hrest : (c.readWhile isBareChar).2.rest = c.rest := by
          rw [hreads.1, hnil, List.nil_append]
        exact absurd (hnext '\n' (hrest ▸ hfeed)) (by decide)
    | some x =>
        have hbare : isBareChar x = true := List.mem_takeWhile_imp (List.mem_of_getLast? hvalue)
        rw [hlast x hvalue] at hbare
        exact absurd hbare (by decide)

/-- **Where an attribute stops.**  It begins where it is read, with a character of its name. -/
theorem readAttribute?_clear (h : readAttribute? c = some (a, d)) :
    ∃ first more e, c.ReadsClear (first :: more) e ∧ isNameStart first = true ∧
      a.span = c.spanTo e := by
  have hname := c.reads_readWhile isNameChar
  unfold readAttribute? at h
  split at h
  · cases h
  · rename_i first rest hrest
    split at h
    · rename_i hstart
      have hcons : (c.readWhile isNameChar).1 = first :: rest.takeWhile isNameChar := by
        rw [Cursor.readWhile, hrest, List.takeWhile_cons_of_pos (isNameChar_of_isNameStart hstart)]
      rw [hcons] at hname
      simp only at h
      split at h
      · cases h
        obtain ⟨value, hvalue⟩ := readValue_clear
          ((c.readWhile isNameChar).2.skipBlanks.skip 1).skipBlanks (Cursor.head?_skipBlanks _)
        exact ⟨first, _, _, .trans hname (.trans (Cursor.reads_skipBlanks _)
          (.trans (Cursor.reads_skip 1 _) (.trans (Cursor.reads_skipBlanks _) hvalue))), hstart, rfl⟩
      · cases h
        have hlast := List.getLast?_eq_some_getLast
          (List.cons_ne_nil first (rest.takeWhile isNameChar))
        have hmem := List.mem_of_getLast? hlast
        refine ⟨first, _, _, hname.clear_of_last hlast fun hreturn => ?_, hstart, rfl⟩
        rw [hreturn, ← hcons] at hmem
        have hchar : isNameChar '\r' = true := List.mem_takeWhile_imp hmem
        exact absurd hchar (by decide)
    · cases h

/-- An attribute can be pointed at. -/
theorem readAttribute?_legible (hc : c.IsAt source) (h : readAttribute? c = some (a, d)) :
    a.span.Legible source := by
  obtain ⟨first, more, e, hreads, hstart, hspan⟩ := readAttribute?_clear h
  have hblank := isBlank_false_of_isNameStart hstart
  rw [hspan]
  refine hc.legible hreads ?_ ?_
  · rintro rfl
    exact absurd hblank (by decide)
  · rintro rfl
    exact absurd hblank (by decide)

theorem readAttribute?_shorter (h : readAttribute? c = some (a, d)) :
    d.rest.length < c.rest.length := by
  obtain ⟨e, more, hreads, hne, hleads, -⟩ := readAttribute?_reads h
  have hpos := List.length_pos_iff.2 hne
  have hle := hleads.length_le
  rw [hreads.1, List.length_append, List.length_append]
  omega

/-- The attributes of an opening tag can be pointed at. -/
theorem readAttributes_legible (rounds : Nat) (hc : c.IsAt source) :
    ∀ a ∈ (readAttributes rounds c).1, a.span.Legible source := by
  induction rounds generalizing c with
  | zero => simp [readAttributes]
  | succ rounds ih =>
      have hblanks := hc.leads c.leads_skipBlanks
      unfold readAttributes
      simp only
      split
      · simp
      · simp
      · simp
      · split
        · rename_i a e hread
          intro b hb
          rcases List.mem_cons.1 hb with rfl | hb
          · exact readAttribute?_legible hblanks hread
          · exact ih (hblanks.leads (readAttribute?_leads hread)) b hb
        · exact ih (hblanks.leads (Cursor.leads_skip 1 _))

/-- **Where an opening tag stops**: with as many rounds as characters it stops behind a greater-than sign
or at the end of the input. -/
theorem readAttributes_clear {rounds : Nat} (h : c.rest.length < rounds) :
    ∃ cs, c.ReadsClear cs (readAttributes rounds c).2.2 := by
  induction rounds generalizing c with
  | zero => exact absurd h (Nat.not_lt_zero _)
  | succ rounds ih =>
      have hblanks := c.reads_skipBlanks
      have hle := c.leads_skipBlanks.length_le
      -- the later rounds read what is left, since something has been read before them
      have hlater : ∀ {e : Cursor}, c.skipBlanks.Leads e →
          e.rest.length < c.skipBlanks.rest.length →
          ∃ cs, c.ReadsClear cs (readAttributes rounds e).2.2 := by
        rintro e ⟨ds, hds⟩ hlt
        obtain ⟨cs, hcs⟩ := ih (c := e) (by omega)
        exact ⟨_, .trans hblanks (.trans hds hcs)⟩
      unfold readAttributes
      simp only
      split
      · rename_i hrest
        exact ⟨_, hblanks.clear_of_next (by simp [hrest])⟩
      · rename_i hrest
        have hend : c.skipBlanks.Reads ['/', '>'] (c.skipBlanks.skip 2) := by
          simpa [hrest] using c.skipBlanks.reads_skip 2
        exact ⟨_, .trans hblanks (hend.clear_of_last rfl (by decide))⟩
      · rename_i hrest
        have hend : c.skipBlanks.Reads ['>'] (c.skipBlanks.skip 1) := by
          simpa [hrest] using c.skipBlanks.reads_skip 1
        exact ⟨_, .trans hblanks (hend.clear_of_last rfl (by decide))⟩
      · rename_i hne _ _
        split
        · rename_i a e hread
          exact hlater (readAttribute?_leads hread) (readAttribute?_shorter hread)
        · exact hlater (Cursor.leads_skip 1 _) (Cursor.length_skip_lt hne 0)

end Attributes

/-! ### Opening tags -/

/-- If the token is an opening tag, it can be pointed at, and so can its attributes. -/
def Token.Legible (source : List Char) (token : Token) : Prop :=
  ∀ tag tagSpan attributes selfClosing,
    token.content = .openTag tag tagSpan attributes selfClosing →
      token.span.Legible source ∧ ∀ a ∈ attributes, a.span.Legible source

variable {source : List Char} {c : Cursor} {tokens : List Token}

/-- What reading an opening tag gives can be pointed at. -/
theorem readOpen_legible (hc : c.IsAt source) (hopen : startsOpen c.rest = true) :
    ∀ token ∈ (readOpen c).1.head?, token.Legible source := by
  have hname := (c.reads_skip 1).trans ((c.skip 1).reads_readWhile isTagChar)
  rw [take_of_startsOpen hopen] at hname
  have hattributes := readAttributes_legible
    (((c.skip 1).readWhile isTagChar).2.rest.length + 1) (hc.reads hname)
  obtain ⟨cs, hclear⟩ := readAttributes_clear (c := ((c.skip 1).readWhile isTagChar).2)
    (Nat.lt_succ_self _)
  have hspan := hc.legible (.trans hname hclear) (by decide) (by decide)
  intro token htoken tag tagSpan attributes selfClosing hcontent
  unfold readOpen at htoken
  simp only at htoken
  split at htoken <;>
  · cases htoken
    cases hcontent
    exact ⟨hspan, hattributes⟩

/-- What a round reads can be pointed at. -/
theorem readTokens_legible (hc : c.IsAt source) : ∀ token ∈ (readTokens c).1,
    token.Legible source := by
  intro token htoken tag tagSpan attributes selfClosing hcontent
  obtain ⟨before, behind, hround⟩ := List.append_of_mem htoken
  obtain ⟨hopen, rfl⟩ := eq_nil_of_readTokens hround hcontent
  rw [readTokens, if_pos hopen] at hround
  exact readOpen_legible hc hopen token (by rw [hround]; rfl) tag tagSpan attributes selfClosing
    hcontent

theorem Rounds.legible (h : Rounds c tokens) (hc : c.IsAt source) :
    ∀ token ∈ tokens, token.Legible source := by
  induction h with
  | done =>
      intro token htoken
      rw [List.mem_singleton.1 htoken]
      rintro _ _ _ _ ⟨⟩
  | @round c more _ _ ih =>
      intro token htoken
      rcases List.mem_append.1 htoken with htoken | htoken
      · exact readTokens_legible hc token htoken
      · exact ih (hc.leads (readTokens_leads c)) token htoken

/-- **The opening tags of a source text can be pointed at**, and so can their attributes. -/
theorem tokenize_legible (source : String) :
    ∀ token ∈ tokenize source, token.Legible source.toList :=
  (tokenize_rounds source).legible (Cursor.isAt_ofSource source.toList)

end Markup

end PageTemplate
