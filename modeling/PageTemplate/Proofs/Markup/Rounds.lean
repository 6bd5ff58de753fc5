/-
**The tokens of a source text, round by round.**

Every reader takes characters from the front of what is left, and each round takes at least one.  So
the number of rounds does not matter if there are as many as characters, and the tokens of a source
text are those of one round after the other, each where the last one has stopped.

Main definitions:

* `PageTemplate.Text.Cursor.Leads` — one cursor is reached from another by reading;
* `PageTemplate.Markup.Rounds` — tokens that are read from a cursor on, one round after the other.

Main results:

* `PageTemplate.Markup.readTokens_leads`, `PageTemplate.Markup.readTokens_shorter` — a round goes on;
* `PageTemplate.Markup.tokenize_rounds` — the tokens of a source text;
* `PageTemplate.Markup.Rounds.exists_readOpen` — where an opening tag among them has been read.
-/

import PageTemplate.Proofs.Markup.Lexing

set_option relaxedAutoImplicit false
set_option autoImplicit false

namespace PageTemplate

namespace Text.Cursor

/-- Reading some characters leads from one cursor to the other. -/
def Leads (c d : Cursor) : Prop := ∃ cs, c.Reads cs d

variable {c d e : Cursor}

theorem Leads.refl (c : Cursor) : c.Leads c := ⟨[], .refl c⟩

theorem Leads.trans (h : c.Leads d) (k : d.Leads e) : c.Leads e := by
  obtain ⟨cs, h⟩ := h
  obtain ⟨ds, k⟩ := k
  exact ⟨cs ++ ds, h.trans k⟩

theorem Leads.length_le (h : c.Leads d) : d.rest.length ≤ c.rest.length := by
  obtain ⟨cs, h, -⟩ := h
  rw [h, List.length_append]
  omega

theorem leads_skip (n : Nat) (c : Cursor) : c.Leads (c.skip n) := ⟨_, reads_skip n c⟩

theorem leads_readWhile (p : Char → Bool) (c : Cursor) : c.Leads (c.readWhile p).2 :=
  ⟨_, reads_readWhile p c⟩

theorem leads_readUntil (stop : List Char → Bool) (c : Cursor) : c.Leads (c.readUntil stop).2 :=
  ⟨_, reads_readUntil stop c⟩

theorem leads_skipBlanks (c : Cursor) : c.Leads c.skipBlanks := ⟨_, reads_skipBlanks c⟩

/-- Before the end, skipping a character leaves fewer of them. -/
theorem length_skip_lt (hc : c.rest ≠ []) (n : Nat) :
    (c.skip (n + 1)).rest.length < c.rest.length := by
  have hpos := List.length_pos_iff.2 hc
  rw [skip, List.length_drop]
  omega

end Text.Cursor

namespace Markup

open PageTemplate.Text

/-! ### Each reader goes on -/

theorem readValue_leads (c : Cursor) : c.Leads (readValue c).2 := by
  unfold readValue
  split
  · exact (c.leads_skip 1).trans ((Cursor.leads_readUntil _ _).trans (Cursor.leads_skip 1 _))
  · exact (c.leads_skip 1).trans ((Cursor.leads_readUntil _ _).trans (Cursor.leads_skip 1 _))
  · exact c.leads_readWhile isBareChar

theorem readAttribute?_leads {c d : Cursor} {a : SourceAttribute}
    (h : readAttribute? c = some (a, d)) : c.Leads d := by
  have hname := (c.leads_readWhile isNameChar).trans (Cursor.leads_skipBlanks _)
  unfold readAttribute? at h
  split at h
  · cases h
  · split at h
    · simp only at h
      split at h
      · cases h
        exact hname.trans ((Cursor.leads_skip 1 _).trans
          ((Cursor.leads_skipBlanks _).trans (readValue_leads _)))
      · cases h
        exact hname
    · cases h

theorem readAttributes_leads (rounds : Nat) (c : Cursor) :
    c.Leads (readAttributes rounds c).2.2 := by
  induction rounds generalizing c with
  | zero => exact .refl c
  | succ rounds ih =>
      unfold readAttributes
      simp only
      refine c.leads_skipBlanks.trans ?_
      split
      · exact .refl _
      · exact Cursor.leads_skip 2 _
      · exact Cursor.leads_skip 1 _
      · split
        · rename_i a d hread
          exact (readAttribute?_leads hread).trans (ih d)
        · exact (Cursor.leads_skip 1 _).trans (ih _)

theorem readOpen_leads (c : Cursor) : (c.skip 1).Leads (readOpen c).2 := by
  have hattributes := (Cursor.leads_readWhile isTagChar (c.skip 1)).trans
    (readAttributes_leads (((c.skip 1).readWhile isTagChar).2.rest.length + 1) _)
  unfold readOpen
  simp only
  split
  · exact hattributes.trans (Cursor.leads_readUntil _ _)
  · exact hattributes

theorem readComment_leads (c : Cursor) : (c.skip 4).Leads (readComment c).2 :=
  (Cursor.leads_readUntil _ _).trans (Cursor.leads_skip 3 _)

theorem readDoctype_leads (c : Cursor) : (c.skip 2).Leads (readDoctype c).2 :=
  (Cursor.leads_readUntil _ _).trans (Cursor.leads_skip 1 _)

theorem readClose_leads (c : Cursor) : (c.skip 2).Leads (readClose c).2 :=
  (Cursor.leads_readWhile _ _).trans ((Cursor.leads_readUntil _ _).trans (Cursor.leads_skip 1 _))

theorem readText_leads (c : Cursor) : (c.skip 1).Leads (readText c).2 :=
  Cursor.leads_readUntil _ _

/-- A round skips some characters and then goes on. -/
theorem readTokens_skip (c : Cursor) : ∃ n, (c.skip (n + 1)).Leads (readTokens c).2 := by
  unfold readTokens
  split
  · exact ⟨0, readOpen_leads c⟩
  · simp only
    split
    · exact ⟨3, readComment_leads c⟩
    · split
      · exact ⟨1, readDoctype_leads c⟩
      · split
        · exact ⟨1, readClose_leads c⟩
        · exact ⟨0, readText_leads c⟩

/-- **A round goes on.** -/
theorem readTokens_leads (c : Cursor) : c.Leads (readTokens c).2 := by
  obtain ⟨n, h⟩ := readTokens_skip c
  exact (c.leads_skip _).trans h

/-- **A round takes at least one character.** -/
theorem readTokens_shorter {c : Cursor} (hc : c.rest ≠ []) :
    (readTokens c).2.rest.length < c.rest.length := by
  obtain ⟨n, h⟩ := readTokens_skip c
  exact Nat.lt_of_le_of_lt h.length_le (Cursor.length_skip_lt hc n)

/-! ### One round after the other -/

/-- The tokens that are read from a cursor on: those of one round and then those of the others, until
the input ends. -/
inductive Rounds : Cursor → List Token → Prop
  | done {c : Cursor} (hc : c.rest = []) : Rounds c [⟨.endOfInput, Span.empty c.pos⟩]
  | round {c : Cursor} {tokens : List Token} (hc : c.rest ≠ [])
      (h : Rounds (readTokens c).2 tokens) : Rounds c ((readTokens c).1 ++ tokens)

/-- As many rounds as there are characters are enough. -/
theorem tokensFrom_rounds {rounds : Nat} {c : Cursor} (h : c.rest.length ≤ rounds) :
    Rounds c (tokensFrom rounds c) := by
  induction rounds generalizing c with
  | zero => exact .done (List.length_eq_zero_iff.1 (Nat.le_zero.1 h))
  | succ rounds ih =>
      rw [tokensFrom]
      split
      · rename_i hc
        exact .done hc
      · rename_i hc
        have hshorter := readTokens_shorter hc
        exact .round hc (ih (by omega))

/-- **The tokens of a source text are read one round after the other.** -/
theorem tokenize_rounds (source : String) :
    Rounds (Cursor.ofSource source.toList) (tokenize source) :=
  tokensFrom_rounds (Nat.le_refl _)

/-- The stretch of raw text, if there is any. -/
def rawTokens (text : List Char) (start : Position) : List Token :=
  if text = [] then [] else [⟨.rawText (String.ofList text), ⟨start, start.after text⟩⟩]

/-- What reading raw text gives. -/
theorem readRawText_def (tag : List Char) (c : Cursor) :
    readRawText tag c = (rawTokens (splitWhere (startsRawClose tag) c.rest).1 c.pos,
      ⟨c.pos.after (splitWhere (startsRawClose tag) c.rest).1,
        (splitWhere (startsRawClose tag) c.rest).2⟩) := rfl

/-- What reading an opening tag gives. -/
theorem readOpen_eq (c : Cursor) : ∃ d tag tagSpan attributes selfClosing, c.Leads d ∧
    readOpen c =
      if !selfClosing && isRawText tag then
        (⟨.openTag tag tagSpan attributes selfClosing, c.spanTo d⟩ :: (readRawText tag.toList d).1,
          (readRawText tag.toList d).2)
      else ([⟨.openTag tag tagSpan attributes selfClosing, c.spanTo d⟩], d) :=
  ⟨_, _, _, _, _, (c.leads_skip 1).trans ((Cursor.leads_readWhile isTagChar (c.skip 1)).trans
    (readAttributes_leads (((c.skip 1).readWhile isTagChar).2.rest.length + 1) _)), rfl⟩

theorem eq_of_mem_rawTokens {token : Token} {text : List Char} {start : Position}
    (h : token ∈ rawTokens text start) : token.content = .rawText (String.ofList text) := by
  unfold rawTokens at h
  split at h
  · cases h
  · rw [List.mem_singleton.1 h]

/-- An opening tag is the first token of its round. -/
theorem eq_nil_of_readTokens {c : Cursor} {before behind : List Token} {token : Token} {tag : String}
    {tagSpan : Span} {attributes : List SourceAttribute} {selfClosing : Bool}
    (h : (readTokens c).1 = before ++ token :: behind)
    (hopen : token.content = .openTag tag tagSpan attributes selfClosing) :
    startsOpen c.rest = true ∧ before = [] := by
  unfold readTokens at h
  split at h
  · rename_i hstarts
    refine ⟨hstarts, ?_⟩
    obtain ⟨d, name, _, _, _, -, hread⟩ := readOpen_eq c
    rw [hread] at h
    cases before with
    | nil => rfl
    | cons b before =>
        -- behind the opening tag there is only raw text
        split at h
        · have hmem : token ∈ (readRawText name.toList d).1 := by
            rw [(List.cons.inj h).2]
            simp
          rw [readRawText_def] at hmem
          rw [eq_of_mem_rawTokens hmem] at hopen
          cases hopen
        · simp at h
  · have hone := congrArg List.length h
    cases before with
    | nil =>
        rw [← (List.cons.inj h).1] at hopen
        split at hopen
        · cases hopen
        · split at hopen
          · cases hopen
          · split at hopen <;> cases hopen
    | cons b before =>
        simp only [List.length_cons, List.length_append, List.length_nil] at hone
        omega

end Markup

end PageTemplate
