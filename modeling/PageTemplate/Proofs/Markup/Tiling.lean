/-
**Tokens tile the source.**

The tokens of a source text follow one another without a gap and without an overlap, from its
beginning to its end.  Wherever a token names a place, this is a place between two characters of the
source, and what it says of line and column is what counting gives.  The places are those of cursors,
and a cursor knows what has been read: so it is enough to say of each reader which characters it takes.

Main definitions:

* `PageTemplate.Text.Position.behind` — the place behind some characters, by counting;
* `PageTemplate.Text.Span.Covers` — the characters of a source that a stretch of it has;
* `PageTemplate.Markup.Tiles` — stretches that follow one another;
* `PageTemplate.Markup.Token.Fits` — a token says what the source has at its place;
* `PageTemplate.Markup.Tiling` — tokens that tile a source.

Main results:

* `PageTemplate.Text.Position.after_behind` — what is read behind a place is counted on;
* `PageTemplate.Markup.readAttributes_lie` — where the attributes of an opening tag stand;
* `PageTemplate.Markup.readTokens_tiles` — one round tiles what it takes;
* `PageTemplate.Markup.tokenize_tiling` — so do all of them.
-/

import Mathlib.Data.List.Chain
import PageTemplate.Proofs.Markup.Rounds

set_option relaxedAutoImplicit false
set_option autoImplicit false

namespace PageTemplate

namespace Text

/-! ### Counting -/

namespace Position

/-- The place behind the characters `before` of a source text: their bytes, the line ends among them,
and the characters behind the last line end. -/
def behind (before : List Char) : Position :=
  ⟨byteSize before, before.count '\n', (before.reverse.takeWhile (· ≠ '\n')).length⟩

theorem next_behind (before : List Char) (c : Char) :
    (behind before).next c = behind (before ++ [c]) := by
  by_cases hc : c = '\n'
  · simp [next, behind, hc]
  · simp [next, behind, hc]

theorem after_behind (before cs : List Char) :
    (behind before).after cs = behind (before ++ cs) := by
  induction cs generalizing before with
  | nil => simp
  | cons c cs ih => rw [after_cons, next_behind, ih, List.append_assoc, List.singleton_append]

/-- A place between two characters of the source, or at one of its ends. -/
def IsPlace (source : List Char) (p : Position) : Prop :=
  ∃ before later, source = before ++ later ∧ p = behind before

end Position

namespace Span

/-- The stretch is the one that the characters `slice` have in the source. -/
def Covers (source : List Char) (span : Span) (slice : List Char) : Prop :=
  ∃ before later, source = before ++ slice ++ later ∧
    span = ⟨.behind before, .behind (before ++ slice)⟩

/-- The stretch has some characters, and lies between two places. -/
structure Within (span : Span) (lo hi : Position) : Prop where
  from_lo : lo.byte ≤ span.start.byte
  nonempty : span.start.byte < span.stop.byte
  to_hi : span.stop.byte ≤ hi.byte

/-- The ends of the stretch. -/
def positions (span : Span) : List Position := [span.start, span.stop]

variable {source slice : List Char} {span : Span} {lo lo' hi hi' : Position}

theorem Covers.isPlace (h : span.Covers source slice) :
    ∀ p ∈ span.positions, p.IsPlace source := by
  obtain ⟨before, later, hsource, rfl⟩ := h
  intro p hp
  rcases List.mem_pair.1 hp with rfl | rfl
  · exact ⟨before, slice ++ later, by rw [hsource, List.append_assoc], rfl⟩
  · exact ⟨before ++ slice, later, hsource, rfl⟩

theorem Within.mono (h : span.Within lo hi) (hlo : lo'.byte ≤ lo.byte) (hhi : hi.byte ≤ hi'.byte) :
    span.Within lo' hi' :=
  ⟨hlo.trans h.from_lo, h.nonempty, h.to_hi.trans hhi⟩

end Span

namespace Cursor

/-- The cursor stands at a place of the source. -/
def IsAt (source : List Char) (c : Cursor) : Prop :=
  ∃ before, source = before ++ c.rest ∧ c.pos = .behind before

variable {source cs : List Char} {c d : Cursor}

theorem isAt_ofSource (source : List Char) : (ofSource source).IsAt source :=
  ⟨[], rfl, rfl⟩

theorem IsAt.reads (h : c.IsAt source) (hreads : c.Reads cs d) : d.IsAt source := by
  obtain ⟨before, hsource, hpos⟩ := h
  obtain ⟨hrest, hd⟩ := hreads
  refine ⟨before ++ cs, ?_, ?_⟩
  · rw [hsource, hrest, List.append_assoc]
  · rw [hd, hpos, Position.after_behind]

theorem IsAt.leads (h : c.IsAt source) (hleads : c.Leads d) : d.IsAt source :=
  h.reads hleads.choose_spec

theorem IsAt.covers (h : c.IsAt source) (hreads : c.Reads cs d) :
    (c.spanTo d).Covers source cs := by
  obtain ⟨before, hsource, hpos⟩ := h
  obtain ⟨hrest, hd⟩ := hreads
  refine ⟨before, d.rest, ?_, ?_⟩
  · rw [hsource, hrest, List.append_assoc]
  · rw [spanTo, hd, hpos, Position.after_behind]

/-- At the end of the source all of it has been read. -/
theorem IsAt.pos_of_nil (h : c.IsAt source) (hc : c.rest = []) : c.pos = .behind source := by
  obtain ⟨before, hsource, hpos⟩ := h
  rw [hc, List.append_nil] at hsource
  rw [hpos, hsource]

theorem Leads.byte_le (h : c.Leads d) : c.pos.byte ≤ d.pos.byte := by
  obtain ⟨cs, -, hd⟩ := h
  rw [hd, Position.byte_after]
  omega

/-- Reading some character goes on by at least a byte. -/
theorem Reads.byte_lt (h : c.Reads cs d) (hcs : cs ≠ []) : c.pos.byte < d.pos.byte := by
  cases cs with
  | nil => exact absurd rfl hcs
  | cons x cs =>
      have hx := x.utf8Size_pos
      rw [h.2, Position.byte_after, byteSize_cons]
      omega

theorem Leads.byte_lt (h : c.Leads d) (hlt : d.rest.length < c.rest.length) :
    c.pos.byte < d.pos.byte := by
  obtain ⟨cs, hreads⟩ := h
  refine hreads.byte_lt ?_
  rintro rfl
  rw [hreads.1] at hlt
  exact absurd hlt (Nat.lt_irrefl _)

end Cursor

end Text

namespace Markup

open PageTemplate.Text

/-! ### What it is to tile a source -/

/-- The stretches follow one another from `lo` to `hi`, and none of them is empty. -/
def Tiles : Position → List Span → Position → Prop
  | lo, [], hi => lo = hi
  | lo, span :: spans, hi =>
      span.start = lo ∧ lo.byte < span.stop.byte ∧ Tiles span.stop spans hi

theorem Tiles.append {lo mid hi : Position} {spans more : List Span} (h : Tiles lo spans mid)
    (k : Tiles mid more hi) : Tiles lo (spans ++ more) hi := by
  induction spans generalizing lo with
  | nil =>
      cases h
      exact k
  | cons span spans ih => exact ⟨h.1, h.2.1, ih h.2.2⟩

/-- The attribute stands between two places of the source, and its name comes first. -/
structure SourceAttribute.LiesIn (source : List Char) (lo hi : Position) (a : SourceAttribute) :
    Prop where
  within : a.span.Within lo hi
  name_first : ∃ more, a.span.Covers source (a.name.toList ++ more)

/-- The places that a token names. -/
def Token.positions (token : Token) : List Position :=
  token.span.positions ++
    match token.content with
    | .openTag _ tagSpan attributes _ =>
        tagSpan.positions ++ attributes.flatMap fun a => a.span.positions
    | _ => []

/-- The token is one of text. -/
def Token.IsText (token : Token) : Prop := ∃ text, token.content = .text text

/-- What the content of a token says of the stretch that it is read from.  Text is what the source
has there, with its references replaced, and raw text is what it has there.  An opening tag starts
with the stretch of its name, and behind it its attributes stand one after the other. -/
def Token.Content.Fits (source : List Char) (span : Span) : Token.Content → Prop
  | .text shown => ∃ slice, span.Covers source slice ∧ shown = String.ofList (decode slice)
  | .rawText shown => span.Covers source shown.toList
  | .openTag tag tagSpan attributes _ =>
      (∃ name, tagSpan.Covers source ('<' :: name) ∧ tag = lowerTag name) ∧
        tagSpan.start = span.start ∧ tagSpan.stop.byte ≤ span.stop.byte ∧
        (∀ a ∈ attributes, a.LiesIn source tagSpan.stop span.stop) ∧
        attributes.Pairwise fun a b => a.span.stop.byte ≤ b.span.start.byte
  | _ => True

/-- The token has a stretch of the source, and its content fits. -/
structure Token.Fits (source : List Char) (token : Token) : Prop where
  covers : ∃ slice, token.span.Covers source slice
  content : token.content.Fits source token.span

/-- The tokens tile the source. -/
structure Tiling (source : List Char) (tokens : List Token) : Prop where
  /-- The end of input stands at the end, and nowhere else; the others reach from the beginning to
  it. -/
  tiles : ∃ body, tokens = body ++ [⟨.endOfInput, Span.empty (.behind source)⟩] ∧
    (∀ token ∈ body, token.content ≠ .endOfInput) ∧
    Tiles .origin (body.map fun token => token.span) (.behind source)
  /-- No text follows a text. -/
  apart : tokens.IsChain fun t u => ¬(t.IsText ∧ u.IsText)
  /-- All places are places of the source. -/
  places : ∀ token ∈ tokens, ∀ p ∈ token.positions, p.IsPlace source
  /-- What a token says is what the source has there. -/
  fits : ∀ token ∈ tokens, token.content.Fits source token.span

/-- A token that fits names only places of the source. -/
theorem Token.Fits.isPlace {source : List Char} {token : Token} (h : token.Fits source) :
    ∀ p ∈ token.positions, p.IsPlace source := by
  obtain ⟨⟨slice, hspan⟩, hcontent⟩ := h
  intro p hp
  rcases List.mem_append.1 hp with hp | hp
  · exact hspan.isPlace p hp
  · split at hp
    · rename_i tag tagSpan attributes selfClosing heq
      rw [heq] at hcontent
      obtain ⟨⟨name, hname, -⟩, -, -, hattributes, -⟩ := hcontent
      rcases List.mem_append.1 hp with hp | hp
      · exact hname.isPlace p hp
      · obtain ⟨a, ha, hp⟩ := List.mem_flatMap.1 hp
        obtain ⟨more, hcovers⟩ := (hattributes a ha).name_first
        exact hcovers.isPlace p hp
    · cases hp

/-! ### Attributes -/

section Attributes

variable {source : List Char} {c d : Cursor} {a : SourceAttribute}

/-- An attribute begins where it is read, with its name, and ends before what is read next. -/
theorem readAttribute?_reads (h : readAttribute? c = some (a, d)) :
    ∃ e more, c.Reads (a.name.toList ++ more) e ∧ a.name.toList ≠ [] ∧ e.Leads d ∧
      a.span = c.spanTo e := by
  have hname := Cursor.reads_readWhile isNameChar c
  unfold readAttribute? at h
  split at h
  · cases h
  · rename_i first rest hrest
    split at h
    · rename_i hstart
      have hne : (c.readWhile isNameChar).1 ≠ [] := by
        rw [Cursor.readWhile, hrest, List.takeWhile_cons_of_pos (isNameChar_of_isNameStart hstart)]
        exact List.cons_ne_nil _ _
      simp only at h
      split at h
      · cases h
        obtain ⟨more, hmore⟩ : (c.readWhile isNameChar).2.Leads
            (readValue ((c.readWhile isNameChar).2.skipBlanks.skip 1).skipBlanks).2 :=
          (Cursor.leads_skipBlanks _).trans ((Cursor.leads_skip 1 _).trans
            ((Cursor.leads_skipBlanks _).trans (readValue_leads _)))
        exact ⟨_, more, by simpa using hname.trans hmore, by simpa using hne, .refl _, rfl⟩
      · cases h
        exact ⟨_, [], by simpa using hname, by simpa using hne, Cursor.leads_skipBlanks _, rfl⟩
    · cases h

/-- An attribute stands between where it is read and what is read next. -/
theorem readAttribute?_lies (hc : c.IsAt source) (h : readAttribute? c = some (a, d)) :
    a.LiesIn source c.pos d.pos := by
  obtain ⟨e, more, hreads, hne, hleads, hspan⟩ := readAttribute?_reads h
  refine ⟨⟨?_, ?_, ?_⟩, more, ?_⟩
  · exact (congrArg (fun span => span.start.byte) hspan).ge
  · rw [hspan]
    exact hreads.byte_lt (List.append_ne_nil_of_left_ne_nil hne more)
  · rw [hspan]
    exact hleads.byte_le
  · rw [hspan]
    exact hc.covers hreads

/-- **The attributes of an opening tag stand one after the other** between where they are read and
what is read next. -/
theorem readAttributes_lie (rounds : Nat) (hc : c.IsAt source) :
    (∀ a ∈ (readAttributes rounds c).1,
      a.LiesIn source c.pos (readAttributes rounds c).2.2.pos) ∧
    (readAttributes rounds c).1.Pairwise fun a b => a.span.stop.byte ≤ b.span.start.byte := by
  induction rounds generalizing c with
  | zero => simp [readAttributes]
  | succ rounds ih =>
      have hblanks := Cursor.leads_skipBlanks c
      -- what the later rounds say holds from here on, since they start behind this place
      have hlater : ∀ {e : Cursor}, c.Leads e →
          (∀ a ∈ (readAttributes rounds e).1,
            a.LiesIn source c.pos (readAttributes rounds e).2.2.pos) ∧
          (readAttributes rounds e).1.Pairwise fun a b => a.span.stop.byte ≤ b.span.start.byte := by
        intro e hleads
        obtain ⟨hlies, hpairs⟩ := ih (hc.leads hleads)
        exact ⟨fun a ha => ⟨(hlies a ha).within.mono hleads.byte_le le_rfl,
          (hlies a ha).name_first⟩, hpairs⟩
      unfold readAttributes
      simp only
      split
      · simp
      · simp
      · simp
      · split
        · rename_i a e hread
          have hleads := readAttribute?_leads hread
          have ha := readAttribute?_lies (hc.leads hblanks) hread
          obtain ⟨hlies, hpairs⟩ := hlater (hblanks.trans hleads)
          refine ⟨fun b hb => ?_, List.pairwise_cons.2 ⟨fun b hb => ?_, hpairs⟩⟩
          · rcases List.mem_cons.1 hb with rfl | hb
            · exact ⟨ha.within.mono hblanks.byte_le (readAttributes_leads rounds e).byte_le,
                ha.name_first⟩
            · exact hlies b hb
          · have hb' := (ih ((hc.leads hblanks).leads hleads)).1 b hb
            exact ha.within.to_hi.trans hb'.within.from_lo
        · exact hlater (hblanks.trans (Cursor.leads_skip 1 _))

end Attributes

/-! ### One round -/

section Round

variable {source : List Char} {c d : Cursor}

/-- A token that is read from one place to a later one tiles what lies between them. -/
theorem tiles_one (hleads : c.Leads d) (hlt : d.rest.length < c.rest.length) :
    Tiles c.pos [c.spanTo d] d.pos :=
  ⟨rfl, hleads.byte_lt hlt, rfl⟩

/-- Raw text tiles what it takes, and there is no token for it if it takes nothing. -/
theorem readRawText_tiles (tag : List Char) (hc : c.IsAt source) :
    Tiles c.pos ((readRawText tag c).1.map fun token => token.span) (readRawText tag c).2.pos ∧
      ∀ token ∈ (readRawText tag c).1, token.Fits source := by
  have hreads : c.Reads (splitWhere (startsRawClose tag) c.rest).1 (readRawText tag c).2 :=
    Cursor.reads_readUntil _ c
  rw [readRawText_def] at hreads ⊢
  unfold rawTokens
  split
  · rename_i hnil
    simp [Tiles, hnil]
  · rename_i hne
    refine ⟨⟨rfl, hreads.byte_lt hne, rfl⟩, fun token htoken => ?_⟩
    rw [List.mem_singleton.1 htoken]
    have hcovers := hc.covers hreads
    refine ⟨⟨_, hcovers⟩, ?_⟩
    rw [Token.Content.Fits, String.toList_ofList]
    exact hcovers

/-- An opening tag starts with a less-than sign. -/
theorem take_of_startsOpen {cs : List Char} (h : startsOpen cs = true) : cs.take 1 = ['<'] := by
  unfold startsOpen at h
  split at h
  · rfl
  · cases h

/-- What reading an opening tag gives, with the places of its parts. -/
theorem readOpen_fits (hc : c.IsAt source) (hopen : startsOpen c.rest = true) :
    ∃ d tag tagSpan attributes selfClosing, c.Leads d ∧ d.rest.length < c.rest.length ∧
      Token.Fits source ⟨.openTag tag tagSpan attributes selfClosing, c.spanTo d⟩ ∧
      readOpen c =
        if !selfClosing && isRawText tag then
          (⟨.openTag tag tagSpan attributes selfClosing, c.spanTo d⟩ ::
            (readRawText tag.toList d).1, (readRawText tag.toList d).2)
        else ([⟨.openTag tag tagSpan attributes selfClosing, c.spanTo d⟩], d) := by
  have hsign := take_of_startsOpen hopen
  have hne : c.rest ≠ [] := by
    intro hnil
    rw [hnil] at hsign
    cases hsign
  -- the name of the tag, and then its attributes
  have hname : c.Reads ('<' :: ((c.skip 1).readWhile isTagChar).1)
      ((c.skip 1).readWhile isTagChar).2 := by
    have := (Cursor.reads_skip 1 c).trans (Cursor.reads_readWhile isTagChar (c.skip 1))
    rwa [hsign] at this
  have hattributes := readAttributes_leads (((c.skip 1).readWhile isTagChar).2.rest.length + 1)
    ((c.skip 1).readWhile isTagChar).2
  obtain ⟨hlie, hpairs⟩ := readAttributes_lie
    (((c.skip 1).readWhile isTagChar).2.rest.length + 1) (hc.reads hname)
  have hleads := Cursor.Leads.trans ⟨_, hname⟩ hattributes
  have hlt := Nat.lt_of_le_of_lt
    ((Cursor.leads_readWhile isTagChar (c.skip 1)).trans hattributes).length_le
    (Cursor.length_skip_lt hne 0)
  exact ⟨_, _, _, _, _, hleads, hlt, ⟨⟨_, hc.covers hleads.choose_spec⟩,
    ⟨_, hc.covers hname, rfl⟩, rfl, hattributes.byte_le, hlie, hpairs⟩, rfl⟩

/-- Text is what the source has, with its references replaced. -/
theorem readText_fits (hc : c.IsAt source) : (readText c).1.Fits source := by
  have hreads := (Cursor.reads_skip 1 c).trans (Cursor.reads_readUntil startsMarkup (c.skip 1))
  exact ⟨⟨_, hc.covers hreads⟩, _, hc.covers hreads, rfl⟩

/-- A round that does not read an opening tag reads one token. -/
theorem readTokens_of_not_open (hc : c.IsAt source) (hopen : ¬startsOpen c.rest = true) :
    ∃ token, (readTokens c).1 = [token] ∧ token.span = c.spanTo (readTokens c).2 ∧
      token.content ≠ .endOfInput ∧ token.Fits source := by
  have hleads := readTokens_leads c
  rw [readTokens, if_neg hopen] at hleads ⊢
  refine ⟨_, rfl, ?_⟩
  simp only at hleads ⊢
  split
  · rename_i hcomment
    rw [if_pos hcomment] at hleads
    exact ⟨rfl, by simp [readComment], ⟨_, hc.covers hleads.choose_spec⟩, trivial⟩
  · rename_i hcomment
    rw [if_neg hcomment] at hleads
    split
    · rename_i hdeclaration
      rw [if_pos hdeclaration] at hleads
      exact ⟨rfl, by simp [readDoctype], ⟨_, hc.covers hleads.choose_spec⟩, trivial⟩
    · split
      · rename_i hdeclaration hclose
        rw [if_neg hdeclaration, if_pos hclose] at hleads
        exact ⟨rfl, by simp [readClose], ⟨_, hc.covers hleads.choose_spec⟩, trivial⟩
      · exact ⟨rfl, by simp [readText], readText_fits hc⟩

/-- **One round tiles what it takes**, and its tokens fit. -/
theorem readTokens_tiles (hc : c.IsAt source) (hne : c.rest ≠ []) :
    Tiles c.pos ((readTokens c).1.map fun token => token.span) (readTokens c).2.pos ∧
      ∀ token ∈ (readTokens c).1, token.content ≠ .endOfInput ∧ token.Fits source := by
  by_cases hopen : startsOpen c.rest = true
  · obtain ⟨d, tag, tagSpan, attributes, selfClosing, hleads, hlt, hfits, heq⟩ :=
      readOpen_fits hc hopen
    have hround : readTokens c = readOpen c := by rw [readTokens, if_pos hopen]
    rw [hround, heq]
    split
    · obtain ⟨htiles, hraw⟩ := readRawText_tiles tag.toList (hc.leads hleads)
      refine ⟨⟨rfl, hleads.byte_lt hlt, htiles⟩, fun token htoken => ?_⟩
      rcases List.mem_cons.1 htoken with rfl | htoken
      · exact ⟨Token.Content.noConfusion, hfits⟩
      · refine ⟨?_, hraw token htoken⟩
        rw [readRawText_def] at htoken
        rw [eq_of_mem_rawTokens htoken]
        exact Token.Content.noConfusion
    · refine ⟨tiles_one hleads hlt, fun token htoken => ?_⟩
      rw [List.mem_singleton.1 htoken]
      exact ⟨Token.Content.noConfusion, hfits⟩
  · obtain ⟨token, heq, hspan, hnot, hfits⟩ := readTokens_of_not_open hc hopen
    rw [heq]
    refine ⟨?_, fun t ht => ?_⟩
    · rw [List.map_singleton, hspan]
      exact tiles_one (readTokens_leads c) (readTokens_shorter hne)
    · rw [List.mem_singleton.1 ht]
      exact ⟨hnot, hfits⟩

/-- A round has a token. -/
theorem readTokens_ne_nil (c : Cursor) : (readTokens c).1 ≠ [] := by
  unfold readTokens
  split
  · obtain ⟨d, tag, tagSpan, attributes, selfClosing, -, heq⟩ := readOpen_eq c
    rw [heq]
    split <;> exact List.cons_ne_nil _ _
  · exact List.cons_ne_nil _ _

/-- Text is read where no markup starts, up to the next markup or the end. -/
theorem readTokens_of_isText {token : Token} (hmem : token ∈ (readTokens c).1)
    (htext : token.IsText) : (readTokens c).1 = [token] ∧ startsMarkup c.rest = false ∧
      ((readTokens c).2.rest = [] ∨ startsMarkup (readTokens c).2.rest = true) := by
  obtain ⟨text, htext⟩ := htext
  by_cases hopen : startsOpen c.rest = true
  · -- an opening tag and raw text are no text
    obtain ⟨d, tag, tagSpan, attributes, selfClosing, -, heq⟩ := readOpen_eq c
    rw [readTokens, if_pos hopen, heq] at hmem
    split at hmem
    · rcases List.mem_cons.1 hmem with rfl | hmem
      · cases htext
      · rw [readRawText_def] at hmem
        rw [eq_of_mem_rawTokens hmem] at htext
        cases htext
    · rw [List.mem_singleton.1 hmem] at htext
      cases htext
  · rw [readTokens, if_neg hopen] at hmem ⊢
    simp only at hmem ⊢
    by_cases hcomment : startsComment c.rest = true
    · rw [if_pos hcomment] at hmem
      rw [List.mem_singleton.1 hmem] at htext
      cases htext
    · rw [if_neg hcomment] at hmem ⊢
      by_cases hdeclaration : startsDeclaration c.rest = true
      · rw [if_pos hdeclaration] at hmem
        rw [List.mem_singleton.1 hmem] at htext
        cases htext
      · rw [if_neg hdeclaration] at hmem ⊢
        by_cases hclose : startsClose c.rest = true
        · rw [if_pos hclose] at hmem
          rw [List.mem_singleton.1 hmem] at htext
          cases htext
        · rw [if_neg hclose] at hmem ⊢
          refine ⟨by rw [List.mem_singleton.1 hmem], ?_, splitWhere_stop startsMarkup _⟩
          simp [startsMarkup, hopen, hdeclaration, hclose]

/-- In one round, no text follows a text. -/
theorem readTokens_apart (c : Cursor) :
    (readTokens c).1.IsChain fun t u => ¬(t.IsText ∧ u.IsText) := by
  by_cases htext : ∃ token ∈ (readTokens c).1, token.IsText
  · obtain ⟨token, hmem, htext⟩ := htext
    rw [(readTokens_of_isText hmem htext).1]
    exact List.isChain_singleton token
  · refine List.Pairwise.isChain (List.pairwise_of_forall_mem_list fun t ht u _ h => ?_)
    exact htext ⟨t, ht, h.1⟩

end Round

/-! ### All rounds -/

section Rounds

variable {source : List Char} {c : Cursor} {tokens : List Token}

/-- From a place of the source on, the tokens reach to its end. -/
theorem Rounds.tiles (h : Rounds c tokens) (hc : c.IsAt source) :
    ∃ body, tokens = body ++ [⟨.endOfInput, Span.empty (.behind source)⟩] ∧
      (∀ token ∈ body, token.content ≠ .endOfInput ∧ token.Fits source) ∧
      Tiles c.pos (body.map fun token => token.span) (.behind source) := by
  induction h with
  | done hnil => exact ⟨[], by rw [hc.pos_of_nil hnil]; rfl, by simp, hc.pos_of_nil hnil⟩
  | @round c more hne _ ih =>
      obtain ⟨htiles, hround⟩ := readTokens_tiles hc hne
      obtain ⟨body, rfl, hbody, hrest⟩ := ih (hc.leads (readTokens_leads c))
      refine ⟨(readTokens c).1 ++ body, (List.append_assoc _ _ _).symm, fun token htoken => ?_, ?_⟩
      · exact (List.mem_append.1 htoken).elim (hround token) (hbody token)
      · rw [List.map_append]
        exact htiles.append hrest

/-- From a place of the source on, no text follows a text: what comes behind a text starts with
markup, and a text does not. -/
theorem Rounds.apart (h : Rounds c tokens) :
    (tokens.IsChain fun t u => ¬(t.IsText ∧ u.IsText)) ∧
      ∀ token ∈ tokens.head?, token.IsText → c.rest ≠ [] ∧ startsMarkup c.rest = false := by
  induction h with
  | done hnil =>
      refine ⟨List.isChain_singleton _, ?_⟩
      rintro token htoken ⟨text, htext⟩
      rw [← Option.some.inj htoken] at htext
      cases htext
  | @round c more hne _ ih =>
      obtain ⟨hchain, hhead⟩ := ih
      refine ⟨(readTokens_apart c).append hchain ?_, fun token htoken htext => ⟨hne, ?_⟩⟩
      · rintro t ht u hu ⟨htextT, htextU⟩
        obtain ⟨hsome, hnot⟩ := hhead u hu htextU
        obtain ⟨-, -, hstop⟩ := readTokens_of_isText (List.mem_of_getLast? ht) htextT
        rcases hstop with hnil | hstop
        · exact hsome hnil
        · rw [hstop] at hnot
          cases hnot
      · rw [List.head?_append_of_ne_nil _ (readTokens_ne_nil c)] at htoken
        exact (readTokens_of_isText (List.mem_of_head? htoken) htext).2.1

end Rounds

/-- **The tokens of a source text tile it.** -/
theorem tokenize_tiling (source : String) : Tiling source.toList (tokenize source) := by
  have hrounds := tokenize_rounds source
  obtain ⟨body, htokens, hbody, htiles⟩ := hrounds.tiles (Cursor.isAt_ofSource source.toList)
  have hfits : ∀ token ∈ tokenize source, token.Fits source.toList := by
    intro token htoken
    rw [htokens] at htoken
    rcases List.mem_append.1 htoken with htoken | htoken
    · exact (hbody token htoken).2
    · rw [List.mem_singleton.1 htoken]
      exact ⟨⟨[], source.toList, [], by simp, by simp [Span.empty]⟩, trivial⟩
  exact
    { tiles := ⟨body, htokens, fun token htoken => (hbody token htoken).1, htiles⟩
      apart := hrounds.apart.1
      places := fun token htoken => (hfits token htoken).isPlace
      fits := fun token htoken => (hfits token htoken).content }

end Markup

end PageTemplate
