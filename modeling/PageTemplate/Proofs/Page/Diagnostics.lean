/-
**Messages point at the source.**

A page that cannot be read, checked or rendered is at fault somewhere in its source text: at an
attribute that is set twice, at the end of the input, where an element is still open, or at the opening
tag of an element with a directive or a controller.  What the message shows there are the characters
between the two bytes that the fault names, on the line that they stand in.

Main definitions:

* `PageTemplate.Assembly.FaultOf` — what a fault of markup has to do with the tokens of its source;
* `PageTemplate.Page.Fails`, `PageTemplate.Page.Located` — the faults of a page, and where they are;
* `PageTemplate.Diagnostic.PageError.snippet?` — the places that a fault names;
* `PageTemplate.Text.StandsAt` — the line and the column of a byte.

Main results:

* `PageTemplate.Assembly.run_error` — every fault of markup is one of the tokens;
* `PageTemplate.Page.Fails.located` — every fault of a page is at a place that can be pointed at;
* `PageTemplate.Page.render_points` — messages point at the source.
-/

import PageTemplate.Proofs.Document.Assembly
import PageTemplate.Proofs.Markup.Legibility
import PageTemplate.Proofs.Page.Bootstrapping

set_option relaxedAutoImplicit false
set_option autoImplicit false

namespace PageTemplate

open PageTemplate.Markup PageTemplate.Text PageTemplate.Diagnostic

/-! ### Faults of markup -/

/-- The token is an opening tag. -/
def Markup.Token.Opens (token : Token) : Prop :=
  ∃ tag tagSpan attributes selfClosing, token.content = .openTag tag tagSpan attributes selfClosing

/-- Only opening tags make elements. -/
theorem Markup.Token.opens_of_kind? {token : Token} {kind : NodeKind} {e : Element}
    (h : token.kind? = some kind) (he : kind.element? = some e) : token.Opens := by
  unfold Token.kind? at h
  cases hcontent : token.content with
  | openTag tag tagSpan attributes selfClosing => exact ⟨_, _, _, _, hcontent⟩
  | text t | rawText t | comment t | doctype t =>
      rw [hcontent] at h
      cases h
      cases he
  | closeTag tag | endOfInput =>
      rw [hcontent] at h
      cases h

namespace Assembly

/-- What a fault has to do with the tokens: an opening tag has the two attributes, or the input ends and
an element that an opening tag has opened is still open. -/
inductive FaultOf (tokens : List Token) : ParseError → Prop
  | repeated {token : Token} {tag : String} {tagSpan : Span} {attributes : List SourceAttribute}
      {selfClosing : Bool} {again first : SourceAttribute} (htoken : token ∈ tokens)
      (hcontent : token.content = .openTag tag tagSpan attributes selfClosing)
      (hagain : again ∈ attributes) (hfirst : first ∈ attributes) :
      FaultOf tokens (.repeated again.name again.span first.span)
  | unclosed {stop opening : Token} (tag : String) (hstop : stop ∈ tokens)
      (hend : stop.content = .endOfInput) (hopening : opening ∈ tokens) (hopens : opening.Opens) :
      FaultOf tokens (.unclosed tag stop.span opening.span)

variable {a b : Assembly} {token : Token} {tokens all : List Token} {e : ParseError}

theorem mem_of_reused? {attributes : List SourceAttribute} {again first : SourceAttribute}
    (h : reused? attributes = some (again, first)) : again ∈ attributes ∧ first ∈ attributes := by
  obtain ⟨i, -, hi⟩ := List.exists_of_findSome?_eq_some h
  obtain ⟨c, hc, hfind⟩ := Option.bind_eq_some_iff.1 hi
  obtain ⟨f, hf, heq⟩ := Option.map_eq_some_iff.1 hfind
  cases heq
  exact ⟨List.mem_of_getElem? hc, List.mem_of_mem_take (List.mem_of_find?_eq_some hf)⟩

theorem mem_of_mem_close {tag : String} {o : NodeId × OpenElement} (ho : o ∈ (a.close tag).opened) :
    o ∈ a.opened := by
  unfold close at ho
  split at ho
  · exact (List.dropWhile_suffix _).subset (List.mem_of_mem_drop ho)
  · exact ho

/-- Every element that a step leaves open was open before, or its opening tag is the token. -/
theorem step_opened (h : a.step token = .ok b) :
    ∀ o ∈ b.opened, o ∈ a.opened ∨ token.Opens ∧ o.2.span = token.span := by
  intro o ho
  cases stepped_of_step h with
  | leaf _ _ => exact .inl ho
  | void _ _ _ => exact .inl ho
  | opens hcontent _ _ =>
      rcases List.mem_cons.1 ho with rfl | ho
      · exact .inr ⟨⟨_, _, _, _, hcontent⟩, rfl⟩
      · exact .inl ho
  | closes _ => exact .inl (mem_of_mem_close ho)
  | stops _ _ => exact .inl ho

/-- The opening tag of every open element is among these tokens. -/
def OpenedBy (all : List Token) (a : Assembly) : Prop :=
  ∀ o ∈ a.opened, ∃ opening ∈ all, opening.Opens ∧ o.2.span = opening.span

theorem OpenedBy.step (h : a.OpenedBy all) (htoken : token ∈ all) (hstep : a.step token = .ok b) :
    b.OpenedBy all := by
  intro o ho
  rcases step_opened hstep o ho with ho | ⟨hopens, hspan⟩
  · exact h o ho
  · exact ⟨token, htoken, hopens, hspan⟩

/-- The fault that a step finds is one of its token, or of the end of the input. -/
theorem step_error (h : a.OpenedBy all) (htoken : token ∈ all) (hstep : a.step token = .error e) :
    FaultOf all e := by
  unfold Assembly.step at hstep
  split at hstep
  · cases hstep
  · cases hstep
  · cases hstep
  · cases hstep
  · rename_i hcontent
    split at hstep
    · rename_i again first hreused
      cases hstep
      obtain ⟨hagain, hfirst⟩ := mem_of_reused? hreused
      exact .repeated htoken hcontent hagain hfirst
    · simp only at hstep
      split at hstep <;> cases hstep
  · cases hstep
  · rename_i hcontent
    split at hstep
    · cases hstep
    · rename_i id innermost around hopened
      cases hstep
      obtain ⟨opening, hopening, hopens, hspan⟩ :=
        h (id, innermost) (hopened ▸ List.mem_cons_self)
      rw [show innermost.span = opening.span from hspan]
      exact .unclosed innermost.tag htoken hcontent hopening hopens

/-- **Every fault that a run finds is one of its tokens.** -/
theorem run_error (h : a.OpenedBy all) (htokens : ∀ token ∈ tokens, token ∈ all)
    (hrun : a.run tokens = .error e) : FaultOf all e := by
  induction tokens generalizing a with
  | nil => cases hrun
  | cons token tokens ih =>
      obtain ⟨htoken, htokens⟩ := List.forall_mem_cons.1 htokens
      cases hstep : a.step token with
      | error f =>
          rw [run_of_error hstep] at hrun
          cases hrun
          exact step_error h htoken hstep
      | ok b =>
          rw [run_of_step hstep] at hrun
          exact ih (h.step htoken hstep) htokens hrun

end Assembly

namespace Document

variable {source : String} {d : Document}

/-- The token for the end of the input stands at the end of the source. -/
theorem span_of_endOfInput {stop : Token} (hstop : stop ∈ tokenize source)
    (hend : stop.content = .endOfInput) : stop.span = .empty (.behind source.toList) := by
  obtain ⟨body, htokens, hbody, -⟩ :=
    (tokenize_rounds source).tiles (Cursor.isAt_ofSource source.toList)
  rw [htokens] at hstop
  rcases List.mem_append.1 hstop with hstop | hstop
  · exact absurd hend (hbody stop hstop).1
  · rw [List.mem_singleton.1 hstop]

theorem legible_of_opens {token : Token} (htoken : token ∈ tokenize source) (hopens : token.Opens) :
    token.span.Legible source.toList := by
  obtain ⟨tag, tagSpan, attributes, selfClosing, hcontent⟩ := hopens
  exact (tokenize_legible source token htoken _ _ _ _ hcontent).1

/-- **The element of a document that is read stands where an opening tag does.** -/
theorem span_of_element (h : parse source = .ok d) {id : NodeId} {e : Element}
    (he : d.element? id = some e) : ∃ span, d.span? id = some span ∧ span.Legible source.toList := by
  rw [parse_eq_run] at h
  cases hrun : Assembly.start.run (tokenize source) with
  | error f =>
      rw [hrun] at h
      cases h
  | ok a =>
      rw [hrun] at h
      cases h
      obtain ⟨kind, hkind, hkinde⟩ := Option.bind_eq_some_iff.1 he
      obtain ⟨n, hn, rfl⟩ := Option.map_eq_some_iff.1 hkind
      have hget : a.nodes[id]? = some n := (get?_packed a.nodes id).symm.trans hn
      have hkey := List.mem_map_of_mem (f := Assembly.key) (List.mem_of_getElem? hget)
      rw [Assembly.run_keys hrun] at hkey
      rcases List.mem_append.1 hkey with hkey | hkey
      · -- the document node is no element
        obtain ⟨hdocument, -⟩ := Prod.mk.inj (List.mem_singleton.1 hkey)
        rw [hdocument] at hkinde
        cases hkinde
      · obtain ⟨token, htoken, hmade⟩ := List.mem_filterMap.1 hkey
        obtain ⟨kind, hmakes, heq⟩ := Option.map_eq_some_iff.1 hmade
        obtain ⟨rfl, hspan⟩ := Prod.mk.inj heq
        refine ⟨token.span, ?_, legible_of_opens htoken ?_⟩
        · rw [Document.span?, hn, Option.bind_some, hspan]
        · exact Token.opens_of_kind? hmakes hkinde

end Document

/-! ### What a message says -/

namespace Text

/-- The byte of the source stands behind so many line feeds, and on its line behind so many
characters. -/
def StandsAt (source : List Char) (byte line col : Nat) : Prop :=
  ∃ above left later, source = above ++ left ++ later ∧ WholeLines above ∧ '\n' ∉ left ∧
    byteSize (above ++ left) = byte ∧ above.count '\n' = line ∧ left.length = col

/-- A legible stretch counts its line and its column right. -/
theorem Span.Legible.standsAt {source : List Char} {span : Span} (h : span.Legible source) :
    StandsAt source span.start.byte span.start.line span.start.col := by
  obtain ⟨above, left, marked, right, hline, hmarks, -, hstart, hcol, -⟩ := h.exists_marks
  obtain ⟨below, rfl, -⟩ := hline.ends
  refine ⟨above, left, marked ++ right ++ below, by simp, hline.starts, fun hleft => ?_,
    hmarks.starts, hstart.symm, hcol.symm⟩
  exact hline.unbroken (by simp [hleft])

end Text

namespace Diagnostic

/-- The first two lines of a message: the place in the file, and what is wrong there. -/
def heading (p : Palette) (fileName : String) (line col : Nat) (message : String) : String :=
  "\n" ++ " " ++ p.dim ++ "file:" ++ p.reset ++ " " ++ fileName ++ ":" ++ toString line ++ ":" ++
    toString col ++ "\n" ++ p.error ++ "error:" ++ p.reset ++ " " ++ message ++ "\n"

/-- The end of a message, with the help if there is any. -/
def closing (p : Palette) (help : Option String) : String :=
  (match help with
    | some text => "\n" ++ helpLines p text
    | none => "") ++ "\n"

/-- A message has the blocks of its places between its heading and its end. -/
theorem Snippet.render_eq (s : Snippet) (p : Palette) (source fileName : String) :
    s.render p source fileName =
      heading p fileName (s.place.line + 1) (s.place.col + 1) s.message ++
        underline p p.error source.toList s.span "" ++
        (match s.related with
          | some r => underline p p.dim source.toList r.span (" " ++ r.label)
          | none => "") ++ closing p s.help := by
  obtain ⟨message, span, related, help⟩ := s
  unfold Snippet.render heading closing
  cases related <;> cases help <;> simp only [String.append_assoc]

/-- The fault with the places that it names, if it names any. -/
def PageError.snippet? : PageError → Option Snippet
  | parse e => some e.snippet
  | bind e => e.span?.map fun span => ⟨e.message, span, none, e.help⟩
  | data _ => none

/-- A fault that names a place is shown with it. -/
theorem PageError.render_of_snippet? {e : PageError} {s : Snippet} (h : e.snippet? = some s)
    (p : Palette) (source fileName : String) :
    e.render p source fileName = s.render p source fileName := by
  cases e with
  | parse e =>
      cases h
      rfl
  | bind e =>
      obtain ⟨span, hspan, rfl⟩ := Option.map_eq_some_iff.1 h
      rw [PageError.render, BindError.render, hspan]
  | data text => cases h

end Diagnostic

/-! ### The faults of a page -/

namespace Page

open PageTemplate.Binding PageTemplate.Data

/-- Why the page that a source text writes cannot be read, checked or rendered. -/
inductive Fails (source : String) : PageError → Prop
  | parse {e : ParseError} (h : Document.parse source = .error e) : Fails source (.parse e)
  | check {o : Options} {e : PageError} (h : check source o = .error e) : Fails source e
  | render {data : Value} {o : Options} {e : PageError} (h : render source data o = .error e) :
      Fails source e

/-- The place that the fault names, if it names one, can be pointed at. -/
def Legible (source : List Char) (f : BindError) : Prop := ∀ span ∈ f.span?, span.Legible source

/-- Where a fault is.  It is at stretches that can be pointed at, but for an element that is not closed
at the end of the input. -/
inductive Located (source : List Char) : PageError → Prop
  | repeated (name : String) {span first : Span} (hspan : span.Legible source)
      (hfirst : first.Legible source) : Located source (.parse (.repeated name span first))
  | unclosed (tag : String) {opened : Span} (hopened : opened.Legible source) :
      Located source (.parse (.unclosed tag (.empty (.behind source)) opened))
  | bind {f : BindError} (h : Legible source f) : Located source (.bind f)

variable {source : String} {d : Document} {e : PageError} {f : BindError}

/-- A text that cannot be read has a fault that can be pointed at. -/
theorem located_of_parse {e : ParseError} (h : Document.parse source = .error e) :
    Located source.toList (.parse e) := by
  rw [Document.parse_eq_run] at h
  cases hrun : Assembly.start.run (tokenize source) with
  | ok a =>
      rw [hrun] at h
      cases h
  | error f =>
      rw [hrun] at h
      cases h
      have hstart : Assembly.start.OpenedBy (tokenize source) := fun o ho => by cases ho
      cases Assembly.run_error hstart (fun token h => h) hrun with
      | repeated htoken hcontent hagain hfirst =>
          have hlegible := (tokenize_legible source _ htoken _ _ _ _ hcontent).2
          exact .repeated _ (hlegible _ hagain) (hlegible _ hfirst)
      | unclosed tag hstop hend hopening hopens =>
          rw [Document.span_of_endOfInput hstop hend]
          exact .unclosed tag (Document.legible_of_opens hopening hopens)

/-- What has an attribute is an element, and can be pointed at. -/
theorem legible_of_hasAttribute (hparse : Document.parse source = .ok d) {id : NodeId}
    {name : String} (h : d.hasAttribute id name = true) :
    ∀ span ∈ d.span? id, span.Legible source.toList := by
  obtain ⟨el, hel, -⟩ := (Option.any_eq_true _ _).1 h
  obtain ⟨span, hspan, hlegible⟩ := Document.span_of_element hparse hel
  intro span' hspan'
  rw [hspan] at hspan'
  cases hspan'
  exact hlegible

/-- A directive that cannot be read can be pointed at. -/
theorem legible_of_invalidRepeat? (hparse : Document.parse source = .ok d) {mark : String}
    {id : NodeId} (h : invalidRepeat? d mark id = some f) : Legible source.toList f := by
  rw [invalidRepeat?_of_sturdy (Document.sturdy_of_parse hparse)] at h
  obtain ⟨x, hx, rfl⟩ := Option.map_eq_some_iff.1 h
  exact legible_of_hasAttribute hparse (List.mem_filter.1 (List.mem_of_find?_eq_some hx)).2

/-- An element that cannot be mounted can be pointed at, or its directive can. -/
theorem legible_of_fault? (hparse : Document.parse source = .ok d) {r : Registry} {id : NodeId}
    (hid : id ∈ elements r.options d) (h : fault? r d id = some f) : Legible source.toList f := by
  unfold fault? at h
  split at h
  · cases h
    exact legible_of_hasAttribute hparse (List.mem_filter.1 hid).2
  · rw [← invalidRepeat?_of_sturdy (Document.sturdy_of_parse hparse)] at h
    exact legible_of_invalidRepeat? hparse h

theorem legible_of_renderControllers (hparse : Document.parse source = .ok d) {o : Options}
    {data : Value} (h : renderControllers o data d = .error f) : Legible source.toList f := by
  obtain ⟨cs, hsound, hheld, hproper, hn⟩ := Document.parse_holds hparse
  unfold renderControllers at h
  by_cases hready : Ready (registryOf o data) cs
  · obtain ⟨st, seen, made, hout, -⟩ :=
      bootstrap_all hheld hn hproper hsound hready .empty []
    simp only [hout] at h
    cases h
  · obtain ⟨before, i, behind, err, horder, hself, -, hmounts, -⟩ :=
      bootstrap_until (Document.sturdy_of_parse hparse) hheld hn hproper hready .empty []
    simp only [hmounts] at h
    cases h
    exact legible_of_fault? hparse (horder ▸ List.mem_append_right _ (List.mem_cons_self ..)) hself

/-- A page that cannot be rendered has a fault that can be pointed at. -/
theorem legible_of_renderDocument (hparse : Document.parse source = .ok d) {o : Options}
    {data : Value} (h : renderDocument o data d = .error f) : Legible source.toList f := by
  unfold renderDocument at h
  split at h
  · have hwhole := renderWhole_of_parse hparse o data
    rw [h] at hwhole
    cases hvalid : invalidRepeat? d o.repeatAttribute Document.root with
    | none =>
        rw [hvalid] at hwhole
        cases hwhole
    | some g =>
        rw [hvalid] at hwhole
        cases hwhole
        exact legible_of_invalidRepeat? hparse hvalid
  · exact legible_of_renderControllers hparse h

/-- **Every fault of a page is at a place that can be pointed at**, or at the end of the input. -/
theorem Fails.located (h : Fails source e) : Located source.toList e := by
  cases h with
  | parse h => exact located_of_parse h
  | @check o _ h =>
      cases hparse : Document.parse source with
      | error g =>
          simp only [Page.check, hparse] at h
          cases h
          exact located_of_parse hparse
      | ok d =>
          rw [check_of_parse hparse] at h
          cases hvalid : invalidRepeat? d o.repeatAttribute Document.root with
          | none =>
              rw [hvalid] at h
              cases h
          | some g =>
              rw [hvalid] at h
              cases h
              exact .bind (legible_of_invalidRepeat? hparse hvalid)
  | @render data o _ h =>
      cases hparse : Document.parse source with
      | error g =>
          simp only [Page.render, hparse] at h
          cases h
          exact located_of_parse hparse
      | ok d =>
          simp only [Page.render, hparse] at h
          rw [← renderDocument] at h
          cases hresult : renderDocument o data d with
          | ok result =>
              rw [hresult] at h
              cases h
          | error g =>
              rw [hresult] at h
              cases h
              exact .bind (legible_of_renderDocument hparse hresult)

/-! ### Messages point at the source -/

/-- **Messages point at the source.**  The heading names the line and the column of the second place, if
there is one, and else of the first one, both counted from one.  Below it stands the line of the first
place, with carets under exactly the characters between its two bytes, and then that of the second one,
if there is one.  Only the end of the input, where an element is still open, has no characters: there is
one caret behind the last character of the source, or nothing if the source ends with a line feed. -/
theorem render_points (hfails : Fails source e) {s : Snippet} (hs : e.snippet? = some s)
    (p : Palette) (fileName : String) :
    ∃ line col first second,
      StandsAt source.toList ((s.related.map Related.span).getD s.span).start.byte line col ∧
      e.render p source fileName =
        heading p fileName (line + 1) (col + 1) s.message ++ first ++ second ++ closing p s.help ∧
      (s.span.start.byte = s.span.stop.byte ↔
        ∃ tag opened, e = .parse (.unclosed tag (.empty (.behind source.toList)) opened)) ∧
      (s.span.start.byte = s.span.stop.byte → PointsBehind p p.error "" source.toList first) ∧
      (s.span.start.byte ≠ s.span.stop.byte → PointsAt p p.error "" source.toList s.span first) ∧
      match s.related with
      | some r => PointsAt p p.dim (" " ++ r.label) source.toList r.span second
      | none => second = "" := by
  rw [PageError.render_of_snippet? hs, s.render_eq]
  cases hfails.located with
  | repeated name hspan hfirst =>
      cases hs
      refine ⟨_, _, _, _, hfirst.standsAt, rfl, ?_, fun h => absurd h hspan.byte_lt.ne,
        fun _ => underline_legible hspan .., underline_legible hfirst ..⟩
      refine iff_of_false hspan.byte_lt.ne ?_
      rintro ⟨tag, opened, ⟨⟩⟩
  | unclosed tag hopened =>
      cases hs
      have hne : source.toList ≠ [] := by
        obtain ⟨before, c, more, later, hsource, -⟩ := hopened
        rw [hsource]
        simp
      exact ⟨_, _, _, _, hopened.standsAt, rfl, iff_of_true rfl ⟨tag, _, rfl⟩,
        fun _ => underline_end hne .., fun h => absurd rfl h, underline_legible hopened ..⟩
  | bind h =>
      obtain ⟨span, hspan, rfl⟩ := Option.map_eq_some_iff.1 hs
      have hlegible := h span hspan
      refine ⟨_, _, _, _, hlegible.standsAt, rfl, ?_, fun h => absurd h hlegible.byte_lt.ne,
        fun _ => underline_legible hlegible .., rfl⟩
      refine iff_of_false hlegible.byte_lt.ne ?_
      rintro ⟨tag, opened, ⟨⟩⟩

/-- A page that sets an attribute twice, on two lines.  Its line ends have two characters. -/
def twiceSource : String := "<p>\r\n <b é='1'\r\n  é>"

/-- Both uses are pointed at, the second one first. -/
theorem render_points_twice : ∃ e line col second first,
    Document.parse twiceSource = .error e ∧ e.kind = .duplicateAttribute ∧
      StandsAt twiceSource.toList 9 line col ∧
      e.render .plain twiceSource "page.html" =
        heading .plain "page.html" (line + 1) (col + 1) e.message ++ second ++ first ++
          closing .plain none ∧
      PointsAt .plain "" "" twiceSource.toList ⟨⟨19, 2, 2⟩, ⟨21, 2, 3⟩⟩ second ∧
      PointsAt .plain "" " first use" twiceSource.toList ⟨⟨9, 1, 4⟩, ⟨15, 1, 9⟩⟩ first := by
  have hfault : (Document.parse twiceSource).map (fun _ => ()) =
      .error (.repeated "é" ⟨⟨19, 2, 2⟩, ⟨21, 2, 3⟩⟩ ⟨⟨9, 1, 4⟩, ⟨15, 1, 9⟩⟩) := by
    decide +kernel
  cases hparse : Document.parse twiceSource with
  | ok d =>
      rw [hparse] at hfault
      cases hfault
  | error e =>
      rw [hparse] at hfault
      obtain rfl := Except.error.inj hfault
      obtain ⟨line, col, second, first, hplace, hrender, -, -, hsecond, hfirst⟩ :=
        render_points (.parse hparse) rfl .plain "page.html"
      exact ⟨_, line, col, second, first, rfl, rfl, hplace, hrender, hsecond (by decide), hfirst⟩

example : ((Document.parse twiceSource).map fun _ => ()).mapError
      (fun e => e.render .plain twiceSource "page.html") =
    .error ("\n file: page.html:2:5\nerror: \"é\" is set twice on this element.\n" ++
        "   |\n 3 |   é>\n   |   ^\n" ++
        "   |\n 2 |  <b é='1'\n   |     ^^^^^ first use\n\n") := by
  decide +kernel

end Page

end PageTemplate
