/-
**Documents are assembled token by token.**

Reading is written as a recursion on elements.  Seen from the tokens it is a machine that goes through
them once, with the open elements on a stack: each token makes the next node, below the innermost open
element, or closes some elements, or finds a fault.  The recursion and the machine agree because an
element that is being read is one that is on the stack: when the recursion comes back from it, the
machine has taken it off, or is about to.

Main definitions:

* `PageTemplate.Markup.Token.kind?` — the node that a token makes;
* `PageTemplate.Assembly` — the nodes made so far, and the open elements;
* `PageTemplate.Assembly.step`, `PageTemplate.Assembly.run` — what the machine does with a token, and
  with all of them;
* `PageTemplate.Assembly.document` — the nodes as a document;
* `PageTemplate.Assembly.Stepped` — what a step does that finds no fault.

Main results:

* `PageTemplate.Assembly.push_document` — reading makes a node as the machine does;
* `PageTemplate.Assembly.readContent_run` — reading the content of an element is a run of the machine;
* `PageTemplate.Assembly.run_keys` — a run makes the nodes of its tokens, one after the other;
* `PageTemplate.Document.parse_assembles` — a document is read as the machine assembles it, and its
  nodes are in the order of their tokens.
-/

import PageTemplate.Proofs.Document.Growth
import PageTemplate.Proofs.Document.Walking
import PageTemplate.Proofs.Markup.Tiling

set_option relaxedAutoImplicit false
set_option autoImplicit false

namespace PageTemplate

open PageTemplate.Markup PageTemplate.Text PageTemplate.Diagnostic

/-! ### Documents without free slots -/

namespace Document

/-- The document with these nodes, each in the slot of its number. -/
def packed (nodes : List Node) : Document := ⟨(nodes.map some).toArray, []⟩

theorem get?_packed (nodes : List Node) (id : NodeId) : (packed nodes).get? id = nodes[id]? := by
  unfold Document.get? packed
  simp only [List.getElem?_toArray, List.getElem?_map]
  cases nodes[id]? <;> rfl

theorem alloc_packed (nodes : List Node) (kind : NodeKind) (span : Option Span) :
    (packed nodes).alloc kind span = (packed (nodes ++ [Node.loose kind span]), nodes.length) := by
  simp [alloc, packed]

theorem update_packed (nodes : List Node) (id : NodeId) (f : Node → Node) :
    (packed nodes).update id f = packed (nodes.modify id f) := by
  have hmap : (nodes.modify id f).map some = (nodes.map some).modify id (Option.map f) := by
    refine List.ext_getElem? fun i => ?_
    simp only [List.getElem?_map, List.getElem?_modify]
    by_cases h : id = i <;> cases nodes[i]? <;> simp [h]
  rw [packed, packed, hmap, update]
  simp

/-- **Reading makes a node at the end of the list.** -/
theorem push_packed {nodes : List Node} {parent : NodeId} (hp : parent < nodes.length)
    (kind : NodeKind) (span : Span) :
    (packed nodes).push parent kind span =
      (packed (nodes.modify parent (fun n => { n with children := n.children ++ [nodes.length] }) ++
        [⟨kind, some parent, [], some span⟩]), nodes.length) := by
  have hloose : (packed (nodes ++ [Node.loose kind (some span)])).get? nodes.length =
      some (Node.loose kind (some span)) := by
    rw [get?_packed, List.getElem?_concat_length]
  have hlive : (packed (nodes ++ [Node.loose kind (some span)])).contains parent = true := by
    rw [contains, get?_packed, List.getElem?_append_left hp]
    simp [hp]
  have hlinked : ((nodes ++ [Node.loose kind (some span)]).modify parent fun n =>
      { n with children := place nodes.length none n.children }).modify nodes.length
        (fun n => { n with parent := some parent }) =
      nodes.modify parent (fun n => { n with children := n.children ++ [nodes.length] }) ++
        [⟨kind, some parent, [], some span⟩] := by
    refine List.ext_getElem? fun i => ?_
    rcases Nat.lt_trichotomy i nodes.length with hi | rfl | hi
    · simp only [List.getElem?_modify, List.getElem?_append, List.length_modify, hi, hi.ne', if_true,
        if_false, id_map']
      rfl
    · simp only [List.getElem?_modify, List.getElem?_append, List.length_modify, lt_irrefl, hp.ne,
        if_true, if_false, Nat.sub_self]
      rfl
    · rw [List.getElem?_eq_none (by simp; omega), List.getElem?_eq_none (by simp; omega)]
  have hpush : (packed nodes).push parent kind span =
      (((packed nodes).alloc kind (some span)).1.insertBefore parent
        ((packed nodes).alloc kind (some span)).2 none,
        ((packed nodes).alloc kind (some span)).2) := rfl
  rw [hpush, alloc_packed, insertBefore, hlive, contains_of_get? hloose, if_pos (by simp [hp.ne]),
    detach_of_loose hloose rfl, update_packed, update_packed, hlinked]

end Document

/-! ### The machine -/

/-- The node that a token makes. -/
def Markup.Token.kind? (token : Token) : Option NodeKind :=
  match token.content with
  | .text t | .rawText t => some (.text t)
  | .comment t => some (.comment t)
  | .doctype t => some (.doctype t)
  | .openTag tag _ attributes _ =>
      some (.element ⟨tag, attributes.map fun a => ⟨a.name, a.value⟩⟩)
  | .closeTag _ | .endOfInput => none

/-- The first attribute with a name that occurs before it, and the first use of this name. -/
def reused? (attributes : List SourceAttribute) : Option (SourceAttribute × SourceAttribute) :=
  (List.range attributes.length).findSome? fun i =>
    attributes[i]?.bind fun a =>
      ((attributes.take i).find? (·.name == a.name)).map fun first => (a, first)

/-- The nodes that have been made, each in the slot of its number, and the elements that are open,
each with its slot, the innermost first. -/
structure Assembly where
  nodes : List Node
  opened : List (NodeId × OpenElement)

namespace Assembly

/-- The document node alone. -/
def start : Assembly := ⟨[Node.loose .document none], []⟩

/-- The innermost open element, or the document node. -/
def parent (a : Assembly) : NodeId := (a.opened.head?.map (·.1)).getD Document.root

/-- Makes the next node the last child of the innermost open element. -/
def add (a : Assembly) (kind : NodeKind) (span : Span) : Assembly :=
  { a with
    nodes := (a.nodes.modify a.parent fun n =>
      { n with children := n.children ++ [a.nodes.length] }) ++
        [⟨kind, some a.parent, [], some span⟩] }

/-- Takes the open elements from the stack up to the innermost one with this tag.  A tag that closes
nothing is passed over. -/
def close (a : Assembly) (tag : String) : Assembly :=
  if a.opened.any (·.2.tag == tag) then
    { a with opened := (a.opened.dropWhile (·.2.tag != tag)).drop 1 }
  else a

/-- What the machine does with a token. -/
def step (a : Assembly) (token : Token) : Except ParseError Assembly :=
  match token.content with
  | .text t | .rawText t => .ok (a.add (.text t) token.span)
  | .comment t => .ok (a.add (.comment t) token.span)
  | .doctype t => .ok (a.add (.doctype t) token.span)
  | .openTag tag _ attributes selfClosing =>
      match reused? attributes with
      | some (again, first) => .error (.repeated again.name again.span first.span)
      | none =>
          let b := a.add (.element ⟨tag, attributes.map fun a => ⟨a.name, a.value⟩⟩) token.span
          if selfClosing || isVoid tag then .ok b
          else .ok { b with opened := (a.nodes.length, ⟨tag, token.span⟩) :: a.opened }
  | .closeTag tag => .ok (a.close tag)
  | .endOfInput =>
      match a.opened with
      | [] => .ok a
      | (_, innermost) :: _ => .error (.unclosed innermost.tag token.span innermost.span)

/-- What the machine does with tokens, one after the other, up to the first fault. -/
def run (a : Assembly) (tokens : List Token) : Except ParseError Assembly :=
  tokens.foldlM step a

/-- The nodes as a document. -/
def document (a : Assembly) : Document := .packed a.nodes

/-- The innermost open element has been made. -/
structure Proper (a : Assembly) : Prop where
  nonempty : 0 < a.nodes.length
  opened : ∀ o ∈ a.opened, o.1 < a.nodes.length

variable {a b : Assembly} {token : Token} {tokens : List Token}

@[simp] theorem length_add (a : Assembly) (kind : NodeKind) (span : Span) :
    (a.add kind span).nodes.length = a.nodes.length + 1 := by
  simp [add]

@[simp] theorem nodes_close (a : Assembly) (tag : String) : (a.close tag).nodes = a.nodes := by
  unfold close
  split <;> rfl

theorem run_cons (a : Assembly) (token : Token) (tokens : List Token) :
    a.run (token :: tokens) = a.step token >>= fun b => b.run tokens := rfl

theorem run_of_step (h : a.step token = .ok b) : a.run (token :: tokens) = b.run tokens := by
  rw [run_cons, h]
  rfl

theorem run_of_error {e : ParseError} (h : a.step token = .error e) :
    a.run (token :: tokens) = .error e := by
  rw [run_cons, h]
  rfl

theorem proper_start : start.Proper := ⟨by decide, by simp [start]⟩

theorem Proper.parent_lt (h : a.Proper) : a.parent < a.nodes.length := by
  obtain ⟨hne, hopened⟩ := h
  unfold parent
  cases hcase : a.opened with
  | nil => exact hne
  | cons o opened => exact hopened o (hcase ▸ List.mem_cons_self)

theorem Proper.add (h : a.Proper) (kind : NodeKind) (span : Span) : (a.add kind span).Proper :=
  ⟨by simp, fun o ho => by
    rw [length_add]
    exact Nat.lt_succ_of_lt (h.opened o ho)⟩

/-- **Reading makes a node as the machine does.** -/
theorem push_document (h : a.Proper) (kind : NodeKind) (span : Span) :
    a.document.push a.parent kind span = ((a.add kind span).document, a.nodes.length) :=
  Document.push_packed h.parent_lt kind span

/-! ### Faults in attributes -/

theorem repeated?_eq (seen attributes : List SourceAttribute) :
    Document.repeated? seen attributes = (List.range attributes.length).findSome? fun i =>
      attributes[i]?.bind fun a =>
        ((seen ++ attributes.take i).find? (·.name == a.name)).map fun first => (a, first) := by
  induction attributes generalizing seen with
  | nil => rfl
  | cons a rest ih =>
      rw [List.length_cons, List.range_succ_eq_map, List.findSome?_cons, List.findSome?_map,
        Document.repeated?]
      cases hfirst : seen.find? (·.name == a.name) with
      | some first => simp [hfirst]
      | none =>
          rw [ih]
          simp [hfirst, Function.comp_def]

/-- Both ways of looking for a name that is used again find the same. -/
theorem reused?_eq (attributes : List SourceAttribute) :
    reused? attributes = Document.repeated? [] attributes := by
  simp [repeated?_eq, reused?]

/-! ### Reading is a run -/

/-- The end of input is the last of the tokens, and none of the others. -/
def Ended (tokens : List Token) : Prop :=
  ∃ body stop, tokens = body ++ [stop] ∧ stop.content = .endOfInput ∧
    ∀ t ∈ body, t.content ≠ .endOfInput

theorem ended_tokenize (source : String) : Ended (tokenize source) := by
  obtain ⟨body, htokens, hbody, -⟩ :=
    (tokenize_rounds source).tiles (Cursor.isAt_ofSource source.toList)
  exact ⟨body, _, htokens, rfl, fun token htoken => (hbody token htoken).1⟩

theorem Ended.tail (h : Ended (token :: tokens)) (htoken : token.content ≠ .endOfInput) :
    Ended tokens := by
  obtain ⟨body, stop, htokens, hstop, hbody⟩ := h
  cases body with
  | nil =>
      rw [(List.cons.inj htokens).1] at htoken
      exact absurd hstop htoken
  | cons t body =>
      exact ⟨body, stop, (List.cons.inj htokens).2, hstop,
        fun u hu => hbody u (List.mem_cons_of_mem _ hu)⟩

theorem Ended.eq_nil (h : Ended (token :: tokens)) (htoken : token.content = .endOfInput) :
    tokens = [] := by
  obtain ⟨body, stop, htokens, hstop, hbody⟩ := h
  cases body with
  | nil => exact (List.cons.inj htokens).2
  | cons t body =>
      rw [(List.cons.inj htokens).1] at htoken
      exact absurd htoken (hbody t List.mem_cons_self)

/-- What reading the content of the innermost open element has given is what the machine does: the same
fault, or else the machine comes to the same document when it has taken this element off its stack,
and goes on with the tokens that are left. -/
def Follows (a : Assembly) (tokens : List Token) :
    Except ParseError (Document × List Token) → Prop
  | .error e => a.run tokens = .error e
  | .ok (d, rest) => ∃ b : Assembly, b.Proper ∧ b.opened = a.opened.tail ∧ b.document = d ∧
      a.run tokens = b.run rest ∧ rest.length ≤ tokens.length ∧
      if a.opened = [] then rest = [] else Ended rest

/-- Some tokens later, with the same open elements, the machine still follows. -/
theorem Follows.of_run {later : List Token} {r : Except ParseError (Document × List Token)}
    (h : b.Follows later r) (hopened : b.opened = a.opened) (hrun : a.run tokens = b.run later)
    (hlen : later.length ≤ tokens.length) : a.Follows tokens r := by
  cases r with
  | error e => exact hrun.trans h
  | ok p =>
      obtain ⟨c, hc, hcopened, hd, hcrun, hclen, hrest⟩ := h
      rw [hopened] at hcopened hrest
      exact ⟨c, hc, hcopened, hd, hrun.trans hcrun, hclen.trans hlen, hrest⟩

/-- A closing tag whose element is not the innermost one closes this one first. -/
theorem close_of_ne {tag : String} {o : NodeId × OpenElement} {around : List (NodeId × OpenElement)}
    (hopened : a.opened = o :: around) (hne : tag ≠ o.2.tag)
    (hany : around.any (·.2.tag == tag) = true) :
    a.close tag = close { a with opened := around } tag := by
  have hne' : (o.2.tag == tag) = false := beq_eq_false_iff_ne.2 hne.symm
  simp [close, hopened, hany, hne', bne]

/-- A closing tag closes the innermost element if this is its own. -/
theorem close_of_eq {o : NodeId × OpenElement} {around : List (NodeId × OpenElement)}
    (hopened : a.opened = o :: around) : a.close o.2.tag = { a with opened := around } := by
  simp [close, hopened]

/-- A closing tag that closes nothing is passed over. -/
theorem close_of_not {tag : String} (hnot : a.opened.any (·.2.tag == tag) = false) :
    a.close tag = a := by
  rw [close, hnot]
  rfl

/-- So many rounds of reading are a run of the machine, whatever is open. -/
def Runs (fuel : Nat) : Prop :=
  ∀ ⦃a : Assembly⦄ ⦃tokens : List Token⦄, a.Proper → Ended tokens → tokens.length < fuel →
    a.Follows tokens
      (Document.readContent fuel (a.opened.map (·.2)) a.parent a.document tokens)

section Runs

variable {fuel : Nat}

/-- What is behind a token is read as the machine goes on, if the token leaves the same elements open. -/
theorem Runs.pass (h : Runs fuel) (hended : Ended (token :: tokens)) (hlen : tokens.length < fuel)
    (htoken : token.content ≠ .endOfInput) (hb : b.Proper) (hopened : b.opened = a.opened)
    (hstep : a.step token = .ok b) :
    a.Follows (token :: tokens)
      (Document.readContent fuel (a.opened.map (·.2)) a.parent b.document tokens) := by
  have hfollows := h hb (hended.tail htoken) hlen
  have hparent : b.parent = a.parent := by rw [parent, hopened, parent]
  rw [hopened, hparent] at hfollows
  exact hfollows.of_run hopened (run_of_step hstep) (Nat.le_succ _)

/-- A token that makes a node without content is read as the machine does. -/
theorem Runs.leaf (h : Runs fuel) (ha : a.Proper) (hended : Ended (token :: tokens))
    (hlen : tokens.length < fuel) (htoken : token.content ≠ .endOfInput) {kind : NodeKind}
    (hstep : a.step token = .ok (a.add kind token.span)) :
    a.Follows (token :: tokens) (Document.readContent fuel (a.opened.map (·.2)) a.parent
      (a.document.push a.parent kind token.span).1 tokens) := by
  rw [push_document ha]
  exact h.pass hended hlen htoken (ha.add kind token.span) rfl hstep

/-- A token that opens an element is read as the machine does: first the content of the element, and
then what is behind it. -/
theorem Runs.nest (h : Runs fuel) (ha : a.Proper) (hended : Ended (token :: tokens))
    (hlen : tokens.length < fuel) (htoken : token.content ≠ .endOfInput) {kind : NodeKind}
    {o : OpenElement}
    (hstep : a.step token =
      .ok ⟨(a.add kind token.span).nodes, (a.nodes.length, o) :: a.opened⟩) :
    a.Follows (token :: tokens)
      (match Document.readContent fuel (o :: a.opened.map (·.2)) a.nodes.length
        (a.add kind token.span).document tokens with
      | .error e => .error e
      | .ok (d, tokens) =>
          Document.readContent fuel (a.opened.map (·.2)) a.parent d tokens) := by
  have hb : Proper ⟨(a.add kind token.span).nodes, (a.nodes.length, o) :: a.opened⟩ := by
    refine ⟨(ha.add kind token.span).nonempty, fun p hp => ?_⟩
    rcases List.mem_cons.1 hp with rfl | hp
    · exact Nat.lt_of_lt_of_eq (Nat.lt_succ_self _) (length_add a kind token.span).symm
    · exact (ha.add kind token.span).opened p hp
  have hinner : Follows _ tokens (Document.readContent fuel (o :: a.opened.map (·.2))
      a.nodes.length (a.add kind token.span).document tokens) :=
    h hb (hended.tail htoken) hlen
  cases hread : Document.readContent fuel (o :: a.opened.map (·.2)) a.nodes.length
      (a.add kind token.span).document tokens with
  | error e =>
      rw [hread] at hinner
      exact (run_of_step hstep).trans hinner
  | ok p =>
      rw [hread] at hinner
      obtain ⟨c, hc, hopened, hd, hrun, hclen, hrest⟩ := hinner
      rw [if_neg (List.cons_ne_nil _ _)] at hrest
      have hbehind := h hc hrest (Nat.lt_of_le_of_lt hclen hlen)
      have hparent : c.parent = a.parent := by
        rw [parent, hopened, parent]
        rfl
      rw [hopened, hparent, hd] at hbehind
      exact hbehind.of_run hopened ((run_of_step hstep).trans hrun) (hclen.trans (Nat.le_succ _))

/-- A closing tag is read as the machine does: it ends the content of the innermost element, either
because it is this element's own or because it closes one around it, or it is passed over. -/
theorem Runs.closing (h : Runs fuel) (ha : a.Proper) (hended : Ended (token :: tokens))
    (hlen : tokens.length < fuel) {tag : String} (hcontent : token.content = .closeTag tag) :
    a.Follows (token :: tokens)
      (match a.opened.map (·.2) with
      | [] => Document.readContent fuel (a.opened.map (·.2)) a.parent a.document tokens
      | innermost :: around =>
          if tag = innermost.tag then .ok (a.document, tokens)
          else if around.any (·.tag == tag) then .ok (a.document, token :: tokens)
          else Document.readContent fuel (a.opened.map (·.2)) a.parent a.document tokens) := by
  have htoken : token.content ≠ .endOfInput := by simp [hcontent]
  have hstep : ∀ c : Assembly, c.step token = .ok (c.close tag) := by
    intro c
    rw [step, hcontent]
  have hpass := fun hclose : a.close tag = a =>
    h.pass hended hlen htoken ha rfl ((hstep a).trans (by rw [hclose]))
  cases hopened : a.opened with
  | nil =>
      rw [hopened] at hpass
      exact hpass (close_of_not (by rw [hopened]; rfl))
  | cons o around =>
      have haround : (⟨a.nodes, around⟩ : Assembly).Proper :=
        ⟨ha.nonempty, fun p hp => ha.opened p (hopened ▸ List.mem_cons_of_mem _ hp)⟩
      simp only [List.map_cons]
      by_cases htag : tag = o.2.tag
      · subst htag
        rw [if_pos rfl]
        refine ⟨_, haround, by rw [hopened]; rfl, rfl, ?_, Nat.le_succ _, ?_⟩
        · rw [run_of_step (hstep a), close_of_eq hopened]
        · rw [if_neg (by rw [hopened]; exact List.cons_ne_nil _ _)]
          exact hended.tail htoken
      · rw [if_neg htag]
        by_cases hany : around.any (·.2.tag == tag) = true
        · rw [if_pos (by rwa [List.any_map])]
          refine ⟨_, haround, by rw [hopened]; rfl, rfl, ?_, le_rfl, ?_⟩
          · rw [run_of_step (hstep a), run_of_step (hstep _), close_of_ne hopened htag hany]
          · rw [if_neg (by rw [hopened]; exact List.cons_ne_nil _ _)]
            exact hended
        · rw [if_neg (by rwa [List.any_map])]
          rw [hopened] at hpass
          refine hpass (close_of_not ?_)
          rw [hopened, List.any_cons, Bool.or_eq_false_iff]
          exact ⟨beq_eq_false_iff_ne.2 (Ne.symm htag), Bool.not_eq_true _ ▸ hany⟩

end Runs

/-- **Reading the content of the innermost open element is a run of the machine.** -/
theorem readContent_run (fuel : Nat) : Runs fuel := by
  induction fuel with
  | zero => exact fun a tokens _ _ hfuel => absurd hfuel (Nat.not_lt_zero _)
  | succ fuel ih =>
      intro a tokens ha hended hfuel
      cases tokens with
      | nil =>
          obtain ⟨body, stop, hnil, -⟩ := hended
          exact absurd hnil.symm (List.append_ne_nil_of_right_ne_nil _ (List.cons_ne_nil _ _))
      | cons token tokens =>
          have hlen : tokens.length < fuel := Nat.lt_of_succ_lt_succ hfuel
          unfold Document.readContent
          cases hcontent : token.content with
          | text t | rawText t | comment t | doctype t =>
              exact ih.leaf ha hended hlen (by simp [hcontent]) (by rw [step, hcontent])
          | openTag tag tagSpan attributes selfClosing =>
              have htoken : token.content ≠ .endOfInput := by simp [hcontent]
              simp only
              rw [← reused?_eq]
              cases hreused : reused? attributes with
              | some pair =>
                  obtain ⟨again, first⟩ := pair
                  exact run_of_error (by simp only [step, hcontent, hreused])
              | none =>
                  simp only
                  by_cases hleaf : (selfClosing || isVoid tag) = true
                  · rw [if_pos hleaf]
                    exact ih.leaf ha hended hlen htoken
                      (by simp only [step, hcontent, hreused, if_pos hleaf])
                  · rw [if_neg hleaf, push_document ha]
                    exact ih.nest ha hended hlen htoken
                      (by simp only [step, hcontent, hreused, if_neg hleaf])
          | closeTag tag => exact ih.closing ha hended hlen hcontent
          | endOfInput =>
              obtain rfl := hended.eq_nil hcontent
              simp only
              cases hopened : a.opened with
              | nil =>
                  refine ⟨a, ha, by rw [hopened]; rfl, rfl, ?_, Nat.le_succ _, ?_⟩
                  · exact run_of_step (by simp only [step, hcontent, hopened])
                  · rw [if_pos hopened]
              | cons o around => exact run_of_error (by simp only [step, hcontent, hopened])

/-! ### The order of the nodes -/

/-- What a step does that finds no fault: the token makes a node, which is an open element behind an
opening tag unless this closes itself or is void, or it closes elements, or it is the end of the input
and no element is open. -/
inductive Stepped (a : Assembly) (token : Token) : Assembly → Prop
  | leaf {kind : NodeKind} (hkind : token.kind? = some kind) (hleaf : kind.element? = none) :
      Stepped a token (a.add kind token.span)
  | void {tag : String} {tagSpan : Span} {attributes : List SourceAttribute} {selfClosing : Bool}
      (hcontent : token.content = .openTag tag tagSpan attributes selfClosing)
      (hreused : reused? attributes = none) (hvoid : (selfClosing || isVoid tag) = true) :
      Stepped a token
        (a.add (.element ⟨tag, attributes.map fun a => ⟨a.name, a.value⟩⟩) token.span)
  | opens {tag : String} {tagSpan : Span} {attributes : List SourceAttribute} {selfClosing : Bool}
      (hcontent : token.content = .openTag tag tagSpan attributes selfClosing)
      (hreused : reused? attributes = none) (hvoid : (selfClosing || isVoid tag) = false) :
      Stepped a token
        { a.add (.element ⟨tag, attributes.map fun a => ⟨a.name, a.value⟩⟩) token.span with
          opened := (a.nodes.length, ⟨tag, token.span⟩) :: a.opened }
  | closes {tag : String} (hcontent : token.content = .closeTag tag) :
      Stepped a token (a.close tag)
  | stops (hcontent : token.content = .endOfInput) (hopened : a.opened = []) : Stepped a token a

theorem stepped_of_step (h : a.step token = .ok b) : a.Stepped token b := by
  unfold step at h
  split at h
  · rename_i t hcontent
    cases h
    exact .leaf (by rw [Token.kind?, hcontent]) rfl
  · rename_i t hcontent
    cases h
    exact .leaf (by rw [Token.kind?, hcontent]) rfl
  · rename_i t hcontent
    cases h
    exact .leaf (by rw [Token.kind?, hcontent]) rfl
  · rename_i t hcontent
    cases h
    exact .leaf (by rw [Token.kind?, hcontent]) rfl
  · rename_i hcontent
    split at h
    · cases h
    · rename_i hreused
      simp only at h
      split at h
      · rename_i hvoid
        cases h
        exact .void hcontent hreused hvoid
      · rename_i hvoid
        cases h
        exact .opens hcontent hreused (Bool.eq_false_of_not_eq_true hvoid)
  · rename_i hcontent
    cases h
    exact .closes hcontent
  · rename_i hcontent
    split at h
    · rename_i hopened
      cases h
      exact .stops hcontent hopened
    · cases h

/-- What a node is, and where it was read. -/
def key (n : Node) : NodeKind × Option Span := (n.kind, n.span)

theorem map_key_add (a : Assembly) (kind : NodeKind) (span : Span) :
    (a.add kind span).nodes.map key = a.nodes.map key ++ [(kind, some span)] := by
  have hmodify : (a.nodes.modify a.parent fun n =>
      { n with children := n.children ++ [a.nodes.length] }).map key = a.nodes.map key := by
    refine List.ext_getElem? fun i => ?_
    rw [List.getElem?_map, List.getElem?_map, List.getElem?_modify]
    cases a.nodes[i]? with
    | none => rfl
    | some n => by_cases hi : a.parent = i <;> simp [hi, key]
  rw [add, List.map_append, hmodify]
  rfl

/-- A step makes the node of its token, and changes no other one but for its children. -/
theorem step_keys (h : a.step token = .ok b) :
    b.nodes.map key =
      a.nodes.map key ++ (token.kind?.map fun kind => (kind, some token.span)).toList := by
  cases stepped_of_step h with
  | leaf hkind _ => rw [map_key_add, hkind]; rfl
  | void hcontent _ _ => rw [map_key_add, Token.kind?, hcontent]; rfl
  | opens hcontent _ _ =>
      rw [Token.kind?, hcontent]
      exact map_key_add ..
  | closes hcontent => simp [Token.kind?, hcontent]
  | stops hcontent _ => simp [Token.kind?, hcontent]

/-- **A run makes the nodes of its tokens**, one after the other. -/
theorem run_keys (h : a.run tokens = .ok b) :
    b.nodes.map key = a.nodes.map key ++
      tokens.filterMap fun token => token.kind?.map fun kind => (kind, some token.span) := by
  induction tokens generalizing a with
  | nil =>
      cases h
      simp
  | cons token tokens ih =>
      cases hstep : a.step token with
      | error e =>
          rw [run_of_error hstep] at h
          cases h
      | ok c =>
          rw [run_of_step hstep] at h
          rw [ih h, step_keys hstep, List.append_assoc]
          cases hkind : token.kind? with
          | none => simp [hkind]
          | some kind => simp [hkind]

/-- What the nodes of the document are, but for the document node. -/
theorem map_document (a : Assembly) :
    (List.range' 1 (a.document.nodes.size - 1)).map
        (fun id => (a.document.kind? id, a.document.span? id)) =
      (a.nodes.map key).tail.map fun k => (some k.1, k.2) := by
  have hsize : a.document.nodes.size = a.nodes.length := by simp [document, Document.packed]
  have hget : ∀ id, a.document.get? id = a.nodes[id]? := Document.get?_packed a.nodes
  refine List.ext_getElem? fun i => ?_
  simp only [List.getElem?_map, List.getElem?_tail, hsize, Document.kind?, Document.span?, hget]
  by_cases hi : i + 1 < a.nodes.length
  · rw [List.getElem?_range' (show i < a.nodes.length - 1 by omega), Nat.one_mul,
      Option.map_some, Nat.add_comm 1 i, List.getElem?_eq_getElem hi]
    rfl
  · rw [List.getElem?_eq_none (by simpa using Nat.le_of_not_lt hi),
      List.getElem?_eq_none (Nat.le_of_not_lt hi)]
    rfl

end Assembly

namespace Document

/-- The nodes of a document that is read fill the slots behind the document node, in document
order. -/
theorem descendants_of_parse {source : String} {d : Document} (h : parse source = .ok d) :
    d.free = [] ∧ d.descendants root = List.range' 1 (d.nodes.size - 1) := by
  obtain ⟨ts, hgrown, -⟩ := parse_grown (kept_proper _) h
  obtain ⟨hfree, n, hsize, hids⟩ := hgrown.order rfl
  obtain ⟨hheld, hnodup, -⟩ := hgrown.tree
  have hdescendants := hheld.descendants hnodup
  rw [Placed.id_node, Placed.children_node, hids] at hdescendants
  refine ⟨hfree, hdescendants.trans ?_⟩
  rw [hsize]
  simp [empty]

theorem parse_eq_run (source : String) :
    parse source = (Assembly.start.run (tokenize source)).map Assembly.document := by
  have hfollows : Assembly.start.Follows (tokenize source)
      (readContent ((tokenize source).length + 1) [] root empty (tokenize source)) :=
    Assembly.readContent_run _ Assembly.proper_start (Assembly.ended_tokenize source)
      (Nat.lt_succ_self _)
  rw [parse]
  cases hread : readContent ((tokenize source).length + 1) [] root empty (tokenize source) with
  | error e =>
      rw [hread] at hfollows
      rw [show Assembly.start.run (tokenize source) = .error e from hfollows]
      rfl
  | ok p =>
      rw [hread] at hfollows
      obtain ⟨b, -, -, hd, hrun, -, hrest⟩ := hfollows
      rw [if_pos (show Assembly.start.opened = [] from rfl)] at hrest
      rw [hrun, hrest]
      exact congrArg Except.ok hd.symm

/-- **A document is read as the machine assembles it** from the tokens of its source.  The document
order of its nodes is that of the slots, and what they are is what the tokens say, one after the other:
no token is lost, and none is read twice. -/
theorem parse_assembles (source : String) :
    parse source = (Assembly.start.run (tokenize source)).map Assembly.document ∧
      ∀ d, parse source = .ok d →
        d.descendants root = List.range' 1 (d.nodes.size - 1) ∧
        (d.descendants root).map (fun id => (d.kind? id, d.span? id)) =
          (tokenize source).filterMap fun token =>
            token.kind?.map fun kind => (some kind, some token.span) := by
  refine ⟨parse_eq_run source, fun d hd => ⟨(descendants_of_parse hd).2, ?_⟩⟩
  rw [(descendants_of_parse hd).2]
  rw [parse_eq_run] at hd
  cases hrun : Assembly.start.run (tokenize source) with
  | error e =>
      rw [hrun] at hd
      cases hd
  | ok a =>
      rw [hrun] at hd
      cases hd
      rw [Assembly.map_document, Assembly.run_keys hrun, Assembly.start, List.map_singleton,
        List.singleton_append, List.tail_cons, List.map_filterMap]
      refine List.filterMap_congr fun token _ => ?_
      rw [Option.map_map]
      rfl

theorem parse_assembles_implied_end :
    ∃ d, parse "<ul><li>a</ul>b" = .ok d ∧ d.descendants root = [1, 2, 3, 4] ∧
      (d.descendants root).map d.kind? = [some (.element ⟨"ul", []⟩), some (.element ⟨"li", []⟩),
        some (.text "a"), some (.text "b")] := by
  have hsize : (parse "<ul><li>a</ul>b").toOption.map (·.nodes.size) = some 5 := by decide +kernel
  obtain ⟨-, hassembles⟩ := parse_assembles "<ul><li>a</ul>b"
  cases hd : parse "<ul><li>a</ul>b" with
  | error e =>
      rw [hd] at hsize
      cases hsize
  | ok d =>
      rw [hd] at hsize
      obtain ⟨horder, hkinds⟩ := hassembles d hd
      rw [show d.nodes.size = 5 from Option.some.inj hsize] at horder
      have hkinds := congrArg (List.map Prod.fst) hkinds
      rw [List.map_map] at hkinds
      exact ⟨d, rfl, horder, hkinds.trans (by decide +kernel)⟩

end Document

end PageTemplate
