/-
**What a page means.**

A page is a tree, and its meaning in an environment is a list of trees.  An environment is a list of
values, which are asked one after the other for what a path leads to.  In each text the placeholders
are replaced by what their paths lead to.  An element with a repeat directive becomes one copy of
itself for each item of its collection, and the content of a copy has its meaning where the item is
known by its name.  Nothing else changes.

Rendering does not put the text together again that a placeholder has cut, so the meaning comes in two
forms, with one text for each text of the page and with one for each piece.  Their markup is the same.

Main definitions:

* `PageTemplate.Binding.Env.get?`, `PageTemplate.Binding.Env.items` — what a path leads to, and the
  items of what it leads to;
* `PageTemplate.Binding.wholeText`, `PageTemplate.Binding.splitText` — the text for a text;
* `PageTemplate.Tree.expand` — the meaning of a tree, where it is a parameter what becomes of a text;
* `PageTemplate.Tree.renderedAll` — the meaning of trees;
* `PageTemplate.Binding.Scopes.Sees` — the environment of a scope.

Main results:

* `PageTemplate.Tree.markupAll_expandAll_split` — both forms have the same markup;
* `PageTemplate.Binding.Scopes.Sees.lookup?` — a scope finds what its environment has.
-/

import PageTemplate.Binding.Scope
import PageTemplate.Document.Tree
import PageTemplate.Proofs.Document.NormalForm

set_option relaxedAutoImplicit false
set_option autoImplicit false

namespace PageTemplate

open PageTemplate.Data PageTemplate.Markup PageTemplate.Text

namespace Binding

/-! ### Environments -/

/-- Where the data of a page are looked for: in one value after the other. -/
abbrev Env := List Value

namespace Env

/-- What a path leads to in the first value from which it leads somewhere. -/
def get? (env : Env) (path : String) : Option Value :=
  env.findSome? fun v => v.lookup? (segments path)

/-- The items of what a path leads to, and none if this is no collection. -/
def items (env : Env) (path : String) : List Value :=
  (items? (env.get? path)).getD []

/-- The value that knows an item by its name. -/
def frame (name : String) (v : Value) : Value := .object [(name, v)]

end Env

/-! ### Text -/

/-- What a piece of a text shows. -/
def Piece.shown (env : Env) : Piece → List Char
  | literal cs => cs
  | slot path => (display (env.get? (String.ofList path))).toList

/-- A text with each placeholder replaced by what its path leads to. -/
def wholeText (env : Env) (t : String) : List String :=
  [String.ofList ((pieces t.toList).flatMap (Piece.shown env))]

/-- The same text cut into its pieces.  An empty text stays what it is. -/
def splitText (env : Env) (t : String) : List String :=
  match pieces t.toList with
  | [] => [t]
  | ps => ps.map fun p => String.ofList (p.shown env)

/-- Only the empty text has no pieces. -/
theorem pieces_eq_nil_iff {cs : List Char} : pieces cs = [] ↔ cs = [] := by
  constructor
  · intro h
    cases hp : findPlaceholder? cs with
    | none =>
        rw [pieces_of_none hp, Piece.ofLiteral] at h
        split at h
        · assumption
        · cases h
    | some p =>
        rw [pieces_of_some hp] at h
        simp at h
  · rintro rfl
    rw [pieces_of_none rfl]
    rfl

/-- The pieces put together are the whole text. -/
theorem flatMap_splitText (env : Env) (t : String) :
    (splitText env t).flatMap String.toList = (wholeText env t).flatMap String.toList := by
  unfold splitText wholeText
  split
  · rename_i h
    rw [h]
    simpa using pieces_eq_nil_iff.1 h
  · simp [List.flatMap_map]

end Binding

/-! ### Trees -/

open Binding

/-- The repeat directive of an element. -/
def Markup.Element.repeat? (e : Element) (mark : String) : Option RepeatExpression :=
  if e.hasAttribute mark then RepeatExpression.parse? ((e.attribute? mark).getD "") else none

namespace Tree

mutual

/-- The meaning of a tree, where a text becomes the texts that `text` makes of it. -/
def expand (text : Env → String → List String) (mark : String) (env : Env) : Tree → List Tree
  | node (.text t) span _ => (text env t).map fun u => node (.text u) span []
  | node (.element e) span ts =>
      match e.repeat? mark with
      | none => [node (.element e) span (expandAll text mark env ts)]
      | some x =>
          (env.items x.collection).map fun v =>
            node (.element (e.eraseAttribute mark)) span
              (expandAll text mark (Env.frame x.item v :: env) ts)
  | t => [t]

/-- The meaning of trees that stand side by side. -/
def expandAll (text : Env → String → List String) (mark : String) (env : Env) :
    List Tree → List Tree
  | [] => []
  | t :: ts => expand text mark env t ++ expandAll text mark env ts

end

/-- **What trees mean**, with one text for each text of the page. -/
def renderedAll (mark : String) (env : Env) (ts : List Tree) : List Tree :=
  expandAll wholeText mark env ts

variable (text : Env → String → List String) (mark : String)

theorem expand_text (env : Env) (t : String) (span : Option Span) (ts : List Tree) :
    expand text mark env (node (.text t) span ts) =
      (text env t).map fun u => node (.text u) span [] := by
  rw [expand]

theorem expand_element_of_none {e : Element} (h : e.repeat? mark = none) (env : Env)
    (span : Option Span) (ts : List Tree) :
    expand text mark env (node (.element e) span ts) =
      [node (.element e) span (expandAll text mark env ts)] := by
  rw [expand, h]

theorem expand_element_of_some {e : Element} {x : RepeatExpression} (h : e.repeat? mark = some x)
    (env : Env) (span : Option Span) (ts : List Tree) :
    expand text mark env (node (.element e) span ts) =
      (env.items x.collection).map fun v =>
        node (.element (e.eraseAttribute mark)) span
          (expandAll text mark (Env.frame x.item v :: env) ts) := by
  rw [expand, h]

theorem expandAll_eq_flatMap (env : Env) (ts : List Tree) :
    expandAll text mark env ts = ts.flatMap (expand text mark env) := by
  induction ts with
  | nil => rfl
  | cons t ts ih => rw [expandAll, ih, List.flatMap_cons]

/-- The markup of texts side by side is that of the text that they make up. -/
theorem markupAll_texts (raw : Bool) (us : List String) (span : Option Span) :
    markupAll raw (us.map fun u => node (.text u) span []) =
      if raw then us.flatMap String.toList else escapeText (us.flatMap String.toList) := by
  rw [markupAll_eq_flatMap, List.flatMap_map]
  cases raw with
  | false => simp [markup, escapeText, List.flatMap_assoc]
  | true => simp [markup]

/-- **It does not show whether a text is in one piece.** -/
theorem markupAll_expandAll_split (mark : String) (ts : List Tree) (env : Env) (raw : Bool) :
    markupAll raw (expandAll splitText mark env ts) = markupAll raw (renderedAll mark env ts) := by
  unfold renderedAll
  induction ts using forest_induction generalizing env raw with
  | nil => rfl
  | cons k span cs ts ihcs ihts =>
      rw [expandAll, expandAll, markupAll_append, markupAll_append, ihts]
      congr 1
      cases k with
      | text t =>
          rw [expand_text, expand_text, markupAll_texts, markupAll_texts, flatMap_splitText]
      | element e =>
          cases hx : e.repeat? mark with
          | none =>
              rw [expand_element_of_none _ _ hx, expand_element_of_none _ _ hx, markupAll_cons,
                markupAll_cons, markup_congr fun raw => ihcs env raw]
          | some x =>
              rw [expand_element_of_some _ _ hx, expand_element_of_some _ _ hx,
                markupAll_eq_flatMap, markupAll_eq_flatMap, List.flatMap_map, List.flatMap_map]
              refine List.flatMap_congr fun v _ => ?_
              exact markup_congr fun raw => ihcs _ raw
      | document => rfl
      | comment t => rfl
      | doctype t => rfl

end Tree

/-! ### The environment of a scope -/

namespace Binding

namespace Scopes

/-- The environment of a scope: its own data, and the environment of its parent, which was made
before it.  A parent that is gone has none. -/
inductive Sees (f : Scopes) : ScopeId → Env → Prop
  | top {s : ScopeId} {scope : Scope} (h : f.get? s = some scope) (hp : scope.parent = none) :
      Sees f s [scope.data]
  | gone {s p : ScopeId} {scope : Scope} (h : f.get? s = some scope) (hp : scope.parent = some p)
      (hlt : p < s) (hgone : f.get? p = none) : Sees f s [scope.data]
  | child {s p : ScopeId} {scope : Scope} {env : Env} (h : f.get? s = some scope)
      (hp : scope.parent = some p) (hlt : p < s) (hsees : Sees f p env) :
      Sees f s (scope.data :: env)

variable {f : Scopes} {s : ScopeId} {env : Env}

theorem lt_size_of_get? {scope : Scope} (h : f.get? s = some scope) : s < f.entries.size := by
  rw [get?, Option.join_eq_some_iff] at h
  exact (Array.getElem?_eq_some_iff.1 h).1

theorem data?_of_get? {scope : Scope} (h : f.get? s = some scope) :
    f.data? s = some scope.data := by
  rw [data?, h, Option.map_some]

theorem Sees.exists_get? (h : f.Sees s env) : ∃ scope, f.get? s = some scope := by
  cases h with
  | top h _ => exact ⟨_, h⟩
  | gone h _ _ _ => exact ⟨_, h⟩
  | child h _ _ _ => exact ⟨_, h⟩

/-- A scope that has no parent any more finds what its own data have. -/
theorem resolve_of_alone {scope : Scope} (h : f.get? s = some scope) (hp : f.parent? s = none)
    {fuel : Nat} (hf : s < fuel) (names : List String) :
    f.resolve fuel s names = [scope.data].findSome? fun v => v.lookup? names := by
  cases fuel with
  | zero => exact absurd hf (Nat.not_lt_zero s)
  | succ fuel =>
      rw [Scopes.resolve, data?_of_get? h, Option.bind_some, hp, Option.bind_none]
      cases hv : scope.data.lookup? names with
      | none => simp [hv]
      | some v => simp [hv]

theorem parent?_of_none {scope : Scope} (h : f.get? s = some scope) (hp : scope.parent = none) :
    f.parent? s = none := by
  simp [parent?, h, hp]

theorem parent?_of_gone {p : ScopeId} {scope : Scope} (h : f.get? s = some scope)
    (hp : scope.parent = some p) (hgone : f.get? p = none) : f.parent? s = none := by
  simp [parent?, h, hp, contains, hgone]

/-- A parent that sees something is there. -/
theorem parent?_of_sees {p : ScopeId} {scope : Scope} (h : f.get? s = some scope)
    (hp : scope.parent = some p) (hsees : f.Sees p env) : f.parent? s = some p := by
  obtain ⟨q, hq⟩ := hsees.exists_get?
  simp [parent?, h, hp, contains, hq]

/-- With a round for every scope that may be an ancestor, names are looked for in the whole
environment. -/
theorem Sees.resolve (h : f.Sees s env) {fuel : Nat} (hf : s < fuel) (names : List String) :
    f.resolve fuel s names = env.findSome? fun v => v.lookup? names := by
  induction h generalizing fuel with
  | top h hp => exact resolve_of_alone h (parent?_of_none h hp) hf names
  | gone h hp hlt hgone => exact resolve_of_alone h (parent?_of_gone h hp hgone) hf names
  | @child s p scope env h hp hlt hsees ih =>
      cases fuel with
      | zero => exact absurd hf (Nat.not_lt_zero s)
      | succ fuel =>
          have hp' : p < fuel := Nat.lt_of_lt_of_le hlt (Nat.le_of_lt_succ hf)
          rw [Scopes.resolve, data?_of_get? h, Option.bind_some, parent?_of_sees h hp hsees,
            Option.bind_some, ih hp', List.findSome?_cons]
          cases scope.data.lookup? names <;> rfl

/-- **A scope finds what its environment has.** -/
theorem Sees.lookup? (h : f.Sees s env) {path : String} (hpath : path ≠ "") :
    f.lookup? s path = env.get? path := by
  obtain ⟨scope, hs⟩ := h.exists_get?
  rw [Scopes.lookup?, if_neg hpath, h.resolve (lt_size_of_get? hs), Env.get?]

/-- What a scope asks for a path: its own data, or else its parent. -/
def outlook? (f : Scopes) (s : ScopeId) : Option (Value × Option ScopeId) :=
  (f.get? s).map fun scope => (scope.data, scope.parent)

theorem outlook?_of_get? {scope : Scope} (h : f.get? s = some scope) :
    f.outlook? s = some (scope.data, scope.parent) := by
  rw [outlook?, h, Option.map_some]

theorem get?_of_outlook? {data : Value} {p : Option ScopeId} (h : f.outlook? s = some (data, p)) :
    ∃ scope, f.get? s = some scope ∧ scope.data = data ∧ scope.parent = p := by
  obtain ⟨scope, hscope, heq⟩ := Option.map_eq_some_iff.1 h
  cases heq
  exact ⟨scope, hscope, rfl, rfl⟩

/-- The environment of a scope is that of the data and the parents of the scopes up to it. -/
theorem Sees.congr {g : Scopes} (h : f.Sees s env) (hg : ∀ x ≤ s, g.outlook? x = f.outlook? x) :
    g.Sees s env := by
  induction h with
  | @top s scope h hp =>
      obtain ⟨scope', h', hdata, hparent⟩ :=
        get?_of_outlook? ((hg s (Nat.le_refl s)).trans (outlook?_of_get? h))
      rw [← hdata]
      exact .top h' (hparent.trans hp)
  | @gone s p scope h hp hlt hgone =>
      obtain ⟨scope', h', hdata, hparent⟩ :=
        get?_of_outlook? ((hg s (Nat.le_refl s)).trans (outlook?_of_get? h))
      have hgone' : g.get? p = none := by
        have hp' := hg p (Nat.le_of_lt hlt)
        simpa [outlook?, hgone] using hp'
      rw [← hdata]
      exact .gone h' (hparent.trans hp) hlt hgone'
  | @child s p scope env h hp hlt hsees ih =>
      obtain ⟨scope', h', hdata, hparent⟩ :=
        get?_of_outlook? ((hg s (Nat.le_refl s)).trans (outlook?_of_get? h))
      rw [← hdata]
      exact .child h' (hparent.trans hp) hlt
        (ih fun x hx => hg x (Nat.le_trans hx (Nat.le_of_lt hlt)))

end Scopes

end Binding

end PageTemplate
