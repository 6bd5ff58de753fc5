/-
**Scopes: where the data of a page live.**

A scope has data of its own, and perhaps a parent, which answers for what the scope does not have.
Scopes are numbered in the order in which they are made, so a parent comes before its children.  A
scope owns its children; those scopes that nothing owns have to be held from outside, and a scope
that is neither held nor owned is gone.  A scope whose parent is gone has no parent any more.

Main definitions:

* `PageTemplate.Binding.Repeat`, `PageTemplate.Binding.Scope` — a bound repeat directive, and a
  scope;
* `PageTemplate.Binding.Scopes` — all scopes, and those that are held;
* `PageTemplate.Binding.Scopes.newRoot`, `PageTemplate.Binding.Scopes.newChild` — new scopes;
* `PageTemplate.Binding.Scopes.hold`, `PageTemplate.Binding.Scopes.letGo` — holding a scope;
* `PageTemplate.Binding.Scopes.set`, `PageTemplate.Binding.Scopes.setData` — changes of data;
* `PageTemplate.Binding.Scopes.lookup?` — what a path leads to, from a scope and its ancestors;
* `PageTemplate.Binding.Scopes.chain` — a scope and its ancestors.

Main results:

* `PageTemplate.Binding.Scopes.get?_update` — a change of one scope leaves the others alone.
-/

import PageTemplate.Binding.RepeatExpression
import PageTemplate.Binding.Slots
import PageTemplate.Data.Path

set_option relaxedAutoImplicit false
set_option autoImplicit false

namespace PageTemplate.Binding

open PageTemplate.Data

/-- The number of a scope. -/
abbrev ScopeId := Nat

/-- A bound repeat directive.  Its element, the pattern, is taken out of the document and copied
into it for each item. -/
structure Repeat where
  expression : RepeatExpression
  /-- The scope of the items, which has one item at a time. -/
  scope : ScopeId
  pattern : NodeId
  /-- The node that the copies are put into. -/
  container : NodeId
  /-- The node that the copies are put before.  Without it they are put last. -/
  anchor : Option NodeId
  /-- The copies that are in the document now. -/
  copies : List NodeId
  deriving DecidableEq, Repr

/-- A scope: its data, its place among the scopes, and what of a document is bound to it. -/
structure Scope where
  data : Value
  parent : Option ScopeId
  children : List ScopeId
  slots : Slots
  repeats : List Repeat

/-- All scopes by number, where those that are gone leave a gap, and the scopes held from outside,
as often as they are held. -/
structure Scopes where
  entries : Array (Option Scope)
  held : List ScopeId

namespace Scopes

/-- No scopes. -/
def empty : Scopes := ⟨#[], []⟩

/-! ### Inspection -/

/-- The scope with this number, unless it is gone. -/
def get? (f : Scopes) (s : ScopeId) : Option Scope :=
  f.entries[s]?.join

/-- Whether there is a scope with this number. -/
def contains (f : Scopes) (s : ScopeId) : Bool :=
  (f.get? s).isSome

/-- The parent of a scope, unless the parent is gone. -/
def parent? (f : Scopes) (s : ScopeId) : Option ScopeId :=
  ((f.get? s).bind (·.parent)).filter f.contains

/-- The scopes that a scope owns, in the order in which they were made. -/
def children (f : Scopes) (s : ScopeId) : List ScopeId :=
  ((f.get? s).map (·.children)).getD []

/-- The data of a scope. -/
def data? (f : Scopes) (s : ScopeId) : Option Value :=
  (f.get? s).map (·.data)

/-- The bound repeat directives of a scope. -/
def repeats (f : Scopes) (s : ScopeId) : List Repeat :=
  ((f.get? s).map (·.repeats)).getD []

/-! ### Changes -/

/-- Changes a scope. -/
def update (f : Scopes) (s : ScopeId) (g : Scope → Scope) : Scopes :=
  { f with entries := f.entries.modify s (Option.map g) }

/-- Only the scope itself changes. -/
theorem get?_update (f : Scopes) (s other : ScopeId) (g : Scope → Scope) :
    (f.update s g).get? other = if other = s then (f.get? s).map g else f.get? other := by
  unfold get? update
  simp only [Array.getElem?_modify]
  by_cases h : s = other
  · subst h
    cases hn : f.entries[s]? with
    | none => simp
    | some n => simp
  · simp [h, Ne.symm h]

/-- A scope that nothing is bound to.  Only objects can be its data. -/
def Scope.fresh (data : Value) (parent : Option ScopeId) : Scope :=
  ⟨data.objectOrEmpty, parent, [], .empty, []⟩

/-- Makes a scope that nothing owns, and holds it. -/
def newRoot (f : Scopes) (data : Value) : Scopes × ScopeId :=
  let s := f.entries.size
  (⟨f.entries.push (some (Scope.fresh data none)), s :: f.held⟩, s)

/-- Makes a scope that `parent` owns and answers for. -/
def newChild (f : Scopes) (parent : ScopeId) (data : Value) : Scopes × ScopeId :=
  let s := f.entries.size
  let f := { f with entries := f.entries.push (some (Scope.fresh data (some parent))) }
  (f.update parent fun p => { p with children := p.children ++ [s] }, s)

/-- Replaces the data of a scope by any value. -/
def putData (f : Scopes) (s : ScopeId) (data : Value) : Scopes :=
  f.update s fun scope => { scope with data := data }

/-- Replaces the data of a scope by an object.  Any other value counts as an empty one. -/
def setData (f : Scopes) (s : ScopeId) (data : Value) : Scopes :=
  f.putData s data.objectOrEmpty

/-- Sets a field of the data of a scope, if they are an object. -/
def set (f : Scopes) (s : ScopeId) (name : String) (v : Value) : Scopes :=
  f.update s fun scope =>
    match scope.data with
    | .object fields => { scope with data := .object (Fields.set name v fields) }
    | _ => scope

/-! ### Ownership -/

/-- The scope `s` and, down to depth `fuel`, the scopes that it owns. -/
def ownedTo (f : Scopes) : Nat → ScopeId → List ScopeId
  | 0, _ => []
  | fuel + 1, s => s :: (f.children s).flatMap (f.ownedTo fuel)

/-- The scopes that are held, and those that they own.  No scope is owned over more steps than there
are scopes. -/
def owned (f : Scopes) : List ScopeId :=
  f.held.flatMap (f.ownedTo f.entries.size)

/-- Only the scopes that are held or owned. -/
def collect (f : Scopes) : Scopes :=
  let live := f.owned
  { f with entries := f.entries.mapIdx fun s scope => if live.contains s then scope else none }

/-- Holds a scope once more. -/
def hold (f : Scopes) (s : ScopeId) : Scopes :=
  { f with held := s :: f.held }

/-- Holds a scope once less.  If nothing holds or owns it any more, it is gone, with what it owns
alone. -/
def letGo (f : Scopes) (s : ScopeId) : Scopes :=
  ({ f with held := f.held.erase s } : Scopes).collect

/-! ### Lookup -/

/-- What a sequence of names leads to from a scope, or else from the nearest of the next `fuel - 1`
ancestors from which it leads somewhere.  Every scope is asked for the whole sequence. -/
def resolve (f : Scopes) : Nat → ScopeId → List String → Option Value
  | 0, _, _ => none
  | fuel + 1, s, names =>
      match (f.data? s).bind (·.lookup? names) with
      | some v => some v
      | none => (f.parent? s).bind fun p => resolve f fuel p names

/-- What a path leads to from a scope.  The empty path leads to all of its own data.  There are no
more ancestors than scopes. -/
def lookup? (f : Scopes) (s : ScopeId) (path : String) : Option Value :=
  if path = "" then f.data? s else f.resolve f.entries.size s (segments path)

/-- A scope and its next `fuel - 1` ancestors, the scope itself first. -/
def chain (f : Scopes) : Nat → ScopeId → List ScopeId
  | 0, _ => []
  | fuel + 1, s => s :: ((f.parent? s).map (f.chain fuel)).getD []

end Scopes

end PageTemplate.Binding
