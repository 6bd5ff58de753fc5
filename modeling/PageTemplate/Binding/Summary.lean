/-
**What a scope binds.**

Main definitions:

* `PageTemplate.Binding.Summary` — the paths of a scope's slots, and its repeat directives with the
  summaries of their scopes;
* `PageTemplate.Binding.Scopes.summary` — the summary of a scope;
* `PageTemplate.Binding.Summary.toValue` — a summary as data;
* `PageTemplate.Binding.Summary.outline` — a summary as indented text.
-/

import PageTemplate.Binding.Scope

set_option relaxedAutoImplicit false
set_option autoImplicit false

namespace PageTemplate.Binding

open PageTemplate.Data

/-- What a scope binds: the paths of its slots in the order in which they first occur, and what each
repeat directive says and its scope binds. -/
inductive Summary where
  | mk (paths : List String) (repeats : List (RepeatExpression × Summary))
  deriving Repr

namespace Scopes

/-- The summary of a scope, with repeat directives at most `fuel - 1` ones inside each other. -/
def summaryTo (f : Scopes) : Nat → ScopeId → Summary
  | 0, _ => .mk [] []
  | fuel + 1, s =>
      .mk (((f.get? s).map (·.slots.paths)).getD [])
        ((f.repeats s).map fun r => (r.expression, f.summaryTo fuel r.scope))

/-- What a scope binds. -/
def summary (f : Scopes) (s : ScopeId) : Summary :=
  f.summaryTo f.entries.size s

end Scopes

namespace Summary

mutual

/-- A summary as data. -/
def toValue : Summary → Value
  | mk paths repeats =>
      .object [("bindings", .array (paths.map .string)), ("repeats", .array (repeatValues repeats))]
termination_by structural s => s

/-- The repeat directives of a summary as data. -/
def repeatValues : List (RepeatExpression × Summary) → List Value
  | [] => []
  | r :: rest => repeatValue r :: repeatValues rest
termination_by structural rs => rs

/-- A repeat directive of a summary as data. -/
def repeatValue : RepeatExpression × Summary → Value
  | (e, s) =>
      .object [("item", .string e.item), ("collection", .string e.collection),
        ("scope", toValue s)]
termination_by structural r => r

end

/-- The indentation at a depth. -/
def indent (depth : Nat) : String :=
  String.ofList (List.replicate (2 * depth) ' ')

/-- The line for the slots of a path. -/
def pathLine (depth : Nat) (path : String) : String :=
  indent depth ++ "\x7b\x7b " ++ path ++ " \x7d\x7d\n"

/-- The line for a repeat directive. -/
def repeatLine (depth : Nat) (e : RepeatExpression) : String :=
  indent depth ++ "repeat " ++ e.item ++ " in " ++ e.collection ++ "\n"

mutual

/-- A summary as lines of text: the paths, then each repeat directive with the summary of its scope
below it, indented. -/
def outline (depth : Nat) : Summary → String
  | mk paths repeats => String.join (paths.map (pathLine depth)) ++ outlineAll depth repeats
termination_by structural s => s

/-- The repeat directives of a summary as lines of text. -/
def outlineAll (depth : Nat) : List (RepeatExpression × Summary) → String
  | [] => ""
  | r :: rest => outlineRepeat depth r ++ outlineAll depth rest
termination_by structural rs => rs

/-- A repeat directive of a summary as lines of text. -/
def outlineRepeat (depth : Nat) : RepeatExpression × Summary → String
  | (e, s) => repeatLine depth e ++ outline (depth + 1) s
termination_by structural r => r

end

end Summary

end PageTemplate.Binding
