/-
**What controllers do.**

A controller changes the data of its scope and nothing else, and what it makes of them depends on what
they were alone.  So there is a function of data for each controller, and one call is noted each time
that a controller runs.

Main definitions:

* `PageTemplate.Binding.Controller.data` — what a controller makes of data;
* `PageTemplate.Binding.Registry.data` — the data that the controller with a name gives a new scope;
* `PageTemplate.Binding.entered` — the controllers that were called.

Main results:

* `PageTemplate.Binding.Controller.run_eq` — what a controller changes, and what is noted.
-/

import PageTemplate.Binding.Registry

set_option relaxedAutoImplicit false
set_option autoImplicit false

namespace PageTemplate.Binding

open PageTemplate.Data

/-! ### Data -/

/-- What becomes of the data of a scope. -/
def Action.data : Action → Value → Value
  | set name v, .object fields => .object (Fields.set name v fields)
  | set _ _, data => data
  | setData data, _ => data.objectOrEmpty
  | get _, data => data

/-- What a controller makes of the data of its scope. -/
def Controller.data (c : Controller) (v : Value) : Value :=
  c.foldl (fun v action => action.data v) v

/-- The data that the controller with a name gives a new scope. -/
def Registry.data (r : Registry) (name : String) : Value :=
  ((r.controller? name).map fun c => c.data .emptyObject).getD .emptyObject

/-! ### Calls -/

/-- The controller that was called, where a call is noted. -/
def Call.entered? : Call → Option String
  | entered name _ => some name
  | got _ => none

/-- The controllers that were called, in this order. -/
def entered (calls : List Call) : List String := calls.filterMap Call.entered?

@[simp] theorem entered_append (calls seen : List Call) :
    entered (calls ++ seen) = entered calls ++ entered seen :=
  List.filterMap_append

/-! ### Running a controller -/

/-- Two changes of a scope are one. -/
theorem Scopes.update_update (f : Scopes) (s : ScopeId) (g h : Scope → Scope) :
    (f.update s g).update s h = f.update s fun sc => h (g sc) := by
  unfold Scopes.update
  congr 1
  refine Array.ext_getElem? fun i => ?_
  simp only [Array.getElem?_modify]
  split
  · rw [Option.map_map]
    refine congrArg (Option.map · _) (funext fun sc => ?_)
    rw [Function.comp_apply, Option.map_map]
    rfl
  · rfl

/-- A change of nothing. -/
theorem Scopes.update_self (f : Scopes) (s : ScopeId) : f.update s (fun sc => sc) = f := by
  unfold Scopes.update
  congr 1
  refine Array.ext_getElem? fun i => ?_
  rw [Array.getElem?_modify]
  split
  · rw [Option.map_congr fun sc _ => Option.map_id', Option.map_id']
  · rfl

/-- One thing that a controller does changes the data of its scope, and calls no controller. -/
theorem Action.run_eq (a : Action) (s : ScopeId) (f : Scopes) :
    ∃ seen, entered seen = [] ∧ ∀ calls, a.run s f calls =
      (f.update s fun sc => { sc with data := a.data sc.data }, calls ++ seen) := by
  cases a with
  | set name v =>
      refine ⟨[], rfl, fun calls => ?_⟩
      rw [Action.run, List.append_nil, Scopes.set]
      congr 2
      funext sc
      cases hdata : sc.data <;> simp only [Action.data] <;> rw [← hdata]
  | setData data => exact ⟨[], rfl, fun calls => by rw [List.append_nil]; rfl⟩
  | get path =>
      exact ⟨[.got (f.lookup? s path)], rfl, fun calls => by
        rw [Action.run, show (fun sc : Scope => { sc with data := (get path).data sc.data }) =
          fun sc => sc from rfl, f.update_self]⟩

/-- So do several of these, one after the other. -/
theorem foldl_run_eq (c : Controller) (s : ScopeId) (f : Scopes) :
    ∃ seen, entered seen = [] ∧ ∀ calls,
      c.foldl (fun x action => Action.run s x.1 x.2 action) (f, calls) =
        (f.update s fun sc => { sc with data := c.data sc.data }, calls ++ seen) := by
  induction c generalizing f with
  | nil =>
      refine ⟨[], rfl, fun calls => ?_⟩
      rw [List.append_nil]
      exact congrArg (·, calls) (f.update_self s).symm
  | cons a c ih =>
      obtain ⟨first, hfirst, hrun⟩ := a.run_eq s f
      obtain ⟨later, hlater, hrest⟩ := ih (f.update s fun sc => { sc with data := a.data sc.data })
      refine ⟨first ++ later, by rw [entered_append, hfirst, hlater, List.append_nil], fun calls => ?_⟩
      rw [List.foldl_cons, hrun, hrest, Scopes.update_update, List.append_assoc]
      rfl

/-- **A controller changes the data of its scope**, and it is called once. -/
theorem Controller.run_eq (c : Controller) (name : String) (s : ScopeId) (f : Scopes) :
    ∃ seen, entered seen = [name] ∧ ∀ calls, c.run name s f calls =
      (f.update s fun sc => { sc with data := c.data sc.data }, calls ++ seen) := by
  obtain ⟨seen, hseen, hrun⟩ := foldl_run_eq c s f
  refine ⟨.entered name (f.summary s) :: seen, congrArg (name :: ·) hseen, fun calls => ?_⟩
  rw [Controller.run]
  refine (hrun _).trans ?_
  rw [List.append_assoc, List.singleton_append]

end PageTemplate.Binding
