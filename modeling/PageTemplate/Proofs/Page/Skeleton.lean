/-
**What of a page does not depend on the strings in its data.**

The skeleton of a page is what is left without its texts: the elements with their attributes, the
comments and the doctypes, each where it is.  Data decide how often an element is repeated, but only
by the number of items that a collection has, so it does not matter what the strings in the data are.

Main definitions:

* `PageTemplate.Data.Value.blank` — a value with empty strings instead of its own;
* `PageTemplate.Tree.skeleton`, `PageTemplate.Tree.skeletonAll` — trees without their texts.

Main results:

* `PageTemplate.Tree.skeletonAll_normalAll`, `PageTemplate.Tree.skeletonAll_bareAll` — it does not
  matter how texts are cut, nor what places trees were read from;
* `PageTemplate.Tree.skeletonAll_expandAll`, `PageTemplate.Tree.skeletonAll_mountedAll` — the skeleton
  of what trees mean is what their skeleton means to blank data.
-/

import PageTemplate.Proofs.Page.Controllers

set_option relaxedAutoImplicit false
set_option autoImplicit false

namespace PageTemplate

open PageTemplate.Binding PageTemplate.Data PageTemplate.Markup PageTemplate.Text

/-! ### Data without strings -/

namespace Data.Value

mutual

/-- The value with empty strings instead of its own.  The keys of objects stay. -/
def blank : Value → Value
  | string _ => string ""
  | array items => array (blankItems items)
  | object fields => object (blankFields fields)
  | v => v
termination_by structural v => v

/-- The items of a list without their strings. -/
def blankItems : List Value → List Value
  | [] => []
  | v :: vs => blank v :: blankItems vs
termination_by structural vs => vs

/-- The fields of an object without their strings. -/
def blankFields : List (String × Value) → Fields
  | [] => []
  | (key, v) :: fields => (key, blank v) :: blankFields fields
termination_by structural fields => fields

end

theorem blank_array (items : List Value) : (array items).blank = array (items.map blank) := by
  rw [blank]
  congr 1
  induction items with
  | nil => rfl
  | cons v vs ih => rw [blankItems, ih, List.map_cons]

theorem blank_object (fields : Fields) :
    (object fields).blank = object (fields.map fun f => (f.1, f.2.blank)) := by
  rw [blank]
  congr 1
  induction fields with
  | nil => rfl
  | cons f fields ih =>
      obtain ⟨key, v⟩ := f
      rw [blankFields, ih, List.map_cons]

theorem get?_map_blank (fields : Fields) (key : String) :
    Fields.get? (fields.map fun f => (f.1, f.2.blank)) key = (fields.get? key).map blank := by
  induction fields with
  | nil => rfl
  | cons f fields ih =>
      rw [List.map_cons, Fields.get?_cons, Fields.get?_cons, ih]
      split <;> rfl

theorem member?_blank (v : Value) (key : String) :
    v.blank.member? key = (v.member? key).map blank := by
  cases v with
  | object fields =>
      rw [blank_object]
      exact get?_map_blank fields key
  | array items =>
      rw [blank_array, member?, member?]
      cases readNat 10 key.toList <;> simp
  | _ => rfl

theorem isNull_blank (v : Value) : v.blank.isNull = v.isNull := by
  cases v <;> rfl

/-- **Paths lead to the same places in blank data.** -/
theorem lookup?_blank (v : Value) (names : List String) :
    v.blank.lookup? names = (v.lookup? names).map blank := by
  induction names generalizing v with
  | nil => rfl
  | cons key rest ih =>
      cases rest with
      | nil => exact member?_blank v key
      | cons next rest =>
          rw [lookup?_cons_cons, lookup?_cons_cons, member?_blank]
          cases v.member? key with
          | none => rfl
          | some w =>
              rw [Option.map_some, Option.filter_some, Option.filter_some, isNull_blank]
              split
              · exact ih w
              · rfl

theorem items?_blank (v : Option Value) :
    items? (v.map blank) = (items? v).map fun items => items.map blank := by
  cases v with
  | none => rfl
  | some v =>
      cases v with
      | object fields => simp [items?, blank_object]
      | array items => simp [items?, blank_array]
      | _ => rfl

theorem objectOrEmpty_blank (v : Value) : v.objectOrEmpty.blank = v.blank.objectOrEmpty := by
  cases v <;> rfl

theorem fields?_blank (v : Value) :
    v.blank.fields?.getD [] = (v.fields?.getD []).map fun f => (f.1, f.2.blank) := by
  cases v with
  | object fields => rw [blank_object]; rfl
  | _ => rfl

end Data.Value

namespace Binding.Env

theorem get?_blank (env : Env) (path : String) :
    get? (env.map Value.blank) path = (env.get? path).map Value.blank := by
  unfold get?
  induction env with
  | nil => rfl
  | cons v env ih =>
      rw [List.map_cons, List.findSome?_cons, List.findSome?_cons, Value.lookup?_blank, ih]
      cases v.lookup? (segments path) <;> rfl

/-- **A collection has as many items in blank data**, and they are blank. -/
theorem items_blank (env : Env) (path : String) :
    items (env.map Value.blank) path = (env.items path).map Value.blank := by
  rw [items, items, get?_blank, Value.items?_blank]
  cases items? (env.get? path) <;> rfl

end Binding.Env

/-! ### Trees without texts -/

namespace Tree

mutual

/-- A tree without its texts and without the places that it was read from. -/
def skeleton : Tree → List Tree
  | node (.text _) _ _ => []
  | node k _ ts => [node k none (skeletonAll ts)]

/-- Trees that stand side by side, without their texts. -/
def skeletonAll : List Tree → List Tree
  | [] => []
  | t :: ts => skeleton t ++ skeletonAll ts

end

theorem skeleton_text (t : String) (span : Option Span) (ts : List Tree) :
    skeleton (node (.text t) span ts) = [] := by
  rw [skeleton]

theorem skeleton_of_not_text {k : NodeKind} (hk : k.text? = none) (span : Option Span)
    (ts : List Tree) : skeleton (node k span ts) = [node k none (skeletonAll ts)] := by
  cases k with
  | text t => cases hk
  | _ => rw [skeleton]; simp

theorem skeletonAll_eq_flatMap (ts : List Tree) : skeletonAll ts = ts.flatMap skeleton := by
  induction ts with
  | nil => rfl
  | cons t ts ih => rw [skeletonAll, ih, List.flatMap_cons]

theorem skeletonAll_append (ts us : List Tree) :
    skeletonAll (ts ++ us) = skeletonAll ts ++ skeletonAll us := by
  simp [skeletonAll_eq_flatMap]

theorem skeletonAll_joinText (t : String) (ts : List Tree) :
    skeletonAll (joinText t ts) = skeletonAll ts := by
  unfold joinText
  split
  · rw [skeletonAll, skeletonAll, skeleton_text, skeleton_text]
  · split
    · rfl
    · rw [skeletonAll, skeleton_text, List.nil_append]

/-- It does not matter how texts are cut. -/
theorem skeletonAll_normalAll (ts : List Tree) : skeletonAll (normalAll ts) = skeletonAll ts := by
  induction ts using forest_induction with
  | nil => rfl
  | cons k span cs ts ihcs ihts =>
      by_cases hk : k.text? = none
      · rw [normalAll_of_not_text hk, skeletonAll, skeletonAll, skeleton_of_not_text hk,
          skeleton_of_not_text hk, ihcs, ihts]
      · cases k with
        | text t =>
            rw [normalAll_text, skeletonAll_joinText, ihts, skeletonAll, skeleton_text,
              List.nil_append]
        | _ => exact absurd rfl hk

/-- It does not matter what places trees were read from. -/
theorem skeletonAll_bareAll (ts : List Tree) : skeletonAll (bareAll ts) = skeletonAll ts := by
  induction ts using forest_induction with
  | nil => rfl
  | cons k span cs ts ihcs ihts =>
      rw [bareAll, bare, skeletonAll, skeletonAll, ihts]
      by_cases hk : k.text? = none
      · rw [skeleton_of_not_text hk, skeleton_of_not_text hk, ihcs]
      · cases k with
        | text t => rw [skeleton_text, skeleton_text]
        | _ => exact absurd rfl hk

section Meaning

variable (mark : String) {o : Options} {data : String → Value}

/-- **The skeleton of what trees mean is what their skeleton means to blank data.** -/
theorem skeletonAll_expandAll (text : Env → String → List String) (env : Env) (ts : List Tree) :
    skeletonAll (expandAll text mark env ts) =
      expandAll text mark (env.map Value.blank) (skeletonAll ts) := by
  induction ts using forest_induction generalizing env with
  | nil => rfl
  | cons k span cs ts ihcs ihts =>
      rw [expandAll, skeletonAll_append, ihts, skeletonAll, expandAll_eq_flatMap text mark _ (_ ++ _),
        List.flatMap_append, ← expandAll_eq_flatMap, ← expandAll_eq_flatMap]
      congr 1
      cases k with
      | text t =>
          rw [expand_text, skeleton_text, skeletonAll_eq_flatMap, List.flatMap_map, expandAll]
          exact List.flatMap_eq_nil_iff.2 fun u _ => skeleton_text u span []
      | element e =>
          rw [skeleton_of_not_text rfl, expandAll_eq_flatMap, List.flatMap_singleton]
          cases hx : e.repeat? mark with
          | none =>
              rw [expand_element_of_none _ _ hx, expand_element_of_none _ _ hx, skeletonAll,
                skeletonAll, List.append_nil, skeleton_of_not_text rfl, ihcs]
          | some x =>
              rw [expand_element_of_some _ _ hx, expand_element_of_some _ _ hx, Env.items_blank,
                skeletonAll_eq_flatMap, List.flatMap_map, List.map_map, List.map_eq_flatMap]
              refine List.flatMap_congr fun v _ => ?_
              rw [skeleton_of_not_text rfl, ihcs]
              rfl
      | document | comment t | doctype t =>
          rw [skeleton_of_not_text rfl, expandAll_eq_flatMap, List.flatMap_singleton, expand, expand,
            skeletonAll, skeletonAll, List.append_nil, skeleton_of_not_text rfl]
          all_goals simp

theorem skeletonAll_remade (e : Element) (ts : List Tree) :
    skeletonAll (remade o data e ts) =
      remade o (fun name => (data name).blank) e (skeletonAll ts) := by
  unfold remade
  split
  · exact skeletonAll_expandAll _ _ _ ts
  · rfl

/-- **So it is with what controllers make of trees**, since what one controller shows in its texts
makes no difference to the skeleton that another one finds. -/
theorem skeletonAll_mountedAll (ts : List Tree) :
    skeletonAll (mountedAll o data ts) =
      mountedAll o (fun name => (data name).blank) (skeletonAll ts) := by
  induction ts using forest_induction with
  | nil => rw [mountedAll, skeletonAll, mountedAll]
  | cons k span cs ts ihcs ihts =>
      rw [mountedAll, skeletonAll, ihts, skeletonAll, mountedAll_append]
      congr 1
      cases k with
      | text t => rw [mounted_leaf _ _ rfl, skeleton_text, mountedAll]
      | element e =>
          rw [mounted_element, skeleton_of_not_text rfl, skeleton_of_not_text rfl, mountedAll,
            mountedAll, mounted_element, skeletonAll_remade, ihcs]
      | document | comment t | doctype t =>
          rw [mounted_leaf _ _ rfl, skeleton_of_not_text rfl, mountedAll, mountedAll,
            mounted_leaf _ _ rfl]

end Meaning

end Tree

end PageTemplate
