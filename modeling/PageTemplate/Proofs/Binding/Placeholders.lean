/-
**Placeholders that are left in a page.**

What a page shows may itself have placeholders, if the data have them.  Between placeholders there are
none, however a text has been cut, so that they can only come from the data.  Trees without any stay as
they are, whatever the data, and for all others there are data that show.

Main definitions:

* `PageTemplate.Tree.placeholdersAll` — the paths of the placeholders in the texts that trees show;
* `PageTemplate.Binding.nest` — an object in which only one path leads to a value.

Main results:

* `PageTemplate.Binding.findPlaceholder?_of_literal` — between placeholders there are none;
* `PageTemplate.Tree.placeholdersAll_expandAll` — which placeholders are left in the meaning of trees;
* `PageTemplate.Tree.markupAll_expandAll_of_nil` — trees without placeholders stay as they are;
* `PageTemplate.Tree.exists_apart` — for others there are data that show.
-/

import Mathlib.Algebra.GroupWithZero.Nat
import Mathlib.Order.WellFounded
import PageTemplate.Proofs.Markup.Escaping
import PageTemplate.Proofs.Page.Controllers

set_option relaxedAutoImplicit false
set_option autoImplicit false

namespace PageTemplate

open PageTemplate.Data PageTemplate.Markup PageTemplate.Text

namespace Binding

/-! ### Between placeholders -/

theorem dropBlank_append {cs : List Char} (h : cs ≠ []) (ds : List Char) :
    dropBlank (cs ++ ds) = dropBlank cs ++ ds := by
  cases cs with
  | nil => exact absurd rfl h
  | cons c cs =>
      rw [List.cons_append, dropBlank, dropBlank]
      split <;> rfl

/-- What stands behind a placeholder does not matter for reading it. -/
theorem placeholderAt?_append {cs path rest : List Char} (h : placeholderAt? cs = some (path, rest))
    (ds : List Char) : placeholderAt? (cs ++ ds) = some (path, rest ++ ds) := by
  unfold placeholderAt? at h
  split at h
  · rename_i cs
    simp only at h
    split at h
    · rename_i tail hclose
      -- the path ends at the blank or the brace behind it, which is in the text
      have hend : (dropBlank cs).dropWhile isPathChar ≠ [] := by
        intro hnil
        rw [hnil] at hclose
        cases hclose
      have hinner : dropBlank cs ≠ [] := by
        intro hnil
        rw [hnil] at hend
        exact hend rfl
      have hcs : cs ≠ [] := by
        rintro rfl
        exact hinner rfl
      have htake : (dropBlank cs ++ ds).takeWhile isPathChar =
          (dropBlank cs).takeWhile isPathChar := by
        rw [List.takeWhile_append, if_neg]
        intro hlength
        refine hend (List.length_eq_zero_iff.1 ?_)
        have hsplit := congrArg List.length
          (List.takeWhile_append_dropWhile (p := isPathChar) (l := dropBlank cs))
        rw [List.length_append] at hsplit
        omega
      have hdrop : (dropBlank cs ++ ds).dropWhile isPathChar =
          (dropBlank cs).dropWhile isPathChar ++ ds := by
        rw [List.dropWhile_append, if_neg]
        simpa using hend
      rw [List.cons_append, List.cons_append, placeholderAt?]
      simp only [dropBlank_append hcs, htake, hdrop, dropBlank_append hend, hclose,
        List.cons_append]
      split at h
      · cases h
      · rename_i hpath
        cases h
        rw [if_neg hpath]
    · cases h
  · cases h

theorem findPlaceholder?_cons_eq_none_iff {c : Char} {cs : List Char} :
    findPlaceholder? (c :: cs) = none ↔
      placeholderAt? (c :: cs) = none ∧ findPlaceholder? cs = none := by
  rw [findPlaceholder?]
  cases placeholderAt? (c :: cs) with
  | none => simp
  | some p => simp

/-- There is no placeholder before the first one. -/
theorem findPlaceholder?_before {cs : List Char} {p : Placeholder}
    (h : findPlaceholder? cs = some p) :
    findPlaceholder? p.before = none ∧ ∃ tail, cs = p.before ++ tail := by
  induction cs generalizing p with
  | nil => cases h
  | cons c cs ih =>
      rw [findPlaceholder?] at h
      cases hat : placeholderAt? (c :: cs) with
      | some found =>
          rw [hat] at h
          cases h
          exact ⟨rfl, c :: cs, rfl⟩
      | none =>
          rw [hat] at h
          obtain ⟨q, hq, rfl⟩ := Option.map_eq_some_iff.1 h
          obtain ⟨hnone, tail, rfl⟩ := ih hq
          refine ⟨findPlaceholder?_cons_eq_none_iff.2 ⟨?_, hnone⟩, tail, rfl⟩
          cases hbefore : placeholderAt? (c :: q.before) with
          | none => rfl
          | some found =>
              obtain ⟨path, rest⟩ := found
              have hlonger := placeholderAt?_append hbefore tail
              rw [List.cons_append, hat] at hlonger
              cases hlonger

/-- **Between placeholders there are none.** -/
theorem findPlaceholder?_of_literal {cs ls : List Char} (h : Piece.literal ls ∈ pieces cs) :
    findPlaceholder? ls = none := by
  have hofLiteral : ∀ ds : List Char, Piece.literal ls ∈ Piece.ofLiteral ds → ls = ds := by
    intro ds hmem
    rw [Piece.ofLiteral] at hmem
    split at hmem
    · cases hmem
    · cases List.mem_singleton.1 hmem
      rfl
  induction cs using pieces.induct with
  | case1 cs hnone =>
      rw [pieces_of_none hnone] at h
      rw [hofLiteral cs h, hnone]
  | case2 cs p hp ih =>
      rw [pieces_of_some hp, List.mem_append, List.mem_cons] at h
      rcases h with h | h | h
      · rw [hofLiteral p.before h]
        exact (findPlaceholder?_before hp).1
      · cases h
      · exact ih h

/-- The path of a piece that is a placeholder. -/
def Piece.path? : Piece → Option (List Char)
  | literal _ => none
  | slot path => some path

/-- The paths of the placeholders in a text. -/
def placeholderPaths (t : String) : List (List Char) :=
  (pieces t.toList).filterMap Piece.path?

theorem placeholderPaths_eq_nil_iff {t : String} :
    placeholderPaths t = [] ↔ findPlaceholder? t.toList = none := by
  rw [placeholderPaths]
  cases h : findPlaceholder? t.toList with
  | none =>
      rw [pieces_of_none h, Piece.ofLiteral]
      split <;> simp [Piece.path?]
  | some p =>
      rw [pieces_of_some h]
      simp [Piece.path?]

/-- A text without placeholders stays what it is. -/
theorem splitText_of_nil {t : String} (h : placeholderPaths t = []) (env : Env) :
    splitText env t = [t] := by
  rw [placeholderPaths_eq_nil_iff] at h
  by_cases hempty : t.toList = []
  · rw [splitText, pieces_eq_nil_iff.2 hempty]
  · rw [splitText, pieces_of_none h, Piece.ofLiteral, if_neg hempty]
    simp [Piece.shown]

/-- The placeholders in what a text becomes are in what its placeholders show. -/
theorem placeholderPaths_of_split {env : Env} {t u : String}
    (h : ∀ path ∈ placeholderPaths t, findPlaceholder? ((Piece.slot path).shown env) = none)
    (hu : u ∈ splitText env t) : placeholderPaths u = [] := by
  rw [placeholderPaths_eq_nil_iff]
  rw [splitText] at hu
  split at hu
  · rename_i hnil
    rw [List.mem_singleton.1 hu, pieces_eq_nil_iff.1 hnil]
    rfl
  · obtain ⟨p, hp, rfl⟩ := List.mem_map.1 hu
    rw [String.toList_ofList]
    cases p with
    | literal ls => exact findPlaceholder?_of_literal hp
    | slot path => exact h path (List.mem_filterMap.2 ⟨_, hp, rfl⟩)

/-- What placeholders show adds to the length of a text, however it is written. -/
theorem length_pieces_le {env₀ env : Env} {write : List Char → List Char}
    (happend : ∀ cs ds, write (cs ++ ds) = write cs ++ write ds)
    (hlength : ∀ cs, cs.length ≤ (write cs).length) (hnil : write [] = [])
    (h₀ : ∀ path, (Piece.slot path).shown env₀ = []) (ps : List Piece) :
    (write (ps.flatMap (Piece.shown env₀))).length +
        ((ps.filterMap Piece.path?).map fun path => ((Piece.slot path).shown env).length).sum ≤
      (write (ps.flatMap (Piece.shown env))).length := by
  induction ps with
  | nil => simp [hnil]
  | cons p ps ih =>
      rw [List.flatMap_cons, List.flatMap_cons, happend, happend, List.length_append,
        List.length_append]
      cases p with
      | literal ls =>
          have hpaths : (Piece.literal ls :: ps).filterMap Piece.path? = ps.filterMap Piece.path? := rfl
          rw [hpaths]
          simp only [Piece.shown] at ih ⊢
          omega
      | slot path =>
          have hpaths : (Piece.slot path :: ps).filterMap Piece.path? =
            path :: ps.filterMap Piece.path? := rfl
          rw [hpaths, List.map_cons, List.sum_cons, h₀, hnil, List.length_nil]
          have hshown := hlength ((Piece.slot path).shown env)
          omega

end Binding

namespace Tree

open Binding

/-! ### Placeholders in trees -/

mutual

/-- The paths of the placeholders in the texts that a tree shows. -/
def placeholders : Tree → List (List Char)
  | node (.text t) _ _ => placeholderPaths t
  | node (.element e) _ ts => if isVoid e.tag then [] else placeholdersAll ts
  | _ => []

/-- The same for trees that stand side by side. -/
def placeholdersAll : List Tree → List (List Char)
  | [] => []
  | t :: ts => placeholders t ++ placeholdersAll ts

end

variable {mark : String} {ts : List Tree}

theorem placeholdersAll_append (ts us : List Tree) :
    placeholdersAll (ts ++ us) = placeholdersAll ts ++ placeholdersAll us := by
  induction ts with
  | nil => rw [List.nil_append, placeholdersAll, List.nil_append]
  | cons t ts ih =>
      rw [List.cons_append, placeholdersAll, placeholdersAll, ih, List.append_assoc]

theorem placeholdersAll_texts {us : List String} {span : Option Span}
    (h : ∀ u ∈ us, placeholderPaths u = []) :
    placeholdersAll (us.map fun u => node (.text u) span []) = [] := by
  induction us with
  | nil => rw [List.map_nil, placeholdersAll]
  | cons u us ih =>
      rw [List.map_cons, placeholdersAll, placeholders, h u (List.mem_cons_self ..),
        ih fun u hu => h u (List.mem_cons_of_mem _ hu), List.append_nil]

/-- **The placeholders that are left in the meaning of trees** are in what those in the trees
show. -/
theorem placeholdersAll_expandAll (hts : UnmarkedAll mark ts) {env : Env}
    (h : ∀ path ∈ placeholdersAll ts, findPlaceholder? ((Piece.slot path).shown env) = none) :
    placeholdersAll (expandAll splitText mark env ts) = [] := by
  induction ts using forest_induction with
  | nil => rw [expandAll, placeholdersAll]
  | cons k span cs ts ihcs ihts =>
      rw [placeholdersAll] at h
      rw [expandAll, placeholdersAll_append,
        ihts hts.2 fun path hpath => h path (List.mem_append_right _ hpath), List.append_nil]
      have hfirst := fun path hpath => h path (List.mem_append_left _ hpath)
      have ht := hts.1
      cases k with
      | text t =>
          rw [expand_text]
          rw [placeholders] at hfirst
          exact placeholdersAll_texts fun u hu => placeholderPaths_of_split hfirst hu
      | element e =>
          rw [expand_element_of_none _ _ (repeat?_of_not_hasAttribute ht.1), placeholdersAll,
            placeholdersAll, placeholders, List.append_nil]
          rw [placeholders] at hfirst
          split
          · rfl
          · rename_i hvoid
            rw [if_neg hvoid] at hfirst
            exact ihcs ht.2 hfirst
      | document => exact ht.elim
      | comment t => rfl
      | doctype t => rfl

/-- **Trees without placeholders stay as they are**, whatever the data. -/
theorem markupAll_expandAll_of_nil (hts : UnmarkedAll mark ts) (h : placeholdersAll ts = [])
    (env : Env) (raw : Bool) :
    markupAll raw (expandAll splitText mark env ts) = markupAll raw ts := by
  induction ts using forest_induction generalizing raw with
  | nil => rw [expandAll]
  | cons k span cs ts ihcs ihts =>
      rw [placeholdersAll, List.append_eq_nil_iff] at h
      rw [expandAll, markupAll_append, markupAll_cons, ihts hts.2 h.2]
      congr 1
      have ht := hts.1
      have hfirst := h.1
      cases k with
      | text t =>
          rw [placeholders] at hfirst
          rw [expand_text, splitText_of_nil hfirst, List.map_singleton, markupAll_cons,
            markupAll_nil, List.append_nil, markup, markup]
      | element e =>
          rw [expand_element_of_none _ _ (repeat?_of_not_hasAttribute ht.1), markupAll_cons,
            markupAll_nil, List.append_nil, markup, markup]
          rw [placeholders] at hfirst
          split
          · rfl
          · rename_i hvoid
            rw [if_neg hvoid] at hfirst
            rw [ihcs ht.2 hfirst]
      | document => exact ht.elim
      | comment t => rw [expand, markupAll_cons, markupAll_nil, List.append_nil] <;> simp
      | doctype t => rw [expand, markupAll_cons, markupAll_nil, List.append_nil] <;> simp

end Tree

namespace Binding

/-! ### Data that show -/

/-- An object in which the names, one after the other, lead to a value. -/
def nest : List String → Value → Value
  | [], v => v
  | name :: names, v => .object [(name, nest names v)]

theorem lookup?_string (s : String) (names : List String) : (Value.string s).lookup? names = none := by
  cases names with
  | nil => rfl
  | cons name names => cases names <;> rfl

/-- No other names lead anywhere, unless there are fewer of them. -/
theorem lookup?_nest (s : String) {names others : List String} (hne : names ≠ [])
    (hlength : names.length ≤ others.length) :
    (nest names (.string s)).lookup? others = if others = names then some (.string s) else none := by
  induction names generalizing others with
  | nil => exact absurd rfl hne
  | cons name names ih =>
      obtain _ | ⟨other, others⟩ := others
      · cases hlength
      · have hmember : (nest (name :: names) (.string s)).member? other =
            if name = other then some (nest names (.string s)) else none := by
          rw [nest, Value.member?, Fields.get?_cons, Fields.get?_nil]
        obtain _ | ⟨next, others⟩ := others
        · obtain rfl : names = [] :=
            List.length_eq_zero_iff.1 (Nat.le_zero.1 (Nat.le_of_succ_le_succ hlength))
          rw [Value.lookup?_singleton, hmember, nest]
          by_cases h : name = other
          · rw [if_pos h, if_pos (by rw [h])]
          · rw [if_neg h, if_neg fun heq => h (List.cons.inj heq).1.symm]
        · rw [Value.lookup?_cons_cons, hmember]
          by_cases h : name = other
          · subst h
            rw [if_pos rfl]
            obtain _ | ⟨second, names⟩ := names
            · rw [if_neg (by simp), nest]
              exact lookup?_string s _
            · have hbelow := ih (by simp) (Nat.le_of_succ_le_succ hlength)
              have hnull : (nest (second :: names) (.string s)).isNull = false := rfl
              rw [Option.filter_some_pos (by rw [hnull]; rfl), Option.bind_some, hbelow]
              exact if_congr (by simp) rfl rfl
          · rw [if_neg h, if_neg fun heq => h (List.cons.inj heq).1.symm]
            rfl

/-- Nothing shows if there are no data. -/
theorem shown_emptyObject (path : List Char) : (Piece.slot path).shown [Value.emptyObject] = [] := by
  have hnone : ∀ names : List String, Value.emptyObject.lookup? names = none := by
    intro names
    cases names with
    | nil => rfl
    | cons name names => cases names <;> rfl
  rw [Piece.shown, Env.get?, List.findSome?_cons, hnone]
  rfl

/-- **There are data that show** for some of the placeholders, and nothing for the others. -/
theorem exists_shown {paths : List (List Char)} (hne : paths ≠ []) :
    ∃ fields : Fields, (∃ path ∈ paths, (Piece.slot path).shown [.object fields] = ['x']) ∧
      ∀ path ∈ paths, (Piece.slot path).shown [.object fields] = ['x'] ∨
        (Piece.slot path).shown [.object fields] = [] := by
  -- a path with the fewest names, so that no other one leads to an object above the value
  obtain ⟨path, hpath, hmin⟩ := (measure fun path : List Char =>
    (segments (String.ofList path)).length).wf.has_min {path | path ∈ paths}
      (List.exists_mem_of_ne_nil _ hne)
  have hshown : ∀ other ∈ paths, (Piece.slot other).shown
      [nest (segments (String.ofList path)) (.string "x")] =
        if segments (String.ofList other) = segments (String.ofList path) then ['x'] else [] := by
    intro other hother
    rw [Piece.shown, Env.get?, List.findSome?_cons,
      lookup?_nest "x" (segments_ne_nil _) (Nat.le_of_not_lt (hmin other hother))]
    by_cases h : segments (String.ofList other) = segments (String.ofList path)
    · rw [if_pos h, if_pos h]
      change (display (some (Value.string "x"))).toList = ['x']
      rw [display, Value.display, String.toList_ofList]
      rfl
    · rw [if_neg h, if_neg h]
      rfl
  obtain ⟨fields, hfields⟩ : ∃ fields : Fields,
      nest (segments (String.ofList path)) (.string "x") = .object fields := by
    cases hnames : segments (String.ofList path) with
    | nil => exact absurd hnames (segments_ne_nil _)
    | cons name names => exact ⟨_, rfl⟩
  rw [hfields] at hshown
  refine ⟨fields, ⟨path, hpath, ?_⟩, fun other hother => ?_⟩
  · rw [hshown path hpath, if_pos rfl]
  · rw [hshown other hother]
    split
    · exact .inl rfl
    · exact .inr rfl

end Binding

namespace Tree

open Binding

variable {mark : String} {ts : List Tree}

/-- The length of what placeholders show adds to that of the markup. -/
theorem length_markupAll_le (hts : UnmarkedAll mark ts) (env : Env) (raw : Bool) :
    (markupAll raw (expandAll splitText mark [.emptyObject] ts)).length +
        ((placeholdersAll ts).map fun path => ((Piece.slot path).shown env).length).sum ≤
      (markupAll raw (expandAll splitText mark env ts)).length := by
  induction ts using forest_induction generalizing raw with
  | nil => simp [expandAll, placeholdersAll]
  | cons k span cs ts ihcs ihts =>
      rw [expandAll, expandAll, placeholdersAll, markupAll_append, markupAll_append,
        List.length_append, List.length_append, List.map_append, List.sum_append]
      have hrest := ihts hts.2 raw
      suffices hfirst : (markupAll raw (expand splitText mark [.emptyObject] (node k span cs))).length +
          ((placeholders (node k span cs)).map fun path =>
            ((Piece.slot path).shown env).length).sum ≤
          (markupAll raw (expand splitText mark env (node k span cs))).length by omega
      have ht := hts.1
      cases k with
      | text t =>
          rw [expand_text, expand_text, markupAll_texts, markupAll_texts, flatMap_splitText,
            flatMap_splitText, placeholders, placeholderPaths]
          simp only [wholeText, List.flatMap_cons, List.flatMap_nil, List.append_nil,
            String.toList_ofList]
          cases raw with
          | true =>
              exact length_pieces_le (fun _ _ => rfl) (fun _ => Nat.le_refl _) rfl
                shown_emptyObject _
          | false =>
              exact length_pieces_le escapeText_append length_le_escapeText rfl shown_emptyObject _
      | element e =>
          have hnone := repeat?_of_not_hasAttribute ht.1
          rw [expand_element_of_none _ _ hnone, expand_element_of_none _ _ hnone, markupAll_cons,
            markupAll_cons, markupAll_nil, List.append_nil, List.append_nil, markup, markup,
            placeholders]
          split
          · simp
          · have hcs := ihcs ht.2 (isRawText e.tag)
            simp only [List.length_append]
            omega
      | document => exact ht.elim
      | comment t => simp [expand, placeholders]
      | doctype t => simp [expand, placeholders]

/-- **For trees with placeholders there are data that show.**  With these data and with none, no
placeholders are left. -/
theorem exists_apart (hts : UnmarkedAll mark ts) (hne : placeholdersAll ts ≠ []) (raw : Bool) :
    ∃ fields : Fields, placeholdersAll (expandAll splitText mark [.object fields] ts) = [] ∧
      placeholdersAll (expandAll splitText mark [.emptyObject] ts) = [] ∧
      markupAll raw (expandAll splitText mark [.object fields] ts) ≠
        markupAll raw (expandAll splitText mark [.emptyObject] ts) := by
  obtain ⟨fields, ⟨path, hpath, hshown⟩, hall⟩ := exists_shown hne
  refine ⟨fields, placeholdersAll_expandAll hts fun other hother => ?_,
    placeholdersAll_expandAll hts fun other _ => ?_, fun heq => ?_⟩
  · rcases hall other hother with h | h <;> rw [h] <;> rfl
  · rw [shown_emptyObject]
    rfl
  · have hle := length_markupAll_le hts [.object fields] raw
    rw [heq] at hle
    have hpositive : 0 < ((placeholdersAll ts).map fun path =>
        ((Piece.slot path).shown [.object fields]).length).sum := by
      refine List.sum_pos_iff_exists_pos_nat.2 ⟨_, List.mem_map.2 ⟨path, hpath, rfl⟩, ?_⟩
      rw [hshown]
      exact Nat.one_pos
    omega

end Tree

end PageTemplate
