/-
**What a path leads to from a scope.**

A scope that is asked for a path first looks in its own data.  If the path leads nowhere there, its
parent is asked for the whole path, and so on along the chain of its ancestors, which ends with a scope
that has no parent, or whose parent is gone.  So the answer is that of the first scope of the chain that
has one, and the scopes behind it are not asked.

A field that is set in one scope is seen from the scopes that have it on their chain, as far as none
before it has an answer of its own.

Main definitions:

* `PageTemplate.Data.Value.Has`, `PageTemplate.Data.Value.Leads` — the members of a value, and what
  names lead to, member by member;
* `PageTemplate.Binding.Scopes.Ancestry` — a scope and its ancestors;
* `PageTemplate.Binding.Scopes.answer?` — what a scope itself has for a sequence of names.

Main results:

* `PageTemplate.Data.Value.lookup?_eq_some_iff` — a lookup goes from member to member;
* `PageTemplate.Binding.Scopes.Ancestry.lookup?` — the first answer along the chain is the answer;
* `PageTemplate.Binding.Scopes.ParentsFirst.exists_ancestry` — every scope has a chain;
* `PageTemplate.Binding.Scopes.answer?_set`, `PageTemplate.Binding.Scopes.Ancestry.update` — what setting
  a field does to answers, and to chains.
-/

import PageTemplate.Proofs.Binding.Ancestors

set_option relaxedAutoImplicit false
set_option autoImplicit false

namespace PageTemplate

open PageTemplate.Text

/-! ### From member to member -/

namespace Data.Value

/-- The members of a value are the fields of an object, by their names, and the items of a list, by
their numbers.  No other value has any. -/
inductive Has : Value → String → Value → Prop
  | field {fields : Fields} {key : String} {w : Value} (h : fields.get? key = some w) :
      Has (.object fields) key w
  | item {items : List Value} {key : String} {i : Nat} {w : Value}
      (hkey : readNat 10 key.toList = some i) (h : items[i]? = some w) : Has (.array items) key w

/-- What a sequence of names leads to.  Each name but the last leads to a member that is not null, and
the last one to any member, null included. -/
inductive Leads : Value → List String → Value → Prop
  | last {v w : Value} {key : String} (h : v.Has key w) : Leads v [key] w
  | next {v u w : Value} {key : String} {rest : List String} (h : v.Has key u) (hu : u ≠ .null)
      (hrest : Leads u rest w) : Leads v (key :: rest) w

theorem member?_eq_some_iff {v w : Value} {key : String} : v.member? key = some w ↔ v.Has key w := by
  constructor
  · intro h
    cases v with
    | object fields => exact .field h
    | array items =>
        obtain ⟨i, hkey, hi⟩ := Option.bind_eq_some_iff.1 h
        exact .item hkey hi
    | null | bool _ | number _ | string _ => cases h
  · rintro (h | ⟨hkey, h⟩)
    · exact h
    · exact Option.bind_eq_some_iff.2 ⟨_, hkey, h⟩

theorem isNull_eq_false_iff {v : Value} : v.isNull = false ↔ v ≠ .null := by
  cases v <;> simp [isNull]

/-- **A lookup goes from member to member.** -/
theorem lookup?_eq_some_iff {v w : Value} {names : List String} :
    v.lookup? names = some w ↔ v.Leads names w := by
  constructor
  · intro h
    induction names generalizing v with
    | nil => cases h
    | cons key rest ih =>
        cases rest with
        | nil => exact .last (member?_eq_some_iff.1 h)
        | cons next rest =>
            rw [lookup?_cons_cons, Option.bind_eq_some_iff] at h
            obtain ⟨u, hu, hrest⟩ := h
            obtain ⟨hu, hnull⟩ := Option.filter_eq_some_iff.1 hu
            exact .next (member?_eq_some_iff.1 hu) (isNull_eq_false_iff.1 (by simpa using hnull))
              (ih hrest)
  · intro h
    induction h with
    | last h => exact member?_eq_some_iff.2 h
    | @next v u w key rest h hu hrest ih =>
        cases rest with
        | nil => cases hrest
        | cons next rest =>
            have hmember : (v.member? key).filter (fun x => !x.isNull) = some u :=
              Option.filter_eq_some_iff.2
                ⟨member?_eq_some_iff.2 h, by simpa using isNull_eq_false_iff.2 hu⟩
            rw [lookup?_cons_cons, hmember, Option.bind_some, ih]

/-- Setting a field leaves alone what other names lead to. -/
theorem lookup?_set_of_ne {name : String} {names : List String} (h : names.head? ≠ some name)
    (v : Value) (fields : Fields) :
    (object (Fields.set name v fields)).lookup? names = (object fields).lookup? names := by
  cases names with
  | nil => rfl
  | cons key rest =>
      have hne : name ≠ key := fun heq => h (by rw [heq, List.head?_cons])
      have hmember : (object (Fields.set name v fields)).member? key = (object fields).member? key := by
        rw [member?, member?, Fields.get?_set, if_neg hne]
      cases rest with
      | nil => exact hmember
      | cons next rest => rw [lookup?_cons_cons, lookup?_cons_cons, hmember]

end Data.Value

namespace Data

theorem dropMarks_eq_self {cs : List Char} (h : cs.getLast? ≠ some '?') : dropMarks cs = cs := by
  rw [dropMarks, List.reverse_eq_iff]
  cases hrev : cs.reverse with
  | nil => rfl
  | cons c rest =>
      rw [List.getLast?_eq_head?_reverse, hrev, List.head?_cons] at h
      exact List.dropWhile_cons_of_neg (by simpa using h)

/-- A name without dots and without a question mark at its end is a path by itself. -/
theorem segments_eq_singleton {name : String} (hdot : '.' ∉ name.toList)
    (hmark : name.toList.getLast? ≠ some '?') : segments name = [name] := by
  rw [segments_of_no_dot hdot, dropMarks_eq_self hmark, String.ofList_toList]

/-- Setting a field leaves the others where they are. -/
theorem Fields.filter_set (name : String) (v : Value) (fields : Fields) :
    (Fields.set name v fields).filter (·.1 ≠ name) = fields.filter (·.1 ≠ name) := by
  induction fields with
  | nil => simp [Fields.set]
  | cons p rest ih =>
      obtain ⟨k, w⟩ := p
      rw [Fields.set]
      by_cases h : k = name
      · simp [h]
      · rw [if_neg h, List.filter_cons_of_pos (by simpa using h),
          List.filter_cons_of_pos (by simpa using h), ih]

end Data

namespace Binding.Scopes

open PageTemplate.Data

variable {f g : Scopes} {s t : ScopeId} {chain : List ScopeId} {names : List String}

/-! ### Chains -/

/-- A scope and its ancestors, the scope itself first: each one is the parent of the one before, and
the last one has no parent, or its parent is gone. -/
inductive Ancestry (f : Scopes) : ScopeId → List ScopeId → Prop
  | last {s : ScopeId} (hs : f.contains s = true) (hp : f.parent? s = none) : Ancestry f s [s]
  | next {s p : ScopeId} {rest : List ScopeId} (hp : f.parent? s = some p) (h : Ancestry f p rest) :
      Ancestry f s (s :: rest)

theorem contains_iff : f.contains s = true ↔ ∃ scope, f.get? s = some scope :=
  Option.isSome_iff_exists

theorem lt_size_of_contains (h : f.contains s = true) : s < f.entries.size := by
  obtain ⟨scope, hscope⟩ := contains_iff.1 h
  exact lt_size_of_get? hscope

theorem contains_of_parent? {p : ScopeId} (h : f.parent? s = some p) :
    f.contains s = true ∧ f.contains p = true := by
  obtain ⟨hbind, hp⟩ := Option.filter_eq_some_iff.1 h
  obtain ⟨scope, hscope, -⟩ := Option.bind_eq_some_iff.1 hbind
  exact ⟨contains_iff.2 ⟨scope, hscope⟩, hp⟩

namespace Ancestry

theorem head (h : f.Ancestry s chain) : ∃ rest, chain = s :: rest := by
  cases h with
  | last _ _ => exact ⟨[], rfl⟩
  | next _ _ => exact ⟨_, rfl⟩

theorem self_mem (h : f.Ancestry s chain) : s ∈ chain := by
  obtain ⟨rest, rfl⟩ := h.head
  exact List.mem_cons_self ..

/-- A scope has one chain. -/
theorem unique {chain' : List ScopeId} (h : f.Ancestry s chain) (h' : f.Ancestry s chain') :
    chain = chain' := by
  induction h generalizing chain' with
  | last hs hp =>
      cases h' with
      | last _ _ => rfl
      | next hp' _ => rw [hp] at hp'; cases hp'
  | @next s p rest hp _ ih =>
      cases h' with
      | last _ hp' => rw [hp] at hp'; cases hp'
      | @next _ q rest' hp' hrest' =>
          obtain rfl : p = q := Option.some.inj (hp.symm.trans hp')
          rw [ih hrest']

/-- Every scope of a chain is there. -/
theorem contains (h : f.Ancestry s chain) (ht : t ∈ chain) : f.contains t = true := by
  induction h with
  | last hs _ => exact List.mem_singleton.1 ht ▸ hs
  | next hp _ ih =>
      rcases List.mem_cons.1 ht with rfl | ht
      · exact (contains_of_parent? hp).1
      · exact ih ht

/-- What stands from an ancestor on is its own chain. -/
theorem of_mem (h : f.Ancestry s chain) (ht : t ∈ chain) :
    ∃ before after, chain = before ++ after ∧ f.Ancestry t after := by
  induction h with
  | @last s hs hp =>
      obtain rfl := List.mem_singleton.1 ht
      exact ⟨[], [t], rfl, .last hs hp⟩
  | @next s p rest hp hrest ih =>
      rcases List.mem_cons.1 ht with rfl | ht
      · exact ⟨[], t :: rest, rfl, .next hp hrest⟩
      · obtain ⟨before, after, rfl, hafter⟩ := ih ht
        exact ⟨s :: before, after, rfl, hafter⟩

/-- No scope is its own ancestor: its chain would start anew, and not end. -/
theorem nodup (h : f.Ancestry s chain) : chain.Nodup := by
  induction h with
  | @last s _ _ => exact List.nodup_singleton s
  | @next s p rest hp hrest ih =>
      refine List.nodup_cons.2 ⟨fun hs => ?_, ih⟩
      obtain ⟨before, after, hsplit, hafter⟩ := hrest.of_mem hs
      have hlength := congrArg List.length hsplit
      rw [hafter.unique (.next hp hrest), List.length_append, List.length_cons] at hlength
      omega

/-- A chain is no longer than there are scopes. -/
theorem length_le (h : f.Ancestry s chain) : chain.length ≤ f.entries.size := by
  have hsub : chain ⊆ List.range f.entries.size := fun t ht =>
    List.mem_range.2 (lt_size_of_contains (h.contains ht))
  simpa using (h.nodup.subperm hsub).length_le

end Ancestry

/-- **Every scope has a chain**, where parents come before their children. -/
theorem ParentsFirst.exists_ancestry (h : f.ParentsFirst) (hs : f.contains s = true) :
    ∃ chain, f.Ancestry s chain := by
  induction s using Nat.strong_induction_on with
  | _ s ih =>
      cases hp : f.parent? s with
      | none => exact ⟨[s], .last hs hp⟩
      | some p =>
          obtain ⟨scope, hscope, hparent⟩ :=
            Option.bind_eq_some_iff.1 (Option.filter_eq_some_iff.1 hp).1
          obtain ⟨rest, hrest⟩ := ih p (h s scope p hscope hparent) (contains_of_parent? hp).2
          exact ⟨s :: rest, .next hp hrest⟩

/-! ### Answers -/

/-- What a scope itself has for a sequence of names. -/
def answer? (f : Scopes) (names : List String) (s : ScopeId) : Option Value :=
  (f.data? s).bind (·.lookup? names)

theorem resolve_succ (f : Scopes) (fuel : Nat) (s : ScopeId) (names : List String) :
    f.resolve (fuel + 1) s names =
      (f.answer? names s).or ((f.parent? s).bind fun p => f.resolve fuel p names) := by
  rw [resolve, ← answer?]
  cases f.answer? names s <;> rfl

/-- What is found depends on the parents, and on what each scope has. -/
theorem resolve_congr (hparent : ∀ x, g.parent? x = f.parent? x)
    (hanswer : ∀ x, g.answer? names x = f.answer? names x) (fuel : Nat) (s : ScopeId) :
    g.resolve fuel s names = f.resolve fuel s names := by
  induction fuel generalizing s with
  | zero => rfl
  | succ fuel ih =>
      rw [resolve_succ, resolve_succ, hanswer, hparent]
      exact congrArg (fun above => (f.answer? names s).or ((f.parent? s).bind above))
        (funext fun p => ih p)

/-- With a round for each scope of the chain, the first answer along it is found. -/
theorem Ancestry.resolve (h : f.Ancestry s chain) {fuel : Nat} (hfuel : chain.length ≤ fuel)
    (names : List String) : f.resolve fuel s names = chain.findSome? (f.answer? names) := by
  induction h generalizing fuel with
  | @last s hs hp =>
      obtain ⟨fuel, rfl⟩ := Nat.exists_eq_succ_of_ne_zero (Nat.ne_of_gt hfuel)
      rw [resolve_succ, hp, Option.bind_none, Option.or_none, List.findSome?_singleton]
  | @next s p rest hp hrest ih =>
      obtain ⟨fuel, rfl⟩ := Nat.exists_eq_succ_of_ne_zero
        (Nat.ne_of_gt (Nat.lt_of_lt_of_le (Nat.succ_pos _) hfuel))
      rw [resolve_succ, hp, Option.bind_some, ih (Nat.le_of_succ_le_succ hfuel), List.findSome?_cons]
      cases f.answer? names s <;> rfl

/-- **The answer to a path is the first one along the chain.** -/
theorem Ancestry.lookup? (h : f.Ancestry s chain) {path : String} (hpath : path ≠ "") :
    f.lookup? s path = chain.findSome? (f.answer? (segments path)) := by
  rw [Scopes.lookup?, if_neg hpath, h.resolve h.length_le]

/-! ### Changes of one scope -/

theorem contains_update (f : Scopes) (s : ScopeId) (k : Scope → Scope) (t : ScopeId) :
    (f.update s k).contains t = f.contains t := by
  rw [contains, get?_update, contains]
  split
  · next hts => rw [Option.isSome_map, hts]
  · rfl

section Update

variable {k : Scope → Scope}

theorem parent?_update (hk : ∀ scope, (k scope).parent = scope.parent) (t : ScopeId) :
    (f.update s k).parent? t = f.parent? t := by
  have hparent : ((f.update s k).get? t).bind (·.parent) = (f.get? t).bind (·.parent) := by
    rw [get?_update]
    split
    · next hts =>
        rw [hts]
        cases f.get? s with
        | none => rfl
        | some scope => exact hk scope
    · rfl
  rw [parent?, parent?, hparent]
  exact congrArg (Option.filter · _) (funext fun p => contains_update f s k p)

/-- A scope that keeps its parent changes no chain. -/
theorem Ancestry.update (h : f.Ancestry t chain) (hk : ∀ scope, (k scope).parent = scope.parent) :
    (f.update s k).Ancestry t chain := by
  induction h with
  | last hs hp => exact .last ((contains_update f s k _).trans hs) ((parent?_update hk _).trans hp)
  | next hp _ ih => exact .next ((parent?_update hk _).trans hp) ih

end Update

/-- Setting a field keeps the parent of the scope. -/
theorem parent_set (name : String) (v : Value) (scope : Scope) :
    (match scope.data with
      | .object fields => { scope with data := .object (Fields.set name v fields) }
      | _ => scope : Scope).parent = scope.parent := by
  split <;> rfl

theorem Ancestry.set (h : f.Ancestry t chain) (name : String) (v : Value) :
    (f.set s name v).Ancestry t chain :=
  h.update (parent_set name v)

theorem data?_set_of_ne (hts : t ≠ s) (name : String) (v : Value) :
    (f.set s name v).data? t = f.data? t := by
  rw [Scopes.set, data?, get?_update, if_neg hts, data?]

theorem data?_set_self {fields : Fields} (h : f.data? s = some (.object fields)) (name : String)
    (v : Value) : (f.set s name v).data? s = some (.object (Fields.set name v fields)) := by
  obtain ⟨scope, hscope, hdata⟩ := Option.map_eq_some_iff.1 h
  rw [Scopes.set, data?, get?_update, if_pos rfl, hscope, Option.map_some, Option.map_some]
  simp only [hdata]

/-- **Setting a field leaves alone what scopes have for other names.** -/
theorem answer?_set {fields : Fields} (h : f.data? s = some (.object fields)) {name : String}
    (hnames : names.head? ≠ some name) (v : Value) (t : ScopeId) :
    (f.set s name v).answer? names t = f.answer? names t := by
  rw [answer?, answer?]
  by_cases hts : t = s
  · rw [hts, data?_set_self h, h, Option.bind_some, Option.bind_some, Value.lookup?_set_of_ne hnames]
  · rw [data?_set_of_ne hts]

end Binding.Scopes

end PageTemplate
