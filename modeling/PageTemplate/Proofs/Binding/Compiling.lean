/-
**Compiling binds what a part of a document means.**

When all repeated elements of a part of a document have been taken out, the text that is left is cut,
and the directives and the slots are bound to the scope.  A repeated element is compiled in the same
way, so all this is an induction on how deep the trees are.

Main definitions:

* `PageTemplate.Binding.takeRound` — what compiling does with one repeated element;
* `PageTemplate.Binding.Lasting`, `PageTemplate.Binding.Stable` — properties that the operations of
  compiling keep.

Main results:

* `PageTemplate.Binding.Taken.run` — all repeated elements are taken out;
* `PageTemplate.Binding.Taken.compiled` — what is left is cut and bound;
* `PageTemplate.Binding.Ground.compileTo` — compiling binds a mold that means what the trees mean;
* `PageTemplate.Binding.Ground.compile`, `PageTemplate.Binding.bindable_of_compile` — compiling
  succeeds exactly on bindable trees;
* `PageTemplate.Binding.Stable.compile` — compiling keeps what its operations keep.
-/

import PageTemplate.Proofs.Binding.Taking

set_option relaxedAutoImplicit false
set_option autoImplicit false

namespace PageTemplate.Binding

open PageTemplate.Data PageTemplate.Markup PageTemplate.Text

/-! ### The run -/

/-- What compiling does with a repeated element. -/
def takeRound (mark : String) (fuel : Nat) (s : ScopeId) :
    Stage × List Repeat → NodeId → Stage × List Repeat := fun (st, repeats) element =>
  match RepeatExpression.parse? (directive st.document mark element),
      st.document.parent? element with
  | some expression, some container =>
      let (scopes, scope) := st.scopes.newChild s .emptyObject
      let st := Stage.compileTo mark fuel { st with scopes := scopes } scope element
      Stage.takeOut mark st repeats expression scope element container
  | _, _ => (st, repeats)

/-- Compiling takes the repeated elements out, cuts what is left, and binds both to the scope. -/
theorem compileTo_succ (mark : String) (fuel : Nat) (st : Stage) (s : ScopeId) (node : NodeId) :
    Stage.compileTo mark (fuel + 1) st s node =
      let taken := (repeated st.document mark node).foldl (takeRound mark fuel s) (st, [])
      let cut := extract taken.1.document node
      ⟨cut.1, taken.1.scopes.update s fun scope =>
        { scope with slots := cut.2, repeats := taken.2 }⟩ := rfl

/-- Compiling that succeeds binds what is there when the old directives are taken out. -/
theorem Stage.eq_of_compile {mark : String} {st st' : Stage} {s : ScopeId} {node : NodeId}
    (h : st.compile mark s node = .ok st') :
    st' = (st.dismantle s).compileTo mark ((st.dismantle s).document.nodes.size + 1) s node := by
  rw [compile] at h
  split at h
  · cases h
  · exact (Except.ok.inj h).symm

theorem takeRound_mark {mark : String} {d : Document} {m : Mark} {x : RepeatExpression}
    (hm : d.Holds (some m.container) m.tree) (hx : m.element.repeat? mark = some x) (fuel : Nat)
    (s : ScopeId) (scopes : Scopes) (repeats : List Repeat) :
    takeRound mark fuel s (⟨d, scopes⟩, repeats) m.id =
      Stage.takeOut mark (Stage.compileTo mark fuel ⟨d, (scopes.newChild s .emptyObject).1⟩
        scopes.entries.size m.id) repeats x scopes.entries.size m.id m.container := by
  have hparent : d.parent? m.id = some m.container := Document.parent?_of_get? hm.get?
  simp only [takeRound, directive_mark hm, parse?_of_repeat? hx, hparent]
  rfl

/-- What compiling has to do with a repeated element. -/
def Mark.Compiles (mark : String) (fuel : Nat) (m : Mark) : Prop :=
  ∀ (st : Stage) (s : ScopeId) (sc : Scope), st.scopes.get? s = some sc →
    Ground mark st.document (some m.container) m.id (.element m.element) m.span m.children →
    ∃ items ys, Compiled mark st (st.compileTo mark fuel s m.id) (some m.container) s m.id
      (.element m.element) m.span m.children items ys

section Run

variable {mark : String} {st₀ st : Stage} {p : Option NodeId} {s : ScopeId} {id : NodeId}
  {kind : NodeKind} {span : Option Span} {ts : List Placed} {done todo : List Mark}
  {repeats : List Repeat} {scope : NodeId → ScopeId} {pattern : NodeId → Mold}
  {inner : ScopeId → List NodeId} {fuel : Nat}

/-- The next element can be compiled where it is. -/
theorem Taken.ground {m : Mark}
    (h : Taken mark st₀ st s id ts done (m :: todo) repeats scope pattern inner)
    (hground : Ground mark st₀.document p id kind span ts) (hm : m ∈ marksAll mark id ts) :
    Ground mark st.document (some m.container) m.id (.element m.element) m.span m.children where
  sound := h.sound
  holds := (hground.of_mark hm).holds.congr (h.untouched m (List.mem_cons_self ..))
  nodup := (hground.of_mark hm).nodup
  bindable := (hground.of_mark hm).bindable

/-- **All repeated elements are taken out**, one after the other. -/
theorem Taken.run (h : Taken mark st₀ st s id ts done todo repeats scope pattern inner)
    (hground : Ground mark st₀.document p id kind span ts) (hs : s < st₀.scopes.entries.size)
    (hmarks : marksAll mark id ts = done ++ todo) (htodo : ∀ m ∈ todo, m.Compiles mark fuel) :
    ∃ st' repeats' scope' pattern' inner',
      (todo.map Mark.id).foldl (takeRound mark fuel s) (st, repeats) = (st', repeats') ∧
      Taken mark st₀ st' s id ts (done ++ todo) [] repeats' scope' pattern' inner' := by
  induction todo generalizing done st repeats scope pattern inner with
  | nil =>
      rw [List.append_nil]
      exact ⟨st, repeats, scope, pattern, inner, rfl, h⟩
  | cons m todo ih =>
      have hm : m ∈ marksAll mark id ts := by
        rw [hmarks]
        simp
      obtain ⟨⟨x, hx⟩, _⟩ := hground.bindable.of_mem_marks hm
      have hheld := h.ground hground hm
      -- the scope of the element is there when the element is compiled
      have hlt : s < st.scopes.entries.size := Nat.lt_of_lt_of_le hs h.grows.size
      have hscope := Scopes.get?_newChild hlt .emptyObject st.scopes.entries.size
      rw [if_neg (Nat.ne_of_gt hlt), if_pos rfl] at hscope
      obtain ⟨items, ys, hcompiled⟩ := htodo m (List.mem_cons_self ..)
        ⟨st.document, (st.scopes.newChild s .emptyObject).1⟩ st.scopes.entries.size _ hscope hheld
      have hnext : Next mark st₀ st _ p s id kind span ts done m todo repeats scope pattern inner
          items ys := ⟨hground, hmarks, h, hs, hcompiled⟩
      have hround := takeRound_mark hheld.holds hx fuel s st.scopes repeats
      rw [hnext.directives hx] at hround
      have hsplit : done ++ m :: todo = (done ++ [m]) ++ todo := by simp
      obtain ⟨st', repeats', scope', pattern', inner', hrun, htaken⟩ := ih hnext.step
        (hmarks.trans hsplit) fun m' hm' => htodo m' (List.mem_cons_of_mem _ hm')
      refine ⟨st', repeats', scope', pattern', inner', ?_, hsplit ▸ htaken⟩
      rw [List.map_cons, List.foldl_cons, hround, hrun]

end Run

/-! ### What is left -/

section Left

variable {mark : String} {st₀ st : Stage} {p : Option NodeId} {s : ScopeId} {id : NodeId}
  {kind : NodeKind} {span : Option Span} {ts : List Placed} {repeats : List Repeat}
  {scope : NodeId → ScopeId} {pattern : NodeId → Mold} {inner : ScopeId → List NodeId}
  {ms : List Mold} {e : Document}

/-- A slot that is free now was free before. -/
theorem Taken.free {done todo : List Mark}
    (h : Taken mark st₀ st s id ts done todo repeats scope pattern inner) {i : NodeId}
    (hi : st.document.get? i = none) : st₀.document.get? i = none := by
  cases hn : st₀.document.get? i with
  | none => rfl
  | some n =>
      obtain ⟨n', hn'⟩ := h.live hn
      rw [hn'] at hi
      cases hi

/-- No node that is left is in a pattern. -/
theorem Taken.left_notMem
    (h : Taken mark st₀ st s id ts (marksAll mark id ts) [] repeats scope pattern inner)
    (hground : Ground mark st₀.document p id kind span ts) {i : NodeId} (hi : i ∈ leftIds mark id ts)
    {m : Mark} (hm : m ∈ marksAll mark id ts) : i ∉ inner (scope m.id) := by
  intro him
  rcases h.within m hm i him with him | hnone
  · exact hground.left_notMem hi hm him
  · obtain ⟨n, hn⟩ := hground.live (hground.mem_ids.2 (.inl hi))
    rw [hn] at hnone
    cases hnone

theorem mem_out {m : Mark} (hm : m ∈ marksAll mark id ts) :
    m.id ∈ (marksAll mark id ts).map Mark.id := List.mem_map.2 ⟨m, hm, rfl⟩

/-- No node that is left is one that has been taken out. -/
theorem Ground.notMem_out (hground : Ground mark st₀.document p id kind span ts) {i : NodeId}
    (hi : i ∈ leftIds mark id ts) : i ∉ (marksAll mark id ts).map Mark.id := by
  intro hmem
  obtain ⟨m, hm, rfl⟩ := List.mem_map.1 hmem
  exact hground.left_notMem hi hm m.id_mem_ids

/-- The document has what is left of the trees. -/
theorem Taken.pruned
    (h : Taken mark st₀ st s id ts (marksAll mark id ts) [] repeats scope pattern inner)
    (hground : Ground mark st₀.document p id kind span ts) :
    st.document.get? id = some ⟨kind, p, (pruneAll mark ts).map Placed.id, span⟩ ∧
      ∀ t ∈ pruneAll mark ts, st.document.Holds (some id) t := by
  have hchildren : ∀ t ∈ ts, st₀.document.Holds (some id) t := fun t ht => hground.holds.child ht
  obtain ⟨hfilter, hholds⟩ := holds_pruneAll hground.bindable hchildren (fun _ => mem_out) fun i hi =>
    ⟨hground.notMem_out (List.mem_cons_of_mem _ hi), h.left i (List.mem_cons_of_mem _ hi)⟩
  refine ⟨?_, hholds⟩
  have hget : st₀.document.get? id = some ⟨kind, p, ts.map Placed.id, span⟩ := hground.holds.get?
  rw [h.left id (List.mem_cons_self ..), hget, Option.map_some, hfilter]

/-- The slots of what is left when its text is cut, and those of the patterns, occur once. -/
theorem Taken.nodup_all
    (h : Taken mark st₀ st s id ts (marksAll mark id ts) [] repeats scope pattern inner)
    (hground : Ground mark st₀.document p id kind span ts)
    (hcut : Cut st.document e id ⟨kind, p, [], span⟩ [] (pruneAll mark ts) [] ms) :
    (id :: (Mold.bareIds ms ++
      (marksAll mark id ts).flatMap fun m => inner (scope m.id))).Nodup := by
  have hid : id ∈ leftIds mark id ts := List.mem_cons_self ..
  refine List.nodup_cons.2 ⟨fun hmem => ?_, List.nodup_append.2 ⟨hcut.nodup, h.nodup, ?_⟩⟩
  · rcases List.mem_append.1 hmem with hmem | hmem
    · have hlive := (h.pruned hground).1
      exact hcut.notMem hlive (List.nodup_cons.1 hground.nodup_left).1 hmem
    · obtain ⟨m, hm, him⟩ := List.mem_flatMap.1 hmem
      exact h.left_notMem hground hid hm him
  · rintro i hi _ hj rfl
    obtain ⟨m, hm, him⟩ := List.mem_flatMap.1 hj
    rcases hcut.within i hi with hi | hnone
    · exact h.left_notMem hground (List.mem_cons_of_mem _ hi) hm him
    · obtain ⟨n, hn⟩ := (h.bound m hm).settled.live him
      rw [hn] at hnone
      cases hnone

/-- The patterns stay bound when the text is cut and the scope is bound. -/
theorem Taken.bound_cut
    (h : Taken mark st₀ st s id ts (marksAll mark id ts) [] repeats scope pattern inner)
    (hground : Ground mark st₀.document p id kind span ts) (hs : s < st₀.scopes.entries.size)
    (hcut : Cut st.document e id ⟨kind, p, [], span⟩ [] (pruneAll mark ts) [] ms)
    (k : Scope → Scope) {m : Mark} (hm : m ∈ marksAll mark id ts) :
    m.Bound (st.scopes.update s k) e s scope pattern inner := by
  obtain ⟨hid, hsettled, hlt, sc, hsc, hparent, hdata⟩ := h.bound m hm
  have hget : ∀ x ∈ scope m.id :: (pattern m.id).scopes,
      (st.scopes.update s k).get? x = st.scopes.get? x := by
    intro x hx
    have hne : x ≠ s := Nat.ne_of_gt (Nat.lt_of_lt_of_le hs (h.fresh m hm x hx).1)
    rw [Scopes.get?_update, if_neg hne]
  have hself := hget _ (List.mem_cons_self ..)
  refine ⟨hid, hsettled.congr (fun i hi => ?_) (fun x hx => hget x (List.mem_cons_of_mem _ hx))
    fun sc hsc => ⟨sc, by rw [hself, hsc], rfl, rfl⟩, hlt, sc, by rw [hself, hsc], hparent, hdata⟩
  have hnodup := h.nodup_all hground hcut
  rw [List.nodup_cons, List.mem_append, not_or] at hnodup
  have hinner : i ∈ (marksAll mark id ts).flatMap fun m => inner (scope m.id) :=
    List.mem_flatMap.2 ⟨m, hm, hi⟩
  refine hcut.keeps i (fun hne => hnodup.1.2 (hne ▸ hinner)) fun hbare => ?_
  exact (List.nodup_append.1 hnodup.2).2.2 i hbare i hinner rfl

/-- **When all repeated elements have been taken out, what is left can be cut and bound.** -/
theorem Taken.compiled
    (h : Taken mark st₀ st s id ts (marksAll mark id ts) [] repeats scope pattern inner)
    (hground : Ground mark st₀.document p id kind span ts) {sc : Scope}
    (hsc : st₀.scopes.get? s = some sc) :
    ∃ items ys, Compiled mark st₀
      ⟨(extract st.document id).1, st.scopes.update s fun scope =>
        { scope with slots := (extract st.document id).2, repeats := repeats }⟩
      p s id kind span ts items ys := by
  have hs := Scopes.lt_size_of_get? hsc
  obtain ⟨hget, hholds⟩ := h.pruned hground
  obtain ⟨ms, e, hextract, hlaid, hcut⟩ := hground.bindable.extract scope pattern
    (n := ⟨kind, p, [], span⟩) h.sound hget hholds hground.nodup_left
  rw [hextract]
  obtain ⟨sc', hsc', _, _⟩ := h.grows.own sc hsc
  have hscope : (st.scopes.update s fun scope =>
      { scope with slots := .ofList (slotList (Mold.partsAll id ms)), repeats := repeats }).get? s =
      some { sc' with slots := .ofList (slotList (Mold.partsAll id ms)), repeats := repeats } := by
    rw [Scopes.get?_update, if_pos rfl, hsc']
    rfl
  obtain ⟨ys, hsettled, hperm⟩ := hlaid.settled (by simpa using hcut.after.get?) hcut.holds hscope
    rfl (fun _ => mem_out) (fun i hi => hground.notMem_out (List.mem_cons_of_mem _ hi)) h.directives
    (h.nodup_all hground hcut) h.nodupScopes fun m hm => h.bound_cut hground hs hcut _ hm
  have hmem : ∀ i, i ∈ ys ↔ i = id ∨ i ∈ Mold.bareIds ms ∨
      ∃ m ∈ marksAll mark id ts, i ∈ inner (scope m.id) := by
    intro i
    have hpatterns : i ∈ (marksAll mark id ts).flatMap (fun m => inner (scope m.id)) ↔
        ∃ m ∈ marksAll mark id ts, i ∈ inner (scope m.id) := List.mem_flatMap
    rw [hperm.mem_iff, List.mem_cons, List.mem_append, hpatterns]
  refine ⟨ms, ys, hcut.sound, hsettled, fun i hi => ?_, fun i hi => ?_, fun i hi => ?_,
    h.grows.trans (Scopes.grows_update _ _ _ fun _ => ⟨rfl, rfl⟩), fun x hx => ?_, scope, pattern,
    hlaid, h.fits, fun m hm => (h.bound m hm).id⟩
  · rw [hmem]
    rcases hground.mem_ids.1 hi with hi | ⟨m, hm, hi⟩
    · rcases List.mem_cons.1 hi with rfl | hi
      · exact .inl rfl
      · exact .inr (.inl (hcut.covers i hi))
    · exact .inr (.inr ⟨m, hm, h.covers m hm i hi⟩)
  · rcases (hmem i).1 hi with rfl | hi | ⟨m, hm, hi⟩
    · exact .inl (by simp)
    · rcases hcut.within i hi with hi | hnone
      · exact .inl (hground.mem_ids.2 (.inl (List.mem_cons_of_mem _ hi)))
      · exact .inr (h.free hnone)
    · exact (h.within m hm i hi).imp_left fun hi => hground.mem_ids.2 (.inr ⟨m, hm, hi⟩)
  · rw [hmem, not_or, not_or] at hi
    obtain ⟨hid, hbare, hinner⟩ := hi
    rw [hcut.keeps i hid hbare]
    refine h.keeps i (fun hleft => ?_) (fun m hm => by cases hm) fun m hm hi => hinner ⟨m, hm, hi⟩
    rcases List.mem_cons.1 hleft with rfl | hleft
    · exact hid rfl
    · exact hbare (hcut.covers i hleft)
  · rw [hlaid.scopesAll id] at hx
    obtain ⟨m, hm, hx⟩ := List.mem_flatMap.1 hx
    rw [Scopes.size_update]
    exact h.fresh m hm x hx

/-- **Compiling binds a mold that means what the trees mean.** -/
theorem Ground.compileTo {fuel : Nat} (h : Ground mark st.document p id kind span ts)
    (hf : (Placed.node id kind span ts).depth ≤ fuel) {sc : Scope}
    (hsc : st.scopes.get? s = some sc) :
    ∃ items ys, Compiled mark st (st.compileTo mark fuel s id) p s id kind span ts items ys := by
  induction fuel generalizing st p s id kind span ts sc with
  | zero =>
      rw [Placed.depth_node] at hf
      omega
  | succ fuel ih =>
      have hdepth : ∀ t ∈ ts, t.depth ≤ fuel := fun t ht =>
        Nat.le_of_lt_succ (Nat.lt_of_lt_of_le (Placed.depth_lt_of_child ht) hf)
      have hrepeated : repeated st.document mark id = (marksAll mark id ts).map Mark.id :=
        repeated_eq h.holds h.nodup
      obtain ⟨st', repeats, scope, pattern, inner, hrun, htaken⟩ :=
        (h.taken (s := s) (fun _ => 0) (fun _ => .slot 0 none "") fun _ => []).run h
          (Scopes.lt_size_of_get? hsc) rfl fun m hm st' s' sc' hsc' hm' =>
            ih hm' (depth_mark hdepth hm) hsc'
      rw [compileTo_succ, hrepeated, hrun]
      exact htaken.compiled h hsc

end Left

/-! ### Compiling as a whole -/

section Compile

variable {mark : String} {st st' : Stage} {p : Option NodeId} {s : ScopeId} {id : NodeId}
  {kind : NodeKind} {span : Option Span} {ts : List Placed} {sc : Scope}

/-- Where nothing is bound there is nothing to take out. -/
theorem dismantle_of_nil (hsc : st.scopes.get? s = some sc) (hrepeats : sc.repeats = []) :
    st.dismantle s = st := by
  have hnil : st.scopes.repeats s = [] := by
    rw [Scopes.repeats, hsc]
    exact hrepeats
  simp [Stage.dismantle, hnil]

/-- **Bindable trees can be compiled** to a scope that nothing is bound to. -/
theorem Ground.compile (h : Ground mark st.document p id kind span ts)
    (hsc : st.scopes.get? s = some sc) (hrepeats : sc.repeats = []) :
    ∃ st' items ys, st.compile mark s id = .ok st' ∧
      Compiled mark st st' p s id kind span ts items ys := by
  have hvalid : invalidRepeat? st.document mark id = none := by
    rw [invalidRepeat?, h.bindable.invalidTo_eq_none _ h.holds h.nodup]
    rfl
  have hdepth := h.holds.depth_le h.nodup
  obtain ⟨items, ys, hcompiled⟩ := h.compileTo (Nat.le_succ_of_le hdepth) hsc
  refine ⟨_, items, ys, ?_, hcompiled⟩
  rw [Stage.compile, hvalid]
  simp only [dismantle_of_nil hsc hrepeats]

/-- **Proper trees that can be compiled are bindable.** -/
theorem bindable_of_compile (hts : ∀ t ∈ ts, t.Proper)
    (ht : st.document.Holds p (.node id kind span ts))
    (hn : (Placed.node id kind span ts).ids.Nodup) (h : st.compile mark s id = .ok st') :
    Bindable mark ts := by
  rw [← invalidRepeat?_eq_none_iff hts ht hn]
  cases he : invalidRepeat? st.document mark id with
  | none => rfl
  | some e =>
      rw [(Stage.compile_eq_error_iff mark st s id e).2 he] at h
      cases h

/-- The directives of a compiled scope are those of the repeated elements, in document order. -/
theorem Compiled.expressions {items : List Mold} {ys : List NodeId}
    (h : Compiled mark st st' p s id kind span ts items ys)
    (hground : Ground mark st.document p id kind span ts) :
    (Mold.spots (Mold.level p id kind span items)).map (fun a => some a.expression) =
      (marksAll mark id ts).map fun m => m.element.repeat? mark := by
  obtain ⟨scope, pattern, hlaid, _⟩ := h.laid
  have hspots := hlaid.spots (c := id) (fun _ => mem_out)
    fun i hi => hground.notMem_out (List.mem_cons_of_mem _ hi)
  exact map_eq_of_forall₂ hspots fun m _ a ha => ha.expression.symm

end Compile

/-! ### Properties that compiling keeps -/

/-- A property of documents that each of the operations keeps with which something is bound. -/
structure Lasting (P : Document → Prop) : Prop where
  setText : ∀ d id text, P d → P (d.setText id text)
  divide : ∀ d id head tail, P d → P (d.divide id head tail).1
  eraseAttribute : ∀ d id name, P d → P (d.eraseAttribute id name)
  detach : ∀ d id, P d → P (d.detach id)

/-- A property of documents that each of the operations of compiling keeps, also when what was bound
before is taken out. -/
structure Stable (P : Document → Prop) : Prop extends Lasting P where
  remove : ∀ d id, P d → P (d.remove id)

section Stable

variable {P : Document → Prop} {d : Document}

theorem Lasting.layOut (h : Lasting P) (hd : P d) (slots : Slots) (node : NodeId) (ps : List Piece) :
    P (layOut d slots node ps).1 := by
  induction ps generalizing d slots node with
  | nil => exact hd
  | cons p ps ih =>
      cases ps with
      | nil => exact h.setText _ _ _ hd
      | cons q ps => exact ih (h.divide _ _ _ _ hd) _ _

theorem Lasting.cutText (h : Lasting P) (hd : P d) (slots : Slots) (node : NodeId) :
    P (cutText d slots node).1 := by
  rw [Binding.cutText]
  split
  · exact h.layOut hd slots node _
  · exact hd

theorem Lasting.cutRound (h : Lasting P) {fuel : Nat}
    (hinner : ∀ {d : Document}, P d → ∀ (slots : Slots) (node : NodeId),
      P (Binding.extractTo fuel d slots node).1)
    {out : Document × Slots} (hout : P out.1) (child : NodeId) :
    P (cutRound fuel out child).1 := by
  simp only [Binding.cutRound]
  split
  · exact h.cutText hout _ child
  · exact hinner hout _ child
  · exact hout

theorem Lasting.extractTo (h : Lasting P) (fuel : Nat) (hd : P d) (slots : Slots) (node : NodeId) :
    P (extractTo fuel d slots node).1 := by
  induction fuel generalizing d slots node with
  | zero => exact hd
  | succ fuel ih =>
      rw [extractTo_succ]
      exact List.foldlRecOn (d.children node) (Binding.cutRound fuel)
        (motive := fun out : Document × Slots => P out.1) hd
        fun _ hout child _ => h.cutRound ih hout child

theorem Lasting.takeOut (h : Lasting P) {st : Stage} (hd : P st.document) (mark : String)
    (repeats : List Repeat) (x : RepeatExpression) (scope : ScopeId) (element container : NodeId) :
    P (Stage.takeOut mark st repeats x scope element container).1.document :=
  h.detach _ _ (h.eraseAttribute _ _ _ hd)

theorem Lasting.takeRound (h : Lasting P) {mark : String} {fuel : Nat}
    (hinner : ∀ {d : Document}, P d → ∀ (f : Scopes) (s : ScopeId) (node : NodeId),
      P (Stage.compileTo mark fuel ⟨d, f⟩ s node).document)
    (s : ScopeId) {out : Stage × List Repeat} (hout : P out.1.document) (element : NodeId) :
    P (takeRound mark fuel s out element).1.document := by
  simp only [Binding.takeRound]
  split
  · exact h.takeOut (hinner hout _ _ element) mark _ _ _ element _
  · exact hout

theorem Lasting.compileTo (h : Lasting P) (mark : String) (fuel : Nat) {st : Stage}
    (hd : P st.document) (s : ScopeId) (node : NodeId) : P (st.compileTo mark fuel s node).document := by
  induction fuel generalizing st s node with
  | zero => exact hd
  | succ fuel ih =>
      have htaken := List.foldlRecOn (repeated st.document mark node) (Binding.takeRound mark fuel s)
        (motive := fun out : Stage × List Repeat => P out.1.document) (b := (st, [])) hd
        fun _ hout element _ => h.takeRound (fun hd _ => ih hd) s hout element
      rw [compileTo_succ]
      exact h.extractTo _ htaken _ _

theorem Stable.removeAll (h : Stable P) (hd : P d) (ids : List NodeId) :
    P (ids.foldl Document.remove d) :=
  List.foldlRecOn ids _ hd fun e he id _ => h.remove e id he

/-- **Compiling keeps what its operations keep**, whatever the document is. -/
theorem Stable.compile (h : Stable P) {mark : String} {st st' : Stage} {s : ScopeId} {node : NodeId}
    (hcompile : st.compile mark s node = .ok st') (hd : P st.document) : P st'.document := by
  obtain rfl := Stage.eq_of_compile hcompile
  have hdismantled : P (st.dismantle s).document := h.removeAll hd _
  exact h.compileTo mark _ hdismantled s node

end Stable

end PageTemplate.Binding
