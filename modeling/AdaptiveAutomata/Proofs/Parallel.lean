/-
  Automata side by side.

  Two automata have the same entries up to the places of their cells, and the same
  actions, counter and supply of identifiers.  Whatever is run on the one does the same
  when it is run on the other, with the same errors, as long as no cell comes to lead
  back to itself.

  * `Scene.Shifted` relates tables and stores, `Automaton.Shifted` automata at work;
  * `Scene.Shifted.dispatch`: elementary actions keep two scenes the same;
  * `Scene.Shifted.execute`: so do actions, which bind their names to the same things;
  * `Automaton.Shifted.fire`, `.fireReference` and `.fireCall`: automata answer the same,
    and stay the same.
-/
import AdaptiveAutomata.Proofs.Shifts

namespace AdaptiveAutomata

variable {k : Shift} {s t : Store} {e p : Entry Value} {r q : Reference Value}

/-! ## Calls and entries -/

theorem Reference.toValue_shift (k : Shift) (r : Reference Value) :
    (r.map k.value).toValue = k.value r.toValue :=
  (Shift.value_action k r.name r.arguments).symm

theorem Reference.covers_toValue : k.Covers r.toValue ↔ ∀ v ∈ r.components, k.Covers v := by
  rw [toValue, Shift.covers_action, components, List.forall_mem_cons]

/-- An entry is taken for equal to what it is shifted to. -/
theorem Entry.outline_shift (k : Shift) (e : Entry Value) :
    (e.map k.value).outline = e.outline := by
  rw [outline, map_map, outline]
  exact map_eq_map_iff.2 fun v _ => Shift.outline_value k v

namespace Store.Shifted

section

variable (h : Shifted k s t) (hs : s.AcyclicFrom k.old)

include h hs

theorem resolve_reference (hr : ∀ v ∈ r.components, k.Covers v) :
    (r.map k.value).resolve t = (r.resolve s).map k.value := by
  have hread (v : Value) (hv : v ∈ r.components) := h.resolve_value hs (hr v hv)
  have hreads : (r.arguments.map k.value).map t.resolve =
      (r.arguments.map s.resolve).map k.value := by
    rw [List.map_map, List.map_map]
    exact List.map_congr_left fun v hv => hread v (List.mem_cons_of_mem _ hv)
  rw [Reference.resolve, Reference.resolve, Reference.map, Reference.map, Reference.map,
    Reference.map, hread _ List.mem_cons_self, hreads]

/-- An entry reads as what the other one is shifted to. -/
theorem resolve_entry (he : e.Forall k.Covers) :
    (e.map k.value).resolve t = (e.resolve s).map k.value := by
  rw [Entry.resolve, Entry.resolve, Entry.map_map, Entry.map_map]
  exact Entry.map_eq_map_iff.2 fun v hv => h.resolve_value hs (he v hv)

theorem fits_reference (hq : ∀ v ∈ q.components, k.Covers v)
    (hr : ∀ v ∈ r.components, k.Covers v) :
    (q.map k.value).fits t (r.map k.value) = q.fits s r := by
  rw [Reference.fits, Reference.toValue_shift, Reference.toValue_shift,
    h.fits_value hs (Reference.covers_toValue.2 hq) (Reference.covers_toValue.2 hr),
    Reference.fits]

/-- It fits the same patterns. -/
theorem fits_entry (hp : p.Forall k.Covers) (he : e.Forall k.Covers) :
    (p.map k.value).fits t (e.map k.value) = p.fits s e := by
  have call {x y : Option (Reference Value)} (hx : ∀ r ∈ x, r ∈ p.calls)
      (hy : ∀ r ∈ y, r ∈ e.calls) :
      Entry.fitsCall t (x.map (·.map k.value)) (y.map (·.map k.value)) =
        Entry.fitsCall s x y := by
    cases x <;> cases y <;> try rfl
    exact h.fits_reference hs
      (fun v hv => hp v (Entry.mem_components_of_mem_calls (hx _ rfl) hv))
      fun v hv => he v (Entry.mem_components_of_mem_calls (hy _ rfl) hv)
  simp only [Entry.fits, Entry.map,
    call (fun r => Entry.mem_calls_of_prior) fun r => Entry.mem_calls_of_prior,
    call (fun r => Entry.mem_calls_of_posterior) fun r => Entry.mem_calls_of_posterior,
    h.fits_value hs (hp p.source (by simp [Entry.mem_components]))
      (he e.source (by simp [Entry.mem_components])),
    h.fits_value hs (hp p.label (by simp [Entry.mem_components]))
      (he e.label (by simp [Entry.mem_components])),
    h.fits_value hs (hp p.target (by simp [Entry.mem_components]))
      (he e.target (by simp [Entry.mem_components]))]

end

theorem covers_resolve_entry (h : Shifted k s t) (he : e.Forall k.Covers) :
    (e.resolve s).Forall k.Covers :=
  Entry.forall_resolve.2 fun v hv => h.covers_resolve (he v hv)

theorem bindCall (h : Shifted k s t) {x y : Option (Reference Value)}
    (hx : ∀ r ∈ x, ∀ v ∈ r.components, k.Covers v) (hy : ∀ r ∈ y, ∀ v ∈ r.components, k.Covers v)
    (ha : (Entry.bindCall s x y).AcyclicFrom k.old) :
    Shifted k (Entry.bindCall s x y)
      (Entry.bindCall t (x.map (·.map k.value)) (y.map (·.map k.value))) := by
  cases x with
  | none => exact h
  | some q =>
    cases y with
    | none => exact h
    | some r =>
      have hq := List.forall_mem_cons.1 (hx q rfl)
      have hr := List.forall_mem_cons.1 (hy r rfl)
      have hname := h.bindFrom hq.1 hr.1
        (ha.of_extends (bindingRule_extends.bindFromAll q.arguments fun _ _ => trivial))
      exact hname.bindFromAll hq.2 hr.2 ha

/-- Matching an entry binds the same cells on both sides. -/
theorem bindFrom_entry (h : Shifted k s t) (hp : p.Forall k.Covers) (he : e.Forall k.Covers)
    (ha : (p.bindFrom s e).AcyclicFrom k.old) :
    Shifted k (p.bindFrom s e) ((p.map k.value).bindFrom t (e.map k.value)) := by
  have hcall {e : Entry Value} (he : e.Forall k.Covers) (r : Reference Value) (hr : r ∈ e.calls)
      (v : Value) (hv : v ∈ r.components) : k.Covers v :=
    he v (Entry.mem_components_of_mem_calls hr hv)
  have hback {p v : Value} {s : Store} (ha : (s.bindFrom p v).AcyclicFrom k.old) :
      s.AcyclicFrom k.old := ha.of_extends (bindingRule_extends.bindFrom trivial p)
  -- what is bound from left to right is acyclic at every stage
  have h₄ := ha.of_extends (bindingRule_extends.bindCall (fun _ _ _ _ => trivial) p.posterior)
  have h₃ := hback h₄
  have h₂ := hback h₃
  have h₁ := hback h₂
  have hprior := h.bindCall (fun r hr => hcall hp r (Entry.mem_calls_of_prior hr))
    (fun r hr => hcall he r (Entry.mem_calls_of_prior hr)) h₁
  have hsource := hprior.bindFrom (hp p.source (by simp [Entry.mem_components]))
    (he e.source (by simp [Entry.mem_components])) h₂
  have hlabel := hsource.bindFrom (hp p.label (by simp [Entry.mem_components]))
    (he e.label (by simp [Entry.mem_components])) h₃
  have htarget := hlabel.bindFrom (hp p.target (by simp [Entry.mem_components]))
    (he e.target (by simp [Entry.mem_components])) h₄
  exact htarget.bindCall (fun r hr => hcall hp r (Entry.mem_calls_of_posterior hr))
    (fun r hr => hcall he r (Entry.mem_calls_of_posterior hr)) ha

end Store.Shifted

/-! ## Tables -/

namespace Table

variable {T : Table Value}

theorem contains_shift (h : s.Shifted k t) (hs : s.AcyclicFrom k.old) (he : e.Forall k.Covers) :
    (T.map k.value).contains t (e.map k.value) = T.contains s e := by
  simp only [contains, map, List.any_map, Function.comp_def, h.resolve_entry hs he,
    Entry.outline_shift]

theorem add_shift (h : s.Shifted k t) (hs : s.AcyclicFrom k.old) (he : e.Forall k.Covers) :
    ((T.map k.value).add t (e.map k.value)).2 = (T.add s e).2.map k.value := by
  cases hc : T.contains s e with
  | true =>
    rw [add_of_contains hc, add_of_contains (by rwa [contains_shift h hs he])]
  | false =>
    rw [add_of_not_contains hc, add_of_not_contains (by rwa [contains_shift h hs he]),
      h.resolve_entry hs he]
    simp [map]

section

variable (h : s.Shifted k t) (hs : s.AcyclicFrom k.old) (hT : T.Forall k.Covers)
  (hp : p.Forall k.Covers)

include h hs hT hp

theorem fitting_shift : (T.map k.value).fitting t (p.map k.value) =
    (T.fitting s p).map (·.map k.value) := by
  rw [fitting, map, List.filter_map]
  exact congrArg _ (List.filter_congr fun e he => h.fits_entry hs hp (hT e he))

theorem remove_shift (ha : (T.remove s p).2.2.AcyclicFrom k.old) :
    ((T.map k.value).remove t (p.map k.value)).2.1 = (T.remove s p).2.1.map k.value ∧
      (T.remove s p).2.2.Shifted k ((T.map k.value).remove t (p.map k.value)).2.2 := by
  simp only [remove, fitting_shift h hs hT hp]
  simp only [remove] at ha
  refine ⟨?_, ?_⟩
  · rw [map, map, Table.mk.injEq, List.filter_map]
    refine congrArg _ (List.filter_congr fun e he => ?_)
    rw [Function.comp_apply, h.fits_entry hs hp (hT e he)]
  · cases hf : T.fitting s p with
    | nil => exact h
    | cons first rest =>
      rw [hf] at ha
      have hm : first ∈ T.fitting s p := hf ▸ List.mem_cons_self
      exact h.bindFrom_entry hp (hT first (mem_fitting.1 hm).1) ha

theorem query_shift (ha : (T.query s p).2.AcyclicFrom k.old) :
    (T.query s p).2.Shifted k ((T.map k.value).query t (p.map k.value)).2 := by
  have hfind : (T.map k.value).entries.find? ((p.map k.value).fits t) =
      (T.entries.find? (p.fits s)).map (·.map k.value) := by
    rw [← List.head?_filter, ← List.head?_filter, ← List.head?_map]
    exact congrArg List.head? (fitting_shift h hs hT hp)
  simp only [query, hfind]
  simp only [query] at ha
  cases hf : T.entries.find? (p.fits s) with
  | none => exact h
  | some first =>
    rw [hf] at ha
    exact h.bindFrom_entry hp (hT first (List.mem_of_find?_eq_some hf)) ha

end

end Table

/-! ## Elementary actions -/

namespace Scene

variable {σ τ : Scene}

/-- The tables are the same up to the places of cells, and so are the stores. -/
structure Shifted (k : Shift) (σ τ : Scene) : Prop where
  table : τ.table = σ.table.map k.value
  covers : σ.table.Forall k.Covers
  store : σ.store.Shifted k τ.store

/-- **An elementary action** does the same to both. -/
theorem Shifted.dispatch (h : σ.Shifted k τ) (he : e.Forall k.Covers) (kind : Kind)
    (ha : (σ.dispatch kind e).2.store.AcyclicFrom k.old) :
    (σ.dispatch kind e).2.Shifted k (τ.dispatch kind (e.map k.value)).2 := by
  have hs := ha.of_extends (Store.bindingRule_extends.dispatch (fun _ _ _ _ => trivial) kind e)
  have hcovers : (σ.dispatch kind e).2.table.Forall k.Covers := by
    intro x hx
    rcases mem_entries_dispatch hx with hx | ⟨-, rfl⟩
    · exact h.covers x hx
    · exact h.store.covers_resolve_entry he
  obtain ⟨T, t⟩ := τ
  obtain rfl : T = σ.table.map k.value := h.table
  cases kind with
  | add => exact ⟨Table.add_shift h.store hs he, hcovers, h.store⟩
  | remove =>
    obtain ⟨htable, hstore⟩ := Table.remove_shift h.store hs h.covers he ha
    exact ⟨htable, hcovers, hstore⟩
  | query => exact ⟨rfl, hcovers, Table.query_shift h.store hs h.covers he ha⟩

end Scene

/-! ## What names become -/

/-- The binding with its cells in their new places. -/
def Binding.shift (k : Shift) : Binding → Binding
  | free c => free (k.cell c)
  | minted id => minted id
  | argument v => argument (k.value v)

/-- All cells of the binding are moved. -/
def Binding.Covered (k : Shift) : Binding → Prop
  | free c => k.old ≤ c.place
  | minted _ => True
  | argument v => k.Covers v

namespace Site

variable {b : Binding}

theorem covers_wrap (hb : b.Covered k) (s : Store) (site : Site) : k.Covers (site.wrap s b) := by
  cases b with
  | free c =>
    have hc : k.old ≤ c.place := hb
    cases site <;> simpa [wrap] using hc
  | minted id =>
    have hfree : (Binding.minted id).CellFree := trivial
    exact Shift.covers_of_cellFree (cellFree_wrap hfree site)
  | argument v =>
    have hv : k.Covers v := hb
    have hstate (name : String) := Shift.covers_of_cellFree (k := k) (Value.cellFree_state name)
    have hsymbol (name : String) := Shift.covers_of_cellFree (k := k) (Value.cellFree_symbol name)
    cases site with
    | state => cases v <;> first | exact hv | exact hstate _
    | symbol => cases v <;> first | exact hv | exact hsymbol _
    | call => exact Shift.covers_call.2 hv
    | action | argument => exact hv

theorem wrap_shift (h : s.Shifted k t) (hs : s.AcyclicFrom k.old) (hb : b.Covered k)
    (site : Site) : site.wrap t (b.shift k) = k.value (site.wrap s b) := by
  cases b with
  | free c => cases site <;> simp [wrap, Binding.shift]
  | minted id =>
    have hfree : (Binding.minted id).CellFree := trivial
    rw [Shift.value_of_cellFree (cellFree_wrap hfree site)]
    cases site <;> rfl
  | argument v =>
    have hv : k.Covers v := hb
    cases site with
    | state => exact h.asState_value hs hv
    | symbol => exact h.asSymbol_value hs hv
    | call => exact (Shift.value_call k v).symm
    | action | argument => rfl

end Site

namespace Environment

variable {env : Environment}

/-- The names bound to the same, with cells in their new places. -/
def shift (k : Shift) (env : Environment) : Environment where
  cells := env.cells.map fun x => (x.1, k.cell x.2)
  generated := env.generated
  parameters := env.parameters.map fun x => (x.1, k.value x.2)

/-- All cells that names are bound to are moved. -/
def Covered (k : Shift) (env : Environment) : Prop :=
  ∀ name b, env.lookup name = some b → b.Covered k

theorem lookup_map {α β : Type} (f : α → β) (pairs : List (String × α)) (name : String) :
    (pairs.map fun x => (x.1, f x.2)).lookup name = (pairs.lookup name).map f := by
  induction pairs with
  | nil => rfl
  | cons x pairs ih =>
    rw [List.map_cons, List.lookup_cons, List.lookup_cons, ih]
    split <;> rfl

theorem lookup_shift (k : Shift) (env : Environment) (name : String) :
    (env.shift k).lookup name = (env.lookup name).map (·.shift k) := by
  simp only [lookup, shift, lookup_map]
  cases env.cells.lookup name <;> cases env.generated.lookup name <;>
    cases env.parameters.lookup name <;> rfl

theorem covers_resolve (henv : env.Covered k) (s : Store) (site : Site) (name : String) :
    k.Covers (env.resolve s site name) := by
  rw [resolve]
  split
  · next b hl => exact Site.covers_wrap (henv name b hl) s site
  · exact Shift.covers_of_cellFree (Site.cellFree_literal site name)

theorem covers_resolveStep (henv : env.Covered k) (s : Store) (e : Spec.Step) :
    (env.resolveStep s e).Forall k.Covers :=
  forall_resolveStep (Shift.covers_of_cellFree Value.cellFree_epsilon)
    fun site name _ => covers_resolve henv s site name

section

variable (h : s.Shifted k t) (hs : s.AcyclicFrom k.old) (henv : env.Covered k)

include h hs henv

theorem resolve_shift (site : Site) (name : String) :
    (env.shift k).resolve t site name = k.value (env.resolve s site name) := by
  rw [resolve, resolve, lookup_shift]
  cases hl : env.lookup name with
  | none => exact (Shift.value_of_cellFree (Site.cellFree_literal site name)).symm
  | some b => exact Site.wrap_shift h hs (henv name b hl) site

/-- An elementary action acts on the same entry. -/
theorem resolveStep_shift (e : Spec.Step) :
    (env.shift k).resolveStep t e = (env.resolveStep s e).map k.value := by
  have hname (site : Site) (name : String) := resolve_shift h hs henv site name
  have hcall : (env.shift k).resolveCall t = fun c => (env.resolveCall s c).map k.value := by
    funext c
    rw [resolveCall, resolveCall, Reference.map, hname, List.map_map]
    exact congrArg _ (List.map_congr_left fun name _ => hname .argument name)
  have hlabel : (env.shift k).resolveLabel t e.consumption =
      k.value (env.resolveLabel s e.consumption) := by
    cases e.consumption with
    | nothing => exact (Shift.value_of_cellFree Value.cellFree_epsilon).symm
    | symbol name => exact hname .symbol name
    | call name => exact hname .call name
  simp only [resolveStep, Entry.map, hname, hlabel, hcall, Option.map_map, Function.comp_def]

end

/-- **Names are bound** to the same, with cells that are made in their new places. -/
theorem bind_shift (h : s.Shifted k t) (parameters : List String) {freeVariables : List String}
    (generators : List String) {arguments : List Value} (ha : ∀ v ∈ arguments, k.Covers v)
    (counter : Counter) (hd : (s.freshCells freeVariables.length).2.drawn ≤ k.last) :
    (bind parameters freeVariables generators (arguments.map k.value) t counter).1 =
        (bind parameters freeVariables generators arguments s counter).1.shift k ∧
      (bind parameters freeVariables generators arguments s counter).1.Covered k ∧
      (s.freshCells freeVariables.length).2.Shifted k (t.freshCells freeVariables.length).2 := by
  obtain ⟨hcells, hplaces, hstore⟩ := h.freshCells hd
  refine ⟨?_, fun name b hl => ?_, hstore⟩
  · simp only [bind, shift, hcells, List.zip_map_right, List.map_reverse]
    rfl
  · rcases lookup_bind hl with ⟨-, c, hc, rfl⟩ | ⟨-, id, -, rfl⟩ | ⟨-, v, hv, rfl⟩
    · exact hplaces c hc
    · trivial
    · exact ha v hv

end Environment

/-! ## Actions -/

/-- The store has no cell that leads back to itself among those that are moved, and has
    not drawn too many identifiers. -/
structure Shift.Allows (k : Shift) (s : Store) : Prop where
  acyclic : s.AcyclicFrom k.old
  drawn : s.drawn ≤ k.last

namespace Scene.Shifted

variable {σ τ : Scene} {arguments : List Value}

theorem runSteps {env : Environment} (henv : env.Covered k) {steps : List (Kind × Spec.Step)}
    (h : σ.Shifted k τ) (ha : (Action.runSteps env steps σ).2.store.AcyclicFrom k.old) :
    (Action.runSteps env steps σ).2.Shifted k (Action.runSteps (env.shift k) steps τ).2 := by
  induction steps generalizing σ τ with
  | nil => exact h
  | cons x steps ih =>
    obtain ⟨kind, e⟩ := x
    have hnext := ha.of_extends (Store.bindingRule_extends.runSteps
      (σ.dispatch kind (env.resolveStep σ.store e)).2 (fun _ _ _ _ => trivial)
      fun _ _ _ _ _ _ _ => trivial).1
    have hs := hnext.of_extends (Store.bindingRule_extends.dispatch (fun _ _ _ _ => trivial) kind _)
    have hstep := h.dispatch (Environment.covers_resolveStep henv σ.store e) kind hnext
    rw [← Environment.resolveStep_shift h.store hs henv e] at hstep
    exact ih hstep ha

/-- **An action** does the same to both. -/
theorem execute (h : σ.Shifted k τ) (hv : ∀ v ∈ arguments, k.Covers v) (action : Action)
    (counter : Counter) (ha : k.Allows (action.execute arguments σ counter).scene.store) :
    (action.execute arguments σ counter).scene.Shifted k
      (action.execute (arguments.map k.value) τ counter).scene := by
  have hacyclic := ha.acyclic
  have hdrawn := ha.drawn
  rw [Action.scene_execute, Action.store_bind] at hacyclic hdrawn
  rw [← (Store.bindingRule_drawn.runSteps ⟨σ.table, _⟩ (fun _ _ _ _ => trivial)
    fun _ _ _ _ _ _ _ => trivial).1] at hdrawn
  obtain ⟨henv, hcovered, hstore⟩ := Environment.bind_shift h.store action.parameters
    action.generators hv counter hdrawn
  rw [← Action.bind, ← Action.bind] at henv
  rw [Action.scene_execute, Action.scene_execute, Action.store_bind, Action.store_bind, henv]
  exact runSteps hcovered ⟨h.table, h.covers, hstore⟩ hacyclic

end Scene.Shifted

/-! ## Automata -/

/-- Both fail for the same reason, or both succeed with related results. -/
inductive Agree {ε α β : Type} (R : α → β → Prop) : Except ε α → Except ε β → Prop
  | error (e : ε) : Agree R (.error e) (.error e)
  | ok {x : α} {y : β} (h : R x y) : Agree R (.ok x) (.ok y)

theorem Agree.map {ε α β γ δ : Type} {R : α → β → Prop} {Q : γ → δ → Prop} {x : Except ε α}
    {y : Except ε β} {f : α → γ} {g : β → δ} (h : Agree R x y)
    (hf : ∀ x y, R x y → Q (f x) (g y)) : Agree Q (x.map f) (y.map g) := by
  cases h with
  | error e => exact .error e
  | ok h => exact .ok (hf _ _ h)

namespace Automaton

variable {a b : Automaton} {v w : World} {arguments : List Value}

/-- The automata have the same entries up to the places of cells, the same actions, and
    counters at the same point. -/
structure Shifted (k : Shift) (x y : Automaton × World) : Prop where
  scene : Scene.Shifted k ⟨x.1.table, x.2.store⟩ ⟨y.1.table, y.2.store⟩
  actions : y.1.actions = x.1.actions
  counter : y.1.counter y.2 = x.1.counter x.2
  place : x.1.generator < x.2.counters.size
  place' : y.1.generator < y.2.counters.size

/-- Automata that are the same, as long as this is allowed. -/
def ShiftedIf (k : Shift) (x y : Automaton × World) : Prop := k.Allows x.2.store → Shifted k x y

namespace Shifted

theorem run (h : Shifted k (a, w) (b, v)) (hv : ∀ x ∈ arguments, k.Covers x) (action : Action) :
    ShiftedIf k (a.run action arguments w) (b.run action (arguments.map k.value) v) := by
  intro ha
  have hcounter : b.counter v = a.counter w := h.counter
  have hscene := h.scene.execute hv action (a.counter w) ha
  refine ⟨?_, h.actions, ?_, ?_, ?_⟩
  · simp only [Automaton.run, hcounter]
    exact hscene
  · rw [counter_run h.place', counter_run h.place, hcounter]
  · simpa [Automaton.run, World.setCounter] using h.place
  · simpa [Automaton.run, World.setCounter] using h.place'

/-- **By name** the same is run on both. -/
theorem fire (h : Shifted k (a, w) (b, v)) (hv : ∀ x ∈ arguments, k.Covers x) (name : String) :
    Agree (ShiftedIf k) (a.fire name arguments w) (b.fire name (arguments.map k.value) v) := by
  have hactions : b.actions = a.actions := h.actions
  rw [Automaton.fire, Automaton.fire, hactions]
  cases a.actions.get? name with
  | none => exact .error _
  | some action => exact .ok (h.run hv action)

/-- **By a reference** the same is run on both, or both fail to name it. -/
theorem fireReference (h : Shifted k (a, w) (b, v)) (hs : w.store.AcyclicFrom k.old)
    (hr : ∀ x ∈ r.components, k.Covers x) :
    Agree (ShiftedIf k) (a.fireReference r w) (b.fireReference (r.map k.value) v) := by
  have hstore : w.store.Shifted k v.store := h.scene.store
  have hcovers (x : Value) (hx : x ∈ (r.resolve w.store).components) : k.Covers x := by
    rw [Reference.resolve, Reference.components_map] at hx
    obtain ⟨y, hy, rfl⟩ := List.mem_map.1 hx
    exact hstore.covers_resolve (hr y hy)
  simp only [Automaton.fireReference, hstore.resolve_reference hs hr, Reference.toValue_shift,
    hstore.text_value hs (Reference.covers_toValue.2 hcovers)]
  rw [show ((r.resolve w.store).map k.value).name = k.value (r.resolve w.store).name from rfl,
    hstore.name?_value hs (hcovers _ List.mem_cons_self)]
  cases w.store.name? (r.resolve w.store).name with
  | none => exact .error _
  | some name => exact h.fire (fun x hx => hcovers x (List.mem_cons_of_mem _ hx)) name

/-- **By an optional reference** the same is run on both, or nothing on either. -/
theorem fireCall (h : Shifted k (a, w) (b, v)) (hs : w.store.AcyclicFrom k.old)
    {o : Option (Reference Value)} (ho : ∀ r ∈ o, ∀ x ∈ r.components, k.Covers x) :
    Agree (fun x y => x.1 = y.1 ∧ ShiftedIf k x.2 y.2) (a.fireCall o w)
      (b.fireCall (o.map (·.map k.value)) v) := by
  cases o with
  | none => exact .ok ⟨rfl, fun _ => h⟩
  | some r => exact (h.fireReference hs (ho r rfl)).map fun _ _ hx => ⟨rfl, hx⟩

end Shifted

end Automaton

end AdaptiveAutomata
