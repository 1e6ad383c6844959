/-
  Resolving at once, and one after the other.

  The elementary actions of an adaptive action are resolved each when its turn comes.
  Resolved before any of them is taken, they do the same: a binding that is made on the
  way is seen through the cell, whenever the name was resolved.  Only a call or a
  reference that stands for a state or a symbol is written out at once, so its cells
  have to be bound before.

  * `Store.Settled` says that a value leads to bound cells only;
  * `resolve_of_extends`: a value that reads without cells reads the same whatever is
    bound later;
  * `Environment.resolveStep_of_extends`: so an elementary action is resolved to the same
    entry before and after other cells are bound;
  * `runSteps_eq_dispatchAll` and `executeAtOnce_eq_execute`: the two ways of running an
    action agree;
  * `exists_executeAtOnce_ne_execute`: they need not if a call leads to an unbound cell.
-/
import AdaptiveAutomata.Proofs.Acyclic
import AdaptiveAutomata.Proofs.CellFree

namespace AdaptiveAutomata

namespace Store

variable {s t : Store} {v : Value}

/-! ## Values that are settled -/

/-- Every cell that a value leads to is bound. -/
def Settled (s : Store) (v : Value) : Prop := ∀ c, s.Reaches v (.cell c) → s.binding? c ≠ none

theorem Settled.of_binding? (hst : ∀ c, t.binding? c = s.binding? c) (h : s.Settled v) :
    t.Settled v := by
  intro c hc
  rw [hst]
  exact h c (hc.mono fun d w hb => (hst d).symm.trans hb)

/-- In an acyclic store a settled value reads without cells. -/
theorem Acyclic.cellFree_resolve (hs : s.Acyclic) (h : s.Settled v) : (s.resolve v).CellFree :=
  fun c hc => h c (reaches_of_mem_resolveWithin hc) (hs.unbound_of_mem_resolve hc)

/-- What reads without cells meets bound cells only, and these stay as they are. -/
theorem resolveWithin_of_extends (hst : t.Extends s) {depth : Nat}
    (h : (s.resolveWithin depth v).CellFree) :
    t.resolveWithin depth v = s.resolveWithin depth v := by
  induction depth generalizing v with
  | zero => rfl
  | succ depth ih =>
    rw [resolveWithin_succ] at h
    rw [resolveWithin_succ, resolveWithin_succ]
    refine Value.subst_congr fun c hc => ?_
    cases hb : s.binding? c with
    | none =>
      refine absurd (Value.mem_leaves_subst.2 ⟨_, hc, ?_⟩) (h c)
      rw [Value.subst, hb, Value.leaves_cell]
      exact List.mem_singleton_self _
    | some w =>
      rw [hst c w hb]
      refine ih fun d hd => h d (Value.mem_leaves_subst.2 ⟨_, hc, ?_⟩)
      rwa [Value.subst, hb]

theorem resolve_of_extends (hst : t.Extends s) (hsize : t.size = s.size)
    (h : (s.resolve v).CellFree) : t.resolve v = s.resolve v := by
  rw [resolve, hsize]
  exact resolveWithin_of_extends hst h

/-! ## States and symbols -/

/-- A call or a reference reads without cells. -/
def Closed (s : Store) (v : Value) : Prop := v.isLeaf = false → (s.resolve v).CellFree

theorem Acyclic.closed (hs : s.Acyclic) (h : v.isLeaf = false → s.Settled v) : s.Closed v :=
  fun hv => hs.cellFree_resolve (h hv)

theorem Closed.text_of_extends (hv : s.Closed v) (hst : t.Extends s) (hsize : t.size = s.size)
    (hc : ∀ c, v ≠ .cell c) : t.text v = s.text v := by
  suffices h : (s.resolve v).CellFree by rw [text, text, resolve_of_extends hst hsize h]
  by_cases hl : v.isLeaf = true
  · rw [resolve_of_isLeaf s hl hc]
    exact Value.cellFree_of_isLeaf hl hc
  · exact hv (Bool.not_eq_true _ ▸ hl)

theorem Closed.asState_of_extends (hv : s.Closed v) (hst : t.Extends s)
    (hsize : t.size = s.size) : t.asState v = s.asState v := by
  cases v with
  | state | cell => rfl
  | _ => exact congrArg Value.state (hv.text_of_extends hst hsize fun _ => Value.noConfusion)

theorem Closed.asSymbol_of_extends (hv : s.Closed v) (hst : t.Extends s)
    (hsize : t.size = s.size) : t.asSymbol v = s.asSymbol v := by
  cases v with
  | symbol | cell => rfl
  | _ => exact congrArg Value.symbol (hv.text_of_extends hst hsize fun _ => Value.noConfusion)

end Store

/-! ## Names -/

namespace Environment

variable {env : Environment} {s t : Store}

/-- The calls and references among the arguments read without cells. -/
def Closed (env : Environment) (s : Store) : Prop :=
  ∀ name v, env.lookup name = some (.argument v) → s.Closed v

theorem Closed.resolve_of_extends (henv : env.Closed s) (hst : t.Extends s)
    (hsize : t.size = s.size) : env.resolve t = env.resolve s := by
  funext site name
  rw [resolve, resolve]
  cases hl : env.lookup name with
  | none => rfl
  | some b =>
    cases b with
    | free c => cases site <;> rfl
    | minted id => cases site <;> rfl
    | argument v =>
      have hv := henv name v hl
      cases site with
      | state => exact hv.asState_of_extends hst hsize
      | symbol => exact hv.asSymbol_of_extends hst hsize
      | call | action | argument => rfl

/-- **An elementary action** is resolved to the same entry, whatever was bound in the
    meantime. -/
theorem Closed.resolveStep_of_extends (henv : env.Closed s) (hst : t.Extends s)
    (hsize : t.size = s.size) (e : Spec.Step) : env.resolveStep t e = env.resolveStep s e := by
  have h := henv.resolve_of_extends hst hsize
  have hcall : env.resolveCall t = env.resolveCall s := by
    funext c
    rw [resolveCall, resolveCall, h]
  have hlabel : env.resolveLabel t e.consumption = env.resolveLabel s e.consumption := by
    cases e.consumption with
    | nothing => rfl
    | symbol name => exact congrFun (congrFun h .symbol) name
    | call name => exact congrFun (congrFun h .call) name
  rw [resolveStep, resolveStep, h, hcall, hlabel]

theorem closed_bind {parameters freeVariables generators : List String}
    {arguments : List Value} {counter : Counter} (h : ∀ v ∈ arguments, t.Closed v) :
    (bind parameters freeVariables generators arguments s counter).1.Closed t := by
  intro name v hl
  rcases lookup_bind hl with ⟨-, c, -, hb⟩ | ⟨-, id, -, hb⟩ | ⟨-, w, hw, hb⟩
  · exact absurd hb (by simp)
  · exact absurd hb (by simp)
  · obtain rfl := Binding.argument.inj hb
    exact h v hw

end Environment

/-! ## Runs -/

namespace Action

variable {env : Environment} {s : Store}

/-- Run the action with all its elementary actions resolved before the first is
    taken. -/
def executeAtOnce (a : Action) (arguments : List Value) (σ : Scene) (counter : Counter) :
    Execution :=
  let (env, store, counter) := a.bind arguments σ.store counter
  let (outcomes, σ) := Scene.dispatchAll (a.requests env store) { σ with store }
  ⟨outcomes, σ, counter⟩

/-- **A run of elementary actions** is the run of the entries that they were resolved to in
    an earlier store. -/
theorem runSteps_eq_dispatchAll (henv : env.Closed s) (steps : List (Kind × Spec.Step))
    {σ : Scene} (hst : σ.store.Extends s) (hsize : σ.store.size = s.size) :
    runSteps env steps σ =
      Scene.dispatchAll (steps.map fun (kind, e) => (kind, env.resolveStep s e)) σ := by
  induction steps generalizing σ with
  | nil => rfl
  | cons step steps ih =>
    obtain ⟨kind, e⟩ := step
    have hd : (σ.dispatch kind (env.resolveStep s e)).2.store.Extends σ.store :=
      Store.bindingRule_extends.dispatch (fun _ _ _ _ => trivial) kind _
    have hs : σ.store.size = (σ.dispatch kind (env.resolveStep s e)).2.store.size :=
      Store.bindingRule_size.dispatch (fun _ _ _ _ => trivial) kind _
    simp only [runSteps, List.map_cons, Scene.dispatchAll,
      henv.resolveStep_of_extends hst hsize e, ih (hd.trans hst) (hs.symm.trans hsize)]

/-- **The two ways of running an action agree**: resolving all elementary actions at the
    start, and each when its turn comes.  The outcomes are the same, the entries, the
    bindings of the cells and the counter, if every call and every reference among the
    arguments leads to bound cells only. -/
theorem executeAtOnce_eq_execute (a : Action) {arguments : List Value} {σ : Scene}
    (counter : Counter) (hs : σ.store.Acyclic)
    (h : ∀ v ∈ arguments, v.isLeaf = false → σ.store.Settled v) :
    a.executeAtOnce arguments σ counter = a.execute arguments σ counter := by
  have hfresh : ∀ c, (σ.store.freshCells a.freeVariables.length).2.binding? c =
      σ.store.binding? c := Store.binding?_freshCells _ _
  have hacyclic : (σ.store.freshCells a.freeVariables.length).2.Acyclic :=
    hs.of_extends fun c w hb => (hfresh c).symm.trans hb
  have henv : (a.bind arguments σ.store counter).1.Closed
      (σ.store.freshCells a.freeVariables.length).2 :=
    Environment.closed_bind fun v hv =>
      hacyclic.closed fun hl => (h v hv hl).of_binding? hfresh
  have hrun := runSteps_eq_dispatchAll henv a.steps
    (σ := ⟨σ.table, (σ.store.freshCells a.freeVariables.length).2⟩) (fun _ _ hb => hb) rfl
  simp only [executeAtOnce, execute, requests, store_bind, hrun]

end Action

/-! ## Calls of bound cells -/

/-- An action that asks for a transition from its second argument, and adds one from its
    first. -/
def Spec.askAction : Spec.Action :=
  (Action.named "ask").withParameter "v" |>.withParameter "c"
    |>.withStep (Step.of .query "c" "2")
    |>.withStep (Step.of .add "v" "2")

/-- A table with the transition that is asked for. -/
def Table.asked (name : String) : Table Value := ⟨[.plain (.state name) .epsilon (.state "2")]⟩

/-- Two cells: the first is bound, the second is not. -/
def Store.asked : Store :=
  ((empty .numbered).alloc (.numbered 0) (some (.literal "m"))).2.fresh.2

theorem Store.acyclic_asked : asked.Acyclic := by
  rintro ⟨_ | _ | place, id⟩ ⟨w, hb, d, hd, -⟩
  · obtain rfl : Value.literal "m" = w := Option.some.inj hb
    exact absurd (hd.eq_of_isLeaf rfl fun _ => Value.noConfusion) Value.noConfusion
  · exact absurd (show none = some w from hb) (by simp)
  · exact absurd (show none = some w from hb) (by simp)

namespace Action

/-- A call of the bound cell is settled, and both ways add the state that it reads as. -/
theorem executeAtOnce_call_of_bound :
    let arguments : List Value := [.call (.cell ⟨0, .numbered 0⟩), .cell ⟨1, .numbered 1⟩]
    let x := (ofSpec Spec.askAction).executeAtOnce arguments ⟨.asked "1", .asked⟩ .initial
    x = (ofSpec Spec.askAction).execute arguments ⟨.asked "1", .asked⟩ .initial ∧
      x.scene.table.entries = [.plain (.state "1") .epsilon (.state "2"),
        .plain (.state "[m]") .epsilon (.state "2")] ∧
      x.scene.store.binding? ⟨1, .numbered 1⟩ = some (.state "1") := by
  refine ⟨executeAtOnce_eq_execute _ _ Store.acyclic_asked fun v hv hl => ?_, rfl, rfl⟩
  rcases List.mem_cons.1 hv with rfl | hv
  · intro c hc
    cases hc with
    | leaf h =>
      obtain rfl : c = ⟨0, .numbered 0⟩ := by simpa using h
      exact Option.some_ne_none _
    | @binding _ w _ d hd hb h =>
      obtain rfl : d = ⟨0, .numbered 0⟩ := by simpa using hd
      obtain rfl : Value.literal "m" = w := Option.some.inj hb
      exact absurd (h.eq_of_isLeaf rfl fun _ => Value.noConfusion) Value.noConfusion
  · rw [List.mem_singleton.1 hv] at hl
    exact absurd hl (by simp [Value.isLeaf])

end Action

/-! ## Calls of unbound cells -/

namespace Value

theorem length_le_intercalate {name : String} {names : List String} (h : name ∈ names) :
    name.length ≤ (", ".intercalate names).length := by
  induction names with
  | nil => exact absurd h List.not_mem_nil
  | cons first rest ih =>
    cases rest with
    | nil => rw [List.mem_singleton.1 h, String.intercalate_singleton]
    | cons second rest =>
      simp only [String.intercalate_cons_cons, String.length_append]
      rcases List.mem_cons.1 h with rfl | h
      · omega
      · have := ih h
        omega

/-- The text of a value is no shorter than the texts of its leaves. -/
theorem length_text_le {u v : Value} (h : u ∈ v.leaves) : u.text.length ≤ v.text.length := by
  induction v using recParts with
  | leaf v hv =>
    rw [leaves_of_isLeaf hv, List.mem_singleton] at h
    rw [h]
  | call v ih =>
    have := ih (leaves_call v ▸ h)
    simp only [text_call, String.length_append]
    omega
  | action name arguments ih ihs =>
    simp only [text_action, String.length_append]
    rcases List.mem_append.1 (leaves_action name arguments ▸ h) with h | h
    · have := ih h
      omega
    · obtain ⟨a, ha, h⟩ := List.mem_flatMap.1 h
      have := (ihs a ha h).trans (length_le_intercalate (List.mem_map_of_mem ha))
      omega

end Value

namespace Store

variable {s : Store} {c : Cell}

/-- An unbound cell of a pattern is bound to the state that stands beside it. -/
theorem bindFrom_cell_state (hb : s.binding? c = none) (name : String) :
    s.bindFrom (.cell c) (.state name) = s.write c (.state name) := by
  have hr : s.resolve (.state name) = .state name :=
    resolve_of_isLeaf s rfl fun _ => Value.noConfusion
  have hbind : s.bind? c (.state name) = some (s.write c (.state name)) :=
    bind?_eq_some_iff.2 ⟨hb, fun d hd => by simp [hr] at hd, by rw [hr]⟩
  rw [bindFrom, bindFromWithin, walk, hb]
  simp only [hr, Value.isCell, Bool.false_eq_true, if_false, hbind, Option.getD_some]

end Store

namespace Action

variable {s : Store} {v : Value} {c : Cell}

/-- The query of the action binds the unbound cell that is its second argument. -/
theorem dispatch_ask (hb : s.binding? c = none) (name : String) :
    (Scene.dispatch .query (.plain (.cell c) .epsilon (.state "2")) ⟨.asked name, s⟩).2 =
      ⟨.asked name, s.write c (.state name)⟩ := by
  have hstate : s.resolve (.state "2") = .state "2" :=
    Store.resolve_of_isLeaf s rfl fun _ => Value.noConfusion
  have hepsilon : s.resolve .epsilon = .epsilon :=
    Store.resolve_of_isLeaf s rfl fun _ => Value.noConfusion
  have hfit : Entry.fits s (.plain (.cell c) .epsilon (.state "2"))
      (.plain (.state name) .epsilon (.state "2")) = true := by
    simp [Entry.fits, Entry.plain, Entry.fitsCall, Store.fits, Store.resolve_cell_of_none hb,
      Value.fits, hstate, hepsilon]
  have hbind : Entry.bindFrom s (.plain (.cell c) .epsilon (.state "2"))
      (.plain (.state name) .epsilon (.state "2")) = s.write c (.state name) := by
    simp only [Entry.bindFrom, Entry.plain, Entry.bindCall, Store.bindFrom_cell_state hb]
    rw [Store.bindFrom_of_cellFree Value.cellFree_epsilon,
      Store.bindFrom_of_cellFree (Value.cellFree_state "2")]
  simp only [Scene.dispatch, Table.query, Table.asked, List.find?_cons, hfit, hbind]

/-- What the action adds from: the first argument as a state, before its second argument is
    bound or after. -/
theorem source_ask (hb : s.binding? c = none) (name : String) (counter : Counter) :
    let added (outcomes : List Outcome) : Option Value := outcomes[1]?.map (·.entry.source)
    let t := s.write c (.state name)
    added ((ofSpec Spec.askAction).executeAtOnce [v, .cell c] ⟨.asked name, s⟩ counter).outcomes =
        some (t.resolve (s.asState v)) ∧
      added ((ofSpec Spec.askAction).execute [v, .cell c] ⟨.asked name, s⟩ counter).outcomes =
        some (t.resolve (t.asState v)) := by
  have ht := congrArg Scene.store (dispatch_ask hb name)
  dsimp only at ht ⊢
  rw [← ht]
  exact ⟨rfl, rfl⟩

/-- **Bound cells are needed**: for every call and every reference that leads to an unbound
    cell there is an action that adds another state if its elementary actions are resolved
    at once. -/
theorem exists_executeAtOnce_ne_execute (hs : s.Acyclic) (hv : v.isLeaf = false)
    (hc : s.Reaches v (.cell c)) (hb : s.binding? c = none) (hlt : c.place < s.size)
    (counter : Counter) :
    ∃ (a : Spec.Action) (table : Table Value),
      ((ofSpec a).executeAtOnce [v, .cell c] ⟨table, s⟩ counter).outcomes ≠
        ((ofSpec a).execute [v, .cell c] ⟨table, s⟩ counter).outcomes := by
  -- once the cell is bound to a name that is long enough, the text of `v` is longer
  let name := String.ofList (List.replicate ((s.text v).length + 1) 'a')
  let t := s.write c (.state name)
  have hlen : (s.text v).length < (t.text v).length := by
    have hcell {d : Cell} : .cell d ∉ (Value.state name).leaves := by simp [Value.leaves]
    have ht : t.Acyclic :=
      (hs.write_iff hlt fun d hd => absurd hd hcell).2 fun d hd => absurd hd hcell
    have hreach : t.Reaches v (.state name) :=
      (hc.mono (Store.extends_write hb _)).trans_cell (Store.binding?_write_self hlt _)
        (.leaf (by simp [Value.leaves]))
    have hname : (Value.state name).text.length = (s.text v).length + 1 := by
      rw [show (Value.state name).text = name from rfl, String.length_ofList, List.length_replicate]
    have hle := Value.length_text_le (ht.mem_leaves_resolve hreach fun _ => Value.noConfusion)
    rw [hname] at hle
    exact hle
  have hstate (u : Store) : t.resolve (u.asState v) = .state (u.text v) := by
    have : u.asState v = .state (u.text v) := by
      cases v with
      | call | action => rfl
      | _ => exact absurd hv (by simp [Value.isLeaf])
    rw [this, Store.resolve_of_isLeaf t rfl fun _ => Value.noConfusion]
  refine ⟨Spec.askAction, .asked name, fun h => ?_⟩
  obtain ⟨hfirst, hlater⟩ := source_ask (v := v) hb name counter
  rw [h, hlater, hstate, hstate, Option.some.injEq, Value.state.injEq] at hfirst
  rw [hfirst] at hlen
  exact absurd hlen (Nat.lt_irrefl _)

end Action

end AdaptiveAutomata
