/-
  Other words for the same action.

  The parameters, variables and generators of an adaptive action are bound by it.  If they
  are called by other names, in the action and in its elementary actions alike, a run does
  the same, as long as no two names become one and no name that stands for itself is
  touched.

  * `Spec.Action.rename` calls the names of an action by others, `Environment.rename` those
    that are bound;
  * `bind_rename` and `lookup_rename`: what a name is bound to its new name is bound to, so
    it does not matter that a name is declared more than once;
  * `lookup_bind_eq_none_iff`: if no argument is missing, exactly the declared names are
    bound;
  * `resolveStep_rename`: an elementary action is resolved to the same entry;
  * `execute_rename`: the action does the same.
-/
import AdaptiveAutomata.Proofs.Names
import AdaptiveAutomata.Proofs.Runs
import Mathlib.Logic.Equiv.Basic

namespace AdaptiveAutomata

variable {f : String → String}

/-! ## New names -/

namespace Spec

def Call.rename (f : String → String) (c : Call) : Call := ⟨c.name.map f, c.arguments.map f⟩

/-- The elementary action with its words renamed.  It is of the same kind. -/
def Step.rename (f : String → String) (e : Step) : Step where
  kind := e.kind
  source := e.source.map f
  target := e.target.map f
  symbol := e.symbol.map f
  call := e.call.map f
  prior := e.prior.map (·.rename f)
  posterior := e.posterior.map (·.rename f)

/-- The action with the names it binds renamed, in its elementary actions too. -/
def Action.rename (f : String → String) (a : Action) : Action where
  name := a.name
  parameters := a.parameters.map f
  freeVariables := a.freeVariables.map f
  generators := a.generators.map f
  steps := a.steps.map (·.rename f)

/-- The names that an action binds. -/
def Action.declared (a : Action) : List String := a.freeVariables ++ (a.generators ++ a.parameters)

end Spec

/-- What is consumed, with its word renamed. -/
def Consumption.rename (f : String → String) : Consumption → Consumption
  | nothing => nothing
  | symbol name => symbol (f name)
  | call submachine => call (f submachine)

theorem Spec.Step.consumption_rename (f : String → String) (e : Step) :
    (e.rename f).consumption = e.consumption.rename f := by
  obtain ⟨_, _, _, symbol, call, _, _⟩ := e
  cases call with
  | some name => rfl
  | none => cases symbol <;> rfl

theorem Action.steps_ofSpec_rename (f : String → String) (a : Spec.Action) :
    (ofSpec (a.rename f)).steps = (ofSpec a).steps.map fun (kind, e) => (kind, e.rename f) := by
  simp only [ofSpec, Spec.Action.rename, List.filterMap_map, List.map_filterMap]
  congr 1
  funext e
  rw [Function.comp_apply, Option.map_map]
  rfl

namespace Environment

variable {env : Environment} {s : Store} {name : String}

/-! ## What new names are bound to -/

/-- The bound names renamed. -/
def rename (f : String → String) (env : Environment) : Environment where
  cells := env.cells.map (Prod.map f id)
  generated := env.generated.map (Prod.map f id)
  parameters := env.parameters.map (Prod.map f id)

theorem lookup_map_fst {α : Type} (hf : Function.Injective f) (pairs : List (String × α)) :
    (pairs.map (Prod.map f id)).lookup (f name) = pairs.lookup name := by
  induction pairs with
  | nil => rfl
  | cons pair pairs ih =>
    obtain ⟨other, a⟩ := pair
    rw [List.map_cons, Prod.map_apply, List.lookup_cons, List.lookup_cons, ih]
    by_cases h : name = other
    · rw [h, beq_self_eq_true, beq_self_eq_true]
      rfl
    · rw [beq_eq_false_iff_ne.2 h, beq_eq_false_iff_ne.2 (hf.ne h)]

/-- A new name is bound to what the name was bound to. -/
theorem lookup_rename (hf : Function.Injective f) (env : Environment) (name : String) :
    (env.rename f).lookup (f name) = env.lookup name := by
  simp only [lookup, rename, lookup_map_fst hf]

variable {parameters freeVariables generators : List String} {arguments : List Value}
  {counter : Counter}

/-- **Binding new names** is binding the names and renaming them: the cells, the identifiers
    and the arguments are handed out by position. -/
theorem bind_rename (f : String → String) :
    bind (parameters.map f) (freeVariables.map f) (generators.map f) arguments s counter =
      ((bind parameters freeVariables generators arguments s counter).1.rename f,
        (bind parameters freeVariables generators arguments s counter).2) := by
  simp only [bind, rename, List.length_map, List.zip_map_left, List.map_reverse]

theorem lookup_reverse_zip_ne_none {α : Type} {names : List String} {xs : List α}
    (hlen : names.length ≤ xs.length) (h : name ∈ names) :
    (names.zip xs).reverse.lookup name ≠ none := by
  intro hn
  rw [← List.map_fst_zip hlen] at h
  obtain ⟨⟨_, x⟩, hx, rfl⟩ := List.mem_map.1 h
  have := List.lookup_eq_none_iff.1 hn _ (List.mem_reverse.2 hx)
  simp at this

/-- If no argument is missing, the names without a binding are those that are not
    declared. -/
theorem lookup_bind_eq_none_iff (hargs : parameters.length ≤ arguments.length) :
    (bind parameters freeVariables generators arguments s counter).1.lookup name = none ↔
      name ∉ freeVariables ++ (generators ++ parameters) := by
  refine ⟨fun hn h => ?_, lookup_bind_eq_none⟩
  have hcells : freeVariables.length ≤ (s.freshCells freeVariables.length).1.length := by
    rw [Store.length_freshCells]
  have hids : generators.length ≤ (counter.mints generators.length).1.length := by
    rw [Counter.length_mints]
  simp only [lookup, bind, Option.orElse_eq_orElse, Option.orElse_eq_or, Option.or_eq_none_iff,
    Option.map_eq_none_iff] at hn
  rcases List.mem_append.1 h with h | h
  · exact lookup_reverse_zip_ne_none hcells h hn.1
  · rcases List.mem_append.1 h with h | h
    · exact lookup_reverse_zip_ne_none hids h hn.2.1
    · exact lookup_reverse_zip_ne_none hargs h hn.2.2

/-! ## What new names become -/

/-- In every place, a new name becomes what the name became, unless it stands for itself. -/
theorem resolve_rename (hf : Function.Injective f) (hn : env.lookup name = none → f name = name)
    (s : Store) (site : Site) :
    (env.rename f).resolve s site (f name) = env.resolve s site name := by
  rw [resolve, resolve, lookup_rename hf]
  cases hl : env.lookup name with
  | some b => rfl
  | none => rw [hn hl]

theorem getD_map (h : f "" = "") (name : Option String) :
    (name.map f).getD "" = f (name.getD "") := by
  rw [← Option.getD_map f "", h]

/-- The names among the words are fixed that are not bound. -/
def Fixes (env : Environment) (f : String → String) (words : List String) : Prop :=
  ∀ name ∈ words, env.lookup name = none → f name = name

variable (hf : Function.Injective f) (h₀ : f "" = "")

include hf in
theorem resolveLabel_rename {c : Consumption} (h : env.Fixes f c.words) :
    (env.rename f).resolveLabel s (c.rename f) = env.resolveLabel s c := by
  cases c with
  | nothing => rfl
  | symbol name => exact resolve_rename hf (h name (List.mem_singleton_self name)) s .symbol
  | call name => exact resolve_rename hf (h name (List.mem_singleton_self name)) s .call

include hf h₀

theorem resolveCall_rename {c : Spec.Call} (h : env.Fixes f c.words) :
    (env.rename f).resolveCall s (c.rename f) = env.resolveCall s c := by
  have hargs : (c.arguments.map f).map ((env.rename f).resolve s .argument) =
      c.arguments.map (env.resolve s .argument) := by
    rw [List.map_map]
    exact List.map_congr_left fun name hn =>
      resolve_rename hf (h name (List.mem_cons_of_mem _ hn)) s .argument
  rw [resolveCall, resolveCall, Spec.Call.rename, getD_map h₀, hargs,
    resolve_rename hf (h _ List.mem_cons_self)]

/-- **An elementary action in other words** is resolved to the same entry. -/
theorem resolveStep_rename {e : Spec.Step} (h : env.Fixes f e.words) :
    (env.rename f).resolveStep s (e.rename f) = env.resolveStep s e := by
  have hcall {c : Spec.Call} (hc : c ∈ e.calls) :
      (env.rename f).resolveCall s (c.rename f) = env.resolveCall s c := by
    refine resolveCall_rename hf h₀ fun name hn => h name ?_
    simp only [Spec.Step.words, List.mem_cons, List.mem_append, List.mem_flatMap]
    exact .inr (.inr (.inr ⟨c, hc, hn⟩))
  have hcalls {c : Option Spec.Call} (hc : ∀ x ∈ c, x ∈ e.calls) :
      (c.map (·.rename f)).map ((env.rename f).resolveCall s) = c.map (env.resolveCall s) := by
    cases c with
    | none => rfl
    | some c => exact congrArg some (hcall (hc c rfl))
  have hlabel : (env.rename f).resolveLabel s (e.rename f).consumption =
      env.resolveLabel s e.consumption := by
    rw [Spec.Step.consumption_rename]
    refine resolveLabel_rename hf fun name hn => h name ?_
    simp only [Spec.Step.words, List.mem_cons, List.mem_append]
    exact .inr (.inr (.inl hn))
  have hsource := resolve_rename hf (h (e.source.getD "") (by simp [Spec.Step.words])) s .state
  have htarget := resolve_rename hf (h (e.target.getD "") (by simp [Spec.Step.words])) s .state
  rw [resolveStep, resolveStep, hlabel]
  simp only [Spec.Step.rename, getD_map h₀, hsource, htarget]
  rw [hcalls fun c hc => by simp [Spec.Step.calls, Option.mem_def.1 hc],
    hcalls fun c hc => by simp [Spec.Step.calls, Option.mem_def.1 hc]]

end Environment

/-! ## Runs -/

namespace Action

/-- **A run in other words** does the same, step by step. -/
theorem runSteps_rename {env : Environment} (hf : Function.Injective f) (h₀ : f "" = "")
    (steps : List (Kind × Spec.Step)) (h : ∀ x ∈ steps, env.Fixes f x.2.words) (σ : Scene) :
    runSteps (env.rename f) (steps.map fun (kind, e) => (kind, e.rename f)) σ =
      runSteps env steps σ := by
  induction steps generalizing σ with
  | nil => rfl
  | cons step steps ih =>
    obtain ⟨kind, e⟩ := step
    have he := Environment.resolveStep_rename (s := σ.store) hf h₀ (h _ List.mem_cons_self)
    simp only [List.map_cons, runSteps, he, ih fun x hx => h x (List.mem_cons_of_mem _ hx)]

/-- **Declared names do not matter**: an action that calls the names it declares by others
    does the same to the table, the cells and the counter, with the same outcomes.  The new
    names are distinct, the names that are not declared stay, and no argument is missing. -/
theorem execute_rename (hf : Function.Injective f) (h₀ : f "" = "") (a : Spec.Action)
    (h : ∀ e ∈ a.steps, ∀ name ∈ e.words, name ∉ a.declared → f name = name)
    {arguments : List Value} (hargs : a.parameters.length ≤ arguments.length) (σ : Scene)
    (counter : Counter) :
    (ofSpec (a.rename f)).execute arguments σ counter =
      (ofSpec a).execute arguments σ counter := by
  have hbind : (ofSpec (a.rename f)).bind arguments σ.store counter =
      (((ofSpec a).bind arguments σ.store counter).1.rename f,
        ((ofSpec a).bind arguments σ.store counter).2) := Environment.bind_rename f
  have hfixes : ∀ x ∈ (ofSpec a).steps,
      ((ofSpec a).bind arguments σ.store counter).1.Fixes f x.2.words :=
    fun x hx name hn hl =>
      h x.2 (mem_steps_ofSpec.1 hx).1 name hn ((Environment.lookup_bind_eq_none_iff hargs).1 hl)
  have hrun := runSteps_rename hf h₀ (ofSpec a).steps hfixes
  simp only [execute, hbind, steps_ofSpec_rename, hrun]

end Action

/-- An action that declares the name `p` twice and the name `?x` in two lists. -/
def Spec.followAction : Spec.Action :=
  (Action.named "follow").withParameter "p" |>.withParameter "p" |>.withParameter "?x"
    |>.withVariable "?x" |>.withGenerator "g*" |>.withGenerator "g*"
    |>.withStep ((Step.of .query "p" "?x").consuming "a")
    |>.withStep (((Step.of .add "?x" "g*").calling "m").before (.to "follow" ["p"]))

/-- It does the same if `p` and `?x` are called by each other's names: the last argument
    for `p` counts, the variable `?x` comes before the parameter, and the last identifier
    for `g*` is used. -/
theorem Action.execute_rename_swap :
    let arguments : List Value := [.state "7", .state "8", .state "9"]
    let σ : Scene := ⟨⟨[.plain (.state "8") (.symbol "a") (.state "5")]⟩, .empty .numbered⟩
    let x := (ofSpec (Spec.followAction.rename (Equiv.swap "p" "?x"))).execute arguments σ .initial
    x = (ofSpec Spec.followAction).execute arguments σ .initial ∧
      x.scene.table.entries = [.plain (.state "8") (.symbol "a") (.state "5"),
        ⟨some ⟨.literal "follow", [.state "8"]⟩, .state "5", .call (.literal "m"), .state "2",
          none⟩] := by
  refine ⟨execute_rename (Equiv.injective _) ?_ _ ?_ ?_ _ _, ?_⟩
  · decide
  · decide
  · decide
  · rfl

end AdaptiveAutomata
