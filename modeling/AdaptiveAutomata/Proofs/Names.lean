/-
  What the words of a description become when an action runs.

  * `Spec.Step.words` lists the words of an elementary action,
    `Spec.Transition.words` those of a transition that are no endpoints;
  * `lookup_bind` says what a word is bound to at the start of a run;
  * `forall_resolveStep`: what holds of every word in every place holds of the
    entry that an elementary action acts on, `forall_ofSpec` is the same for the
    entry of a transition;
  * `Value.Named N` says that the name of a value, if it has one, has the property
    `N`; `only_resolve` brings this from the words, the identifiers and the
    arguments of a run to what the words become.
-/
import AdaptiveAutomata.Automaton
import AdaptiveAutomata.Proofs.Binding
import AdaptiveAutomata.Proofs.Identifiers

namespace AdaptiveAutomata

/-! ## Words -/

def Spec.Call.words (c : Spec.Call) : List String := c.name.getD "" :: c.arguments

/-- The word of what is consumed. -/
def Consumption.words : Consumption → List String
  | nothing => []
  | symbol name => [name]
  | call submachine => [submachine]

/-- The calls of an elementary action, the prior one first. -/
def Spec.Step.calls (e : Spec.Step) : List Spec.Call := e.prior.toList ++ e.posterior.toList

/-- The words of an elementary action. -/
def Spec.Step.words (e : Spec.Step) : List String :=
  e.source.getD "" :: e.target.getD "" :: (e.consumption.words ++ e.calls.flatMap (·.words))

/-- The words of a transition that are no endpoints. -/
def Spec.Transition.words (t : Spec.Transition) : List String :=
  t.consumption.words ++ t.calls.flatMap (·.words)

/-- The elementary actions of a prepared action are those of a known kind. -/
theorem Action.mem_steps_ofSpec {a : Spec.Action} {kind : Kind} {e : Spec.Step} :
    (kind, e) ∈ (ofSpec a).steps ↔ e ∈ a.steps ∧ e.kind? = some kind := by
  simp only [ofSpec, List.mem_filterMap, Option.map_eq_some_iff, Prod.mk.injEq]
  constructor
  · rintro ⟨e, he, k, hk, rfl, rfl⟩
    exact ⟨he, hk⟩
  · exact fun ⟨he, hk⟩ => ⟨e, he, kind, hk, rfl, rfl⟩

/-! ## Entries of transitions -/

namespace Entry

theorem calls_ofSpec (t : Spec.Transition) : (ofSpec t).calls = t.calls.map .ofSpec := by
  simp [ofSpec, calls, Spec.Transition.calls, Option.toList_map]

/-- What holds of the endpoints of a transition as states, and of its words, holds
    of its entry. -/
theorem forall_ofSpec {P : Value → Prop} {t : Spec.Transition} (hε : P .epsilon)
    (hs : P (.state (t.source.getD ""))) (ht : P (.state (t.target.getD "")))
    (hw : ∀ name ∈ t.words, P (.symbol name) ∧ P (.literal name) ∧ P (.call (.literal name))) :
    (ofSpec t).Forall P := by
  intro v hv
  simp only [mem_components, calls_ofSpec, List.mem_map] at hv
  rcases hv with rfl | rfl | rfl | ⟨_, ⟨c, hc, rfl⟩, hv⟩
  · exact hs
  · rw [ofSpec, Consumption.toLabel.eq_def]
    cases hl : t.consumption with
    | nothing => exact hε
    | symbol name => exact (hw name (by simp [Spec.Transition.words, hl, Consumption.words])).1
    | call name => exact (hw name (by simp [Spec.Transition.words, hl, Consumption.words])).2.2
  · exact ht
  · have hw {name : String} (hn : name ∈ c.words) : P (.literal name) := by
      refine (hw name ?_).2.1
      simp only [Spec.Transition.words, List.mem_append, List.mem_flatMap]
      exact .inr ⟨c, hc, hn⟩
    rcases List.mem_cons.1 hv with rfl | hv
    · exact hw List.mem_cons_self
    · obtain ⟨name, hn, rfl⟩ := List.mem_map.1 hv
      exact hw (List.mem_cons_of_mem _ hn)

end Entry

/-! ## Entries of elementary actions -/

namespace Environment

variable {env : Environment} {s : Store} {name : String}

theorem calls_resolveStep (env : Environment) (s : Store) (e : Spec.Step) :
    (env.resolveStep s e).calls = e.calls.map (env.resolveCall s) := by
  simp [resolveStep, Entry.calls, Spec.Step.calls, Option.toList_map]

/-- What holds of every word of an elementary action in every place holds of the
    entry that it acts on. -/
theorem forall_resolveStep {P : Value → Prop} {e : Spec.Step} (hε : P .epsilon)
    (h : ∀ site, ∀ name ∈ e.words, P (env.resolve s site name)) :
    (env.resolveStep s e).Forall P := by
  intro v hv
  simp only [Entry.mem_components, calls_resolveStep, List.mem_map] at hv
  rcases hv with rfl | rfl | rfl | ⟨_, ⟨c, hc, rfl⟩, hv⟩
  · exact h .state _ (by simp [Spec.Step.words])
  · rw [resolveStep, resolveLabel.eq_def]
    cases hl : e.consumption with
    | nothing => exact hε
    | symbol name => exact h .symbol name (by simp [Spec.Step.words, hl, Consumption.words])
    | call name => exact h .call name (by simp [Spec.Step.words, hl, Consumption.words])
  · exact h .state _ (by simp [Spec.Step.words])
  · have hw {name : String} (hn : name ∈ c.words) : name ∈ e.words := by
      simp only [Spec.Step.words, List.mem_cons, List.mem_append, List.mem_flatMap]
      exact .inr (.inr (.inr ⟨c, hc, hn⟩))
    rcases List.mem_cons.1 hv with rfl | hv
    · exact h .action _ (hw List.mem_cons_self)
    · obtain ⟨name, hn, rfl⟩ := List.mem_map.1 hv
      exact h .argument _ (hw (List.mem_cons_of_mem _ hn))

/-! ## What words are bound to -/

theorem mem_of_lookup {α : Type} {pairs : List (String × α)} {a : α}
    (h : pairs.lookup name = some a) : (name, a) ∈ pairs := by
  obtain ⟨l, l', rfl, -⟩ := List.lookup_eq_some_iff.1 h
  simp

theorem mem_of_lookup_eq_some {b : Binding} (h : env.lookup name = some b) :
    (∃ c, (name, c) ∈ env.cells ∧ b = .free c) ∨
      (∃ id, (name, id) ∈ env.generated ∧ b = .minted id) ∨
      ∃ v, (name, v) ∈ env.parameters ∧ b = .argument v := by
  rw [lookup] at h
  cases hc : env.cells.lookup name with
  | some c =>
    rw [hc] at h
    exact .inl ⟨c, mem_of_lookup hc, (Option.some.inj h).symm⟩
  | none =>
    rw [hc] at h
    cases hg : env.generated.lookup name with
    | some id =>
      rw [hg] at h
      exact .inr (.inl ⟨id, mem_of_lookup hg, (Option.some.inj h).symm⟩)
    | none =>
      rw [hg] at h
      obtain ⟨v, hv, rfl⟩ := Option.map_eq_some_iff.1 h
      exact .inr (.inr ⟨v, mem_of_lookup hv, rfl⟩)

variable {parameters freeVariables generators : List String} {arguments : List Value}
  {counter : Counter}

/-- **At the start of a run** a bound word is the name of a variable, which has a
    new cell, of a generator, which has a new identifier, or of a parameter, which
    has an argument. -/
theorem lookup_bind {b : Binding}
    (h : (bind parameters freeVariables generators arguments s counter).1.lookup name = some b) :
    (name ∈ freeVariables ∧ ∃ c ∈ (s.freshCells freeVariables.length).1, b = .free c) ∨
      (name ∈ generators ∧ ∃ id ∈ (counter.mints generators.length).1, b = .minted id) ∨
      name ∈ parameters ∧ ∃ v ∈ arguments, b = .argument v := by
  rcases mem_of_lookup_eq_some h with ⟨c, hc, rfl⟩ | ⟨id, hid, rfl⟩ | ⟨v, hv, rfl⟩
  · obtain ⟨hn, hc⟩ := List.of_mem_zip (List.mem_reverse.1 hc)
    exact .inl ⟨hn, c, hc, rfl⟩
  · obtain ⟨hn, hid⟩ := List.of_mem_zip (List.mem_reverse.1 hid)
    exact .inr (.inl ⟨hn, id, hid, rfl⟩)
  · obtain ⟨hn, hv⟩ := List.of_mem_zip (List.mem_reverse.1 hv)
    exact .inr (.inr ⟨hn, v, hv, rfl⟩)

theorem lookup_bind_eq_none (h : name ∉ freeVariables ++ (generators ++ parameters)) :
    (bind parameters freeVariables generators arguments s counter).1.lookup name = none := by
  simp only [List.mem_append, not_or] at h
  rw [Option.eq_none_iff_forall_ne_some]
  intro b hb
  rcases lookup_bind hb with ⟨hn, -⟩ | ⟨hn, -⟩ | ⟨hn, -⟩
  · exact h.1 hn
  · exact h.2.1 hn
  · exact h.2.2 hn

theorem name_resolveCall {c : Spec.Call} (h : env.lookup (c.name.getD "") = none) (s : Store) :
    (env.resolveCall s c).name = .literal (c.name.getD "") := by
  rw [resolveCall, resolve, h]
  rfl

end Environment

/-! ## Names of values -/

/-- The name of a value, if it has one, has a property. -/
def Value.Named (N : String → Prop) (v : Value) : Prop := ∀ name, v.name? = some name → N name

/-- A property of names that only names of identifiers can lack. -/
def ConcernsIdentifiers (N : String → Prop) : Prop := ∀ name, (∀ id : StateId, id.text ≠ name) → N name

/-- What a word is bound to leads to named things with a property only. -/
def Binding.Only (s : Store) (N : String → Prop) : Binding → Prop
  | free c => s.Only (Value.Named N) (.cell c)
  | minted id => N id.text
  | argument v => s.Only (Value.Named N) v

section

variable {N : String → Prop} (hN : ConcernsIdentifiers N) {s : Store} {v : Value}

theorem only_named_of_name {name : String} (hv : v.isLeaf) (hn : v.name? = some name)
    (h : N name) : s.Only (Value.Named N) v := by
  refine Store.only_of_isLeaf hv (fun c hc => ?_) fun x hx => ?_
  · rw [hc] at hn
    exact absurd hn (by simp [Value.name?])
  · rw [hn] at hx
    exact Option.some.inj hx ▸ h

theorem only_named_epsilon : s.Only (Value.Named N) .epsilon :=
  Store.only_of_isLeaf rfl (fun _ => Value.noConfusion) fun _ h => absurd h (by simp [Value.name?])

include hN

/-- The text of anything but a cell is a name with the property, or no name of an
    identifier. -/
theorem name_text (hv : s.Only (Value.Named N) v) (hc : ∀ c, v ≠ .cell c) : N (s.text v) := by
  have hleaf {name : String} (hl : v.isLeaf) (hn : v.name? = some name)
      (ht : v.text = name) : N (s.text v) := by
    rw [Store.text, Store.resolve_of_isLeaf s hl hc, ht]
    exact hv v (.leaf (Value.leaves_of_isLeaf hl ▸ List.mem_singleton_self v)) name hn
  cases v with
  | cell c => exact absurd rfl (hc c)
  | state | symbol | literal => exact hleaf rfl rfl rfl
  | epsilon =>
    refine hN _ fun id => StateId.text_ne_of_not_isDigit (c := 'ε') ?_ (by decide)
    rw [Store.text, Store.resolve_of_isLeaf s rfl fun _ => Value.noConfusion]
    decide
  | call v =>
    refine hN _ fun id => StateId.text_ne_of_not_isDigit (c := '[') ?_ (by decide)
    rw [Store.text, Store.resolve_call, Value.text_call]
    simp
  | action v vs =>
    refine hN _ fun id => StateId.text_ne_of_not_isDigit (c := '(') ?_ (by decide)
    rw [Store.text, Store.resolve_action, Value.text_action]
    simp

theorem only_asState (hv : s.Only (Value.Named N) v) :
    s.Only (Value.Named N) (s.asState v) := by
  cases v with
  | cell | state => exact hv
  | _ => exact only_named_of_name rfl rfl (name_text hN hv fun _ => Value.noConfusion)

theorem only_asSymbol (hv : s.Only (Value.Named N) v) :
    s.Only (Value.Named N) (s.asSymbol v) := by
  cases v with
  | cell | symbol => exact hv
  | _ => exact only_named_of_name rfl rfl (name_text hN hv fun _ => Value.noConfusion)

theorem only_wrap {b : Binding} (hb : b.Only s N) (site : Site) :
    s.Only (Value.Named N) (site.wrap s b) := by
  cases b with
  | free c =>
    cases site with
    | call => exact Store.only_call.2 hb
    | _ => exact hb
  | minted id =>
    cases site with
    | call => exact Store.only_call.2 (only_named_of_name rfl rfl hb)
    | _ => exact only_named_of_name rfl rfl hb
  | argument v =>
    cases site with
    | state => exact only_asState hN hb
    | symbol => exact only_asSymbol hN hb
    | call => exact Store.only_call.2 hb
    | _ => exact hb

/-- **A word in a place**: if the word has the property, and so has what words are
    bound to, then what the word becomes has it. -/
theorem Environment.only_resolve {env : Environment} {name : String} (hn : N name)
    (hb : ∀ b, env.lookup name = some b → b.Only s N) (site : Site) :
    s.Only (Value.Named N) (env.resolve s site name) := by
  rw [resolve]
  cases hl : env.lookup name with
  | some b => exact only_wrap hN (hb b hl) site
  | none =>
    cases site with
    | call => exact Store.only_call.2 (only_named_of_name rfl rfl hn)
    | _ => exact only_named_of_name rfl rfl hn

end

end AdaptiveAutomata
