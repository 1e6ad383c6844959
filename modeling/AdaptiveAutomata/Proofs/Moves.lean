/-
  What can happen to the store of cells.

  Two things happen to it: a new unbound cell is made, and an unbound cell is
  bound.  All that automata do to cells is a sequence of these.

  * `Store.Move` is one of the two, `Store.Moves` a sequence;
  * `bind?_eq_some_iff` says when a cell is bound, and to what;
  * `Moves.extends`: bindings are never taken back;
  * `bindingRule_moves` and `moves_fire`: matching, elementary actions and
    adaptive actions are sequences of moves;
  * `mem_entries_runSteps` and `mem_entries_run`: what an action adds was read
    under bindings that hold when it ends.
-/
import AdaptiveAutomata.Proofs.Runs
import AdaptiveAutomata.Proofs.Binding

namespace AdaptiveAutomata

namespace Store

variable {s t u : Store} {c d : Cell} {v w : Value}

/-! ## Single moves -/

/-- A cell is bound exactly if it is unbound and the value does not read as a
    cell with its identifier; it is bound to what the value reads as. -/
theorem bind?_eq_some_iff :
    s.bind? c v = some t ↔
      s.binding? c = none ∧ (∀ d, s.resolve v = .cell d → d.id ≠ c.id) ∧
        t = s.write c (s.resolve v) := by
  unfold bind?
  cases hr : s.resolve v with
  | cell d =>
    by_cases hd : d.id = c.id
    · simp [hd]
    · cases s.binding? c <;> simp [hd, Ne.symm hd, eq_comm]
  | _ => cases s.binding? c <;> simp [eq_comm]

/-- One thing that happens to the store: an unbound cell is made, or a cell is
    bound. -/
inductive Move : Store → Store → Prop
  | fresh (s : Store) : Move s s.fresh.2
  | bind {s t : Store} {c : Cell} {v : Value} (h : s.bind? c v = some t) : Move s t

/-- Moves one after the other. -/
abbrev Moves : Store → Store → Prop := Relation.ReflTransGen Move

/-- Every binding of a store is one of another. -/
def Extends (t s : Store) : Prop := ∀ c w, s.binding? c = some w → t.binding? c = some w

theorem Extends.trans (h : u.Extends t) (h' : t.Extends s) : u.Extends s :=
  fun c w hb => h c w (h' c w hb)

theorem extends_write (h : s.binding? c = none) (w : Value) : (s.write c w).Extends s := by
  intro d x hd
  have hne : c.place ≠ d.place := fun he => by
    rw [← binding?_congr he, h] at hd
    exact absurd hd (by simp)
  rwa [binding?_write_of_ne hne]

theorem Move.extends (h : Move s t) : t.Extends s := by
  cases h with
  | fresh => exact fun c w hb => (binding?_fresh s c).trans hb
  | bind h =>
    obtain ⟨hb, -, rfl⟩ := bind?_eq_some_iff.1 h
    exact extends_write hb _

/-- **Bindings stay**: whatever happens, a bound cell stays bound to what it was
    bound to. -/
theorem Moves.extends (h : Moves s t) : t.Extends s := by
  induction h with
  | refl => exact fun _ _ hb => hb
  | tail _ hm ih => exact hm.extends.trans ih

/-! ## All that binds moves -/

/-- Matching and elementary actions are moves. -/
theorem bindingRule_moves : BindingRule (fun _ _ => True) Moves where
  refl _ := .refl
  trans h h' := h.trans h'
  frame _ _ := trivial
  resolve _ := trivial
  call _ := trivial
  action _ := ⟨trivial, fun _ _ => trivial⟩
  bind _ h := .single (.bind h)

theorem bindingRule_size : BindingRule (fun _ _ => True) fun s t => s.size = t.size where
  refl _ := rfl
  trans h h' := h.trans h'
  frame _ _ := trivial
  resolve _ := trivial
  call _ := trivial
  action _ := ⟨trivial, fun _ _ => trivial⟩
  bind _ h := by
    obtain ⟨-, -, rfl⟩ := bind?_eq_some_iff.1 h
    exact (size_write ..).symm

theorem bindingRule_extends : BindingRule (fun _ _ => True) fun s t => t.Extends s where
  refl _ _ _ hb := hb
  trans h h' := h'.trans h
  frame _ _ := trivial
  resolve _ := trivial
  call _ := trivial
  action _ := ⟨trivial, fun _ _ => trivial⟩
  bind _ h := (Move.bind h).extends

/-- Binding to what leads to things of a kind only leaves alone what does so. -/
theorem bindingRule_only (Q : Value → Prop) :
    BindingRule (fun s v => s.Only Q v) fun s t => ∀ v, s.Only Q v → t.Only Q v where
  refl _ _ hv := hv
  trans h h' v hv := h' v (h v hv)
  frame h hv := h _ hv
  resolve hv := hv.resolve
  call hv := only_call.1 hv
  action hv := only_action.1 hv
  bind hv h x hx := by
    obtain ⟨-, -, rfl⟩ := bind?_eq_some_iff.1 h
    exact only_write hv.resolve hx

theorem moves_freshCells (s : Store) (n : Nat) : Moves s (s.freshCells n).2 := by
  induction n generalizing s with
  | zero => exact .refl
  | succ n ih => exact .head (.fresh s) (ih s.fresh.2)

@[simp]
theorem binding?_freshCells (s : Store) (n : Nat) (c : Cell) :
    (s.freshCells n).2.binding? c = s.binding? c := by
  induction n generalizing s with
  | zero => rfl
  | succ n ih => exact (ih s.fresh.2).trans (binding?_fresh s c)

/-- New cells are unbound, whatever was said of their places before. -/
theorem binding?_of_mem_freshCells {n : Nat} (h : c ∈ (s.freshCells n).1) :
    s.binding? c = none := by
  induction n generalizing s with
  | zero => exact absurd h List.not_mem_nil
  | succ n ih =>
    rcases List.mem_cons.1 h with rfl | h
    · by_contra hn
      obtain ⟨w, hw⟩ := Option.ne_none_iff_exists'.1 hn
      exact absurd (place_lt_size hw) (Nat.lt_irrefl _)
    · exact (binding?_fresh s c).symm.trans (ih h)

end Store

/-! ## Adaptive actions -/

open Store (Moves)

variable {a a' : Automaton} {w w' : World}

namespace Action

theorem store_bind (action : Action) (arguments : List Value) (s : Store) (counter : Counter) :
    (action.bind arguments s counter).2.1 = (s.freshCells action.freeVariables.length).2 := rfl

/-- What a run does to table and store is what its elementary actions do. -/
theorem scene_execute (action : Action) (arguments : List Value) (σ : Scene)
    (counter : Counter) :
    (action.execute arguments σ counter).scene =
      (runSteps (action.bind arguments σ.store counter).1 action.steps
        ⟨σ.table, (action.bind arguments σ.store counter).2.1⟩).2 := rfl

theorem extends_runSteps (env : Environment) (steps : List (Kind × Spec.Step)) (σ : Scene) :
    (runSteps env steps σ).2.store.Extends σ.store :=
  (Store.bindingRule_extends.runSteps σ (fun _ _ _ _ => trivial) fun _ _ _ _ _ _ _ => trivial).1

/-- An entry that is in the table after a run of elementary actions was there before, or is
    what one of them adds, as it read at that time.  The bindings of that time still hold. -/
theorem mem_entries_runSteps {env : Environment} {steps : List (Kind × Spec.Step)} {σ : Scene}
    {x : Entry Value} (h : x ∈ (runSteps env steps σ).2.table.entries) :
    x ∈ σ.table.entries ∨ ∃ e, (.add, e) ∈ steps ∧ ∃ s,
      (runSteps env steps σ).2.store.Extends s ∧ x = (env.resolveStep s e).resolve s := by
  induction steps generalizing σ with
  | nil => exact .inl h
  | cons step steps ih =>
    obtain ⟨kind, e⟩ := step
    rcases ih h with h | ⟨e', he', hx⟩
    · rcases Scene.mem_entries_dispatch h with h | ⟨rfl, hx⟩
      · exact .inl h
      · exact .inr ⟨e, List.mem_cons_self, _, extends_runSteps env (_ :: steps) σ, hx⟩
    · exact .inr ⟨e', List.mem_cons_of_mem _ he', hx⟩

theorem moves_execute (action : Action) (arguments : List Value) (σ : Scene)
    (counter : Counter) : Moves σ.store (action.execute arguments σ counter).scene.store := by
  have hf := Store.moves_freshCells σ.store action.freeVariables.length
  rw [scene_execute, store_bind]
  exact hf.trans (Store.bindingRule_moves.runSteps ⟨σ.table, _⟩ (fun _ _ _ _ => trivial)
    fun _ _ _ _ _ _ _ => trivial).1

end Action

theorem Automaton.moves_fire {name : String} {arguments : List Value}
    (h : a.fire name arguments w = .ok (a', w')) : Moves w.store w'.store := by
  obtain ⟨action, -, hx⟩ := Automaton.fire_eq_ok_iff.1 h
  obtain rfl : w' = (a.run action arguments w).2 := congrArg Prod.snd hx
  exact action.moves_execute arguments ⟨a.table, w.store⟩ (a.counter w)

/-- An entry that is in the table after an action was there before, or is what one
    of its elementary actions adds, as it read at that time. -/
theorem Automaton.mem_entries_run {action : Action} {arguments : List Value} {x : Entry Value}
    (h : x ∈ (a.run action arguments w).1.table.entries) :
    x ∈ a.table.entries ∨ ∃ e, (.add, e) ∈ action.steps ∧ ∃ s,
      (a.run action arguments w).2.store.Extends s ∧
        x = ((action.bind arguments w.store (a.counter w)).1.resolveStep s e).resolve s :=
  Action.mem_entries_runSteps h

end AdaptiveAutomata
