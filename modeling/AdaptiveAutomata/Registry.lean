/-
  Adaptive actions by name.

  A registry is sorted by name and has one action for each; what is registered
  later takes the place of what has the same name.

  * `Registry.ofSpec` registers the actions of a description;
  * `Registry.get?_insert_self` and `get?_insert_of_ne` say what is found in a
    registry after an action was registered.
-/
import AdaptiveAutomata.Action

namespace AdaptiveAutomata

/-- Adaptive actions in the order of their names, one for each name. -/
structure Registry where
  actions : List Action

namespace Registry

/-- No actions. -/
def empty : Registry := ⟨[]⟩

/-- Put an action in its place, instead of one of the same name. -/
def insertInto (a : Action) : List Action → List Action
  | [] => [a]
  | b :: rest =>
    if a.name < b.name then a :: b :: rest
    else if a.name = b.name then a :: rest
    else b :: insertInto a rest

/-- Register an action under its name, instead of one registered before. -/
def insert (r : Registry) (a : Action) : Registry := ⟨insertInto a r.actions⟩

/-- The actions of a description; of several with one name the last. -/
def ofSpec (s : Spec) : Registry := (s.actions.map Action.ofSpec).foldl insert empty

/-- The action of a name. -/
def get? (r : Registry) (name : String) : Option Action := r.actions.find? (·.name = name)

/-- Whether there is an action of this name. -/
def contains (r : Registry) (name : String) : Bool := (r.get? name).isSome

@[simp]
theorem get?_insert_self (r : Registry) (a : Action) : (r.insert a).get? a.name = some a := by
  obtain ⟨actions⟩ := r
  simp only [insert, get?]
  induction actions with
  | nil => simp [insertInto]
  | cons b rest ih =>
    rw [insertInto]
    split
    · simp
    · split
      · simp
      · next hne => simpa [Ne.symm hne] using ih

theorem get?_insert_of_ne {a : Action} {name : String} (h : a.name ≠ name) (r : Registry) :
    (r.insert a).get? name = r.get? name := by
  obtain ⟨actions⟩ := r
  simp only [insert, get?]
  induction actions with
  | nil => simp [insertInto, h]
  | cons b rest ih =>
    rw [insertInto]
    split
    · simp [h]
    · split
      · next heq => simp [h, ← heq]
      · rw [List.find?_cons, List.find?_cons, ih]

end Registry

end AdaptiveAutomata
