/-
  Images of values: values with their cells written out in place.

  A value of a transition may hold free-variable cells, which live in a store.
  Its image holds the identifier of each cell, and what the cell is bound to, so
  it can be compared, written and read without a store.

  * `Image` is an image; equality of images is decidable;
  * `Image.text` is what a reader of a report sees.
-/
import AdaptiveAutomata.Uuid

namespace AdaptiveAutomata

/-- A value with its cells written out. -/
inductive Image where
  /-- Nothing is consumed and nothing called. -/
  | epsilon
  | state (name : String)
  | symbol (name : String)
  /-- A bare name. -/
  | literal (name : String)
  /-- A call of the submachine with the given name. -/
  | call (name : Image)
  /-- A call of the adaptive action with the given name. -/
  | action (name : Image) (arguments : List Image)
  /-- An unbound cell. -/
  | free (id : Uuid)
  /-- A cell bound to a value. -/
  | bound (id : Uuid) (value : Image)

namespace Image

instance : Inhabited Image := ⟨epsilon⟩

/-! ## Equality -/

mutual

/-- Whether two images are the same, node by node. -/
def same : Image → Image → Bool
  | epsilon, epsilon => true
  | state a, state b => a = b
  | symbol a, symbol b => a = b
  | literal a, literal b => a = b
  | call a, call b => same a b
  | action a as, action b bs => same a b && sameAll as bs
  | free i, free j => i = j
  | bound i a, bound j b => i = j && same a b
  | _, _ => false
termination_by structural a => a

/-- Whether two lists of images are the same. -/
def sameAll : List Image → List Image → Bool
  | [], [] => true
  | a :: as, b :: bs => same a b && sameAll as bs
  | _, _ => false
termination_by structural as => as

end

mutual

theorem same_iff : ∀ a b : Image, same a b = true ↔ a = b
  | epsilon, b => by cases b <;> simp [same]
  | state _, b => by cases b <;> simp [same]
  | symbol _, b => by cases b <;> simp [same]
  | literal _, b => by cases b <;> simp [same]
  | call a, b => by cases b <;> simp [same, same_iff a]
  | action a as, b => by cases b <;> simp [same, same_iff a, sameAll_iff as]
  | free _, b => by cases b <;> simp [same]
  | bound _ a, b => by cases b <;> simp [same, same_iff a]

theorem sameAll_iff : ∀ as bs : List Image, sameAll as bs = true ↔ as = bs
  | [], bs => by cases bs <;> simp [sameAll]
  | a :: as, bs => by cases bs <;> simp [sameAll, same_iff a, sameAll_iff as]

end

instance : DecidableEq Image := fun a b => decidable_of_iff _ (same_iff a b)

/-! ## Text -/

mutual

/-- The text of an image.  A bound cell reads as its value, an unbound one as a
    question mark and the beginning of its identifier. -/
def text : Image → String
  | epsilon => "ε"
  | state name => name
  | symbol name => name
  | literal name => name
  | call name => "[" ++ (text name ++ "]")
  | action name arguments => text name ++ ("(" ++ (", ".intercalate (texts arguments) ++ ")"))
  | free id => "?" ++ id.brief
  | bound _ value => text value
termination_by structural a => a

/-- The texts of several images. -/
def texts : List Image → List String
  | [] => []
  | a :: as => text a :: texts as
termination_by structural as => as

end

@[simp]
theorem texts_eq_map (as : List Image) : texts as = as.map text := by
  induction as with
  | nil => rfl
  | cons a as ih => simp [texts, ih]

end Image

end AdaptiveAutomata
