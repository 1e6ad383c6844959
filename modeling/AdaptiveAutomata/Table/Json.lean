/-
  The JSON form of tables: an object with the list of entries.
-/
import AdaptiveAutomata.Entry.Json
import AdaptiveAutomata.Table

namespace AdaptiveAutomata

open Json (Codec)

/-- Tables, given the codec of the components of entries. -/
def Table.json {α : Type} [Inhabited α] (c : Codec α) : Codec (Table α) := .record .empty [
  .required "entries" (.list (Entry.json c)) (·.entries) fun a x => { x with entries := a }]

end AdaptiveAutomata
