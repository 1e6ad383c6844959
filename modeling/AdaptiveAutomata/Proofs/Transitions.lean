/-
  The transitions of a description in the table of its automaton.

  A table drops an entry that is equal to one it has.  What a transition lacks is written as an
  empty text in its entry, and a call hides a symbol, so different transitions can have equal
  entries.  The rules for descriptions exclude this: no endpoint and no name is missing, and
  nothing is consumed in two ways.

  * `Table.entries_ofEntries_map`: a table made of different things keeps each of them once, in
    the order in which they first occur;
  * `outline_toLabel_inj`, `Consumption.of_inj` and `Reference.outline_ofSpec_inj`: what a
    transition consumes and calls can be read off its entry;
  * `outline_ofSpec_inj`: so the transition can;
  * `entries_build`: the table of an automaton that was just built.
-/
import AdaptiveAutomata.Proofs.CellFree
import AdaptiveAutomata.Proofs.Tables
import AdaptiveAutomata.Proofs.WellFormed
import Mathlib.Data.Finset.Card

namespace AdaptiveAutomata

/-! ## Tables of different things -/

/-- A list with one more item at the end, each item kept where it first occurs. -/
theorem eraseDups_concat {α : Type} [BEq α] [LawfulBEq α] (xs : List α) (x : α) :
    (xs ++ [x]).eraseDups = if xs.contains x then xs.eraseDups else xs.eraseDups ++ [x] := by
  rw [List.eraseDups_append, List.cons_removeAll]
  cases h : xs.contains x <;> simp [List.eraseDups_cons, List.removeAll]

/-- **A table made of things** with entries that read as they stand, and that are equal only
    for equal things, has the entry of each of them once, in the order in which they first
    occur. -/
theorem Table.entries_ofEntries_map {α : Type} [BEq α] [LawfulBEq α] {s : Store}
    {f : α → Entry Value} {xs : List α} (hread : ∀ x ∈ xs, (f x).resolve s = f x)
    (hinj : ∀ x ∈ xs, ∀ y ∈ xs, (f x).outline = (f y).outline → x = y) :
    (ofEntries s (xs.map f)).entries = xs.eraseDups.map f := by
  -- from the end, since each item is compared with those before it
  induction xs using List.reverseRecOn with
  | nil => rfl
  | append_singleton xs x ih =>
    have hx : x ∈ xs ++ [x] := List.mem_append_right _ (List.mem_singleton_self x)
    have hxs (y : α) (hy : y ∈ xs) : y ∈ xs ++ [x] := List.mem_append_left _ hy
    have ih := ih (fun y hy => hread y (hxs y hy))
      fun y hy z hz => hinj y (hxs y hy) z (hxs z hz)
    have hcontains : (ofEntries s (xs.map f)).contains s (f x) = xs.contains x := by
      rw [Bool.eq_iff_iff, contains_iff, ih, hread x hx, List.contains_iff_mem]
      constructor
      · rintro ⟨_, hmem, heq⟩
        obtain ⟨y, hy, rfl⟩ := List.mem_map.1 hmem
        rw [List.mem_eraseDups] at hy
        exact hinj y (hxs y hy) x hx heq ▸ hy
      · exact fun hmem => ⟨f x, List.mem_map_of_mem (List.mem_eraseDups.2 hmem), rfl⟩
    have hadd : ofEntries s ((xs ++ [x]).map f) = ((ofEntries s (xs.map f)).add s (f x)).2 := by
      rw [List.map_append, ofEntries, List.foldl_append]
      rfl
    rw [hadd, entries_add, hcontains, ih, eraseDups_concat, hread x hx]
    split <;> simp

/-! ## Reading a transition off its entry -/

theorem Consumption.outline_toLabel_inj {a b : Consumption}
    (h : a.toLabel.outline = b.toLabel.outline) : a = b := by
  cases a <;> cases b <;> simp [toLabel, Value.outline, Value.image] at h ⊢ <;> exact h

/-- What is consumed in one way says how. -/
theorem Consumption.of_inj {symbol call symbol' call' : Option String}
    (h : symbol = none ∨ call = none) (h' : symbol' = none ∨ call' = none)
    (heq : of symbol call = of symbol' call') : symbol = symbol' ∧ call = call' := by
  cases symbol <;> cases call <;> cases symbol' <;> cases call' <;> simp_all [of]

/-- Calls with names are told apart by their entries. -/
theorem Reference.outline_ofSpec_inj {c d : Spec.Call} (hc : c.name.isSome) (hd : d.name.isSome)
    (h : (ofSpec c).map Value.outline = (ofSpec d).map Value.outline) : c = d := by
  obtain ⟨_ | name, arguments⟩ := c
  · cases hc
  obtain ⟨_ | name', arguments'⟩ := d
  · cases hd
  have hinj : Function.Injective (Value.outline ∘ Value.literal) :=
    fun _ _ hab => Image.literal.inj hab
  obtain ⟨hname, harguments⟩ := Reference.mk.inj h
  change (arguments.map .literal).map Value.outline =
    (arguments'.map .literal).map Value.outline at harguments
  rw [List.map_map, List.map_map] at harguments
  obtain rfl : name = name' := hinj hname
  exact congrArg _ (hinj.list_map harguments)

theorem Reference.outline_map_ofSpec_inj {q r : Option Spec.Call}
    (hq : ∀ c ∈ q, c.name.isSome) (hr : ∀ d ∈ r, d.name.isSome)
    (h : (q.map ofSpec).map (map Value.outline) = (r.map ofSpec).map (map Value.outline)) :
    q = r := by
  cases q with
  | none =>
    cases r with
    | none => rfl
    | some d => cases h
  | some c =>
    cases r with
    | none => cases h
    | some d => exact congrArg some (outline_ofSpec_inj (hq c rfl) (hr d rfl) (Option.some.inj h))

/-- **The entry of a transition** of a well-formed description tells the transition. -/
theorem Entry.outline_ofSpec_inj {spec : Spec} (hs : spec.WellFormed) {t u : Spec.Transition}
    (ht : t ∈ spec.transitions) (hu : u ∈ spec.transitions)
    (h : (ofSpec t).outline = (ofSpec u).outline) : t = u := by
  have hcall {t : Spec.Transition} (ht : t ∈ spec.transitions) {c : Spec.Call}
      (hc : c ∈ t.calls) : c.name.isSome := by
    obtain ⟨name, hname, -⟩ := hs.actionCalls t ht c hc
    exact hname ▸ rfl
  have hendpoint {a b : Option String} (ha : a.isSome) (hb : b.isSome)
      (heq : Value.outline (.state (a.getD "")) = Value.outline (.state (b.getD ""))) : a = b := by
    obtain ⟨a, rfl⟩ := Option.isSome_iff_exists.1 ha
    obtain ⟨b, rfl⟩ := Option.isSome_iff_exists.1 hb
    exact congrArg some (Image.state.inj heq)
  obtain ⟨hprior, hsource, hlabel, htarget, hposterior⟩ := Entry.mk.inj h
  obtain ⟨hsymbol, hsubmachine⟩ := Consumption.of_inj (hs.consumption t ht) (hs.consumption u hu)
    (Consumption.outline_toLabel_inj hlabel)
  have hsource := hendpoint (hs.endpoints t ht).1 (hs.endpoints u hu).1 hsource
  have htarget := hendpoint (hs.endpoints t ht).2 (hs.endpoints u hu).2 htarget
  have hprior := Reference.outline_map_ofSpec_inj
    (fun c hc => hcall ht (List.mem_append_left _ (Option.mem_toList.2 hc)))
    (fun d hd => hcall hu (List.mem_append_left _ (Option.mem_toList.2 hd))) hprior
  have hposterior := Reference.outline_map_ofSpec_inj
    (fun c hc => hcall ht (List.mem_append_right _ (Option.mem_toList.2 hc)))
    (fun d hd => hcall hu (List.mem_append_right _ (Option.mem_toList.2 hd))) hposterior
  cases t
  cases u
  rw [Spec.Transition.mk.injEq]
  exact ⟨hsource, htarget, hsymbol, hsubmachine, hprior, hposterior⟩

/-! ## Built automata -/

/-- **A table that was just built** has the entry of each transition of an accepted description
    once, in the order in which they first occur, and two transitions have equal entries only
    if they are the same.  So it has as many entries as there are different transitions. -/
theorem entries_build {spec : Spec} (h : spec.validate = .ok ()) (recording : Bool) (w : World) :
    (Automaton.build spec recording w).1.table.entries =
      spec.transitions.eraseDups.map .ofSpec ∧
    (∀ t ∈ spec.transitions, ∀ u ∈ spec.transitions,
      (Entry.ofSpec t).outline = (Entry.ofSpec u).outline → t = u) ∧
    (Automaton.build spec recording w).1.table.entries.length =
      spec.transitions.toFinset.card := by
  have hs : spec.WellFormed := (Spec.validate_iff_wellFormed spec).1.1 h
  have hinj (t : Spec.Transition) (ht : t ∈ spec.transitions) (u : Spec.Transition)
      (hu : u ∈ spec.transitions) : (Entry.ofSpec t).outline = (Entry.ofSpec u).outline → t = u :=
    Entry.outline_ofSpec_inj hs ht hu
  have hentries : (Automaton.build spec recording w).1.table.entries =
      spec.transitions.eraseDups.map .ofSpec :=
    Table.entries_ofEntries_map
      (fun t _ => Entry.resolve_of_cellFree (Entry.cellFree_ofSpec t) w.store) hinj
  have hdistinct : (Automaton.build spec recording w).1.table.Distinct :=
    Table.distinct_ofEntries w.store _
  refine ⟨hentries, hinj, ?_⟩
  rw [Table.Distinct, Table.tuples, hentries, List.map_map] at hdistinct
  rw [hentries, List.length_map, ← List.toFinset_card_of_nodup (hdistinct.of_map _)]
  exact congrArg Finset.card (Finset.ext fun t => by simp)

/-- The transitions from `1` to `2` that differ in what they consume and call. -/
def Spec.alikeTransitions : List Spec.Transition :=
  let t := Transition.between "1" "2"
  [t, t.consuming "", t.consuming "m", t.calling "m", t.before (.to "f" ["x"]),
    t.after (.to "f" ["x"]), t.after (.to "f" [])]

/-- It has the first three of them twice. -/
def Spec.alike : Spec where
  transitions := alikeTransitions.take 3 ++ alikeTransitions
  submachines := [(Submachine.named "m").asMain.withState (State.named "1").starting
    |>.withState (State.named "2").acceptingAt]
  actions := [(Action.named "f").withStep (.of .add "1" "2")]

/-- Each is in the table once. -/
theorem entries_build_alike : Spec.alike.validate = .ok () ∧
    (Automaton.build Spec.alike true .initial).1.table.entries =
      Spec.alikeTransitions.map .ofSpec ∧
    (Automaton.build Spec.alike true .initial).1.table.entries.length = 7 := by
  have hvalid : Spec.alike.validate = .ok () := by decide
  obtain ⟨hentries, -, hlength⟩ := entries_build hvalid true .initial
  exact ⟨hvalid, hentries.trans (congrArg _ (by decide)), hlength.trans (by decide)⟩

end AdaptiveAutomata
