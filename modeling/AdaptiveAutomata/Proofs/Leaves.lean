/-
  What a value is made of, once calls and references are taken apart.

  * `Value.leaves` lists the parts of a value that are neither calls nor
    references; `Entry.components` lists the values of an entry;
  * `Value.recParts` is the induction over calls and references;
  * `mem_leaves_subst`: a leaf of a value after substitution is a leaf of what
    was put in the place of a leaf;
  * `outline_subst_eq_iff`: substitution leaves the outline of a value as it is
    exactly if every cell of it is given a value with the outline of that cell.
-/
import AdaptiveAutomata.Entry

namespace AdaptiveAutomata

namespace Value

/-- Whether a value is neither a call nor a reference. -/
def isLeaf : Value → Bool
  | call _ | action .. => false
  | _ => true

mutual

/-- The parts of a value that are neither calls nor references, from left to
    right. -/
def leaves : Value → List Value
  | call name => leaves name
  | action name arguments => leaves name ++ leavesAll arguments
  | epsilon => [epsilon]
  | state name => [state name]
  | symbol name => [symbol name]
  | literal name => [literal name]
  | cell c => [cell c]
termination_by structural v => v

/-- The leaves of several values. -/
def leavesAll : List Value → List Value
  | [] => []
  | v :: vs => leaves v ++ leavesAll vs
termination_by structural vs => vs

end

@[simp]
theorem leavesAll_eq_flatMap (vs : List Value) : leavesAll vs = vs.flatMap leaves := by
  induction vs with
  | nil => rfl
  | cons v vs ih => simp [leavesAll, ih]

mutual

/-- **Induction over values**: what holds of leaves and passes from the parts of
    a call or a reference to the whole holds of all values. -/
theorem recParts {P : Value → Prop} (leaf : ∀ v, v.isLeaf → P v) (call : ∀ v, P v → P (.call v))
    (action : ∀ name arguments, P name → (∀ v ∈ arguments, P v) → P (.action name arguments)) :
    ∀ v : Value, P v
  | .epsilon | .state _ | .symbol _ | .literal _ | .cell _ => leaf _ rfl
  | .call v => call v (recParts leaf call action v)
  | .action name arguments =>
    action name arguments (recParts leaf call action name)
      (recPartsAll leaf call action arguments)

theorem recPartsAll {P : Value → Prop} (leaf : ∀ v, v.isLeaf → P v)
    (call : ∀ v, P v → P (.call v))
    (action : ∀ name arguments, P name → (∀ v ∈ arguments, P v) → P (.action name arguments)) :
    ∀ vs : List Value, ∀ v ∈ vs, P v
  | [], _, h => absurd h List.not_mem_nil
  | v :: vs, w, h => by
    rcases List.mem_cons.1 h with h | h
    · exact h ▸ recParts leaf call action v
    · exact recPartsAll leaf call action vs w h

end

theorem leaves_of_isLeaf {v : Value} (h : v.isLeaf) : v.leaves = [v] := by
  cases v <;> first | rfl | exact absurd h Bool.false_ne_true

@[simp]
theorem leaves_call (v : Value) : (call v).leaves = v.leaves := by rw [leaves]

@[simp]
theorem leaves_action (name : Value) (arguments : List Value) :
    (action name arguments).leaves = name.leaves ++ arguments.flatMap leaves := by
  rw [leaves, leavesAll_eq_flatMap]

@[simp]
theorem leaves_cell (c : Cell) : (cell c).leaves = [cell c] := by rw [leaves]

theorem isLeaf_of_mem_leaves {u v : Value} (h : u ∈ v.leaves) : u.isLeaf := by
  induction v using recParts with
  | leaf v hv =>
    rw [leaves_of_isLeaf hv, List.mem_singleton] at h
    exact h ▸ hv
  | call v ih => exact ih (leaves_call v ▸ h)
  | action name arguments ih ihs =>
    rw [leaves_action, List.mem_append, List.mem_flatMap] at h
    rcases h with h | ⟨a, ha, h⟩
    · exact ih h
    · exact ihs a ha h

/-! ## Substitution -/

theorem subst_of_isLeaf {v : Value} (h : v.isLeaf) (hc : ∀ c, v ≠ .cell c) (f : Cell → Value) :
    v.subst f = v := by
  cases v with
  | cell c => exact absurd rfl (hc c)
  | call | action => exact absurd h Bool.false_ne_true
  | _ => rw [subst]

/-- The leaves after a substitution are those of what stands for the leaves
    before. -/
theorem mem_leaves_subst {f : Cell → Value} {u v : Value} :
    u ∈ (v.subst f).leaves ↔ ∃ x ∈ v.leaves, u ∈ (x.subst f).leaves := by
  induction v using recParts with
  | leaf v hv => simp [leaves_of_isLeaf hv]
  | call v ih => rw [subst, leaves_call, leaves_call, ih]
  | action name arguments ih ihs =>
    rw [subst, substAll_eq_map, leaves_action, leaves_action]
    simp only [List.mem_append, List.mem_flatMap, List.mem_map, ih]
    constructor
    · rintro (⟨x, hx, hu⟩ | ⟨_, ⟨a, ha, rfl⟩, hu⟩)
      · exact ⟨x, .inl hx, hu⟩
      · obtain ⟨x, hx, hu⟩ := (ihs a ha).1 hu
        exact ⟨x, .inr ⟨a, ha, hx⟩, hu⟩
    · rintro ⟨x, hx | ⟨a, ha, hx⟩, hu⟩
      · exact .inl ⟨x, hx, hu⟩
      · exact .inr ⟨_, ⟨a, ha, rfl⟩, (ihs a ha).2 ⟨x, hx, hu⟩⟩

/-- Only what is put in the place of the cells of a value matters. -/
theorem subst_congr {f g : Cell → Value} {v : Value} (h : ∀ c, .cell c ∈ v.leaves → f c = g c) :
    v.subst f = v.subst g := by
  induction v using recParts with
  | leaf v hv =>
    by_cases hc : ∃ c, v = .cell c
    · obtain ⟨c, rfl⟩ := hc
      rw [subst, subst]
      exact h c (by simp)
    · rw [not_exists] at hc
      rw [subst_of_isLeaf hv hc, subst_of_isLeaf hv hc]
  | call v ih => rw [subst, subst, ih fun c hc => h c (by simpa using hc)]
  | action name arguments ih ihs =>
    rw [subst, subst, ih fun c hc => h c (by simp [hc]), substAll_eq_map, substAll_eq_map]
    congr 1
    refine List.map_congr_left fun a ha => ihs a ha fun c hc => h c ?_
    rw [leaves_action]
    exact List.mem_append_right _ (List.mem_flatMap.2 ⟨a, ha, hc⟩)

@[simp]
theorem subst_cell (v : Value) : v.subst .cell = v := by
  induction v using recParts with
  | leaf v hv =>
    cases v with
    | call | action => exact absurd hv Bool.false_ne_true
    | _ => rw [subst]
  | call v ih => rw [subst, ih]
  | action name arguments ih ihs =>
    rw [subst, ih, substAll_eq_map, List.map_congr_left ihs, List.map_id']

/-! ## Outlines -/

theorem outline_cell (c : Cell) : (cell c).outline = .free c.id := by rw [outline, image]

theorem outline_call (v : Value) : (call v).outline = .call v.outline := by
  rw [outline, image, outline]

theorem outline_action (name : Value) (arguments : List Value) :
    (action name arguments).outline = .action name.outline (arguments.map outline) := by
  rw [outline, image, imageAll_eq_map]
  rfl

theorem text_call (v : Value) : (call v).text = "[" ++ (v.text ++ "]") := by
  rw [text, outline_call, Image.text, text]

theorem text_action (name : Value) (arguments : List Value) :
    (action name arguments).text =
      name.text ++ ("(" ++ (", ".intercalate (arguments.map text) ++ ")")) := by
  rw [text, outline_action, Image.text, Image.texts_eq_map, List.map_map]
  rfl

/-- **What a substitution shows**: the outline stays the same exactly if each
    cell is given a value with the outline of the cell. -/
theorem outline_subst_eq_iff {f : Cell → Value} {v : Value} :
    (v.subst f).outline = v.outline ↔ ∀ c, .cell c ∈ v.leaves → (f c).outline = .free c.id := by
  induction v using recParts with
  | leaf v hv =>
    by_cases hc : ∃ c, v = .cell c
    · obtain ⟨c, rfl⟩ := hc
      rw [subst, outline_cell]
      simp
    · rw [not_exists] at hc
      rw [subst_of_isLeaf hv hc, leaves_of_isLeaf hv]
      simp only [List.mem_singleton, true_iff]
      exact fun c h => absurd h.symm (hc c)
  | call v ih => rw [subst, outline_call, outline_call, Image.call.injEq, leaves_call, ih]
  | action name arguments ih ihs =>
    rw [subst, substAll_eq_map, outline_action, outline_action, Image.action.injEq, ih,
      List.map_map, List.map_inj_left, leaves_action]
    simp only [List.mem_append, List.mem_flatMap, Function.comp_apply]
    constructor
    · rintro ⟨h, hs⟩ c (hc | ⟨a, ha, hc⟩)
      · exact h c hc
      · exact (ihs a ha).1 (hs a ha) c hc
    · intro h
      exact ⟨fun c hc => h c (.inl hc), fun a ha => (ihs a ha).2 fun c hc => h c (.inr ⟨a, ha, hc⟩)⟩

end Value

/-! ## Entries -/

namespace Reference

variable {α β : Type}

/-- The name of a call, then its arguments. -/
def components (r : Reference α) : List α := r.name :: r.arguments

@[simp]
theorem components_map (f : α → β) (r : Reference α) :
    (r.map f).components = r.components.map f := rfl

end Reference

namespace Entry

variable {α β : Type}

/-- The calls of an entry, the prior one first. -/
def calls (e : Entry α) : List (Reference α) := e.prior.toList ++ e.posterior.toList

/-- The values of an entry. -/
def components (e : Entry α) : List α :=
  e.source :: e.label :: e.target :: e.calls.flatMap (·.components)

theorem calls_map (f : α → β) (e : Entry α) : (e.map f).calls = e.calls.map (·.map f) := by
  rcases e with ⟨_ | _, _, _, _, _ | _⟩ <;> rfl

theorem components_map (f : α → β) (e : Entry α) : (e.map f).components = e.components.map f := by
  simp only [components, calls_map, List.map_cons, List.map_flatMap, List.flatMap_map,
    Reference.components_map]
  rfl

theorem mem_calls_of_prior {e : Entry α} {r : Reference α} (h : e.prior = some r) :
    r ∈ e.calls := by
  simp [calls, h]

theorem mem_calls_of_posterior {e : Entry α} {r : Reference α} (h : e.posterior = some r) :
    r ∈ e.calls := by
  simp [calls, h]

/-- The values of an entry, part by part. -/
theorem mem_components {e : Entry α} {v : α} :
    v ∈ e.components ↔ v = e.source ∨ v = e.label ∨ v = e.target ∨
      ∃ r ∈ e.calls, v ∈ r.components := by
  simp only [components, List.mem_cons, List.mem_flatMap]

theorem mem_components_of_mem_calls {e : Entry α} {r : Reference α} {v : α} (hr : r ∈ e.calls)
    (hv : v ∈ r.components) : v ∈ e.components :=
  mem_components.2 (.inr (.inr (.inr ⟨r, hr, hv⟩)))

/-- Two ways to change the components give the same entry exactly if they agree
    on the components. -/
theorem map_eq_map_iff {f g : α → β} {e : Entry α} :
    e.map f = e.map g ↔ ∀ v ∈ e.components, f v = g v := by
  constructor
  · intro h
    have := congrArg components h
    rwa [components_map, components_map, List.map_inj_left] at this
  · intro h
    have hc (r : Reference α) (hr : r ∈ e.calls) : r.map f = r.map g := by
      have hv (v : α) (hv : v ∈ r.components) : f v = g v :=
        h v (mem_components_of_mem_calls hr hv)
      rw [Reference.map, Reference.map, hv r.name List.mem_cons_self,
        List.map_congr_left fun v h => hv v (List.mem_cons_of_mem _ h)]
    obtain ⟨prior, source, label, target, posterior⟩ := e
    have hp : prior.map (·.map f) = prior.map (·.map g) := by
      cases prior with
      | none => rfl
      | some r => exact congrArg some (hc r (mem_calls_of_prior rfl))
    have hq : posterior.map (·.map f) = posterior.map (·.map g) := by
      cases posterior with
      | none => rfl
      | some r => exact congrArg some (hc r (mem_calls_of_posterior rfl))
    rw [map, map, hp, hq, h source (by simp [mem_components]), h label (by simp [mem_components]),
      h target (by simp [mem_components])]

end Entry

end AdaptiveAutomata
