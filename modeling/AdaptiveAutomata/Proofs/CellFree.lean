/-
  Values in which no cell stands.

  Such a value reads as itself in every store, and fits another one exactly if the
  two are taken for equal.  Cells come into a table with the variables of actions and
  with arguments only.

  * `Value.CellFree` says that no cell stands in a value; of entries and tables it is
    said with `Entry.Forall` and `Table.Forall`;
  * `CellFree.resolve`: reading such a value changes nothing;
  * `Value.fits_iff_of_cellFree` and `Entry.fits_iff_of_cellFree`: to fit is to be
    equal, and `Entry.bindFrom_of_cellFree`: nothing is bound then;
  * `Environment.CellFree.resolveStep`: where no name is bound to a variable or to an
    argument with a cell, the entries that elementary actions act on have no cells.
-/
import AdaptiveAutomata.Proofs.Names

namespace AdaptiveAutomata

namespace Value

variable {v w p : Value}

/-- No cell stands in the value. -/
def CellFree (v : Value) : Prop := ∀ c, .cell c ∉ v.leaves

theorem cellFree_iff_forall_leaf : v.CellFree ↔ ∀ u ∈ v.leaves, u.isCell = false := by
  constructor
  · intro h u hu
    cases u with
    | cell c => exact absurd hu (h c)
    | _ => rfl
  · exact fun h c hc => Bool.noConfusion (h _ hc)

instance (v : Value) : Decidable v.CellFree := decidable_of_iff' _ cellFree_iff_forall_leaf

theorem not_cellFree_cell (c : Cell) : ¬ (cell c).CellFree := fun h => h c (by simp)

theorem cellFree_of_isLeaf (h : v.isLeaf) (hc : ∀ c, v ≠ .cell c) : v.CellFree := by
  intro c hmem
  rw [leaves_of_isLeaf h, List.mem_singleton] at hmem
  exact hc c hmem.symm

@[simp]
theorem cellFree_epsilon : epsilon.CellFree := cellFree_of_isLeaf rfl fun _ => Value.noConfusion

@[simp]
theorem cellFree_state (name : String) : (state name).CellFree :=
  cellFree_of_isLeaf rfl fun _ => Value.noConfusion

@[simp]
theorem cellFree_symbol (name : String) : (symbol name).CellFree :=
  cellFree_of_isLeaf rfl fun _ => Value.noConfusion

@[simp]
theorem cellFree_literal (name : String) : (literal name).CellFree :=
  cellFree_of_isLeaf rfl fun _ => Value.noConfusion

@[simp]
theorem cellFree_call : (call v).CellFree ↔ v.CellFree := by
  rw [CellFree, leaves_call, CellFree]

@[simp]
theorem cellFree_action {vs : List Value} :
    (action v vs).CellFree ↔ v.CellFree ∧ ∀ w ∈ vs, w.CellFree := by
  simp only [CellFree, leaves_action, List.mem_append, List.mem_flatMap, not_or, not_exists,
    not_and]
  constructor
  · exact fun h => ⟨fun c => (h c).1, fun w hw c => (h c).2 w hw⟩
  · exact fun h c => ⟨h.1 c, fun w hw => h.2 w hw c⟩

theorem CellFree.subst (h : v.CellFree) (f : Cell → Value) : v.subst f = v :=
  (subst_congr fun c hc => absurd hc (h c)).trans (subst_cell v)

/-- Reading a value without cells changes nothing. -/
theorem CellFree.resolve (h : v.CellFree) (s : Store) : s.resolve v = v := by
  rw [Store.resolve_eq_subst, h.subst]

/-! ## Matching -/

theorem fitsAll_iff_of_forall {ps ws : List Value}
    (h : ∀ p ∈ ps, ∀ w ∈ ws, p.fits w = true ↔ w.outline = p.outline) :
    fitsAll ps ws = true ↔ ws.map outline = ps.map outline := by
  induction ps generalizing ws with
  | nil => cases ws <;> simp [fitsAll]
  | cons p ps ih =>
    cases ws with
    | nil => simp [fitsAll]
    | cons w ws =>
      rw [fitsAll, Bool.and_eq_true, List.map_cons, List.map_cons, List.cons.injEq,
        h p List.mem_cons_self w List.mem_cons_self,
        ih fun q hq x hx => h q (List.mem_cons_of_mem p hq) x (List.mem_cons_of_mem w hx)]

/-- **Matching without cells**: a value fits exactly the patterns that are equal to
    it. -/
theorem fits_iff_of_cellFree (hp : p.CellFree) (hw : w.CellFree) :
    p.fits w = true ↔ w.outline = p.outline := by
  induction p using recParts generalizing w with
  | leaf p hleaf =>
    cases p with
    | call | action => exact absurd hleaf Bool.false_ne_true
    | cell c => exact absurd hp (not_cellFree_cell c)
    | epsilon => cases w <;> simp [fits, outline, image, not_cellFree_cell] at hw ⊢
    | state | symbol | literal =>
      cases w <;> simp [fits, outline, image, not_cellFree_cell, eq_comm] at hw ⊢
  | call p ih =>
    cases w with
    | cell c => exact absurd hw (not_cellFree_cell c)
    | call w =>
      rw [fits, outline_call, outline_call, Image.call.injEq]
      exact ih (cellFree_call.1 hp) (cellFree_call.1 hw)
    | _ => simp [fits, outline, image]
  | action p ps ih ihs =>
    cases w with
    | cell c => exact absurd hw (not_cellFree_cell c)
    | action w ws =>
      rw [cellFree_action] at hp hw
      rw [fits, Bool.and_eq_true, outline_action, outline_action, Image.action.injEq,
        ih hp.1 hw.1, fitsAll_iff_of_forall fun q hq x hx => ihs q hq (hp.2 q hq) (hw.2 x hx)]
    | _ => simp [fits, outline, image]

end Value

/-! ## Binding -/

namespace Store

variable {p : Value} {ps : List Value} {follow : Value → Value → Store → Store}

theorem walkAll_of_forall (h : ∀ p ∈ ps, ∀ w s, walk follow p w s = s) (ws : List Value)
    (s : Store) : walkAll follow ps ws s = s := by
  induction ps generalizing ws with
  | nil => cases ws <;> rfl
  | cons p ps ih =>
    cases ws with
    | nil => rfl
    | cons w ws =>
      rw [walkAll, h p List.mem_cons_self]
      exact ih (fun q hq => h q (List.mem_cons_of_mem p hq)) ws

/-- A pattern without cells binds nothing. -/
theorem walk_of_cellFree (hp : p.CellFree) (w : Value) (s : Store) : walk follow p w s = s := by
  induction p using Value.recParts generalizing w s with
  | leaf p hleaf =>
    cases p with
    | call | action => exact absurd hleaf Bool.false_ne_true
    | cell c => exact absurd hp (Value.not_cellFree_cell c)
    | epsilon | state | symbol | literal => rw [walk]
  | call p ih =>
    rw [walk]
    split
    · exact ih (Value.cellFree_call.1 hp) _ s
    · rfl
  | action p ps ih ihs =>
    rw [Value.cellFree_action] at hp
    rw [walk]
    split
    · rw [ih hp.1]
      exact walkAll_of_forall (fun q hq => ihs q hq (hp.2 q hq)) _ s
    · rfl

theorem bindFrom_of_cellFree (hp : p.CellFree) (w : Value) (s : Store) : s.bindFrom p w = s :=
  walk_of_cellFree hp w s

theorem bindFromAll_of_cellFree (hp : ∀ p ∈ ps, p.CellFree) (ws : List Value) (s : Store) :
    s.bindFromAll ps ws = s := by
  induction ps generalizing ws with
  | nil => cases ws <;> rfl
  | cons p ps ih =>
    cases ws with
    | nil => rfl
    | cons w ws =>
      rw [bindFromAll, bindFrom_of_cellFree (hp p List.mem_cons_self)]
      exact ih (fun q hq => hp q (List.mem_cons_of_mem p hq)) ws

end Store

/-! ## Entries -/

theorem Reference.outline_toValue (r : Reference Value) :
    r.toValue.outline = .action (r.map Value.outline).name (r.map Value.outline).arguments :=
  Value.outline_action r.name r.arguments

theorem Reference.cellFree_toValue {r : Reference Value} :
    r.toValue.CellFree ↔ ∀ v ∈ r.components, v.CellFree := by
  rw [toValue, Value.cellFree_action, components, List.forall_mem_cons]

namespace Entry

variable {e p : Entry Value} {s : Store}

theorem resolve_of_cellFree (h : e.Forall Value.CellFree) (s : Store) : e.resolve s = e :=
  (map_eq_map_iff.2 fun v hv => (h v hv).resolve s).trans (map_id e)

theorem fitsCall_iff_of_cellFree {q r : Option (Reference Value)}
    (hq : ∀ x ∈ q, x.toValue.CellFree) (hr : ∀ x ∈ r, x.toValue.CellFree) :
    fitsCall s q r = true ↔ r.map (·.map Value.outline) = q.map (·.map Value.outline) := by
  cases q with
  | none => cases r <;> simp [fitsCall]
  | some q =>
    cases r with
    | none => simp [fitsCall]
    | some r =>
      have hq := hq q rfl
      have hr := hr r rfl
      rw [fitsCall, Reference.fits, Store.fits, hq.resolve, hr.resolve,
        Value.fits_iff_of_cellFree hq hr, Reference.outline_toValue, Reference.outline_toValue,
        Image.action.injEq, Option.map_some, Option.map_some, Option.some.injEq,
        Reference.mk.injEq]

/-- An entry without cells fits exactly the patterns without cells that are equal to
    it. -/
theorem fits_iff_of_cellFree (hp : p.Forall Value.CellFree) (he : e.Forall Value.CellFree) :
    p.fits s e = true ↔ e.outline = p.outline := by
  have hcall {e : Entry Value} (he : e.Forall Value.CellFree) {r : Reference Value}
      (hr : r ∈ e.calls) : r.toValue.CellFree :=
    Reference.cellFree_toValue.2 fun v hv => he v (mem_components_of_mem_calls hr hv)
  have hvalue {v w : Value} (hv : v ∈ p.components) (hw : w ∈ e.components) :
      s.fits v w = true ↔ w.outline = v.outline := by
    rw [Store.fits, (hp v hv).resolve, (he w hw).resolve,
      Value.fits_iff_of_cellFree (hp v hv) (he w hw)]
  have hprior := fitsCall_iff_of_cellFree (s := s) (fun r hr => hcall hp (mem_calls_of_prior hr))
    fun r hr => hcall he (mem_calls_of_prior hr)
  have hposterior := fitsCall_iff_of_cellFree (s := s)
    (fun r hr => hcall hp (mem_calls_of_posterior hr))
    fun r hr => hcall he (mem_calls_of_posterior hr)
  simp only [fits, Bool.and_eq_true, hprior, hposterior,
    hvalue (v := p.source) (w := e.source) (by simp [mem_components]) (by simp [mem_components]),
    hvalue (v := p.label) (w := e.label) (by simp [mem_components]) (by simp [mem_components]),
    hvalue (v := p.target) (w := e.target) (by simp [mem_components]) (by simp [mem_components]),
    outline, map, Entry.mk.injEq, and_assoc]

/-- An entry without cells binds nothing. -/
theorem bindFrom_of_cellFree (hp : p.Forall Value.CellFree) (e : Entry Value) (s : Store) :
    bindFrom s p e = s := by
  have call {q : Option (Reference Value)} (hq : ∀ r ∈ q, r ∈ p.calls)
      (r : Option (Reference Value)) (s : Store) : bindCall s q r = s := by
    cases q with
    | none => rfl
    | some q =>
      cases r with
      | none => rfl
      | some r =>
        have hv (v : Value) (hv : v ∈ q.components) : v.CellFree :=
          hp v (mem_components_of_mem_calls (hq q rfl) hv)
        rw [bindCall, Reference.bindFrom, Store.bindFrom_of_cellFree (hv _ List.mem_cons_self)]
        exact Store.bindFromAll_of_cellFree (fun v h => hv v (List.mem_cons_of_mem _ h)) _ s
  simp only [bindFrom, call fun r hr => mem_calls_of_prior hr,
    call fun r hr => mem_calls_of_posterior hr,
    Store.bindFrom_of_cellFree (hp p.source (by simp [mem_components])),
    Store.bindFrom_of_cellFree (hp p.label (by simp [mem_components])),
    Store.bindFrom_of_cellFree (hp p.target (by simp [mem_components]))]

end Entry

/-! ## What names become -/

/-- The name is bound neither to a variable nor to an argument with a cell. -/
def Binding.CellFree : Binding → Prop
  | free _ => False
  | minted _ => True
  | argument v => v.CellFree

theorem Site.cellFree_literal (site : Site) (name : String) : (site.literal name).CellFree := by
  cases site <;> simp [literal]

theorem Site.cellFree_wrap {s : Store} {b : Binding} (hb : b.CellFree) (site : Site) :
    (site.wrap s b).CellFree := by
  cases b with
  | free => exact absurd hb not_false
  | minted id => cases site <;> simp [wrap]
  | argument v =>
    have hv : v.CellFree := hb
    cases site with
    | state => cases v <;> simp_all [wrap, Store.asState]
    | symbol => cases v <;> simp_all [wrap, Store.asSymbol]
    | _ => simpa [wrap] using hv

namespace Environment

variable {env : Environment} {s : Store} {parameters generators : List String}
  {arguments : List Value} {counter : Counter}

theorem cellFree_resolve {name : String} (hb : ∀ b, env.lookup name = some b → b.CellFree)
    (site : Site) : (env.resolve s site name).CellFree := by
  rw [resolve]
  split
  · next b hl => exact Site.cellFree_wrap (hb b hl) site
  · exact Site.cellFree_literal site name

/-- No name is bound to a variable or to an argument with a cell. -/
def CellFree (env : Environment) : Prop := ∀ name b, env.lookup name = some b → b.CellFree

/-- In an action without variables, names are bound to no cells if the arguments have
    none. -/
theorem cellFree_bind (h : ∀ v ∈ arguments, v.CellFree) :
    (bind parameters [] generators arguments s counter).1.CellFree := by
  intro name b hl
  rcases lookup_bind hl with ⟨hn, -⟩ | ⟨-, id, -, rfl⟩ | ⟨-, v, hv, rfl⟩
  · exact absurd hn List.not_mem_nil
  · trivial
  · exact h v hv

theorem CellFree.resolveStep (h : env.CellFree) (s : Store) (e : Spec.Step) :
    (env.resolveStep s e).Forall Value.CellFree :=
  forall_resolveStep Value.cellFree_epsilon fun site name _ => cellFree_resolve (h name) site

end Environment

/-- The entry of a transition has no cells. -/
theorem Entry.cellFree_ofSpec (t : Spec.Transition) : (Entry.ofSpec t).Forall Value.CellFree :=
  forall_ofSpec Value.cellFree_epsilon (Value.cellFree_state _) (Value.cellFree_state _)
    fun name _ => by simp

end AdaptiveAutomata
