/-
  Splicing runs.

  An action takes out the transition that leaves a state on a symbol and puts two in its place,
  with a new state between them.  Fired again and again it grows a chain: each run takes out
  what the run before it has put in.

  * `Spec.spliceAction` is the action, and `Table.Spliceable` what it asks of a table;
  * `Action.execute_splice`: one run of it, and `Table.Spliceable.splice`: it leaves a table of
    the same kind;
  * `Automaton.fireAll_splice`: as many runs as there is room for;
  * `fires_splice`: the entries, the counter and the record after them.
-/
import AdaptiveAutomata.Proofs.Logs
import AdaptiveAutomata.Proofs.Reported
import AdaptiveAutomata.Proofs.Resolving

namespace AdaptiveAutomata

/-! ## The action -/

/-- The names that the action binds. -/
def Spec.spliceNames : List String := ["p", "?t", "g*"]

/-- The transition from the argument on the symbol `c` is looked up and taken out.  A new state
    becomes its target, from where a transition on `b` leads to the old one. -/
def Spec.spliceAction (name c b : String) : Spec.Action :=
  (Action.named name).withParameter "p" |>.withVariable "?t" |>.withGenerator "g*"
    |>.withStep ((Step.of .query "p" "?t").consuming c)
    |>.withStep ((Step.of .remove "p" "?t").consuming c)
    |>.withStep ((Step.of .add "p" "g*").consuming c)
    |>.withStep ((Step.of .add "g*" "?t").consuming b)

/-- An entry that leads from a state to another one on a symbol. -/
def Entry.arrow (source symbol target : String) : Entry Value :=
  .plain (.state source) (.symbol symbol) (.state target)

theorem Entry.mem_components_arrow {source symbol target : String} {v : Value} :
    v ∈ (arrow source symbol target).components ↔
      v = .state source ∨ v = .symbol symbol ∨ v = .state target := by
  simp [arrow, plain, mem_components, calls]

theorem Entry.cellFree_arrow (source symbol target : String) :
    (arrow source symbol target).Forall Value.CellFree := by
  intro v hv
  rcases mem_components_arrow.1 hv with rfl | rfl | rfl
  · exact Value.cellFree_state source
  · exact Value.cellFree_symbol symbol
  · exact Value.cellFree_state target

namespace Environment

variable {s : Store} {v : Value} {x : Cell} {id : StateId} {c P : String}

/-- The names of the action bound for a run. -/
def splice (v : Value) (x : Cell) (id : StateId) : Environment :=
  ⟨[("?t", x)], [("g*", id)], [("p", v)]⟩

theorem resolve_splice_symbol (hc : c ∉ Spec.spliceNames) (s : Store) :
    (splice v x id).resolve s .symbol c = .symbol c := by
  simp only [Spec.spliceNames, List.mem_cons, List.not_mem_nil, or_false, not_or] at hc
  obtain ⟨hp, ht, hg⟩ := hc
  have hlookup : (splice v x id).lookup c = none := by
    simp [lookup, splice, List.lookup_cons, beq_false_of_ne hp, beq_false_of_ne ht,
      beq_false_of_ne hg]
  rw [resolve, hlookup]
  rfl

theorem resolve_splice_argument (hv : v = .state P ∨ v = .literal P) (s : Store) :
    (splice v x id).resolve s .state "p" = .state P := by
  have hlookup : (splice v x id).lookup "p" = some (.argument v) := rfl
  rw [resolve, hlookup]
  rcases hv with rfl | rfl
  · rfl
  · have htext : s.text (.literal P) = P := by
      rw [Store.text, Store.resolve_literal]
      rfl
    exact congrArg Value.state htext

/-- The pattern that is looked up and taken out. -/
theorem resolveStep_splice_pattern (hv : v = .state P ∨ v = .literal P)
    (hc : c ∉ Spec.spliceNames) (kind : Kind) (s : Store) :
    (splice v x id).resolveStep s ((Spec.Step.of kind "p" "?t").consuming c) =
      .plain (.state P) (.symbol c) (.cell x) := by
  have hsource : (splice v x id).resolve s .state "p" = .state P := resolve_splice_argument hv s
  have hlabel : (splice v x id).resolve s .symbol c = .symbol c := resolve_splice_symbol hc s
  exact congrArg₂ (fun p c => Entry.plain p c (.cell x)) hsource hlabel

theorem resolveStep_splice_first (hv : v = .state P ∨ v = .literal P) (hc : c ∉ Spec.spliceNames)
    (s : Store) :
    (splice v x id).resolveStep s ((Spec.Step.of .add "p" "g*").consuming c) =
      .arrow P c id.text := by
  have hsource : (splice v x id).resolve s .state "p" = .state P := resolve_splice_argument hv s
  have hlabel : (splice v x id).resolve s .symbol c = .symbol c := resolve_splice_symbol hc s
  exact congrArg₂ (fun p c => Entry.plain p c (.state id.text)) hsource hlabel

theorem resolveStep_splice_second (hc : c ∉ Spec.spliceNames) (s : Store) :
    (splice v x id).resolveStep s ((Spec.Step.of .add "g*" "?t").consuming c) =
      .plain (.state id.text) (.symbol c) (.cell x) := by
  have hlabel : (splice v x id).resolve s .symbol c = .symbol c := resolve_splice_symbol hc s
  exact congrArg (fun c => Entry.plain (.state id.text) c (.cell x)) hlabel

end Environment

/-! ## The table -/

theorem StateId.repr_injective : Function.Injective Nat.repr := by
  intro m n h
  have := congrArg (fun name => Nat.ofDigitChars 10 name.toList 0) h
  simpa only [Nat.repr, String.toList_ofList, Nat.ofDigitChars_ten_toDigits] using this

/-- A state occurs in an entry. -/
def Entry.HasState (e : Entry Value) (name : String) : Prop :=
  ∃ v ∈ e.components, .state name ∈ v.leaves

theorem Entry.hasState_arrow {source symbol target name : String} :
    (arrow source symbol target).HasState name ↔ name = source ∨ name = target := by
  simp [HasState, mem_components_arrow, Value.leaves]

/-- One entry without calls leads from a state `P` on a symbol `c`, to a state `t`, in a table
    without cells, and the `n` numbers from `k` on are not the names of states in it. -/
structure Table.Spliceable (T : Table Value) (before after : List (Entry Value))
    (P c t : String) (k n : Nat) : Prop where
  entries : T.entries = before ++ .arrow P c t :: after
  /-- The other entries that leave the state on the symbol have a call. -/
  only : ∀ e ∈ before ++ after, ∀ v, e ≠ .plain (.state P) (.symbol c) v
  cellFree : T.Forall Value.CellFree
  fresh : ∀ i < n, ∀ e ∈ T.entries, ¬ e.HasState (k + i).repr

namespace Store

variable {s : Store} {w : Value} {x : Cell}

theorem fits_state_iff (hw : w.CellFree) (name : String) :
    s.fits (.state name) w = true ↔ w = .state name := by
  rw [fits, (Value.cellFree_state name).resolve, hw.resolve]
  cases w <;> simp [Value.fits, Value.not_cellFree_cell, eq_comm] at hw ⊢

theorem fits_symbol_iff (hw : w.CellFree) (name : String) :
    s.fits (.symbol name) w = true ↔ w = .symbol name := by
  rw [fits, (Value.cellFree_symbol name).resolve, hw.resolve]
  cases w <;> simp [Value.fits, Value.not_cellFree_cell, eq_comm] at hw ⊢

/-- An unbound cell fits everything. -/
theorem fits_cell (hx : s.binding? x = none) (w : Value) : s.fits (.cell x) w = true := by
  rw [fits, resolve_cell_of_none hx]
  rfl

/-- A cell that is bound to a state reads as it. -/
theorem resolve_cell_state {name : String} (hx : s.binding? x = some (.state name)) :
    s.resolve (.cell x) = .state name := by
  obtain ⟨n, hn⟩ : ∃ n, s.size = n + 1 := Nat.exists_eq_add_one.2 (by
    have := place_lt_size hx
    omega)
  rw [resolve, hn, resolveWithin_succ, Value.subst, hx]
  cases n <;> rfl

end Store

namespace Table

variable {T : Table Value} {s : Store} {x : Cell} {before after : List (Entry Value)}
  {P c t : String} {k n : Nat} {e f : Entry Value}

/-- The pattern fits what leads from the state on the symbol, to whatever it leads. -/
theorem fits_splice_iff (hx : s.binding? x = none) (he : e.Forall Value.CellFree) :
    Entry.fits s (.plain (.state P) (.symbol c) (.cell x)) e = true ↔
      ∃ v, e = .plain (.state P) (.symbol c) v := by
  obtain ⟨prior, source, label, target, posterior⟩ := e
  have hsource : source.CellFree := he source (by simp [Entry.mem_components])
  have hlabel : label.CellFree := he label (by simp [Entry.mem_components])
  have hcall (r : Option (Reference Value)) : Entry.fitsCall s none r = true ↔ r = none := by
    cases r <;> simp [Entry.fitsCall]
  simp only [Entry.fits, Entry.plain, Bool.and_eq_true, hcall, Store.fits_state_iff hsource,
    Store.fits_symbol_iff hlabel, Store.fits_cell hx, and_true, Entry.mk.injEq]
  constructor
  · rintro ⟨⟨⟨rfl, rfl⟩, rfl⟩, rfl⟩
    exact ⟨target, rfl, rfl, rfl, rfl, rfl⟩
  · rintro ⟨_, rfl, rfl, rfl, -, rfl⟩
    exact ⟨⟨⟨rfl, rfl⟩, rfl⟩, rfl⟩

/-- What is not stored is added as it reads. -/
theorem add_of_not_mem (hT : T.Forall Value.CellFree) (hf : f.Forall Value.CellFree)
    (he : e.resolve s = f) (hnot : f ∉ T.entries) : T.add s e = (true, ⟨T.entries ++ [f]⟩) := by
  have hcontains : T.contains s e = T.contains s f := by
    rw [contains, contains, he, Entry.resolve_of_cellFree hf]
  have hnew : T.contains s e = false := by
    rw [← Bool.not_eq_true, hcontains, contains_iff_mem_entries hT hf]
    exact hnot
  rw [add_of_not_contains hnew, he]

namespace Spliceable

theorem mem_entries_iff (h : T.Spliceable before after P c t k n) :
    e ∈ T.entries ↔ e = .arrow P c t ∨ e ∈ before ++ after := by
  rw [h.entries, List.mem_append, List.mem_append, List.mem_cons]
  exact or_left_comm

/-- None of the new states is at an end of the transition. -/
theorem ne_repr (h : T.Spliceable before after P c t k n) {i : Nat} (hi : i < n) :
    (k + i).repr ≠ P ∧ (k + i).repr ≠ t := by
  have hnot := h.fresh i hi _ (h.mem_entries_iff.2 (.inl rfl))
  rwa [Entry.hasState_arrow, not_or] at hnot

/-- The query finds the transition, and binds its target. -/
theorem query (h : T.Spliceable before after P c t k n) (hx : s.binding? x = none) :
    T.query s (.plain (.state P) (.symbol c) (.cell x)) = (true, s.write x (.state t)) := by
  have hbind : Entry.bindFrom s (.plain (.state P) (.symbol c) (.cell x)) (.arrow P c t) =
      s.write x (.state t) := by
    simp only [Entry.bindFrom, Entry.plain, Entry.arrow, Entry.bindCall]
    rw [Store.bindFrom_of_cellFree (Value.cellFree_state P),
      Store.bindFrom_of_cellFree (Value.cellFree_symbol c), Store.bindFrom_cell_state hx]
  rw [← hbind]
  refine query_of_find? ?_
  rw [h.entries, List.find?_append, List.find?_eq_none.2, Option.none_or, List.find?_cons_of_pos]
  · exact (fits_splice_iff hx (Entry.cellFree_arrow P c t)).2 ⟨_, rfl⟩
  · intro e he hfits
    have hmem : e ∈ before ++ after := List.mem_append_left after he
    obtain ⟨v, rfl⟩ := (fits_splice_iff hx (h.cellFree e (h.mem_entries_iff.2 (.inr hmem)))).1 hfits
    exact h.only _ hmem v rfl

/-- With the target bound, the removal takes out this transition. -/
theorem remove (h : T.Spliceable before after P c t k n)
    (hx : s.binding? x = some (.state t)) :
    ∃ u, T.remove s (.plain (.state P) (.symbol c) (.cell x)) = (1, ⟨before ++ after⟩, u) ∧
      u.binding? x = some (.state t) := by
  have hread : Entry.resolve s (.plain (.state P) (.symbol c) (.cell x)) = .arrow P c t := by
    rw [Entry.resolve, Entry.plain, Entry.map, Store.resolve_cell_state hx,
      (Value.cellFree_state P).resolve, (Value.cellFree_symbol c).resolve]
    rfl
  have hfits {e : Entry Value} (he : e ∈ T.entries) :
      Entry.fits s (.plain (.state P) (.symbol c) (.cell x)) e = true ↔ e = .arrow P c t := by
    rw [Entry.fits_iff_eq_resolve (hread ▸ Entry.cellFree_arrow P c t) (h.cellFree e he), hread]
  have hremove := remove_of_unique h.entries ((hfits (h.mem_entries_iff.2 (.inl rfl))).2 rfl)
    fun e he => Bool.eq_false_iff.2 fun hf =>
      h.only e he _ ((hfits (h.mem_entries_iff.2 (.inr he))).1 hf)
  refine ⟨_, hremove, ?_⟩
  have hextends := extends_remove T s (.plain (.state P) (.symbol c) (.cell x))
  rw [hremove] at hextends
  exact hextends x _ hx

theorem add_first (h : T.Spliceable before after P c t k n) (s : Store) (name : String) :
    Table.add ⟨before ++ after⟩ s (.arrow P c name) =
      (true, ⟨before ++ after ++ [.arrow P c name]⟩) :=
  add_of_not_mem (fun _ he => h.cellFree _ (h.mem_entries_iff.2 (.inr he)))
    (Entry.cellFree_arrow P c name) (Entry.resolve_of_cellFree (Entry.cellFree_arrow P c name) s)
    fun he => h.only _ he _ rfl

/-- The second transition is new, because it leaves a new state. -/
theorem add_second (h : T.Spliceable before after P c t k (n + 1)) {b : String}
    (hx : s.binding? x = some (.state t)) :
    Table.add ⟨before ++ after ++ [.arrow P c k.repr]⟩ s
        (.plain (.state k.repr) (.symbol b) (.cell x)) =
      (true, ⟨before ++ after ++ [.arrow P c k.repr] ++ [.arrow k.repr b t]⟩) := by
  have hread : Entry.resolve s (.plain (.state k.repr) (.symbol b) (.cell x)) =
      .arrow k.repr b t := by
    rw [Entry.resolve, Entry.plain, Entry.map, Store.resolve_cell_state hx,
      (Value.cellFree_state _).resolve, (Value.cellFree_symbol b).resolve]
    rfl
  refine add_of_not_mem (fun e he => ?_) (Entry.cellFree_arrow _ _ _) hread fun he => ?_
  · rcases List.mem_append.1 he with he | he
    · exact h.cellFree e (h.mem_entries_iff.2 (.inr he))
    · exact List.mem_singleton.1 he ▸ Entry.cellFree_arrow _ _ _
  · rcases List.mem_append.1 he with he | he
    · exact h.fresh 0 (Nat.succ_pos n) _ (h.mem_entries_iff.2 (.inr he))
        (Entry.hasState_arrow.2 (.inl rfl))
    · have hsource := congrArg Entry.source (List.mem_singleton.1 he)
      exact (h.ne_repr (Nat.succ_pos n)).1 (Value.state.inj hsource)

/-- **Afterwards the table is spliceable again**: the new transition leads to the new state. -/
theorem splice (h : T.Spliceable before after P c t k (n + 1)) (b : String) :
    Spliceable ⟨before ++ after ++ [.arrow P c k.repr, .arrow k.repr b t]⟩ (before ++ after)
      [.arrow k.repr b t] P c k.repr (k + 1) n := by
  refine ⟨rfl, ?_, ?_, ?_⟩
  · intro e he v heq
    rcases List.mem_append.1 he with he | he
    · exact h.only e he v heq
    · rw [List.mem_singleton.1 he] at heq
      exact (h.ne_repr (Nat.succ_pos n)).1 (Value.state.inj (congrArg Entry.source heq))
  · intro e he
    rcases List.mem_append.1 he with he | he
    · exact h.cellFree e (h.mem_entries_iff.2 (.inr he))
    · simp only [List.mem_cons, List.not_mem_nil, or_false] at he
      rcases he with rfl | rfl
      · exact Entry.cellFree_arrow _ _ _
      · exact Entry.cellFree_arrow _ _ _
  · intro i hi e he
    have hi : i + 1 < n + 1 := Nat.succ_lt_succ hi
    have hnext : k + 1 + i = k + (i + 1) := by omega
    have hne : (k + (i + 1)).repr ≠ k.repr := fun heq => by
      have := StateId.repr_injective heq
      omega
    obtain ⟨hP, ht⟩ := h.ne_repr hi
    rw [hnext]
    rcases List.mem_append.1 he with he | he
    · exact h.fresh _ hi e (h.mem_entries_iff.2 (.inr he))
    · simp only [List.mem_cons, List.not_mem_nil, or_false] at he
      rcases he with rfl | rfl
      · rw [Entry.hasState_arrow, not_or]
        exact ⟨hP, hne⟩
      · rw [Entry.hasState_arrow, not_or]
        exact ⟨hne, ht⟩

end Spliceable

end Table

/-! ## One run -/

namespace Action

variable {before after : List (Entry Value)} {P c b t : String} {n : Nat} {v : Value}

/-- The four elementary actions, each in the scene that the one before it leaves. -/
theorem runSteps_splice {T : Table Value} {s : Store} {x : Cell} {id : StateId}
    (hc : c ∉ Spec.spliceNames) (hb : b ∉ Spec.spliceNames) (hv : v = .state P ∨ v = .literal P)
    (h : T.Spliceable before after P c t id.toNat (n + 1)) (hx : s.binding? x = none)
    (hlt : x.place < s.size) (name : String) :
    ∃ outcomes u, runSteps (.splice v x id) (ofSpec (Spec.spliceAction name c b)).steps ⟨T, s⟩ =
        (outcomes, ⟨⟨before ++ after ++ [.arrow P c id.text, .arrow id.text b t]⟩, u⟩) ∧
      outcomes.map (fun o => (o.kind, o.matched)) =
        [(.query, true), (.remove, true), (.add, true), (.add, true)] := by
  have hbound : (s.write x (.state t)).binding? x = some (.state t) :=
    Store.binding?_write_self hlt _
  obtain ⟨u, hremove, hu⟩ := h.remove hbound
  have hadd : Table.add ⟨before ++ after ++ [.arrow P c id.text]⟩ u
      (.plain (.state id.text) (.symbol b) (.cell x)) =
        (true, ⟨before ++ after ++ [.arrow P c id.text] ++ [.arrow id.text b t]⟩) :=
    h.add_second hu
  obtain ⟨o₁, hquery, hm₁⟩ : ∃ o, Scene.dispatch .query
      (.plain (.state P) (.symbol c) (.cell x)) ⟨T, s⟩ = (o, ⟨T, s.write x (.state t)⟩) ∧
        (o.kind, o.matched) = (.query, true) :=
    ⟨_, by rw [Scene.dispatch, h.query hx], rfl⟩
  obtain ⟨o₂, hremove, hm₂⟩ : ∃ o, Scene.dispatch .remove
      (.plain (.state P) (.symbol c) (.cell x)) ⟨T, s.write x (.state t)⟩ =
        (o, ⟨⟨before ++ after⟩, u⟩) ∧ (o.kind, o.matched) = (.remove, true) :=
    ⟨_, by rw [Scene.dispatch, hremove], rfl⟩
  obtain ⟨o₃, hfirst, hm₃⟩ : ∃ o, Scene.dispatch .add (.arrow P c id.text)
      ⟨⟨before ++ after⟩, u⟩ = (o, ⟨⟨before ++ after ++ [.arrow P c id.text]⟩, u⟩) ∧
        (o.kind, o.matched) = (.add, true) :=
    ⟨_, by rw [Scene.dispatch, h.add_first u], rfl⟩
  obtain ⟨o₄, hsecond, hm₄⟩ : ∃ o, Scene.dispatch .add
      (.plain (.state id.text) (.symbol b) (.cell x))
      ⟨⟨before ++ after ++ [.arrow P c id.text]⟩, u⟩ =
        (o, ⟨⟨before ++ after ++ [.arrow P c id.text] ++ [.arrow id.text b t]⟩, u⟩) ∧
        (o.kind, o.matched) = (.add, true) :=
    ⟨_, by rw [Scene.dispatch, hadd], rfl⟩
  refine ⟨[o₁, o₂, o₃, o₄], u, ?_, by simp only [List.map_cons, List.map_nil, hm₁, hm₂, hm₃, hm₄]⟩
  have hsteps : (ofSpec (Spec.spliceAction name c b)).steps =
      [(.query, (Spec.Step.of .query "p" "?t").consuming c),
        (.remove, (Spec.Step.of .remove "p" "?t").consuming c),
        (.add, (Spec.Step.of .add "p" "g*").consuming c),
        (.add, (Spec.Step.of .add "g*" "?t").consuming b)] := rfl
  have hentries : before ++ after ++ [Entry.arrow P c id.text, .arrow id.text b t] =
      before ++ after ++ [.arrow P c id.text] ++ [.arrow id.text b t] := by
    rw [List.append_assoc _ [_] [_], List.singleton_append]
  rw [hentries]
  simp only [hsteps, runSteps, Environment.resolveStep_splice_pattern hv hc,
    Environment.resolveStep_splice_first hv hc, Environment.resolveStep_splice_second hb,
    hquery, hremove, hfirst, hsecond]

/-- **One run of the action**: all four elementary actions match, and two transitions take the
    place of the one. -/
theorem execute_splice {σ : Scene} {counter : Counter} (hc : c ∉ Spec.spliceNames)
    (hb : b ∉ Spec.spliceNames) (hv : v = .state P ∨ v = .literal P)
    (h : σ.table.Spliceable before after P c t counter.next.toNat (n + 1)) (name : String) :
    ∃ outcomes u, (ofSpec (Spec.spliceAction name c b)).execute [v] σ counter =
        ⟨outcomes, ⟨⟨before ++ after ++ [.arrow P c counter.next.text,
          .arrow counter.next.text b t]⟩, u⟩, counter.mint.2⟩ ∧
      outcomes.map (fun o => (o.kind, o.matched)) =
        [(.query, true), (.remove, true), (.add, true), (.add, true)] := by
  have hx : σ.store.fresh.2.binding? σ.store.fresh.1 = none :=
    Store.binding?_alloc_self σ.store _ none
  have hlt : σ.store.fresh.1.place < σ.store.fresh.2.size := by
    simp [Store.fresh, Store.alloc, Store.size]
  obtain ⟨outcomes, u, hrun, hmatched⟩ := runSteps_splice hc hb hv h hx hlt name
  refine ⟨outcomes, u, ?_, hmatched⟩
  have hbind : (ofSpec (Spec.spliceAction name c b)).bind [v] σ.store counter =
      (.splice v σ.store.fresh.1 counter.next, σ.store.fresh.2, counter.mint.2) := rfl
  rw [execute, hbind]
  dsimp only
  rw [hrun]

end Action

/-! ## Many runs -/

/-- The state that a chain has come to after so many runs: the first target, then one new state
    after the other. -/
def Spec.spliced (k : Nat) (t : String) : Nat → String
  | 0 => t
  | i + 1 => (k + i).repr

/-- The transition of the chain from a new state back to the one before it. -/
def Entry.link (k : Nat) (t b : String) (i : Nat) : Entry Value :=
  .arrow (Spec.spliced k t (i + 1)) b (Spec.spliced k t i)

theorem Spec.spliced_succ (k : Nat) (t : String) (i : Nat) :
    spliced (k + 1) k.repr i = spliced k t (i + 1) := by
  cases i with
  | zero => rfl
  | succ i => rw [spliced, spliced, Nat.add_right_comm, Nat.add_assoc]

theorem Entry.link_succ (k : Nat) (t b : String) (i : Nat) :
    link (k + 1) k.repr b i = link k t b (i + 1) := by
  rw [link, link, Spec.spliced_succ k t, Spec.spliced_succ k t]

/-- The entries after so many runs.  From the first run on, what was spliced in stands at the
    end, and the transition from the argument is the last but one. -/
def Table.chain (before after : List (Entry Value)) (P c b : String) (k : Nat) (t : String) :
    Nat → List (Entry Value)
  | 0 => before ++ .arrow P c t :: after
  | n + 1 => before ++ after ++ (List.range n).map (.link k t b) ++
      [.arrow P c (Spec.spliced k t (n + 1)), .link k t b n]

/-- After the first run a chain grows as if it had started there. -/
theorem Table.chain_succ (before after : List (Entry Value)) (P c b : String) (k : Nat)
    (t : String) (n : Nat) :
    chain (before ++ after) [.arrow k.repr b t] P c b (k + 1) k.repr n =
      chain before after P c b k t (n + 1) := by
  have hlink : Entry.link k t b 0 = .arrow k.repr b t := rfl
  cases n with
  | zero => simp [chain, hlink, Spec.spliced]
  | succ n =>
    have hmap : (List.range n).map (Entry.link (k + 1) k.repr b) =
        (List.range n).map fun i => Entry.link k t b (i + 1) :=
      List.map_congr_left fun i _ => Entry.link_succ k t b i
    rw [chain, chain, hmap, Entry.link_succ k t, Spec.spliced_succ k t, List.range_succ_eq_map,
      List.map_cons, List.map_map, hlink, List.append_assoc (before ++ after),
      List.singleton_append]
    rfl

namespace Automaton

variable {a : Automaton} {w : World} {before after : List (Entry Value)} {name P c b t : String}
  {n : Nat} {v : Value}

/-- Run the adaptive action of the given name again and again, each time with one argument and
    at some time. -/
def fireAll (name : String) :
    List (Value × Instant) → Automaton → World → Except FireError (Automaton × World)
  | [], a, w => .ok (a, w)
  | (v, now) :: rest, a, w => do
    let (a, w) ← a.fire name [v] { w with now }
    a.fireAll name rest w

/-- The automaton has the action under the name, and a counter to draw from. -/
structure Splices (a : Automaton) (w : World) (name c b : String) : Prop where
  action : a.actions.get? name = some (.ofSpec (Spec.spliceAction name c b))
  counter : a.generator < w.counters.size

/-- What the elementary actions of the run are, and that all of them match. -/
def spliceRecord : List (Kind × Bool) :=
  [(.query, true), (.remove, true), (.add, true), (.add, true)]

theorem fire_splice (ha : a.Splices w name c b) (hc : c ∉ Spec.spliceNames)
    (hb : b ∉ Spec.spliceNames) (hv : v = .state P ∨ v = .literal P)
    (h : a.table.Spliceable before after P c t (a.counter w).next.toNat (n + 1)) :
    ∃ a' w' new, a.fire name [v] w = .ok (a', w') ∧ a'.Splices w' name c b ∧
      a'.table = ⟨before ++ after ++ [.arrow P c (a.counter w).next.toNat.repr,
        .arrow (a.counter w).next.toNat.repr b t]⟩ ∧
      a'.counter w' = ((a.counter w).mints 1).2 ∧
      a'.history = a.history.map (·.recordAll new) ∧
      new.map (fun x => (x.kind, x.matched)) = spliceRecord := by
  obtain ⟨outcomes, u, hexecute, hmatched⟩ := Action.execute_splice (σ := ⟨a.table, w.store⟩)
    hc hb hv h name
  refine ⟨_, _, _, fire_eq_ok_iff.2 ⟨_, ha.action, rfl⟩, ⟨ha.action, ?_⟩, ?_,
    counter_run ha.counter _ _, rfl, ?_⟩
  · have hcounter := ha.counter
    simpa [run, World.setCounter] using hcounter
  · exact congrArg (fun x : Execution => x.scene.table) hexecute
  · rw [hexecute, List.map_map]
    exact hmatched

/-- **A splicing run**: by induction on its length; the first run leaves an automaton to which
    the others apply, with the first link of the chain among the transitions that stay. -/
theorem fireAll_splice {calls : List (Value × Instant)} {k : Nat} (hc : c ∉ Spec.spliceNames)
    (hb : b ∉ Spec.spliceNames) (hcalls : ∀ x ∈ calls, x.1 = .state P ∨ x.1 = .literal P)
    (ha : a.Splices w name c b)
    (h : a.table.Spliceable before after P c t k calls.length)
    (hk : (a.counter w).next.toNat = k) (hle : k + calls.length ≤ 2 ^ 64 - 1) :
    ∃ a' w' new, a.fireAll name calls w = .ok (a', w') ∧
      a'.table.entries = Table.chain before after P c b k t calls.length ∧
      (a'.counter w').next.toNat = k + calls.length ∧
      a'.history = a.history.map (·.recordAll new) ∧
      new.map (fun x => (x.kind, x.matched)) =
        (List.replicate calls.length spliceRecord).flatten := by
  induction calls generalizing a w before after t k with
  | nil => exact ⟨a, w, [], rfl, h.entries, hk, by simp [History.recordAll], rfl⟩
  | cons x calls ih =>
    obtain ⟨v, now⟩ := x
    obtain ⟨hv, hcalls⟩ := List.forall_mem_cons.1 hcalls
    rw [List.length_cons] at h hle ⊢
    subst hk
    obtain ⟨a₁, w₁, new₁, hfire, ha₁, htable, hcounter, hhistory, hrecord⟩ :=
      fire_splice (w := { w with now }) (v := v) ⟨ha.action, ha.counter⟩ hc hb hv h
    have hnext : (a₁.counter w₁).next.toNat = (a.counter w).next.toNat + 1 := by
      have hsame : a.counter { w with now } = a.counter w := rfl
      rw [hcounter, Counter.toNat_next_mints, hsame]
      omega
    obtain ⟨a₂, w₂, new₂, hrest, hentries, hcounter₂, hhistory₂, hrecord₂⟩ :=
      ih hcalls ha₁ (htable ▸ h.splice b) hnext (by omega)
    refine ⟨a₂, w₂, new₁ ++ new₂, ?_, ?_, ?_, ?_, ?_⟩
    · rw [fireAll, hfire]
      exact hrest
    · rw [hentries, Table.chain_succ]
    · omega
    · rw [hhistory₂, hhistory, Option.map_map]
      exact congrArg (a.history.map ·) (funext fun h => List.foldl_append.symm)
    · rw [List.map_append, hrecord, hrecord₂, List.replicate_succ, List.flatten_cons]

end Automaton

/-- **Splicing runs of any length.**  Let one entry without calls lead from the state `P` on
    `c`, to the state `t`, in a table without cells, and let the next `n` numbers be within
    reach of the counter and no names of states in the table.  Then the action can be fired
    `n` times with the state or its bare name.  Afterwards the other entries are followed by a
    chain on `b` through the new states back to `t`, to the last of which `P` leads.  The
    counter has gone on by `n`, and all four elementary actions of every run have matched. -/
theorem fires_splice {a : Automaton} {w : World} {before after : List (Entry Value)}
    {name P c b t : String} {k n : Nat} {calls : List (Value × Instant)}
    (hc : c ∉ Spec.spliceNames) (hb : b ∉ Spec.spliceNames) (ha : a.Splices w name c b)
    (htable : a.table.Spliceable before after P c t k n) (hk : (a.counter w).next.toNat = k)
    (hle : k + n ≤ 2 ^ 64 - 1) (hpos : 1 ≤ n) (hn : calls.length = n)
    (hcalls : ∀ x ∈ calls, x.1 = .state P ∨ x.1 = .literal P) :
    ∃ a' w' new, a.fireAll name calls w = .ok (a', w') ∧
      a'.table.entries = before ++ after ++
        (List.range (n - 1)).map (fun i =>
          .arrow (Spec.spliced k t (i + 1)) b (Spec.spliced k t i)) ++
        [.arrow P c (Spec.spliced k t n),
          .arrow (Spec.spliced k t n) b (Spec.spliced k t (n - 1))] ∧
      (a'.counter w').next.toNat = k + n ∧
      a'.history = a.history.map (·.recordAll new) ∧ new.length = 4 * n ∧
      ∀ x ∈ new, x.matched = true := by
  obtain ⟨m, rfl⟩ := Nat.exists_eq_add_of_le' hpos
  obtain ⟨a', w', new, hfires, hentries, hcounter, hhistory, hrecord⟩ :=
    Automaton.fireAll_splice hc hb hcalls ha (hn.symm ▸ htable) hk (hn.symm ▸ hle)
  rw [hn] at hentries hcounter hrecord
  refine ⟨a', w', new, hfires, hentries, hcounter, hhistory, ?_, fun x hx => ?_⟩
  · have hlength := congrArg List.length hrecord
    simp [Automaton.spliceRecord] at hlength
    omega
  · have hmem : (x.kind, x.matched) ∈ (List.replicate (m + 1) Automaton.spliceRecord).flatten :=
      hrecord ▸ List.mem_map_of_mem hx
    obtain ⟨record, hrecord, hx⟩ := List.mem_flatten.1 hmem
    rw [List.eq_of_mem_replicate hrecord] at hx
    simp [Automaton.spliceRecord] at hx
    tauto

/-- Two transitions lead from one state on the symbol, but one of them calls the action. -/
def Spec.splicing : Spec where
  transitions := [(Transition.between "1" "2").consuming "a",
    (Transition.between "1" "2").consuming "a" |>.after (.to "grow" ["1"])]
  submachines := [(Submachine.named "m").withState (State.named "1").starting
    |>.withState (State.named "2").acceptingAt]
  actions := [spliceAction "grow" "a" "b"]

/-- The entry of the transition that calls the action. -/
def Entry.growing : Entry Value :=
  { Entry.arrow "1" "a" "2" with posterior := some (.literal "grow" ["1"]) }

/-- Three runs, with the bare name and with the state. -/
theorem fires_splice_growing : Spec.splicing.validate = .ok () ∧ ∃ a w new,
    Automaton.fireAll "grow" [(.literal "1", ⟨0, 0, 0⟩), (.state "1", ⟨0, 0, 1⟩),
      (.literal "1", ⟨0, 0, 2⟩)] (Automaton.build Spec.splicing true .initial).1
      (Automaton.build Spec.splicing true .initial).2 = .ok (a, w) ∧
    a.table.entries = [.growing, .arrow "3" "b" "2", .arrow "4" "b" "3", .arrow "1" "a" "5",
      .arrow "5" "b" "4"] ∧
    (a.counter w).next.toNat = 6 ∧ a.history = some ⟨new⟩ ∧ new.length = 12 ∧
    ∀ x ∈ new, x.matched = true := by
  have htable : (Automaton.build Spec.splicing true .initial).1.table.Spliceable [] [.growing]
      "1" "a" "2" 3 3 := by
    refine ⟨rfl, ?_, by decide, ?_⟩
    · intro e he v heq
      rw [List.mem_singleton.1 he] at heq
      exact absurd (congrArg Entry.posterior heq) (by simp [Entry.growing, Entry.plain])
    · have hhas {name : String} (h : Entry.growing.HasState name) : name = "1" ∨ name = "2" := by
        simpa [Entry.growing, Entry.arrow, Entry.plain, Entry.HasState, Entry.mem_components,
          Entry.calls, Value.leaves, Reference.literal, Reference.components] using h
      intro i hi e he hname
      have he : e ∈ [.arrow "1" "a" "2", .growing] := he
      have hnames : (3 + i).repr = "1" ∨ (3 + i).repr = "2" := by
        rcases List.mem_cons.1 he with rfl | he
        · exact Entry.hasState_arrow.1 hname
        · exact hhas (List.mem_singleton.1 he ▸ hname)
      interval_cases i <;> exact absurd hnames (by decide)
  have ha : (Automaton.build Spec.splicing true .initial).1.Splices
      (Automaton.build Spec.splicing true .initial).2 "grow" "a" "b" := ⟨rfl, by decide⟩
  have hcalls : ∀ x ∈ [(Value.literal "1", (⟨0, 0, 0⟩ : Instant)), (.state "1", ⟨0, 0, 1⟩),
      (.literal "1", ⟨0, 0, 2⟩)], x.1 = .state "1" ∨ x.1 = .literal "1" := by simp
  obtain ⟨a, w, new, hfires, hentries, hcounter, hhistory, hlength, hmatched⟩ :=
    fires_splice (by decide) (by decide) ha htable rfl (by decide) (by decide) rfl hcalls
  have hnew : History.empty.recordAll new = ⟨new⟩ :=
    congrArg History.mk (History.steps_recordAll .empty new)
  exact ⟨by decide, a, w, new, hfires, hentries, hcounter, hhistory.trans (congrArg some hnew),
    hlength, hmatched⟩

end AdaptiveAutomata
