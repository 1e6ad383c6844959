/-
  What automata that share a counter mint.

  The copies of an automaton draw from its counter.  Whatever is asked of which of them, and
  in whatever order, together they mint one sequence: the identifiers past the declared
  states one by one, and the greatest word from where it is reached.

  * `Request.action?` is the action that a request runs, `Request.minted` lists what is
    minted for its generators;
  * `Family` is an automaton with its copies, `Family.Run` a run of requests to them,
    with all that is minted in it;
  * `Spec.toNat_seed`: the seed is one past the greatest declared state;
  * `Family.Drawn.step` and `drawn_of_run`: what was minted is what a counter at the seed
    gives, and the members draw from there on;
  * `minted_of_run`: the identifiers by number, who they are bound to, and that they are
    past the declared states and distinct below the greatest word.
-/
import AdaptiveAutomata.Proofs.Identifiers
import AdaptiveAutomata.Proofs.Resuming
import Mathlib.Data.List.MinMax

namespace AdaptiveAutomata

/-! ## The seed -/

namespace Spec

/-- The greatest identifier that is the name of a state; zero if there is none. -/
def lastState (s : Spec) : Nat :=
  ((s.stateNames.filterMap StateId.parse?).map UInt64.toNat).foldr max 0

theorem le_lastState {s : Spec} {name : String} {id : StateId} (hn : name ∈ s.stateNames)
    (hp : StateId.parse? name = some id) : id.toNat ≤ s.lastState := by
  have hmem : id.toNat ∈ (s.stateNames.filterMap StateId.parse?).map UInt64.toNat :=
    List.mem_map_of_mem (List.mem_filterMap.2 ⟨name, hn, hp⟩)
  exact List.le_max_of_le hmem le_rfl

/-- The seed is one past it: the counter does not wrap, because the greatest word is no
    name of a state. -/
theorem toNat_seed (s : Spec) : s.seed.toNat = s.lastState + 1 := by
  rcases seed_eq s with ⟨hs, hn⟩ | ⟨g, hg, hle, hs⟩
  · rw [hs, lastState, hn]
    rfl
  · obtain ⟨name, hname, hp⟩ := List.mem_filterMap.1 hg
    have hlt := UInt64.lt_iff_toNat_lt.1 (StateId.lt_greatest_of_parse? hp)
    have hword : StateId.greatest.toNat < 2 ^ 64 := StateId.greatest.toNat_lt
    have hlast : s.lastState = g.toNat := by
      refine Nat.le_antisymm (List.max_le_of_forall_le _ _ fun n hn => ?_) (le_lastState hname hp)
      obtain ⟨i, hi, rfl⟩ := List.mem_map.1 hn
      exact UInt64.le_iff_toNat_le.1 (hle i hi)
    rw [hs, UInt64.toNat_add, UInt64.toNat_one, hlast]
    omega

end Spec

/-! ## What a request runs -/

namespace Automaton

variable {a : Automaton} {w : World} {o : Option (Reference Value)} {action : Action}
  {arguments : List Value}

/-- The action that a reference calls, with its arguments. -/
def called (a : Automaton) (w : World) (r : Reference Value) : Option (Action × List Value) :=
  let r := r.resolve w.store
  (w.store.name? r.name).bind fun name => (a.actions.get? name).map (·, r.arguments)

theorem fireCall_of_called (h : o.bind (a.called w) = some (action, arguments)) :
    a.fireCall o w = .ok (true, a.run action arguments w) := by
  obtain ⟨r, rfl, hr⟩ := Option.bind_eq_some_iff.1 h
  obtain ⟨name, hn, hg⟩ := Option.bind_eq_some_iff.1 hr
  obtain ⟨b, hb, heq⟩ := Option.map_eq_some_iff.1 hg
  obtain ⟨rfl, rfl⟩ := Prod.mk.inj heq
  exact fireCall_eq_ok_iff.2 (.inr ⟨r, rfl, rfl, fireReference_eq_ok_iff.2 ⟨name, b, hn, hb, rfl⟩⟩)

theorem fireCall_of_not_called (h : o.bind (a.called w) = none) :
    a.fireCall o w = .ok (false, a, w) ∨ ∃ e, a.fireCall o w = .error e := by
  cases hf : a.fireCall o w with
  | error e => exact .inr ⟨e, rfl⟩
  | ok x =>
    rcases fireCall_eq_ok_iff.1 (show a.fireCall o w = .ok (x.1, x.2) from hf) with
      ⟨-, hc, hx⟩ | ⟨r, rfl, -, hr⟩
    · exact .inl (by rw [← hx, ← hc])
    · obtain ⟨name, b, hn, hb, -⟩ := fireReference_eq_ok_iff.1 hr
      have hn : (w.store.name? (r.resolve w.store).name) = some name := hn
      simp [called, hn, hb] at h

end Automaton

namespace Request

variable {q : Request} {x : Automaton × World} {action : Action} {arguments : List Value}

/-- The action that is run on a request, with its arguments. -/
def action? (x : Automaton × World) : Request → Option (Action × List Value)
  | fire name arguments => (x.1.actions.get? name).map (·, arguments)
  | reference r => x.1.called x.2 r
  | prior current => (current.entry? x.1).bind fun e => e.prior.bind (x.1.called x.2)
  | posterior current => (current.entry? x.1).bind fun e => e.posterior.bind (x.1.called x.2)

/-- What is minted on a request: each generator of the action that is run with its
    identifier, in their order. -/
def minted (q : Request) (x : Automaton × World) : List (String × StateId) :=
  match q.action? x with
  | some (action, arguments) =>
    (action.bind arguments x.2.store (x.1.counter x.2)).1.generated.reverse
  | none => []

/-- **If there is an action**, it is run. -/
theorem perform_of_action? (h : q.action? x = some (action, arguments)) :
    q.perform x = (.ok true, x.1.run action arguments x.2) := by
  suffices ho : q.outcome x = .ok (true, x.1.run action arguments x.2) by rw [perform, ho]
  cases q with
  | fire name args =>
    obtain ⟨b, hb, heq⟩ := Option.map_eq_some_iff.1 h
    obtain ⟨rfl, rfl⟩ := Prod.mk.inj heq
    rw [outcome, Automaton.fire_eq_ok_iff.2 ⟨b, hb, rfl⟩]
    rfl
  | reference r => exact Automaton.fireCall_of_called (o := some r) h
  | prior current | posterior current =>
    obtain ⟨e, he, hc⟩ := Option.bind_eq_some_iff.1 h
    rw [outcome, Current.fire, he]
    exact Automaton.fireCall_of_called hc

/-- **If there is none**, all stays as it was, and the answer is not that something was
    run. -/
theorem perform_of_action?_none (h : q.action? x = none) :
    (q.perform x).2 = x ∧ (q.perform x).1 ≠ .ok true := by
  suffices ho : q.outcome x = .ok (false, x) ∨ ∃ e, q.outcome x = .error e by
    rw [perform]
    rcases ho with ho | ⟨e, ho⟩ <;> simp [ho]
  cases q with
  | fire name args =>
    rw [action?, Option.map_eq_none_iff] at h
    exact .inr ⟨.unknownAction name, by rw [outcome, Automaton.fire, h]; rfl⟩
  | reference r => exact Automaton.fireCall_of_not_called (o := some r) h
  | prior current | posterior current =>
    rw [outcome, Current.fire]
    cases he : current.entry? x.1 with
    | none => exact .inl rfl
    | some e =>
      rw [action?, he] at h
      exact Automaton.fireCall_of_not_called h

theorem exists_get?_of_action? (h : q.action? x = some (action, arguments)) :
    ∃ name, x.1.actions.get? name = some action := by
  have hcalled {r : Reference Value} (h : x.1.called x.2 r = some (action, arguments)) :
      ∃ name, x.1.actions.get? name = some action := by
    obtain ⟨name, -, hg⟩ := Option.bind_eq_some_iff.1 h
    obtain ⟨b, hb, heq⟩ := Option.map_eq_some_iff.1 hg
    exact ⟨name, (Prod.mk.inj heq).1 ▸ hb⟩
  cases q with
  | fire name args =>
    obtain ⟨b, hb, heq⟩ := Option.map_eq_some_iff.1 h
    exact ⟨name, (Prod.mk.inj heq).1 ▸ hb⟩
  | reference r => exact hcalled h
  | prior current | posterior current =>
    obtain ⟨e, -, hc⟩ := Option.bind_eq_some_iff.1 h
    obtain ⟨r, -, hr⟩ := Option.bind_eq_some_iff.1 hc
    exact hcalled hr

end Request

/-! ## What generators are bound to -/

/-- What is minted for the generators of an action: one identifier for each, in their order.
    As a generator a name is bound to the last of its identifiers, and it stands for that one
    unless it is a variable too. -/
structure Action.Draws (action : Action) (env : Environment)
    (minted : List (String × StateId)) : Prop where
  names : minted.map Prod.fst = action.generators
  last : ∀ {name id earlier later}, minted = earlier ++ (name, id) :: later →
    name ∉ later.map Prod.fst → env.generated.lookup name = some id ∧
      (name ∉ action.freeVariables → env.lookup name = some (.minted id))

namespace Action

variable (action : Action) (arguments : List Value) (s : Store) (counter : Counter)

theorem reverse_generated_bind :
    (action.bind arguments s counter).1.generated.reverse =
      action.generators.zip (counter.mints action.generators.length).1 :=
  List.reverse_reverse _

theorem map_snd_generated_bind :
    (action.bind arguments s counter).1.generated.reverse.map Prod.snd =
      (counter.mints action.generators.length).1 := by
  rw [reverse_generated_bind, List.map_snd_zip (by rw [Counter.length_mints])]

theorem draws_bind : action.Draws (action.bind arguments s counter).1
    (action.bind arguments s counter).1.generated.reverse where
  names := by
    rw [reverse_generated_bind, List.map_fst_zip (by rw [Counter.length_mints])]
  last := by
    intro name id earlier later heq hlater
    have hids : (action.bind arguments s counter).1.generated.lookup name = some id := by
      rw [List.reverse_eq_iff, List.reverse_append, List.reverse_cons, List.append_assoc] at heq
      refine List.lookup_eq_some_iff.2 ⟨later.reverse, earlier.reverse, heq, fun pair hp => ?_⟩
      exact bne_iff_ne.2 fun h => hlater (h ▸ List.mem_map_of_mem (List.mem_reverse.1 hp))
    refine ⟨hids, fun hv => ?_⟩
    have hcells : (action.bind arguments s counter).1.cells.lookup name = none := by
      rw [List.lookup_eq_none_iff]
      rintro ⟨other, c⟩ hc
      have hmem := (List.of_mem_zip (List.mem_reverse.1 hc)).1
      exact bne_iff_ne.2 fun h => hv (h ▸ hmem)
    rw [Environment.lookup, hcells, hids]
    rfl

end Action

namespace Request

variable {q : Request} {x : Automaton × World} {action : Action} {arguments : List Value}

theorem minted_of_action? (h : q.action? x = some (action, arguments)) :
    q.minted x = (action.bind arguments x.2.store (x.1.counter x.2)).1.generated.reverse := by
  rw [minted, h]

theorem minted_of_action?_none (h : q.action? x = none) : q.minted x = [] := by
  rw [minted, h]

/-- A request leaves the actions of an automaton and the place of its counter. -/
theorem frame_perform (q : Request) (x : Automaton × World) :
    (q.perform x).2.1.generator = x.1.generator ∧ (q.perform x).2.1.actions = x.1.actions ∧
      (q.perform x).2.2.counters.size = x.2.counters.size := by
  cases h : q.action? x with
  | none =>
    rw [(perform_of_action?_none h).1]
    exact ⟨rfl, rfl, rfl⟩
  | some call =>
    rw [perform_of_action? h]
    refine ⟨rfl, rfl, ?_⟩
    simp [Automaton.run, World.setCounter]

/-- **One request** draws as many identifiers from the counter of the automaton as are
    minted on it, and these are the ones. -/
theorem mints_perform (q : Request) (h : x.1.generator < x.2.counters.size) :
    (x.1.counter x.2).mints (q.minted x).length =
      ((q.minted x).map Prod.snd, (q.perform x).2.1.counter (q.perform x).2.2) := by
  cases ha : q.action? x with
  | none =>
    rw [minted_of_action?_none ha, (perform_of_action?_none ha).1]
    rfl
  | some call =>
    obtain ⟨action, arguments⟩ := call
    have hids := action.map_snd_generated_bind arguments x.2.store (x.1.counter x.2)
    have hlen := congrArg List.length hids
    rw [List.length_map, Counter.length_mints] at hlen
    rw [minted_of_action? ha, perform_of_action? ha, hlen, hids,
      Automaton.counter_run h action arguments]

end Request

/-! ## Automata that share a counter -/

/-- An automaton with its copies, and the world they share. -/
structure Family where
  members : List Automaton
  world : World

namespace Family

variable {spec : Spec} {recording : Bool} {w₀ : World} {F F₀ F' : Family}
  {log new : List (String × StateId)} {place : Nat} {a : Automaton}

/-- A new automaton by itself. -/
def build (spec : Spec) (recording : Bool) (w : World) : Family :=
  ⟨[(Automaton.build spec recording w).1], (Automaton.build spec recording w).2⟩

/-- One step of a family, with what is minted in it: a member is copied, something is asked
    of a member, or something happens in the world that leaves their counter alone. -/
inductive Step : Family → List (String × StateId) → Family → Prop
  | copy {F : Family} {a : Automaton} (ha : a ∈ F.members) :
      Step F [] { F with members := F.members ++ [a] }
  | request {F : Family} {i : Nat} {a : Automaton} (ha : F.members[i]? = some a) (q : Request) :
      Step F (q.minted (a, F.world))
        ⟨F.members.set i (q.perform (a, F.world)).2.1, (q.perform (a, F.world)).2.2⟩
  | outside {F : Family} {w : World} (hsize : F.world.counters.size ≤ w.counters.size)
      (h : ∀ a ∈ F.members, a.counter w = a.counter F.world) : Step F [] { F with world := w }

/-- Steps one after the other, with all that is minted in them. -/
inductive Run (F₀ : Family) : List (String × StateId) → Family → Prop
  | start : Run F₀ [] F₀
  | step {log new : List (String × StateId)} {F F' : Family} (h : Run F₀ log F)
      (hs : Step F new F') : Run F₀ (log ++ new) F'

/-- All members draw from one counter, and it is where a counter that started at the seed is
    once it gave the identifiers that were minted. -/
structure Drawn (spec : Spec) (log : List (String × StateId)) (F : Family) : Prop where
  place : ∃ place < F.world.counters.size, ∀ a ∈ F.members, a.generator = place
  actions : ∀ a ∈ F.members, a.actions = .ofSpec spec
  counter : ∀ a ∈ F.members,
    a.counter F.world = ((⟨spec.seed⟩ : Counter).mints log.length).2
  minted : log.map Prod.snd = ((⟨spec.seed⟩ : Counter).mints log.length).1

namespace Drawn

theorem build (spec : Spec) (recording : Bool) (w : World) :
    (Family.build spec recording w).Drawn spec [] where
  place := by
    refine ⟨w.counters.size, ?_, fun a ha => ?_⟩
    · simp [Family.build, Automaton.build]
    · rw [List.mem_singleton.1 ha]
      rfl
  actions a ha := by
    rw [List.mem_singleton.1 ha]
    rfl
  counter a ha := by
    rw [List.mem_singleton.1 ha]
    exact Automaton.counter_build spec recording w
  minted := rfl

theorem generator_lt (h : F.Drawn spec log) (ha : a ∈ F.members) :
    a.generator < F.world.counters.size := by
  obtain ⟨place, hlt, hp⟩ := h.place
  exact hp a ha ▸ hlt

/-- After a request, the member that it was made to and all others find the counter past
    what was minted on it. -/
theorem request (h : F.Drawn spec log) {i : Nat} (ha : F.members[i]? = some a) (q : Request) :
    Drawn spec (log ++ q.minted (a, F.world))
      ⟨F.members.set i (q.perform (a, F.world)).2.1, (q.perform (a, F.world)).2.2⟩ := by
  have ham := List.mem_of_getElem? ha
  obtain ⟨hgen, hact, hsize⟩ := q.frame_perform (a, F.world)
  have hm := q.mints_perform (x := (a, F.world)) (h.generator_lt ham)
  have hc : (⟨spec.seed⟩ : Counter).mints (log ++ q.minted (a, F.world)).length =
      ((log ++ q.minted (a, F.world)).map Prod.snd,
        (q.perform (a, F.world)).2.1.counter (q.perform (a, F.world)).2.2) := by
    rw [List.length_append, Counter.mints_add, ← h.counter a ham, hm, ← h.minted, List.map_append]
  obtain ⟨place, hlt, hp⟩ := h.place
  have hplace : ∀ b ∈ F.members.set i (q.perform (a, F.world)).2.1, b.generator = place := by
    intro b hb
    rcases List.mem_or_eq_of_mem_set hb with hb | rfl
    · exact hp b hb
    · exact hgen.trans (hp a ham)
  refine ⟨⟨place, hsize ▸ hlt, hplace⟩, fun b hb => ?_, fun b hb => ?_, ?_⟩
  · rcases List.mem_or_eq_of_mem_set hb with hb | rfl
    · exact h.actions b hb
    · exact hact.trans (h.actions a ham)
  · rw [hc, Automaton.counter, hplace b hb, ← hp a ham, ← hgen]
    rfl
  · rw [hc]

/-- **One step**: whoever is asked, the next identifiers of the one sequence are minted. -/
theorem step (h : F.Drawn spec log) (hs : Step F new F') : F'.Drawn spec (log ++ new) := by
  cases hs with
  | @copy a ha =>
    rw [List.append_nil]
    have hmem {b : Automaton} (hb : b ∈ F.members ++ [a]) : b ∈ F.members := by
      rcases List.mem_append.1 hb with hb | hb
      · exact hb
      · exact List.mem_singleton.1 hb ▸ ha
    obtain ⟨place, hlt, hp⟩ := h.place
    exact ⟨⟨place, hlt, fun b hb => hp b (hmem hb)⟩, fun b hb => h.actions b (hmem hb),
      fun b hb => h.counter b (hmem hb), h.minted⟩
  | request ha q => exact h.request ha q
  | outside hsize hw =>
    rw [List.append_nil]
    obtain ⟨place, hlt, hp⟩ := h.place
    exact ⟨⟨place, Nat.lt_of_lt_of_le hlt hsize, hp⟩, h.actions,
      fun b hb => (hw b hb).trans (h.counter b hb), h.minted⟩

end Drawn

/-- **A run**: all that is minted is what a counter at the seed gives. -/
theorem drawn_of_run (h : Run (build spec recording w₀) log F) : F.Drawn spec log := by
  induction h with
  | start => exact .build spec recording w₀
  | step _ hs ih => exact ih.step hs

namespace Drawn

theorem toNat_getElem? (h : F.Drawn spec log) {i : Nat} {x : String × StateId}
    (hx : log[i]? = some x) : x.2.toNat = min (spec.lastState + 1 + i) (2 ^ 64 - 1) := by
  obtain ⟨hi, -⟩ := List.getElem?_eq_some_iff.1 hx
  have hid := congrArg (·[i]?) h.minted
  simp only [List.getElem?_map, hx, Counter.getElem?_mints hi, Option.map_some,
    Option.some.injEq] at hid
  rw [hid, Counter.toNat_next_mints, Spec.toNat_seed]

/-- A request to a member runs an action of the description and mints for its generators, or
    runs nothing, changes nothing and mints nothing. -/
theorem perform (h : F.Drawn spec log) (ha : a ∈ F.members) (q : Request) :
    (∃ b ∈ spec.actions, ∃ arguments,
      q.perform (a, F.world) = (.ok true, a.run (.ofSpec b) arguments F.world) ∧
      (Action.ofSpec b).Draws
        ((Action.ofSpec b).bind arguments F.world.store (a.counter F.world)).1
        (q.minted (a, F.world))) ∨
    (q.perform (a, F.world)).1 ≠ .ok true ∧ (q.perform (a, F.world)).2 = (a, F.world) ∧
      q.minted (a, F.world) = [] := by
  cases hq : q.action? (a, F.world) with
  | none =>
    obtain ⟨hx, hne⟩ := Request.perform_of_action?_none hq
    exact .inr ⟨hne, hx, Request.minted_of_action?_none hq⟩
  | some call =>
    obtain ⟨action, arguments⟩ := call
    obtain ⟨name, hg⟩ := Request.exists_get?_of_action? hq
    rw [h.actions a ha] at hg
    obtain ⟨b, hb, rfl⟩ := List.mem_map.1 (Registry.mem_of_get?_ofSpec hg)
    refine .inl ⟨b, hb, arguments, Request.perform_of_action? hq, ?_⟩
    rw [Request.minted_of_action? hq]
    exact Action.draws_bind ..

end Drawn

/-- **What a family mints**, in a run of any requests to an automaton and its copies.

    * The identifier minted at a position is the one past the greatest declared state by as
      many, or the greatest word if that is less.
    * A request to a member runs an action and mints one identifier for each of its
      generators, in their order, the last one of a name for the name; or it runs nothing,
      changes nothing and mints nothing.
    * All identifiers are past the declared states, none is zero, and two are the same only
      at the greatest word. -/
theorem minted_of_run (h : Run (build spec recording w₀) log F) :
    (∀ i x, log[i]? = some x → x.2.toNat = min (spec.lastState + 1 + i) (2 ^ 64 - 1)) ∧
    (∀ a ∈ F.members, ∀ q : Request,
      (∃ b ∈ spec.actions, ∃ arguments,
        q.perform (a, F.world) = (.ok true, a.run (.ofSpec b) arguments F.world) ∧
        (Action.ofSpec b).Draws
          ((Action.ofSpec b).bind arguments F.world.store (a.counter F.world)).1
          (q.minted (a, F.world))) ∨
      (q.perform (a, F.world)).1 ≠ .ok true ∧ (q.perform (a, F.world)).2 = (a, F.world) ∧
        q.minted (a, F.world) = []) ∧
    (∀ x ∈ log, x.2 ≠ 0 ∧
      ∀ name ∈ spec.stateNames, ∀ id, StateId.parse? name = some id → id < x.2) ∧
    ∀ (i j : Nat) (x y : String × StateId), i < j → log[i]? = some x → log[j]? = some y →
      x.2 = y.2 → x.2 = StateId.greatest := by
  have hd := drawn_of_run h
  have hg : StateId.greatest.toNat = 2 ^ 64 - 1 := rfl
  refine ⟨fun i x => hd.toNat_getElem?, fun a => hd.perform, fun x hx => ?_,
    fun i j x y hij hx hy hxy => ?_⟩
  · obtain ⟨i, hi⟩ := List.mem_iff_getElem?.1 hx
    have hid := hd.toNat_getElem? hi
    constructor
    · intro h₀
      rw [h₀, UInt64.toNat_zero] at hid
      omega
    · intro name hn id hp
      have hle := Spec.le_lastState hn hp
      have hlt := UInt64.lt_iff_toNat_lt.1 (StateId.lt_greatest_of_parse? hp)
      rw [UInt64.lt_iff_toNat_lt]
      omega
  · have hi := hd.toNat_getElem? hx
    have hj := hd.toNat_getElem? hy
    rw [← hxy] at hj
    refine UInt64.toNat_inj.1 ?_
    omega

end Family

/-! ## At the greatest word -/

/-- An action that binds one name to two identifiers. -/
def Spec.twiceAction : Spec.Action :=
  (Action.named "twice").withGenerator "g*" |>.withGenerator "g*"
    |>.withStep (Step.of .add "1" "g*")

/-- Its states come close to the greatest word. -/
def Spec.closing : Spec where
  transitions := [.between "1" "18446744073709551613"]
  submachines := []
  actions := [twiceAction]

/-- A copy runs the action, then the automaton does, with a request in between that fails: the
    greatest word is minted from the second identifier on. -/
theorem Family.minted_closing : ∃ log F, Run (build Spec.closing false .initial) log F ∧
    log = [("g*", 18446744073709551614), ("g*", StateId.greatest), ("g*", StateId.greatest),
      ("g*", StateId.greatest)] ∧
    ∀ i x, log[i]? = some x → x.2.toNat = min (Spec.closing.lastState + 1 + i) (2 ^ 64 - 1) := by
  let F₀ := build Spec.closing false .initial
  have h : Run F₀ _ _ := .step (.step (.step (.step .start (.copy List.mem_cons_self))
    (.request (i := 1) rfl (.fire "twice" []))) (.request (i := 0) rfl (.fire "once" [])))
    (.request (i := 0) rfl (.fire "twice" []))
  exact ⟨_, _, h, rfl, (minted_of_run h).1⟩

end AdaptiveAutomata
