/-
  Putting one of several automata back.

  The copies of an automaton have tables and histories of their own, but one counter.  What is
  put back in one of them leaves the tables and the histories of the others alone, and sets
  the counter for all.

  * `Family.Turn` is something that happens in a family, `Family.takeAll` a run, with who
    minted what in it;
  * `Family.Shares.takeAll`: whoever mints, the identifiers come from the one counter;
  * `Family.takeAll_replicate`: a member that minted once can mint all that the counter still
    gives;
  * `restored_beside`: what the others keep, and when they mint nothing twice;
  * `minted_twice`: an identifier can be minted twice by one automaton.
-/
import AdaptiveAutomata.Proofs.Minting

namespace AdaptiveAutomata

namespace Family

/-! ## Runs of a family -/

/-- Something that happens in a family: a member is copied, or something is asked of it. -/
inductive Turn where
  | copy (i : Nat)
  | request (i : Nat) (q : Request)

/-- What is minted in a turn, with the place of the member that mints it, and the family after
    it.  Nothing happens if there is no such member. -/
def take (F : Family) : Turn → List (Nat × StateId) × Family
  | .copy i =>
    match F.members[i]? with
    | some a => ([], { F with members := F.members ++ [a] })
    | none => ([], F)
  | .request i q =>
    match F.members[i]? with
    | some a => ((q.minted (a, F.world)).map fun x => (i, x.2),
        ⟨F.members.set i (q.perform (a, F.world)).2.1, (q.perform (a, F.world)).2.2⟩)
    | none => ([], F)

/-- What is minted in several turns, and the family after them. -/
def takeAll (F : Family) : List Turn → List (Nat × StateId) × Family
  | [] => ([], F)
  | t :: ts =>
    let (log, F) := F.take t
    let (logs, F) := F.takeAll ts
    (log ++ logs, F)

theorem takeAll_cons (t : Turn) (ts : List Turn) (F : Family) :
    F.takeAll (t :: ts) = ((F.take t).1 ++ ((F.take t).2.takeAll ts).1, ((F.take t).2.takeAll ts).2) :=
  rfl

/-- All members draw from the counter at one place. -/
def Shares (F : Family) (place : Nat) : Prop :=
  place < F.world.counters.size ∧ ∀ a ∈ F.members, a.generator = place

theorem shares_build (spec : Spec) (recording : Bool) (w : World) :
    (build spec recording w).Shares w.counters.size := by
  refine ⟨by simp [build, Automaton.build], fun a ha => ?_⟩
  rw [List.mem_singleton.1 ha]
  rfl

variable {F F₀ : Family} {place i : Nat} {a : Automaton} {t : Turn} {ts : List Turn}

/-- **One turn** leaves the members with one counter, and what is minted is what it gives. -/
theorem Shares.take (h : F.Shares place) (t : Turn) :
    (F.take t).2.Shares place ∧ (F.world.counter place).mints (F.take t).1.length =
      ((F.take t).1.map Prod.snd, (F.take t).2.world.counter place) := by
  obtain ⟨hlt, hplace⟩ := h
  cases t with
  | copy i =>
    rw [Family.take]
    cases ha : F.members[i]? with
    | none => exact ⟨⟨hlt, hplace⟩, rfl⟩
    | some a =>
      refine ⟨⟨hlt, fun b hb => ?_⟩, rfl⟩
      rcases List.mem_append.1 hb with hb | hb
      · exact hplace b hb
      · rw [List.mem_singleton.1 hb]
        exact hplace a (List.mem_of_getElem? ha)
  | request i q =>
    rw [Family.take]
    cases ha : F.members[i]? with
    | none => exact ⟨⟨hlt, hplace⟩, rfl⟩
    | some a =>
      have hp := hplace a (List.mem_of_getElem? ha)
      obtain ⟨hgen, -, hsize⟩ := q.frame_perform (a, F.world)
      have hmints := q.mints_perform (x := (a, F.world)) (hp ▸ hlt)
      refine ⟨⟨hsize ▸ hlt, fun b hb => ?_⟩, ?_⟩
      · rcases List.mem_or_eq_of_mem_set hb with hb | rfl
        · exact hplace b hb
        · exact hgen.trans hp
      · rw [Automaton.counter, Automaton.counter, hgen] at hmints
        rw [List.length_map, List.map_map, ← hp]
        exact hmints

/-- **Any number of turns**: whoever mints, the identifiers come from the one counter. -/
theorem Shares.takeAll (h : F.Shares place) (ts : List Turn) :
    (F.takeAll ts).2.Shares place ∧ (F.world.counter place).mints (F.takeAll ts).1.length =
      ((F.takeAll ts).1.map Prod.snd, (F.takeAll ts).2.world.counter place) := by
  induction ts generalizing F with
  | nil => exact ⟨h, rfl⟩
  | cons t ts ih =>
    obtain ⟨hshares, hfirst⟩ := h.take t
    obtain ⟨hlast, hrest⟩ := ih hshares
    refine ⟨hlast, ?_⟩
    rw [takeAll_cons, List.length_append, Counter.mints_add, hfirst, hrest, List.map_append]

/-- Nothing is minted that is before the counter. -/
theorem Shares.le_of_mem_takeAll (h : F.Shares place) {id : StateId}
    (hid : (i, id) ∈ (F.takeAll ts).1) : (F.world.counter place).next ≤ id := by
  have hmem : id ∈ ((F.world.counter place).mints (F.takeAll ts).1.length).1 := by
    rw [(h.takeAll ts).2]
    exact List.mem_map.2 ⟨_, hid, rfl⟩
  exact (Counter.mem_mints hmem).1

/-! ## Who can mint -/

/-- A member keeps its place and its actions. -/
theorem exists_member_take (ha : F.members[i]? = some a) (t : Turn) :
    ∃ b, (F.take t).2.members[i]? = some b ∧ b.actions = a.actions := by
  obtain ⟨hi, hai⟩ := List.getElem?_eq_some_iff.1 ha
  cases t with
  | copy j =>
    rw [Family.take]
    cases F.members[j]? with
    | none => exact ⟨a, ha, rfl⟩
    | some b => exact ⟨a, (List.getElem?_append_left hi).trans ha, rfl⟩
  | request j q =>
    rw [Family.take]
    cases hb : F.members[j]? with
    | none => exact ⟨a, ha, rfl⟩
    | some b =>
      by_cases hij : j = i
      · subst hij
        obtain rfl : a = b := Option.some.inj (ha.symm.trans hb)
        exact ⟨_, List.getElem?_set_self hi, (q.frame_perform (a, F.world)).2.1⟩
      · exact ⟨a, (List.getElem?_set_ne hij).trans ha, rfl⟩

theorem exists_member_takeAll (ha : F.members[i]? = some a) (ts : List Turn) :
    ∃ b, (F.takeAll ts).2.members[i]? = some b ∧ b.actions = a.actions := by
  induction ts generalizing F a with
  | nil => exact ⟨a, ha, rfl⟩
  | cons t ts ih =>
    obtain ⟨b, hb, hab⟩ := exists_member_take ha t
    obtain ⟨c, hc, hbc⟩ := ih hb
    exact ⟨c, hc, hbc.trans hab⟩

/-- A member mints only if it has an action with a generator. -/
theorem exists_generator_of_mem_take {id : StateId} (h : (i, id) ∈ (F.take t).1) :
    ∃ a name action, F.members[i]? = some a ∧ a.actions.get? name = some action ∧
      0 < action.generators.length := by
  cases t with
  | copy j =>
    rw [Family.take] at h
    cases hb : F.members[j]? <;> rw [hb] at h <;> cases h
  | request j q =>
    rw [Family.take] at h
    cases hb : F.members[j]? with
    | none =>
      rw [hb] at h
      cases h
    | some b =>
      rw [hb] at h
      obtain ⟨x, hx, heq⟩ := List.mem_map.1 h
      obtain ⟨rfl, rfl⟩ := Prod.mk.inj heq
      cases hq : q.action? (b, F.world) with
      | none =>
        rw [Request.minted_of_action?_none hq] at hx
        cases hx
      | some call =>
        obtain ⟨action, arguments⟩ := call
        obtain ⟨name, hget⟩ := Request.exists_get?_of_action? hq
        rw [Request.minted_of_action? hq, Action.reverse_generated_bind] at hx
        exact ⟨b, name, action, hb, hget, List.length_pos_of_mem (List.of_mem_zip hx).1⟩

theorem exists_generator_of_mem_takeAll {id : StateId} (h : (i, id) ∈ (F.takeAll ts).1)
    (ha : (F.takeAll ts).2.members[i]? = some a) :
    ∃ name action, a.actions.get? name = some action ∧ 0 < action.generators.length := by
  induction ts generalizing F with
  | nil => cases h
  | cons t ts ih =>
    rcases List.mem_append.1 h with h | h
    · obtain ⟨b, name, action, hb, hget, hpos⟩ := exists_generator_of_mem_take h
      obtain ⟨c, hc, hbc⟩ := exists_member_takeAll hb (t :: ts)
      obtain rfl : c = a := Option.some.inj (hc.symm.trans ha)
      exact ⟨name, action, hbc ▸ hget, hpos⟩
    · exact ih h ha

/-- **A member that runs one action again and again** mints one by one what the counter
    gives. -/
theorem takeAll_replicate (h : F.Shares place) (ha : F.members[i]? = some a) {name : String}
    {action : Action} (hget : a.actions.get? name = some action) (n : Nat) :
    (F.takeAll (.replicate n (.request i (.fire name [])))).1 =
      ((F.world.counter place).mints (n * action.generators.length)).1.map (i, ·) := by
  induction n generalizing F a with
  | zero =>
    rw [Nat.zero_mul]
    rfl
  | succ n ih =>
    obtain ⟨hshares, hfirst⟩ := h.take (.request i (.fire name []))
    obtain ⟨b, hb, hab⟩ := exists_member_take ha (.request i (.fire name []))
    have hq : (Request.fire name []).action? (a, F.world) = some (action, []) := by
      rw [Request.action?, hget, Option.map_some]
    have hlog : (F.take (.request i (.fire name []))).1 =
        ((F.world.counter place).mints action.generators.length).1.map (i, ·) := by
      rw [Family.take, ha, ← h.2 a (List.mem_of_getElem? ha)]
      dsimp only
      rw [Request.minted_of_action? hq, ← Automaton.counter, ← action.map_snd_generated_bind [],
        List.map_map]
      rfl
    have hlen := congrArg List.length hlog
    rw [List.length_map, Counter.length_mints] at hlen
    rw [hlen] at hfirst
    rw [List.replicate_succ, takeAll_cons, ih hshares hb (hab ▸ hget), hlog, Nat.succ_mul,
      Nat.add_comm, Counter.mints_add, hfirst, List.map_append, hlog, List.map_map]

end Family

/-! ## Putting back -/

theorem Checkpoint.eq_restore_of_restoreInto {c : Checkpoint Value} {a : Automaton} {w : World}
    {y : Automaton × World} (h : c.restoreInto a w = .ok y) : y = a.restore c.entries c.next w := by
  rw [restoreInto, checkVersion] at h
  split at h
  · by_cases hm : c.main = a.main
    · rw [if_pos hm] at h
      exact (Except.ok.inj h).symm
    · rw [if_neg hm] at h
      cases h
  · cases h

namespace Family

variable {F : Family} {place i j : Nat} {a b : Automaton} {c : Checkpoint Value}

/-- The family in which a member is put back. -/
def restore (F : Family) (j : Nat) (b : Automaton) (c : Checkpoint Value) : Family :=
  ⟨F.members.set j (b.restore c.entries c.next F.world).1,
    (b.restore c.entries c.next F.world).2⟩

/-- The members still have one counter, and it is where the checkpoint has it. -/
theorem Shares.restore (h : F.Shares place) (hb : F.members[j]? = some b) :
    (F.restore j b c).Shares place ∧ (F.restore j b c).world.counter place = ⟨c.next⟩ := by
  have hp := h.2 b (List.mem_of_getElem? hb)
  refine ⟨⟨?_, fun d hd => ?_⟩, ?_⟩
  · simpa [Family.restore, Automaton.restore, World.setCounter] using h.1
  · rcases List.mem_or_eq_of_mem_set hd with hd | rfl
    · exact h.2 d hd
    · exact hp
  · subst hp
    exact World.counter_setCounter_self h.1 ⟨c.next⟩

/-- If the counter is put back to an identifier or before it, a member with a generator can
    come to mint it. -/
theorem exists_turns_of_le (h : F.Shares place) (ha : F.members[i]? = some a) {name : String}
    {action : Action} (hget : a.actions.get? name = some action)
    (hpos : 0 < action.generators.length) {id : StateId}
    (hle : (F.world.counter place).next ≤ id) : ∃ ts, (i, id) ∈ (F.takeAll ts).1 := by
  obtain ⟨k, hk⟩ := Nat.exists_eq_add_of_le (UInt64.le_iff_toNat_le.1 hle)
  have hlt : k < (k + 1) * action.generators.length :=
    Nat.lt_of_lt_of_le (Nat.lt_succ_self k) (Nat.le_mul_of_pos_right _ hpos)
  refine ⟨.replicate (k + 1) (.request i (.fire name [])), ?_⟩
  rw [takeAll_replicate h ha hget]
  refine List.mem_map.2 ⟨id, ?_, rfl⟩
  have hid : ((F.world.counter place).mints k).2.next = id := by
    have := id.toNat_lt
    refine UInt64.toNat_inj.1 ?_
    rw [Counter.toNat_next_mints]
    omega
  exact hid ▸ List.mem_of_getElem? (Counter.getElem?_mints hlt _)

end Family

open Family in
/-- **Putting one of several automata back** to a checkpoint that it accepts.  Each other
    member has the table and the history that it had, and its entries read as before.  Its next
    identifier is that of the checkpoint.  So it does not mint again what it has minted,
    below the greatest word, exactly if all that is less than the identifier of the
    checkpoint. -/
theorem restored_beside {F₀ F : Family} {place : Nat} (h₀ : F₀.Shares place) {ts : List Turn}
    {log : List (Nat × StateId)} (hF : F₀.takeAll ts = (log, F)) {i j : Nat} (hij : i ≠ j)
    {a b : Automaton} (ha : F.members[i]? = some a) (hb : F.members[j]? = some b)
    {c : Checkpoint Value} {y : Automaton × World} (hc : c.restoreInto b F.world = .ok y) :
    (F.members.set j y.1)[i]? = some a ∧
    a.table.asRead y.2.store = a.table.asRead F.world.store ∧
    (a.counter y.2).next = c.next ∧
    ((∀ ts' id, (i, id) ∈ log → (i, id) ∈ (takeAll ⟨F.members.set j y.1, y.2⟩ ts').1 →
        id = StateId.greatest) ↔
      ∀ id, (i, id) ∈ log → id ≠ StateId.greatest → id < c.next) := by
  obtain rfl := Checkpoint.eq_restore_of_restoreInto hc
  have hshares : F.Shares place := by
    have hlast := (h₀.takeAll ts).1
    rwa [hF] at hlast
  obtain ⟨hback, hcounter⟩ := hshares.restore (c := c) hb
  have hkept : (F.restore j b c).members[i]? = some a := (List.getElem?_set_ne hij.symm).trans ha
  refine ⟨hkept, rfl, ?_, fun hall id hid hg => ?_, fun hlt ts' id hid hid' => ?_⟩
  · rw [Automaton.counter, hshares.2 a (List.mem_of_getElem? ha)]
    exact congrArg Counter.next hcounter
  · -- what it minted once it can mint again, from where the counter is
    by_contra hle
    have hmem : (i, id) ∈ (F₀.takeAll ts).1 := by rw [hF]; exact hid
    have hlast : (F₀.takeAll ts).2.members[i]? = some a := by rw [hF]; exact ha
    obtain ⟨name, action, hget, hpos⟩ := exists_generator_of_mem_takeAll hmem hlast
    obtain ⟨ts', hts⟩ := exists_turns_of_le hback hkept hget hpos
      (by rw [hcounter]; exact UInt64.not_lt.1 hle)
    exact hg (hall ts' id hid hts)
  · by_contra hg
    have hle := hback.le_of_mem_takeAll hid'
    rw [hcounter] at hle
    exact UInt64.not_lt.2 hle (hlt id hid hg)

/-! ## An automaton and its copy -/

/-- An action that adds a transition to a new state. -/
def Spec.sproutAction : Spec.Action :=
  (Action.named "sprout").withGenerator "g*" |>.withStep ((Step.of .add "1" "g*").consuming "b")

/-- A transition that runs the action. -/
def Spec.sprouting : Spec where
  transitions := [(Transition.between "1" "2").after (.to "sprout" [])]
  submachines := [(Submachine.named "m").asMain.withState (State.named "1").starting
    |>.withState (State.named "2").acceptingAt]
  actions := [sproutAction]

/-- A checkpoint of the new automaton, before anything is minted. -/
def Checkpoint.beforeSprout : Checkpoint Value :=
  let x := Automaton.build Spec.sprouting false .initial
  .capture "cp" x.1 x.2

/-- A checkpoint of the automaton after the action was run once. -/
def Checkpoint.afterSprout : Checkpoint Value :=
  let x := Automaton.build Spec.sprouting false .initial
  let y := x.1.run (.ofSpec Spec.sproutAction) [] x.2
  .capture "cp" y.1 y.2

/-- The automaton mints 3 and its copy 4; the copy is put back to where 3 was minted.  The next
    identifier of the automaton was 5 and is 4 then, but 3 it does not mint again. -/
theorem restored_beside_sprouting : ∃ F a b y,
    (Family.build Spec.sprouting false .initial).takeAll [.copy 0,
      .request 0 (.posterior (.stored 0)), .request 1 (.fire "sprout" [])] = ([(0, 3), (1, 4)], F) ∧
    F.members[0]? = some a ∧ F.members[1]? = some b ∧
    Checkpoint.afterSprout.restoreInto b F.world = .ok y ∧
    (a.counter F.world).next = 5 ∧ (a.counter y.2).next = 4 ∧
    ∀ ts id, (0, id) ∈ [(0, 3), (1, 4)] →
      (0, id) ∈ (Family.takeAll ⟨F.members.set 1 y.1, y.2⟩ ts).1 → id = StateId.greatest := by
  have hF : (Family.build Spec.sprouting false .initial).takeAll [.copy 0,
      .request 0 (.posterior (.stored 0)), .request 1 (.fire "sprout" [])] = ([(0, 3), (1, 4)], _) :=
    rfl
  have h := restored_beside (Family.shares_build ..) hF (i := 0) (j := 1) (by decide) rfl rfl
    (c := Checkpoint.afterSprout) rfl
  refine ⟨_, _, _, _, hF, rfl, rfl, rfl, rfl, h.2.2.1, h.2.2.2.2 fun id hid _ => ?_⟩
  simp only [List.mem_cons, Prod.mk.injEq, List.not_mem_nil, or_false, true_and] at hid
  rcases hid with rfl | ⟨hne, -⟩
  · decide
  · cases hne

/-- The automaton mints 3, and a copy that was made before is put back to where nothing was
    minted.  Then the next identifier of the automaton is 3 again, and 3 is what it mints. -/
theorem minted_twice : ∃ F a b y,
    (Family.build Spec.sprouting false .initial).takeAll [.copy 0,
      .request 0 (.posterior (.stored 0))] = ([(0, 3)], F) ∧
    F.members[0]? = some a ∧ F.members[1]? = some b ∧
    Checkpoint.beforeSprout.restoreInto b F.world = .ok y ∧
    (a.counter F.world).next = 4 ∧ (a.counter y.2).next = 3 ∧
    (Family.takeAll ⟨F.members.set 1 y.1, y.2⟩ [.request 0 (.posterior (.stored 0))]).1 =
      [(0, 3)] :=
  ⟨_, _, _, _, rfl, rfl, rfl, rfl, rfl, rfl, rfl⟩

end AdaptiveAutomata
