/-
  Resuming is continuing.

  An automaton whose entries hold no cells is written to a checkpoint, and a new
  automaton is put back to what is read from it.  From then on the two do the same: they
  own different cells, but make, bind and read them alike.

  * `Request` is something an automaton is asked to do, `Request.perform` does it and
    answers, `performAll` does several;
  * `Automaton.Shifted.performAll`: automata that are the same up to the places of cells
    answer the same;
  * `Value.load_image_of_cellFree`: what has no cells is read as it was written;
  * `resumed_of_reached`: a resumed automaton answers as the one that goes on, with the
    same counter, the same entries, and entries that read the same.
-/
import AdaptiveAutomata.Proofs.BinaryForms
import AdaptiveAutomata.Proofs.JsonForms
import AdaptiveAutomata.Proofs.Parallel
import AdaptiveAutomata.Proofs.Snapshots

namespace AdaptiveAutomata

/-! ## Requests -/

/-- The entry whose action is run: one that is given, or the one that is stored at a
    place. -/
inductive Current where
  | given (e : Entry Value)
  | stored (place : Nat)

def Current.entry? (a : Automaton) : Current → Option (Entry Value)
  | given e => some e
  | stored place => a.table.entries[place]?

/-- Run what the entry calls; there is nothing to do for an entry that is not stored. -/
def Current.fire
    (f : Entry Value → Automaton → World → Except FireError (Bool × Automaton × World))
    (x : Automaton × World) (current : Current) : Except FireError (Bool × Automaton × World) :=
  match current.entry? x.1 with
  | some e => f e x.1 x.2
  | none => .ok (false, x)

/-- The entry has no cells if it is given. -/
def Current.CellFree : Current → Prop
  | given e => e.Forall Value.CellFree
  | stored _ => True

/-- Something that an automaton is asked to do. -/
inductive Request where
  | fire (name : String) (arguments : List Value)
  | reference (r : Reference Value)
  | prior (current : Current)
  | posterior (current : Current)

namespace Request

/-- What comes of a request: whether something was run, and what it leaves behind. -/
def outcome (x : Automaton × World) : Request → Except FireError (Bool × Automaton × World)
  | fire name arguments => (x.1.fire name arguments x.2).map (true, ·)
  | reference r => (x.1.fireReference r x.2).map (true, ·)
  | prior current => current.fire Automaton.firePrior x
  | posterior current => current.fire Automaton.firePosterior x

/-- The answer to a request, and what it leaves behind: where it fails, all is as it
    was. -/
def perform (q : Request) (x : Automaton × World) : Except FireError Bool × Automaton × World :=
  match q.outcome x with
  | .ok (called, y) => (.ok called, y)
  | .error e => (.error e, x)

/-- The answers to several requests, and what they leave behind. -/
def performAll : List Request → Automaton × World →
    List (Except FireError Bool) × Automaton × World
  | [], x => ([], x)
  | q :: qs, x =>
    let (answer, x) := q.perform x
    let (answers, x) := performAll qs x
    (answer :: answers, x)

/-- What is given with the request has no cells. -/
def CellFree : Request → Prop
  | fire _ arguments => ∀ v ∈ arguments, v.CellFree
  | reference r => ∀ v ∈ r.components, v.CellFree
  | prior current | posterior current => current.CellFree

end Request

/-! ## What requests do to cells -/

open Store (Moves)

theorem Store.Moves.drawn_le {s t : Store} (h : Moves s t) : s.drawn ≤ t.drawn := by
  induction h with
  | refl => exact Nat.le_refl _
  | tail _ hm ih =>
    cases hm with
    | fresh => exact Nat.le_succ_of_le ih
    | bind h =>
      obtain ⟨-, -, rfl⟩ := Store.bind?_eq_some_iff.1 h
      exact ih

theorem Shift.Allows.of_moves {k : Shift} {s t : Store} (ht : k.Allows t) (h : Moves s t) :
    k.Allows s :=
  ⟨ht.acyclic.of_extends h.extends, h.drawn_le.trans ht.drawn⟩

namespace Automaton

variable {a b : Automaton} {w v : World} {x : Automaton × World}

theorem moves_run (action : Action) (arguments : List Value) :
    Moves w.store (a.run action arguments w).2.store :=
  action.moves_execute arguments ⟨a.table, w.store⟩ (a.counter w)

theorem moves_fireCall {r : Option (Reference Value)} {called : Bool}
    (h : a.fireCall r w = .ok (called, x)) : Moves w.store x.2.store := by
  rcases fireCall_eq_ok_iff.1 h with ⟨-, -, rfl⟩ | ⟨q, -, -, h⟩
  · exact .refl
  · obtain ⟨_, action, -, -, rfl⟩ := fireReference_eq_ok_iff.1 h
    exact moves_run action _

end Automaton

namespace Request

variable {x y : Automaton × World}

theorem moves_current {current : Current} {called : Bool}
    {f : Entry Value → Automaton → World → Except FireError (Bool × Automaton × World)}
    (hf : ∀ e a w, ∃ r, f e a w = a.fireCall r w) (h : current.fire f x = .ok (called, y)) :
    Moves x.2.store y.2.store := by
  rw [Current.fire] at h
  cases he : current.entry? x.1 with
  | none =>
    rw [he] at h
    cases h
    exact .refl
  | some e =>
    obtain ⟨r, hr⟩ := hf e x.1 x.2
    rw [he] at h
    exact Automaton.moves_fireCall (hr.symm.trans h)

theorem moves_outcome {q : Request} {called : Bool} (h : q.outcome x = .ok (called, y)) :
    Moves x.2.store y.2.store := by
  cases q with
  | fire name arguments =>
    rw [outcome] at h
    cases hf : x.1.fire name arguments x.2 with
    | error e => rw [hf] at h; cases h
    | ok z =>
      rw [hf] at h
      cases h
      exact Automaton.moves_fire hf
  | reference r => exact Automaton.moves_fireCall (r := some r) h
  | prior current => exact moves_current (fun _ _ _ => ⟨_, rfl⟩) h
  | posterior current => exact moves_current (fun _ _ _ => ⟨_, rfl⟩) h

theorem moves_perform (q : Request) (x : Automaton × World) :
    Moves x.2.store (q.perform x).2.2.store := by
  rw [perform]
  cases h : q.outcome x with
  | error e => exact .refl
  | ok y => exact moves_outcome h

theorem moves_performAll (qs : List Request) (x : Automaton × World) :
    Moves x.2.store (performAll qs x).2.2.store := by
  induction qs generalizing x with
  | nil => exact .refl
  | cons q qs ih => exact (moves_perform q x).trans (ih (q.perform x).2)

end Request

/-! ## Requests to two automata -/

theorem Entry.shift_of_cellFree {e : Entry Value} (h : e.Forall Value.CellFree) (k : Shift) :
    e.map k.value = e :=
  (map_eq_map_iff.2 fun v hv => Shift.value_of_cellFree (h v hv)).trans (map_id e)

theorem Entry.covers_of_cellFree {e : Entry Value} (h : e.Forall Value.CellFree) (k : Shift) :
    e.Forall k.Covers :=
  fun v hv => Shift.covers_of_cellFree (h v hv)

namespace Automaton.Shifted

variable {k : Shift} {x y : Automaton × World}

/-- What is given is the same for both; what is stored is the same up to the places of
    cells. -/
theorem entry?_shift (h : Shifted k x y) {current : Current} (hc : current.CellFree) :
    current.entry? y.1 = (current.entry? x.1).map (·.map k.value) ∧
      ∀ e ∈ current.entry? x.1, e.Forall k.Covers := by
  cases current with
  | given e =>
    refine ⟨congrArg some (Entry.shift_of_cellFree hc k).symm, fun e' he => ?_⟩
    exact Option.some.inj he ▸ Entry.covers_of_cellFree hc k
  | stored place =>
    have htable : y.1.table = x.1.table.map k.value := h.scene.table
    refine ⟨?_, fun e he => h.scene.covers e (List.mem_of_getElem? he)⟩
    rw [Current.entry?, htable, Table.map, List.getElem?_map, Current.entry?]

/-- What the entry calls has the same outcome for both. -/
theorem fire_current (h : Shifted k x y) (hs : x.2.store.AcyclicFrom k.old) {current : Current}
    (hc : current.CellFree)
    {f : Entry Value → Automaton → World → Except FireError (Bool × Automaton × World)}
    {call : Entry Value → Option (Reference Value)} (hf : ∀ e a w, f e a w = a.fireCall (call e) w)
    (hcall : ∀ e, ∀ r ∈ call e, r ∈ e.calls)
    (hmap : ∀ e, call (e.map k.value) = (call e).map (·.map k.value)) :
    Agree (fun x y => x.1 = y.1 ∧ ShiftedIf k x.2 y.2) (current.fire f x) (current.fire f y) := by
  obtain ⟨hentry, hcovers⟩ := h.entry?_shift hc
  rw [Current.fire, Current.fire, hentry]
  cases he : current.entry? x.1 with
  | none => exact .ok ⟨rfl, fun _ => h⟩
  | some e =>
    simp only [Option.map_some, hf, hmap]
    exact h.fireCall hs fun r hr v hv =>
      hcovers e he v (Entry.mem_components_of_mem_calls (hcall e r hr) hv)

/-- **A request** to both has the same outcome. -/
theorem outcome (h : Shifted k x y) (hs : x.2.store.AcyclicFrom k.old) {q : Request}
    (hq : q.CellFree) :
    Agree (fun x y => x.1 = y.1 ∧ ShiftedIf k x.2 y.2) (q.outcome x) (q.outcome y) := by
  cases q with
  | fire name arguments =>
    have hfire := h.fire (fun v hv => Shift.covers_of_cellFree (hq v hv)) name
    rw [Shift.map_value_of_cellFree hq] at hfire
    exact hfire.map fun _ _ hx => ⟨rfl, hx⟩
  | reference r =>
    have hmap : r.map k.value = r := by
      rw [Reference.map, Shift.value_of_cellFree (hq _ List.mem_cons_self),
        Shift.map_value_of_cellFree fun v hv => hq v (List.mem_cons_of_mem _ hv)]
    have hcall := h.fireCall hs (o := some r) fun r' hr v hv =>
      Shift.covers_of_cellFree (hq v (Option.some.inj hr ▸ hv))
    rwa [Option.map_some, hmap] at hcall
  | prior current =>
    exact h.fire_current hs hq (fun _ _ _ => rfl) (fun _ _ => Entry.mem_calls_of_prior)
      fun _ => rfl
  | posterior current =>
    exact h.fire_current hs hq (fun _ _ _ => rfl) (fun _ _ => Entry.mem_calls_of_posterior)
      fun _ => rfl

theorem perform (h : Shifted k x y) {q : Request} (hq : q.CellFree)
    (ha : k.Allows (q.perform x).2.2.store) :
    (q.perform y).1 = (q.perform x).1 ∧ Shifted k (q.perform x).2 (q.perform y).2 := by
  have hs := (ha.of_moves (q.moves_perform x)).acyclic
  have hagree := h.outcome hs hq
  rw [Request.perform] at ha
  rw [Request.perform, Request.perform]
  generalize q.outcome x = p at hagree ha
  generalize q.outcome y = p' at hagree
  cases hagree with
  | error e => exact ⟨rfl, h⟩
  | ok hxy => exact ⟨congrArg Except.ok hxy.1.symm, hxy.2 ha⟩

/-- **Any number of requests** to both have the same answers. -/
theorem performAll (h : Shifted k x y) {qs : List Request} (hqs : ∀ q ∈ qs, q.CellFree)
    (ha : k.Allows (Request.performAll qs x).2.2.store) :
    (Request.performAll qs y).1 = (Request.performAll qs x).1 ∧
      Shifted k (Request.performAll qs x).2 (Request.performAll qs y).2 := by
  induction qs generalizing x y with
  | nil => exact ⟨rfl, h⟩
  | cons q qs ih =>
    obtain ⟨hq, hqs⟩ := List.forall_mem_cons.1 hqs
    obtain ⟨hanswer, hfirst⟩ := h.perform hq
      (ha.of_moves (Request.moves_performAll qs (q.perform x).2))
    obtain ⟨hanswers, hrest⟩ := ih hfirst hqs ha
    exact ⟨congrArg₂ List.cons hanswer hanswers, hrest⟩

theorem tuples_eq (h : Shifted k x y) : y.1.table.tuples = x.1.table.tuples := by
  have htable : y.1.table = x.1.table.map k.value := h.scene.table
  rw [htable, Table.tuples, Table.map, List.map_map, Table.tuples]
  exact List.map_congr_left fun e _ => Entry.outline_shift k e

theorem asRead_eq (h : Shifted k x y) (hs : x.2.store.AcyclicFrom k.old) :
    y.1.table.asRead y.2.store = x.1.table.asRead x.2.store := by
  have htable : y.1.table = x.1.table.map k.value := h.scene.table
  have hstore : x.2.store.Shifted k y.2.store := h.scene.store
  rw [htable, Table.asRead, Table.map, List.map_map, Table.asRead]
  refine List.map_congr_left fun e he => ?_
  rw [Function.comp_apply, hstore.resolve_entry hs (h.scene.covers e he), Entry.outline_shift]

end Automaton.Shifted

/-! ## Checkpoints without cells -/

theorem mapM_map_eq_pure {m : Type → Type} [Monad m] [LawfulMonad m] {α β : Type} {f : β → m α}
    {g : α → β} {as : List α} (h : ∀ a ∈ as, f (g a) = pure a) :
    (as.map g).mapM f = pure as := by
  induction as with
  | nil => rfl
  | cons a as ih =>
    obtain ⟨ha, has⟩ := List.forall_mem_cons.1 h
    rw [List.map_cons, List.mapM_cons, ha, pure_bind, ih has, pure_bind]

/-- **What has no cells** is read as it was written. -/
theorem Value.load_image_of_cellFree {v : Value} (h : v.CellFree) (f : Cell → Image) :
    (v.image f).load = pure v := by
  induction v using recParts with
  | leaf v hv =>
    cases v with
    | call | action => exact absurd hv Bool.false_ne_true
    | cell c => exact absurd h (not_cellFree_cell c)
    | _ => rfl
  | call v ih => rw [image, Image.load, ih (cellFree_call.1 h), pure_bind]
  | action v vs ih ihs =>
    obtain ⟨hv, hvs⟩ := cellFree_action.1 h
    rw [image, imageAll_eq_map, Image.load, Image.loadAll_eq_mapM, ih hv, pure_bind,
      mapM_map_eq_pure fun w hw => ihs w hw (hvs w hw), pure_bind]

theorem Store.load_image_of_cellFree {v : Value} (h : v.CellFree) (s : Store) :
    (s.image v).load = pure v := by
  rw [Store.image]
  cases s.size with
  | zero => exact Value.load_image_of_cellFree h _
  | succ depth => exact Value.load_image_of_cellFree h _

theorem Entry.load_image_of_cellFree {e : Entry Value} (h : e.Forall Value.CellFree) (s : Store) :
    (e.image s).load = pure e := by
  have call {o : Option (Reference Value)} (ho : ∀ r ∈ o, r ∈ e.calls) :
      (o.map (·.map s.image)).mapM (·.mapM Image.load) = pure o := by
    cases o with
    | none => rfl
    | some r =>
      have hr (v : Value) (hv : v ∈ r.components) :=
        Store.load_image_of_cellFree (h v (mem_components_of_mem_calls (ho r rfl) hv)) s
      simp only [Option.map_some, Option.mapM_some, Reference.mapM, Reference.map]
      rw [hr _ List.mem_cons_self, pure_bind,
        mapM_map_eq_pure fun v hv => hr v (List.mem_cons_of_mem _ hv), pure_bind, map_pure]
  have hv (v : Value) (hv : v ∈ e.components) := Store.load_image_of_cellFree (h v hv) s
  simp only [load, image, mapM, map, call fun r => mem_calls_of_prior,
    call fun r => mem_calls_of_posterior, hv e.source (by simp [mem_components]),
    hv e.label (by simp [mem_components]), hv e.target (by simp [mem_components]), pure_bind]

theorem Checkpoint.load_image_of_cellFree {c : Checkpoint Value}
    (h : ∀ e ∈ c.entries, e.Forall Value.CellFree) (s : Store) : (c.image s).load = pure c := by
  have hentries : (c.entries.map (·.map s.image)).mapM Entry.load = pure c.entries :=
    mapM_map_eq_pure fun e he => Entry.load_image_of_cellFree (h e he) s
  rw [load, image, map, hentries, pure_bind]

/-- Distinct entries without cells are put back as they are. -/
theorem Table.ofEntries_of_cellFree {t : Table Value} (ht : t.Distinct)
    (hf : t.Forall Value.CellFree) (s : Store) : ofEntries s t.entries = t := by
  have hread : t.entries.map (·.resolve s) = t.entries :=
    (List.map_congr_left fun e he => Entry.resolve_of_cellFree (hf e he) s).trans (List.map_id' _)
  have hout : (t.entries.map fun e => (e.resolve s).outline) = t.tuples :=
    List.map_congr_left fun e he => congrArg Entry.outline (Entry.resolve_of_cellFree (hf e he) s)
  refine congrArg Table.mk ((entries_foldl_add_of_nodup ?_).trans hread)
  rw [hout]
  exact ht

namespace Checkpoint

/-- What is read from the bytes of a checkpoint, if a word can count them, or from its
    text, if its brackets do not nest too deep. -/
inductive Transfers (c : Checkpoint Image) : Except CheckpointError (Checkpoint Image) → Prop
  | bytes (hl : c.toBinary.length < UInt64.size) : Transfers c (ofBinary c.toBinary)
  | text (hd : ((json Image.json).toJson c).depth ≤ 127) : Transfers c (ofJson c.toJson)

theorem Transfers.eq_ok {c : Checkpoint Image} {r : Except CheckpointError (Checkpoint Image)}
    (h : c.Transfers r) (hv : c.version = currentVersion)
    (ht : Instant.ofText? c.time.text = some c.time) : r = .ok c := by
  cases h with
  | bytes hl =>
    have hread := faithful_binary ht hl []
    rw [List.append_nil] at hread
    exact ofBinary_eq_ok_iff.2 ⟨⟨[], hread⟩, hv⟩
  | text hd =>
    rw [ofJson, toJson, Json.Codec.read_pretty (returns_json ht) hd]
    exact accept_eq_ok_iff.2 ⟨rfl, hv⟩

end Checkpoint

/-! ## Resuming -/

/-- A new automaton of the description, put back to a checkpoint that was read. -/
def Spec.resume (spec : Spec) (recording : Bool) (c : Checkpoint Image) (w : World) :
    Except CheckpointError (Automaton × World) :=
  let x := Automaton.build spec recording w
  let y := c.load x.2.store
  y.1.restoreInto x.1 { x.2 with store := y.2 }

/-- The same answers, and automata with the same counter, equal entries, and entries
    that read the same. -/
structure Request.Same (p p' : List (Except FireError Bool) × Automaton × World) : Prop where
  answers : p'.1 = p.1
  counter : p'.2.1.counter p'.2.2 = p.2.1.counter p.2.2
  entries : p'.2.1.table.tuples = p.2.1.table.tuples
  asRead : p'.2.1.table.asRead p'.2.2.store = p.2.1.table.asRead p.2.2.store

theorem Automaton.Shifted.same {k : Shift} {x y : Automaton × World} (h : Shifted k x y)
    {qs : List Request} (hqs : ∀ q ∈ qs, q.CellFree)
    (ha : k.Allows (Request.performAll qs x).2.2.store) :
    Request.Same (Request.performAll qs x) (Request.performAll qs y) := by
  obtain ⟨hanswers, hlast⟩ := h.performAll hqs ha
  exact ⟨hanswers, hlast.counter, hlast.tuples_eq, hlast.asRead_eq ha.acyclic⟩

variable {admits : World → List Value → Prop} {spec : Spec} {recording : Bool} {w₀ w : World}
  {a : Automaton}

/-- An automaton whose entries have no cells, and a new one with the same entries and
    counter: no cell of the one is a cell of the other. -/
theorem shifted_of_cellFree (h : Automaton.Reached admits spec recording w₀ (a, w))
    (hfree : a.table.Forall Value.CellFree) (recording' : Bool) (w₁ : World) {last : Nat}
    (hids : ∀ i, w.store.drawn + i < last →
      w₁.store.supply (w₁.store.drawn + i) = w.store.supply (w.store.drawn + i)) :
    Automaton.Shifted ⟨w.store.size, w₁.store.size, last⟩ (a, w)
      ((Automaton.build spec recording' w₁).1.restore a.table.entries (a.counter w).next
        (Automaton.build spec recording' w₁).2) := by
  have hb : Automaton.Reached admits spec recording' w₁
      (Automaton.build spec recording' w₁) := .refl
  -- no cell is bound past the end of a store
  have hnone {s : Store} {c : Cell} (hc : s.size ≤ c.place) : s.binding? c = none := by
    by_contra hn
    obtain ⟨v, hv⟩ := Option.ne_none_iff_exists'.1 hn
    exact absurd (Store.place_lt_size hv) (Nat.not_lt.2 hc)
  refine ⟨⟨?_, fun e he => Entry.covers_of_cellFree (hfree e he) _, ?_⟩, ?_, ?_, h.frame.2.2, ?_⟩
  · refine (Table.ofEntries_of_cellFree (distinct_of_reached h) hfree _).trans ?_
    refine congrArg Table.mk (Eq.symm ?_)
    exact (List.map_congr_left fun e he => Entry.shift_of_cellFree (hfree e he) _).trans
      (List.map_id' _)
  · refine ⟨⟨0, rfl, rfl⟩, hids, fun hc hv => ?_, fun {c} hc => ?_⟩
    · rw [hnone hc] at hv
      cases hv
    · have hplace : w₁.store.size ≤ (Shift.cell ⟨w.store.size, w₁.store.size, last⟩ c).place :=
        Nat.le_add_left ..
      rw [hnone hc]
      exact hnone hplace
  · exact hb.frame.1.trans h.frame.1.symm
  · exact Automaton.counter_restore hb.frame.2.2 _ _
  · simpa [Automaton.restore, World.setCounter] using hb.frame.2.2

/-- **Resuming is continuing.**  Take a checkpoint of an automaton in the course of a run
    whose entries have no cells, write and read it, and put a new automaton of the
    description back to it, in any world.  Whatever is asked of both from then on, without
    cells in it, has the same answers and leaves the two the same, if they draw the same
    identifiers for new cells and no new cell comes to lead back to itself. -/
theorem resumed_of_reached (h : Automaton.Reached admits spec recording w₀ (a, w))
    (hfree : a.table.Forall Value.CellFree) (htime : Instant.ofText? w.now.text = some w.now)
    (id : String) {r : Except CheckpointError (Checkpoint Image)}
    (hr : ((Checkpoint.capture id a w).image w.store).Transfers r) (recording' : Bool)
    (w₁ : World) :
    ∃ c x, r = .ok c ∧ spec.resume recording' c w₁ = .ok x ∧
      ∀ qs : List Request, (∀ q ∈ qs, q.CellFree) →
        (∀ i, w.store.drawn + i < (Request.performAll qs (a, w)).2.2.store.drawn →
          w₁.store.supply (w₁.store.drawn + i) = w.store.supply (w.store.drawn + i)) →
        (Request.performAll qs (a, w)).2.2.store.AcyclicFrom w.store.size →
        Request.Same (Request.performAll qs (a, w)) (Request.performAll qs x) := by
  have hb : Automaton.Reached admits spec recording' w₁
      (Automaton.build spec recording' w₁) := .refl
  have hload := Checkpoint.load_image_of_cellFree (c := Checkpoint.capture id a w) hfree w.store
  have hresume : spec.resume recording' ((Checkpoint.capture id a w).image w.store) w₁ =
      .ok ((Automaton.build spec recording' w₁).1.restore a.table.entries (a.counter w).next
        (Automaton.build spec recording' w₁).2) := by
    rw [Spec.resume, hload]
    exact restoreInto_capture id (hb.frame.2.1.trans h.frame.2.1.symm)
  refine ⟨_, _, hr.eq_ok rfl htime, hresume, fun qs hqs hids hacyclic => ?_⟩
  exact (shifted_of_cellFree h hfree recording' w₁ hids).same hqs ⟨hacyclic, Nat.le_refl _⟩

/-! ## A run -/

/-- An action that looks for the target of a transition, and adds a transition from there
    to a new state. -/
def Spec.extendAction : Spec.Action :=
  (Action.named "extend").withVariable "?x" |>.withGenerator "g*"
    |>.withStep ((Step.of .query "1" "?x").consuming "b")
    |>.withStep ((Step.of .add "?x" "g*").consuming "c")

/-- A transition to be found, and one that runs the action. -/
def Spec.extending : Spec where
  transitions := [(Transition.between "1" "2").consuming "b",
    (Transition.between "2" "1").after (.to "extend" [])]
  submachines := [(Submachine.named "m").withState (State.named "1").starting
    |>.withState (State.named "2").acceptingAt]
  actions := [extendAction]

/-- What it is after the action was run once: there is a cell, but not in the table. -/
def Spec.extended : Automaton × World :=
  let x := Automaton.build extending false .initial
  x.1.run (.ofSpec extendAction) [] x.2

theorem reached_extended :
    Automaton.Reached (fun _ _ => False) Spec.extending false .initial Spec.extended := by
  refine .single (.posterior (e := ⟨none, .state "2", .epsilon, .state "1",
    some ⟨.literal "extend", []⟩⟩) ?_ (show _ = Except.ok (true, Spec.extended) from rfl))
  exact .tail _ (.head _)

theorem cellFree_extended : Spec.extended.1.table.Forall Value.CellFree := by
  have hentries : Spec.extended.1.table.entries =
      [.plain (.state "1") (.symbol "b") (.state "2"),
        ⟨none, .state "2", .epsilon, .state "1", some ⟨.literal "extend", []⟩⟩,
        .plain (.state "2") (.symbol "c") (.state "3")] := rfl
  intro e he v hv
  rw [hentries] at he
  simp only [List.mem_cons, List.not_mem_nil, or_false] at he
  rcases he with rfl | rfl | rfl <;>
    simp [Entry.mem_components, Entry.plain, Entry.calls, Reference.components] at hv <;>
    rcases hv with rfl | rfl | rfl | hv <;> simp_all

/-- A world without cells, that gives out the identifiers that are left. -/
def World.later : World := ⟨.empty fun i => .numbered (i + 1), #[], ⟨0, 0, 0⟩⟩

/-- The action is run as the table calls it and by name; there is no other one. -/
def Request.sample : List Request :=
  [.posterior (.stored 1), .fire "extend" [], .fire "shrink" [], .prior (.stored 0)]

theorem acyclic_sample : (Request.performAll Request.sample Spec.extended).2.2.store.AcyclicFrom
    Spec.extended.2.store.size := by
  have hleaves : (Request.performAll Request.sample Spec.extended).2.2.store.bindings.all
      (fun b => b.all fun v => v.isLeaf && !v.isCell) = true := by decide +kernel
  rintro c - ⟨w, hb, d, hd, -⟩
  have hmem := Array.mem_of_getElem? (Option.join_eq_some_iff.1 hb)
  have hw := Array.all_eq_true_iff_forall_mem.1 hleaves _ hmem
  rw [Option.all_some, Bool.and_eq_true, Bool.not_eq_true'] at hw
  have hne (c : Cell) : w ≠ .cell c := by
    rintro rfl
    exact Bool.noConfusion hw.2
  exact hne d (hd.eq_of_isLeaf hw.1 hne).symm

/-- The automaton that goes on and the one that is resumed in a world without cells do the
    same: run the action twice, fail to find another one, and have none to run. -/
theorem resumed_extended : Spec.extending.validate = .ok () ∧ ∃ c x,
    Checkpoint.ofBinary ((Checkpoint.capture "cp" Spec.extended.1 Spec.extended.2).image
      Spec.extended.2.store).toBinary = .ok c ∧
    Spec.extending.resume true c .later = .ok x ∧
    (Request.performAll Request.sample Spec.extended).1 =
      [.ok true, .ok true, .error (.unknownAction "shrink"), .ok false] ∧
    Request.Same (Request.performAll Request.sample Spec.extended)
      (Request.performAll Request.sample x) := by
  have hanswers : (Request.performAll Request.sample Spec.extended).1 =
      [.ok true, .ok true, .error (.unknownAction "shrink"), .ok false] := by decide +kernel
  have hl : ((Checkpoint.capture "cp" Spec.extended.1 Spec.extended.2).image
      Spec.extended.2.store).toBinary.length < UInt64.size := by decide +kernel
  have htime : Instant.ofText? Spec.extended.2.now.text = some Spec.extended.2.now := by decide +kernel
  obtain ⟨c, x, hc, hx, hsame⟩ := resumed_of_reached (a := Spec.extended.1) (w := Spec.extended.2)
    reached_extended cellFree_extended htime "cp" (.bytes hl) true .later
  rw [Prod.mk.eta] at hsame
  refine ⟨by decide, c, x, hc, hx, hanswers,
    hsame Request.sample ?_ (fun i _ => ?_) acyclic_sample⟩
  · simp [Request.sample, Request.CellFree, Current.CellFree]
  · show Uuid.numbered (0 + i + 1) = Uuid.numbered (1 + i)
    rw [Nat.zero_add, Nat.add_comm]

end AdaptiveAutomata
