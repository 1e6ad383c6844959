/-
  Copies of checkpoints.

  A checkpoint that is written out and made anew in the store in which it stands is
  a copy of it: it reads the same, but has cells of its own, so that nothing that
  is done to the cells of the one is seen in the other.

  * `Checkpoint.Holds` says that one comes to a cell from the entries;
  * `Checkpoint.Copies` is what a copy is, and `copies_load_image` that what is
    made anew is one.
-/
import AdaptiveAutomata.Proofs.Loading

namespace AdaptiveAutomata

variable {α : Type} {s t t' : Store}

/-- What an image shows is the same node by node after a cell was bound that it does
    not lead to. -/
theorem Image.Shows.alike_of_bind? {a : Image} {u v : Value} {x : Cell} (h : a.Shows t v)
    (hx : ∀ y, t.Reaches v (.cell y) → x.place ≠ y.place) (hb : t.bind? x u = some t') :
    t.Alike t' v v := by
  obtain ⟨-, -, rfl⟩ := Store.bind?_eq_some_iff.1 hb
  exact Store.alike_of_shows h
    (h.of_binding? fun y hy => Store.binding?_write_of_ne (hx y hy) t _)

theorem Entry.related_self {R : α → α → Prop} {e : Entry α} (h : ∀ v ∈ e.components, R v v) :
    Entry.Related R e e := by
  have call {p : Option (Reference α)} (hp : ∀ r ∈ p, r ∈ e.calls) :
      Option.Rel (Reference.Related R) p p := by
    cases p with
    | none => exact .none
    | some r =>
      have hr (v : α) (hv : v ∈ r.components) := h v (mem_components_of_mem_calls (hp r rfl) hv)
      exact .some ⟨hr _ List.mem_cons_self,
        List.forall₂_same.2 fun v hv => hr v (List.mem_cons_of_mem _ hv)⟩
  exact ⟨call fun r hr => mem_calls_of_prior hr, h _ (by simp [mem_components]),
    h _ (by simp [mem_components]), h _ (by simp [mem_components]),
    call fun r hr => mem_calls_of_posterior hr⟩

namespace Checkpoint

variable {c d : Checkpoint Value}

theorem related_self {R : α → α → Prop} {c : Checkpoint α}
    (h : ∀ e ∈ c.entries, ∀ v ∈ e.components, R v v) : Related R c c :=
  ⟨rfl, rfl, rfl, List.forall₂_same.2 fun e he => Entry.related_self (h e he), rfl, rfl⟩

/-- One comes to the cell from the entries. -/
def Holds (s : Store) (c : Checkpoint Value) (x : Cell) : Prop :=
  ∃ e ∈ c.entries, ∃ v ∈ e.components, s.Reaches v (.cell x)

/-- One checkpoint is a copy of another in the same store: they are the same node by
    node, their entries are taken for equal and read the same, no cell is held by
    both, and binding a cell of the one leaves the other the same node by node. -/
structure Copies (t : Store) (c d : Checkpoint Value) : Prop where
  alike : Related (t.Alike t) c d
  equal : c.entries.map Entry.outline = d.entries.map Entry.outline
  resolved : c.entries.map (fun e => (e.resolve t).outline) =
    d.entries.map fun e => (e.resolve t).outline
  apart : ∀ x y, c.Holds t x → d.Holds t y → x.place ≠ y.place
  bind : ∀ x u t', t.bind? x u = some t' →
    (c.Holds t x → Related (t.Alike t') d d) ∧ (d.Holds t x → Related (t.Alike t') c c)

theorem Related.imp {α β : Type} {R Q : α → β → Prop} {c : Checkpoint α} {d : Checkpoint β}
    (h : Related R c d) (hq : ∀ v w, R v w → Q v w) : Related Q c d :=
  ⟨h.version, h.id, h.time, h.entries.imp fun _ _ he => he.imp hq, h.next, h.main⟩

theorem map_entries_eq_of_related {γ : Type} {f : Value → γ}
    (h : Related (fun v w => f v = f w) c d) :
    c.entries.map (·.map f) = d.entries.map (·.map f) :=
  map_eq_map_of_forall₂ h.entries fun _ _ _ _ => Entry.map_eq_map_of_related

/-- What is made of images holds the cells that were made of them, and no others. -/
theorem place_of_holds_load {c : Checkpoint Image} {x : Cell}
    (h : (c.load s).1.Holds (c.load s).2 x) :
    s.size ≤ x.place ∧ x.place < (c.load s).2.size := by
  obtain ⟨e, he, v, hv, hx⟩ := h
  obtain ⟨e', -, h⟩ := exists_of_mem_forall₂ (related_load c s).2.entries he
  obtain ⟨a, ha⟩ := h.exists_of_mem_components hv
  exact ha.new _ hx x rfl

/-- **A checkpoint that is written out and made anew** where it stands is a copy. -/
theorem Regular.copies_load_image (hc : c.Regular s) (hs : ∀ x, c.Holds s x → x.place < s.size) :
    Copies ((c.image s).load s).2 c ((c.image s).load s).1 := by
  obtain ⟨hg, hr⟩ := related_load (c.image s) s
  have hnew (y : Cell) (hy : ((c.image s).load s).1.Holds ((c.image s).load s).2 y) :
      s.size ≤ y.place := (place_of_holds_load hy).1
  generalize ((c.image s).load s).2 = t at hg hr hnew
  generalize ((c.image s).load s).1 = d at hr hnew
  -- The cells of the original are as they were.
  have hkept {e : Entry Value} (he : e ∈ c.entries) {v : Value} (hv : v ∈ e.components) (x : Cell)
      (hx : s.Reaches v (.cell x)) : t.binding? x = s.binding? x :=
    hg.2 x (hs x ⟨e, he, v, hv, hx⟩)
  have hold {e : Entry Value} (he : e ∈ c.entries) {v : Value} (hv : v ∈ e.components) :
      (s.image v).Shows t v :=
    (Store.shows_image (hc.grounded e he v hv)).of_binding? (hkept he hv)
  have hmade {e : Entry Value} (he : e ∈ d.entries) {w : Value} (hw : w ∈ e.components) :
      ∃ a : Image, Image.Loaded s t a w := by
    obtain ⟨e', -, h⟩ := exists_of_mem_forall₂ hr.entries he
    exact h.exists_of_mem_components hw
  have hrel : Related (fun v w => (s.image v).Shows t v ∧ (s.image v).Shows t w ∧
      (s.image v).cellDepth ≤ t.size) c d :=
    hr.of_map_left fun e he v hv w h =>
      ⟨hold he hv, h.shows, (Store.cellDepth_imageWithin_le s s.size v).trans hg.1⟩
  have hplace (x y : Cell) (hx : c.Holds t x) (hy : d.Holds t y) : x.place ≠ y.place := by
    obtain ⟨e, he, v, hv, hx⟩ := hx
    exact ((hs x ⟨e, he, v, hv, hx.of_binding? (hkept he hv)⟩).trans_le (hnew y hy)).ne
  refine ⟨hrel.imp fun v w h => Store.alike_of_shows h.1 h.2.1, ?_, ?_, hplace,
    fun x u t' hb => ⟨fun hx => ?_, fun hx => ?_⟩⟩
  · exact map_entries_eq_of_related (hrel.imp fun v w h => h.1.outline_eq h.2.1)
  · have h := map_entries_eq_of_related (f := Value.outline ∘ t.resolve) <| hrel.imp fun v w h =>
      (h.1.outline_resolveWithin h.2.2).trans (h.2.1.outline_resolveWithin h.2.2).symm
    simpa only [Entry.outline, Entry.resolve, Entry.map_map] using h
  · refine related_self fun e he w hw => ?_
    obtain ⟨a, ha⟩ := hmade he hw
    exact ha.shows.alike_of_bind? (fun y hy => hplace x y hx ⟨e, he, w, hw, hy⟩) hb
  · refine related_self fun e he v hv => ?_
    exact (hold he hv).alike_of_bind? (fun y hy => (hplace y x ⟨e, he, v, hv, hy⟩ hx).symm) hb

end Checkpoint

end AdaptiveAutomata
