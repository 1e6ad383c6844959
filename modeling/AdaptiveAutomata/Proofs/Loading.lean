/-
  Values made of images.

  Values are made of images one after the other, and each cell of an image becomes a
  new cell of the store.  So nothing that was made before is changed.

  * `Store.Makes` is the judgement about a program that only makes cells, with a
    rule for each way to put programs together;
  * `Image.makes_load`: the value made of an image is shown by it, and all its
    cells are new; `Entry.makes_load` says the same of entries and
    `Checkpoint.related_load` of checkpoints;
  * `Checkpoint.Regular` are the checkpoints that can be written and read.  Written
    out and made anew they are the same node by node (`Regular.alike_load_image`),
    and what was made of images is written out as these (`image_load`).
-/
import AdaptiveAutomata.Checkpoint
import AdaptiveAutomata.Proofs.Images

namespace AdaptiveAutomata

namespace Store

variable {s t u r : Store}

theorem only_of_bound {Q : Value → Prop} {c : Cell} {v : Value} (hb : s.binding? c = some v)
    (hv : s.Only Q v) (hq : Q (.cell c)) : s.Only Q (.cell c) := by
  intro u hu
  cases hu with
  | leaf h =>
    rw [Value.leaves_cell, List.mem_singleton] at h
    exact h ▸ hq
  | binding hc hb' h =>
    rw [Value.leaves_cell, List.mem_singleton, Value.cell.injEq] at hc
    rw [hc, hb] at hb'
    exact hv u (Option.some.inj hb' ▸ h)

/-! ## Growing stores -/

/-- A store that may have more cells; those that were there are as they were. -/
def Grows (s t : Store) : Prop :=
  s.size ≤ t.size ∧ ∀ c : Cell, c.place < s.size → t.binding? c = s.binding? c

theorem Grows.refl (s : Store) : s.Grows s := ⟨le_rfl, fun _ _ => rfl⟩

theorem Grows.trans (h : s.Grows t) (h' : t.Grows u) : s.Grows u :=
  ⟨h.1.trans h'.1, fun c hc => (h'.2 c (hc.trans_le h.1)).trans (h.2 c hc)⟩

theorem grows_alloc (s : Store) (id : Uuid) (b : Option Value) : s.Grows (s.alloc id b).2 :=
  ⟨by rw [size_alloc]; exact Nat.le_succ _, fun _ hc => binding?_alloc hc id b⟩

/-- A program that only makes cells, run later than `r`, and what holds of its
    result. -/
def Makes {β : Type} (r : Store) (m : StateM Store β) (P : Store → β → Prop) : Prop :=
  ∀ s, r.Grows s → s.Grows (m s).2 ∧ P (m s).2 (m s).1

/-- What stays true when more cells are made. -/
def Stable {β : Type} (P : Store → β → Prop) : Prop := ∀ s t b, s.Grows t → P s b → P t b

theorem stable_forall₂ {α β : Type} {R : Store → α → β → Prop}
    (hR : ∀ a, Stable fun t b => R t a b) (as : List α) :
    Stable fun t bs => List.Forall₂ (R t) as bs :=
  fun s t _ hst h => h.imp fun a b => hR a s t b hst

namespace Makes

variable {α β γ : Type} {m : StateM Store β} {P : Store → β → Prop} {Q : Store → γ → Prop}

theorem pure {b : β} (h : ∀ s, r.Grows s → P s b) : Makes r (pure b) P :=
  fun s hs => ⟨.refl s, h s hs⟩

theorem bind {f : β → StateM Store γ} (hP : Stable P) (hm : Makes r m P)
    (hf : ∀ b, Makes r (f b) fun t c => P t b → Q t c) : Makes r (m >>= f) Q := by
  intro s hs
  obtain ⟨hg, hp⟩ := hm s hs
  obtain ⟨hg', hq⟩ := hf (m s).1 (m s).2 (hs.trans hg)
  exact ⟨hg.trans hg', hq (hP _ _ _ hg' hp)⟩

theorem map {f : β → γ} (hm : Makes r m P) (h : ∀ t b, P t b → Q t (f b)) :
    Makes r (f <$> m) Q :=
  fun s hs => ⟨(hm s hs).1, h _ _ (hm s hs).2⟩

theorem mapM {f : α → StateM Store β} {R : Store → α → β → Prop}
    (hR : ∀ a, Stable fun t b => R t a b) {as : List α}
    (hf : ∀ a ∈ as, Makes r (f a) fun t b => R t a b) :
    Makes r (as.mapM f) fun t bs => List.Forall₂ (R t) as bs := by
  induction as with
  | nil => exact .pure fun _ _ => .nil
  | cons a as ih =>
    rw [List.mapM_cons]
    refine .bind (hR a) (hf a List.mem_cons_self) fun b => ?_
    have hfs (x : α) (hx : x ∈ as) := hf x (List.mem_cons_of_mem a hx)
    refine .bind (stable_forall₂ hR as) (ih hfs) fun bs => ?_
    exact .pure fun _ _ hs h => .cons h hs

end Makes

end Store

namespace Image

open Store (Makes Stable Grows)

variable {r s t : Store} {a : Image} {v : Value}

/-- A cell of `t` that was not there in `r`, or no cell. -/
def IsNew (r t : Store) (u : Value) : Prop :=
  ∀ c, u = .cell c → r.size ≤ c.place ∧ c.place < t.size

theorem IsNew.mono {u : Value} (h : IsNew r s u) (hst : s.Grows t) : IsNew r t u :=
  fun c hc => ⟨(h c hc).1, (h c hc).2.trans_le hst.1⟩

/-- A value made of an image later than `r`: the image shows it, all its cells are
    new, and there are at least as many new cells as stand inside each other. -/
structure Loaded (r t : Store) (a : Image) (v : Value) : Prop where
  shows : a.Shows t v
  new : t.Only (IsNew r t) v
  depth : r.size + a.cellDepth ≤ t.size

theorem stable_loaded (r : Store) (a : Image) : Stable fun t v => Loaded r t a v := by
  intro s t v hst h
  have hb (c : Cell) (hc : s.Reaches v (.cell c)) : t.binding? c = s.binding? c :=
    hst.2 c (h.new _ hc c rfl).2
  refine ⟨h.shows.of_binding? hb, fun u hu => ?_, h.depth.trans hst.1⟩
  exact (h.new u (hu.of_binding? hb)).mono hst

theorem loaded_of_isLeaf (h : a.Shows t v) (hv : v.isLeaf) (hc : ∀ c, v ≠ .cell c)
    (ha : a.cellDepth = 0) (hg : r.Grows t) : Loaded r t a v where
  shows := h
  new := Store.only_of_isLeaf hv hc fun c h => absurd h (hc c)
  depth := by
    rw [ha]
    exact hg.1

/-- The value of a new cell. -/
theorem makes_loadCell (id : Uuid) {P : Store → Value → Prop} {b : Option Value}
    (h : ∀ s, r.Grows s → P (s.alloc id b).2 (.cell (s.alloc id b).1)) :
    Makes r (loadCell id b) P := fun s hs => ⟨Store.grows_alloc s id b, h s hs⟩

theorem isNew_alloc (hs : r.Grows s) (id : Uuid) (b : Option Value) :
    IsNew r (s.alloc id b).2 (.cell (s.alloc id b).1) := by
  rintro c ⟨⟩
  rw [Store.size_alloc]
  exact ⟨hs.1, Nat.lt_succ_self _⟩

theorem loadAll_eq_mapM (as : List Image) : loadAll as = as.mapM load := by
  induction as with
  | nil => rfl
  | cons a as ih => rw [loadAll, ih, List.mapM_cons]

/-- **The value made of an image** is shown by it, and all its cells are new. -/
theorem makes_load (r : Store) (a : Image) : Makes r a.load fun t v => Loaded r t a v := by
  induction a using Image.induct with
  | epsilon => exact .pure fun _ => loaded_of_isLeaf .epsilon rfl (fun _ => Value.noConfusion) rfl
  | state => exact .pure fun _ => loaded_of_isLeaf (.state _) rfl (fun _ => Value.noConfusion) rfl
  | symbol =>
    exact .pure fun _ => loaded_of_isLeaf (.symbol _) rfl (fun _ => Value.noConfusion) rfl
  | literal =>
    exact .pure fun _ => loaded_of_isLeaf (.literal _) rfl (fun _ => Value.noConfusion) rfl
  | call a ih =>
    refine .bind (stable_loaded r a) ih fun v => .pure fun t _ h => ?_
    exact ⟨.call h.shows, Store.only_call.2 h.new, h.depth⟩
  | action a as ih ihs =>
    rw [load, loadAll_eq_mapM]
    have has := Store.stable_forall₂ (stable_loaded r) as
    refine .bind (stable_loaded r a) ih fun v => ?_
    refine .bind has (.mapM (stable_loaded r) ihs) fun vs => ?_
    refine .pure fun t ht hs h => ⟨.action h.shows (hs.imp fun _ _ => Loaded.shows), ?_, ?_⟩
    · refine Store.only_action.2 ⟨h.new, fun w hw => ?_⟩
      obtain ⟨b, -, hb⟩ := exists_of_mem_forall₂ hs hw
      exact hb.new
    · have hd : (action a as).cellDepth ≤ t.size - r.size := by
        refine cellDepth_action_le.2 ⟨Nat.le_sub_of_add_le' h.depth, fun b hb => ?_⟩
        obtain ⟨w, -, hw⟩ := exists_of_mem_forall₂ hs.flip hb
        exact Nat.le_sub_of_add_le' hw.depth
      have := ht.1
      omega
  | free id =>
    refine makes_loadCell id fun s hs => ?_
    have hb : (s.alloc id none).2.binding? (s.alloc id none).1 = none :=
      Store.binding?_alloc_self s id none
    refine ⟨.free hb, Store.only_of_unbound hb (isNew_alloc hs id none), ?_⟩
    exact (Store.Grows.trans hs (Store.grows_alloc s id none)).1
  | bound id a ih =>
    intro s hs
    obtain ⟨hg, h⟩ := ih s hs
    generalize hx : a.load s = x at hg h
    have hload : (Image.bound id a).load s = (.cell (x.2.alloc id (some x.1)).1,
        (x.2.alloc id (some x.1)).2) := by
      rw [← hx]
      rfl
    have hb : (x.2.alloc id (some x.1)).2.binding? (x.2.alloc id (some x.1)).1 = some x.1 :=
      Store.binding?_alloc_self x.2 id (some x.1)
    have hga := Store.grows_alloc x.2 id (some x.1)
    have h' := stable_loaded r a _ _ _ hga h
    rw [hload]
    refine ⟨hg.trans hga, .bound hb h'.shows, ?_, ?_⟩
    · exact Store.only_of_bound hb h'.new (isNew_alloc (hs.trans hg) id _)
    · have := h.depth
      rw [Store.size_alloc, cellDepth]
      omega

end Image

/-! ## Entries -/

variable {α β γ δ : Type}

/-- A relation between the parts of two calls. -/
structure Reference.Related (R : α → β → Prop) (p : Reference α) (q : Reference β) : Prop where
  name : R p.name q.name
  arguments : List.Forall₂ R p.arguments q.arguments

/-- A relation between the components of two entries, which have the same calls. -/
structure Entry.Related (R : α → β → Prop) (e : Entry α) (f : Entry β) : Prop where
  prior : Option.Rel (Reference.Related R) e.prior f.prior
  source : R e.source f.source
  label : R e.label f.label
  target : R e.target f.target
  posterior : Option.Rel (Reference.Related R) e.posterior f.posterior

namespace Reference

theorem Related.of_map {f : γ → α} {g : δ → β} {R : α → β → Prop} {Q : γ → δ → Prop}
    {p : Reference γ} {q : Reference δ} (h : Related R (p.map f) (q.map g))
    (hq : ∀ v ∈ p.components, ∀ w, R (f v) (g w) → Q v w) : Related Q p q where
  name := hq _ List.mem_cons_self _ h.name
  arguments := by
    have := h.arguments
    rw [map, map, List.forall₂_map_left_iff, List.forall₂_map_right_iff] at this
    exact forall₂_imp_of_mem (fun v hv w _ => hq v (List.mem_cons_of_mem _ hv) w) this

theorem map_eq_map_of_related {f : α → γ} {g : β → γ} {p : Reference α} {q : Reference β}
    (h : Related (fun v w => f v = g w) p q) : p.map f = q.map g := by
  have hs : p.arguments.map f = q.arguments.map g :=
    map_eq_map_of_forall₂ h.arguments fun _ _ _ _ h => h
  rw [map, map, h.name, hs]

end Reference

namespace Entry

/-- What holds of the changed components of two entries gives a relation between the
    components. -/
theorem Related.of_map {f : γ → α} {g : δ → β} {R : α → β → Prop} {Q : γ → δ → Prop}
    {e : Entry γ} {e' : Entry δ} (h : Related R (e.map f) (e'.map g))
    (hq : ∀ v ∈ e.components, ∀ w, R (f v) (g w) → Q v w) : Related Q e e' := by
  have call {p : Option (Reference γ)} {q : Option (Reference δ)} (hp : ∀ r ∈ p, r ∈ e.calls)
      (h : Option.Rel (Reference.Related R) (p.map (·.map f)) (q.map (·.map g))) :
      Option.Rel (Reference.Related Q) p q := by
    cases p <;> cases q <;> cases h
    · exact .none
    · rename_i r r' h
      exact .some (h.of_map fun v hv => hq v (mem_components_of_mem_calls (hp r rfl) hv))
  exact ⟨call (fun r hr => mem_calls_of_prior hr) h.prior,
    hq _ (by simp [mem_components]) _ h.source, hq _ (by simp [mem_components]) _ h.label,
    hq _ (by simp [mem_components]) _ h.target,
    call (fun r hr => mem_calls_of_posterior hr) h.posterior⟩

theorem Related.imp {R Q : α → β → Prop} {e : Entry α} {e' : Entry β} (h : Related R e e')
    (hq : ∀ v w, R v w → Q v w) : Related Q e e' := by
  rw [← map_id e, ← map_id e'] at h
  exact h.of_map fun v _ w => hq v w

theorem Related.of_map_left {f : γ → α} {R : α → β → Prop} {Q : γ → β → Prop} {e : Entry γ}
    {e' : Entry β} (h : Related R (e.map f) e')
    (hq : ∀ v ∈ e.components, ∀ w, R (f v) w → Q v w) : Related Q e e' := by
  rw [← map_id e'] at h
  exact h.of_map hq

theorem Related.exists_of_mem_components {R : α → β → Prop} {e : Entry α} {e' : Entry β}
    (h : Related R e e') {w : β} (hw : w ∈ e'.components) : ∃ v, R v w := by
  have call {p : Option (Reference α)} {q : Option (Reference β)}
      (h : Option.Rel (Reference.Related R) p q) {r : Reference β} (hr : r ∈ q)
      (hw : w ∈ r.components) : ∃ v, R v w := by
    cases h with
    | none => exact absurd hr (Option.not_mem_none _)
    | some h =>
      cases hr
      rcases List.mem_cons.1 hw with rfl | hw
      · exact ⟨_, h.name⟩
      · obtain ⟨v, -, hv⟩ := exists_of_mem_forall₂ h.arguments hw
        exact ⟨v, hv⟩
  rcases mem_components.1 hw with rfl | rfl | rfl | ⟨r, hr, hw⟩
  · exact ⟨_, h.source⟩
  · exact ⟨_, h.label⟩
  · exact ⟨_, h.target⟩
  · rcases List.mem_append.1 hr with hr | hr
    · exact call h.prior (Option.mem_toList.1 hr) hw
    · exact call h.posterior (Option.mem_toList.1 hr) hw

theorem map_eq_map_of_related {f : α → γ} {g : β → γ} {e : Entry α} {e' : Entry β}
    (h : Related (fun v w => f v = g w) e e') : e.map f = e'.map g := by
  have call {p : Option (Reference α)} {q : Option (Reference β)}
      (h : Option.Rel (Reference.Related fun v w => f v = g w) p q) :
      p.map (·.map f) = q.map (·.map g) := by
    cases h with
    | some h => exact congrArg some (Reference.map_eq_map_of_related h)
    | none => rfl
  rw [map, map, call h.prior, h.source, h.label, h.target, call h.posterior]

end Entry

/-! ## Loading entries and checkpoints -/

open Store (Makes Stable)

variable {r s : Store}

theorem Reference.makes_mapM {f : α → StateM Store β} {R : Store → α → β → Prop}
    (hR : ∀ a, Stable fun t b => R t a b) (hf : ∀ a, Makes r (f a) fun t b => R t a b)
    (q : Reference α) : Makes r (q.mapM f) fun t p => Related (R t) q p := by
  refine .bind (hR q.name) (hf q.name) fun name => ?_
  refine .bind (Store.stable_forall₂ hR _) (.mapM hR fun a _ => hf a) fun arguments => ?_
  exact .pure fun t _ hs h => ⟨h, hs⟩

theorem Entry.stable_related {R : Store → α → β → Prop} (hR : ∀ a, Stable fun t b => R t a b)
    (e : Entry α) : Stable fun t e' => Related (R t) e e' :=
  fun s t _ hst h => h.imp fun a b => hR a s t b hst

theorem Entry.makes_mapM {f : α → StateM Store β} {R : Store → α → β → Prop}
    (hR : ∀ a, Stable fun t b => R t a b) (hf : ∀ a, Makes r (f a) fun t b => R t a b)
    (e : Entry α) : Makes r (e.mapM f) fun t e' => Related (R t) e e' := by
  have hcall (p : Option (Reference α)) :
      Stable fun t q => Option.Rel (Reference.Related (R t)) p q := by
    rintro s t q hst (h | -)
    · exact .some ⟨hR _ s t _ hst h.name, Store.stable_forall₂ hR _ s t _ hst h.arguments⟩
    · exact .none
  have call (p : Option (Reference α)) : Makes r (p.mapM (·.mapM f)) fun t q =>
      Option.Rel (Reference.Related (R t)) p q := by
    cases p with
    | none => exact .pure fun _ _ => .none
    | some q => exact .map (Reference.makes_mapM hR hf q) fun _ _ => .some
  refine .bind (hcall e.prior) (call e.prior) fun prior => ?_
  refine .bind (hR e.source) (hf e.source) fun source => ?_
  refine .bind (hR e.label) (hf e.label) fun label => ?_
  refine .bind (hR e.target) (hf e.target) fun target => ?_
  refine .bind (hcall e.posterior) (call e.posterior) fun posterior => ?_
  exact .pure fun t _ hq ht hl hs hp => ⟨hp, hs, hl, ht, hq⟩

/-- The entry made of images is shown by them, and all its cells are new. -/
theorem Entry.makes_load (r : Store) (e : Entry Image) :
    Makes r e.load fun t e' => Related (Image.Loaded r t) e e' :=
  Entry.makes_mapM (Image.stable_loaded r) (Image.makes_load r) e

namespace Checkpoint

variable {t : Store}

/-- Two checkpoints with a relation between the components of their entries, and
    the rest the same. -/
structure Related (R : α → β → Prop) (c : Checkpoint α) (d : Checkpoint β) : Prop where
  version : c.version = d.version
  id : c.id = d.id
  time : c.time = d.time
  entries : List.Forall₂ (Entry.Related R) c.entries d.entries
  next : c.next = d.next
  main : c.main = d.main

theorem makes_load (r : Store) (c : Checkpoint Image) :
    Makes r c.load fun t d => Related (Image.Loaded r t) c d := by
  have hs (e : Entry Image) := Entry.stable_related (Image.stable_loaded r) e
  refine .bind (Store.stable_forall₂ hs c.entries) (.mapM hs fun e _ => Entry.makes_load r e)
    fun entries => ?_
  exact .pure fun t _ h => ⟨rfl, rfl, rfl, h, rfl, rfl⟩

theorem Related.of_map_left {f : γ → α} {R : α → β → Prop} {Q : γ → β → Prop}
    {c : Checkpoint γ} {d : Checkpoint β} (h : Related R (c.map f) d)
    (hq : ∀ e ∈ c.entries, ∀ v ∈ e.components, ∀ w, R (f v) w → Q v w) : Related Q c d where
  version := h.version
  id := h.id
  time := h.time
  entries := by
    have := h.entries
    rw [map, List.forall₂_map_left_iff] at this
    exact forall₂_imp_of_mem (fun e he e' _ h => h.of_map_left (hq e he)) this
  next := h.next
  main := h.main

/-- **The checkpoint made of images** is shown by them, and all its cells are new. -/
theorem related_load (c : Checkpoint Image) (t : Store) :
    t.Grows (c.load t).2 ∧ Related (Image.Loaded t (c.load t).2) c (c.load t).1 :=
  makes_load t c t (.refl t)

/-- A checkpoint that was read is accepted as it is, in the present version. -/
theorem accept_eq_ok_iff {c d : Checkpoint α} :
    (do c.checkVersion; return c : Except CheckpointError (Checkpoint α)) = .ok d ↔
      c = d ∧ d.version = currentVersion := by
  by_cases hv : c.version = currentVersion
  · rw [checkVersion, if_pos hv]
    exact ⟨fun h => by cases h; exact ⟨rfl, hv⟩, fun ⟨h, _⟩ => congrArg Except.ok h⟩
  · rw [checkVersion, if_neg hv]
    exact ⟨nofun, fun ⟨h, hd⟩ => absurd (h ▸ hd) hv⟩

/-- A checkpoint that can be written and read: it has the present version, the text
    of its time stands for that time, and nothing that its entries lead to leads
    back to itself. -/
structure Regular (s : Store) (c : Checkpoint Value) : Prop where
  version : c.version = currentVersion
  time : Instant.ofText? c.time.text = some c.time
  grounded : ∀ e ∈ c.entries, ∀ v ∈ e.components, s.Grounded v

/-- **Written out and made anew**, a checkpoint is the same node by node. -/
theorem Regular.alike_load_image {c : Checkpoint Value} (hc : c.Regular s) (t : Store) :
    Related (s.Alike ((c.image s).load t).2) c ((c.image s).load t).1 :=
  (related_load (c.image s) t).2.of_map_left fun e he v hv _ h =>
    Store.alike_of_shows (Store.shows_image (hc.grounded e he v hv)) h.shows

/-- A checkpoint made of images is written out as these images. -/
theorem image_load (c : Checkpoint Image) (t : Store) : (c.load t).1.image (c.load t).2 = c := by
  have h := (related_load c t).2
  have hv {a : Image} {v : Value} (h : Image.Loaded t (c.load t).2 a v) :
      a = (c.load t).2.image v :=
    (Store.imageWithin_of_shows h.shows ((Nat.le_add_left _ _).trans h.depth)).symm
  have hs : c.entries.map (fun e => e) = (c.load t).1.entries.map (·.map (c.load t).2.image) := by
    refine map_eq_map_of_forall₂ h.entries fun e _ e' _ he => ?_
    exact (Entry.map_id e).symm.trans (Entry.map_eq_map_of_related (he.imp fun _ _ => hv))
  rw [image, map, ← hs, List.map_id', ← h.version, ← h.id, ← h.time, ← h.next, ← h.main]

/-- Whatever is made of images can be written again. -/
theorem regular_load {c : Checkpoint Image} (hv : c.version = currentVersion)
    (ht : Instant.ofText? c.time.text = some c.time) (t : Store) :
    (c.load t).1.Regular (c.load t).2 := by
  have h := (related_load c t).2
  refine ⟨h.version ▸ hv, h.time ▸ ht, fun e he v hv => ?_⟩
  obtain ⟨e', -, he'⟩ := exists_of_mem_forall₂ h.entries he
  obtain ⟨a, ha⟩ := he'.exists_of_mem_components hv
  exact Store.grounded_iff.2 ⟨a, ha.shows⟩

/-- A checkpoint with a transition to a cell that is bound to another, and with a call
    that holds both. -/
def sample : Checkpoint Image where
  version := 1
  id := "cp"
  time := ⟨20000, 3661, 5000⟩
  entries := [⟨some ⟨.literal "f", [.free ⟨List.replicate 16 7, rfl⟩, .action (.symbol "é") []]⟩,
    .state "1", .call (.literal "m"),
    .bound ⟨List.replicate 16 9, rfl⟩ (.free ⟨List.replicate 16 7, rfl⟩), none⟩]
  next := 3
  main := some "m"

/-- The sample made in a store that had no cells. -/
def sampleMade : Checkpoint Value × Store :=
  sample.load (.empty fun _ => ⟨List.replicate 16 0, rfl⟩)

theorem image_sampleMade : sampleMade.1.image sampleMade.2 = sample := image_load sample _

theorem regular_sampleMade : sampleMade.1.Regular sampleMade.2 :=
  regular_load rfl (by decide +kernel) _

end Checkpoint

end AdaptiveAutomata
