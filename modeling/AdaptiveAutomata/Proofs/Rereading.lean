/-
  Reading early and reading late.

  A value can be read before it is used, or it is used as it stands and its cells are read on
  the way.  Nothing tells the two apart: what was read holds no bound cell, it reads as itself,
  and it has the same text and fits the same.  Matching binds cells and reads them again later
  on its way, in the pattern and in the stored value, and it still leaves the same bindings.

  * `Ends.text_image`: the text of a value is the one that is written by going through its cells,
    and `Entry.text_image` says the same of entries;
  * `Store.Precedes` says that a store has the cells of another one and more of them bound;
  * `Store.Concur` says that two ways to bind cells come to the same.  It is put together as
    matching is: `Concur.comp` is for one after the other, `Concur.walk_subst` for what stands in
    the place of cells;
  * `concur_bindFrom` and `Entry.concur_bindFrom`: matching what was read earlier concurs with
    matching;
  * `Store.Ties` says that some cell has come to refer to itself;
  * `resolve_invisible`: what was read against what it was read from.
-/
import AdaptiveAutomata.Proofs.Narrowing

namespace AdaptiveAutomata

/-! ## Texts -/

/-- The text of an image leaves out which cells were bound. -/
theorem Image.text_flatten (a : Image) : a.flatten.text = a.text := by
  induction a using induct with
  | epsilon | state | symbol | literal | free => rfl
  | call a ih => rw [flatten, text, text, ih]
  | action a as ih ihs =>
    have hargs : (as.map flatten).map text = as.map text := by
      rw [List.map_map]
      exact List.map_congr_left ihs
    rw [flatten, flattenAll_eq_map, text, text, texts_eq_map, texts_eq_map, ih, hargs]
  | bound id a ih => rw [flatten, text, ih]

namespace Store

variable {s t u : Store} {c : Cell} {b p v w : Value} {ps ws : List Value}

theorem Ends.of_extends (h : t.Ends v) (hst : t.Extends s) : s.Ends v :=
  fun x hx d hd hs => h x (hx.mono hst) d hd (hs.mono hst)

/-- **The text of a value** is the one that is written by going through its cells. -/
theorem Ends.text_image (h : s.Ends v) : (s.image v).text = s.text v := by
  have hshows : (s.image v).Shows s v := shows_image fun c => h.not_leadsToItself
  have hread : (s.resolve v).outline = (s.image v).flatten :=
    hshows.outline_resolveWithin (cellDepth_imageWithin_le s s.size v)
  rw [text, Value.text, hread, Image.text_flatten]

/-! ## Stores with more bindings -/

/-- The same cells, and more of them are bound. -/
structure Precedes (s t : Store) : Prop where
  keeps : t.Extends s
  size : t.size = s.size

theorem Precedes.refl (s : Store) : s.Precedes s := ⟨fun _ _ hb => hb, rfl⟩

theorem Precedes.trans (h : s.Precedes t) (h' : t.Precedes u) : s.Precedes u :=
  ⟨h'.keeps.trans h.keeps, h'.size.trans h.size⟩

theorem bindingRule_precedes : BindingRule (fun _ _ => True) Precedes where
  refl := .refl
  trans := .trans
  frame _ _ := trivial
  resolve _ := trivial
  call _ := trivial
  action _ := ⟨trivial, fun _ _ => trivial⟩
  bind hv h := ⟨bindingRule_extends.bind hv h, (bindingRule_size.bind hv h).symm⟩

theorem precedes_bindFromWithin (depth : Nat) (p w : Value) (s : Store) :
    s.Precedes (bindFromWithin depth p w s) :=
  bindingRule_precedes.bindFromWithin depth p w s trivial

theorem precedes_bindFrom (s : Store) (p w : Value) : s.Precedes (s.bindFrom p w) :=
  bindingRule_precedes.bindFrom trivial p

/-! ## Two ways to bind -/

/-- Two ways to bind cells come to the same from every store after `u`, if one of them stays
    before `t`. -/
structure Concur (u t : Store) (f g : Store → Store) : Prop where
  left : ∀ s, Precedes s (f s)
  right : ∀ s, Precedes s (g s)
  eq : ∀ {s}, Precedes u s → (f s).Precedes t ∨ (g s).Precedes t → g s = f s

namespace Concur

variable {f g f' g' : Store → Store}

theorem refl (h : ∀ s, Precedes s (f s)) : Concur u t f f := ⟨h, h, fun _ _ => rfl⟩

theorem trans (h : Concur u t f g) (h' : Concur u t g g') : Concur u t f g' where
  left := h.left
  right := h'.right
  eq {s} hs ht := by
    rcases ht with ht | ht
    · have hfirst : g s = f s := h.eq hs (.inl ht)
      rw [h'.eq hs (.inl (hfirst ▸ ht)), hfirst]
    · have hlast : g' s = g s := h'.eq hs (.inr ht)
      rw [hlast, h.eq hs (.inr (hlast ▸ ht))]

/-- One after the other. -/
theorem comp (h : Concur u t f g) (h' : Concur u t f' g') :
    Concur u t (fun s => f' (f s)) (fun s => g' (g s)) where
  left s := (h.left s).trans (h'.left (f s))
  right s := (h.right s).trans (h'.right (g s))
  eq {s} hs ht := by
    have hfirst : g s = f s := h.eq hs (ht.imp (h'.left (f s)).trans (h'.right (g s)).trans)
    rw [hfirst] at ht ⊢
    exact h'.eq (hs.trans (h.left s)) ht

variable {follow : Value → Value → Store → Store}

theorem walkAll {k : Value → Value}
    (h : ∀ p ∈ ps, ∀ w, Concur u t (Store.walk follow p w) (Store.walk follow (k p) w))
    (ws : List Value) :
    Concur u t (Store.walkAll follow ps ws) (Store.walkAll follow (ps.map k) ws) := by
  induction ps generalizing ws with
  | nil => cases ws <;> exact refl Precedes.refl
  | cons p ps ih =>
    cases ws with
    | nil => exact refl Precedes.refl
    | cons w ws =>
      exact (h p List.mem_cons_self w).comp (ih (fun q hq => h q (List.mem_cons_of_mem p hq)) ws)

theorem precedes_walk (hf : ∀ p w s, Precedes s (follow p w s)) (p w : Value) (s : Store) :
    s.Precedes (Store.walk follow p w s) :=
  bindingRule_precedes.walk (fun p w s _ => hf p w s) p w s trivial

/-- **What stands in the place of cells**: a walk along a pattern concurs with one along what
    becomes of the pattern, if this is so for each of its cells. -/
theorem walk_subst (hf : ∀ p w s, Precedes s (follow p w s)) {r : Cell → Value}
    (h : ∀ c, .cell c ∈ p.leaves → ∀ w,
      Concur u t (Store.walk follow (.cell c) w) (Store.walk follow (r c) w)) (w : Value) :
    Concur u t (Store.walk follow p w) (Store.walk follow (p.subst r) w) := by
  induction p using Value.recParts generalizing w with
  | leaf p hp =>
    by_cases hc : ∃ c, p = .cell c
    · obtain ⟨c, rfl⟩ := hc
      rw [Value.subst]
      exact h c (by simp) w
    · rw [Value.subst_of_isLeaf hp (not_exists.1 hc)]
      exact refl (precedes_walk hf p w)
  | call p ih =>
    refine ⟨precedes_walk hf _ w, precedes_walk hf _ w, fun {s} hs ht => ?_⟩
    rw [Value.subst, Store.walk, Store.walk] at ht ⊢
    cases hw : s.resolve w with
    | call x =>
      rw [hw] at ht
      exact (ih (fun c hc => h c (by rwa [Value.leaves_call])) x).eq hs ht
    | _ => rfl
  | action p ps ih ihs =>
    refine ⟨precedes_walk hf _ w, precedes_walk hf _ w, fun {s} hs ht => ?_⟩
    rw [Value.subst, Value.substAll_eq_map, Store.walk, Store.walk] at ht ⊢
    cases hw : s.resolve w with
    | action x xs =>
      rw [hw] at ht
      have hname := ih (fun c hc => h c (by
        rw [Value.leaves_action]
        exact List.mem_append_left _ hc)) x
      have harguments (q : Value) (hq : q ∈ ps) (y : Value) :=
        ihs q hq (fun c hc => h c (by
          rw [Value.leaves_action]
          exact List.mem_append_right _ (List.mem_flatMap.2 ⟨q, hq, hc⟩))) y
      exact (hname.comp (walkAll harguments xs)).eq hs ht
    | _ => rfl

end Concur

/-! ## Matching what was read -/

/-- Matching looks at what the stored value reads as, and at nothing else. -/
theorem bindFromWithin_congr_stored (h : s.resolve v = s.resolve w) (depth : Nat) (p : Value) :
    bindFromWithin depth p v s = bindFromWithin depth p w s := by
  induction depth generalizing p with
  | zero => rfl
  | succ depth ih =>
    rw [bindFromWithin]
    cases p with
    | epsilon | state | symbol | literal => rfl
    | call | action => rw [walk, walk, h]
    | cell c =>
      rw [walk, walk, h]
      cases s.binding? c with
      | none => rfl
      | some b => exact ih b

/-- A bound cell of the pattern is followed. -/
theorem concur_cell (hut : u.Precedes t) {depth : Nat} (hd : t.size ≤ depth)
    (hc : t.Ends (.cell c)) (hb : u.binding? c = some b) (w : Value) :
    Concur u t (bindFromWithin (depth + 1) (.cell c) w) (bindFromWithin (depth + 1) b w) where
  left := precedes_bindFromWithin _ _ w
  right := precedes_bindFromWithin _ _ w
  eq {s} hs ht := by
    have hbt : t.binding? c = some b := hut.keeps c b hb
    obtain ⟨n, rfl⟩ : ∃ n, depth = n + 1 :=
      ⟨depth - 1, by have := place_lt_size hbt; omega⟩
    have hstep : bindFromWithin (n + 1 + 1) (.cell c) w s = bindFromWithin (n + 1) b w s := by
      rw [bindFromWithin, walk, hs.keeps c b hb]
    -- one level less is left for what the cell is bound to, and its rank is lower
    have hrank (d : Cell) (hd : .cell d ∈ b.leaves) :
        t.Ends (.cell d) ∧ (t.below d).card ≤ n := by
      obtain ⟨he, hlt⟩ := t.rankOn_ends.lt hc hbt hd
      have := card_below_le t c
      exact ⟨he, by omega⟩
    rw [hstep] at ht ⊢
    rcases ht with ht | ht
    · exact (t.rankOn_ends.bindFromWithin_congr hrank le_rfl (Nat.le_succ n) ht.keeps).symm
    · exact t.rankOn_ends.bindFromWithin_congr hrank (Nat.le_succ n) le_rfl ht.keeps

/-- The pattern can be read earlier, to any depth. -/
theorem concur_resolveWithin (hut : u.Precedes t) {depth : Nat} (hd : t.size ≤ depth) (n : Nat)
    (hp : t.Ends p) (w : Value) :
    Concur u t (bindFromWithin (depth + 1) p w)
      (bindFromWithin (depth + 1) (u.resolveWithin n p) w) := by
  -- on the depth to which the pattern was read; a walk goes to any depth that `t` has cells for
  induction n generalizing p w with
  | zero => exact .refl (precedes_bindFromWithin _ p w)
  | succ n ih =>
    rw [resolveWithin_succ]
    refine .walk_subst (precedes_bindFromWithin depth) (fun c hc w => ?_) w
    cases hb : u.binding? c with
    | none => exact .refl (precedes_bindFromWithin (depth + 1) (.cell c) w)
    | some b =>
      -- the one walk comes to the cell and follows it, the other finds what it was read as
      have hcell := hp.cell hc
      exact (concur_cell hut hd hcell hb w).trans (ih (hcell.binding (hut.keeps c b hb)) w)

/-- The stored value can be read earlier. -/
theorem concur_stored (hw : t.Ends w) (depth : Nat) (p : Value) :
    Concur u t (bindFromWithin depth p w) (bindFromWithin depth p (u.resolve w)) where
  left := precedes_bindFromWithin depth p w
  right := precedes_bindFromWithin depth p _
  eq {s} hs ht := by
    have hst : s.Precedes t :=
      ht.elim (precedes_bindFromWithin _ _ _ s).trans (precedes_bindFromWithin _ _ _ s).trans
    exact bindFromWithin_congr_stored
      ((hw.of_extends hst.keeps).resolve_resolve hs.keeps) depth p

/-- **Matching values** concurs with matching what they read as earlier. -/
theorem concur_bindFrom (hut : u.Precedes t) (hp : t.Ends p) (hw : t.Ends w) :
    Concur u t (·.bindFrom p w) (·.bindFrom (u.resolve p) (u.resolve w)) where
  left s := s.precedes_bindFrom _ _
  right s := s.precedes_bindFrom _ _
  eq {s} hs ht := by
    have hsize : t.size = s.size := hut.size.trans hs.size.symm
    have hpattern := concur_resolveWithin hut hsize.le u.size hp w
    exact (hpattern.trans (concur_stored hw _ _)).eq hs ht

theorem concur_bindFromAll (hut : u.Precedes t) (hp : ∀ p ∈ ps, t.Ends p)
    (hw : ∀ w ∈ ws, t.Ends w) :
    Concur u t (·.bindFromAll ps ws) (·.bindFromAll (ps.map u.resolve) (ws.map u.resolve)) := by
  induction ps generalizing ws with
  | nil => cases ws <;> exact .refl .refl
  | cons p ps ih =>
    cases ws with
    | nil => exact .refl .refl
    | cons w ws =>
      obtain ⟨hp, hps⟩ := List.forall_mem_cons.1 hp
      obtain ⟨hw, hws⟩ := List.forall_mem_cons.1 hw
      exact (concur_bindFrom hut hp hw).comp (ih hps hws)

/-! ## Cells that come to refer to themselves -/

/-- Some cell leads back to itself that did not before. -/
def Ties (s t : Store) : Prop := ∃ c, t.LeadsToItself c ∧ ¬ s.LeadsToItself c

theorem Ends.of_not_ties (h : ¬ s.Ties t)
    (hv : t.Only (fun x => ∀ c, x = .cell c → ¬ s.LeadsToItself c) v) : t.Ends v :=
  fun x hx c hc ht => h ⟨c, ht, hv x hx c hc⟩

/-- Where matching ties no cell, the reading of values still ends. -/
theorem Ends.bindFrom (hv : s.Ends v) (hw : s.Ends w) (h : ¬ s.Ties (s.bindFrom p w)) :
    (s.bindFrom p w).Ends v :=
  .of_not_ties h ((bindingRule_only _).bindFrom hw p v hv)

theorem Ends.bindEntry {a e : Entry Value} (hv : s.Ends v) (he : e.Forall s.Ends)
    (h : ¬ s.Ties (a.bindFrom s e)) : (a.bindFrom s e).Ends v :=
  .of_not_ties h ((bindingRule_only _).bindEntry he a v hv)

/-- Two ways to bind that concur unless cells are tied tie cells both or not at all. -/
theorem ties_iff_of_concur {f g : Store → Store} (hf : ¬ s.Ties (f s) → Concur s (f s) f g)
    (hg : ¬ s.Ties (g s) → Concur s (g s) f g) :
    (s.Ties (g s) ↔ s.Ties (f s)) ∧ (¬ s.Ties (f s) → g s = f s) := by
  have hleft (h : ¬ s.Ties (f s)) : g s = f s := (hf h).eq (.refl s) (.inl (.refl _))
  have hright (h : ¬ s.Ties (g s)) : g s = f s := (hg h).eq (.refl s) (.inr (.refl _))
  refine ⟨⟨fun h => ?_, fun h => ?_⟩, hleft⟩
  · by_contra hn
    exact hn (hleft hn ▸ h)
  · by_contra hn
    exact hn (hright hn ▸ h)

/-- Matching values as they stand, and as they read before. -/
theorem bindFrom_resolve (hv : s.Ends v) (hw : s.Ends w) :
    (s.Ties (s.bindFrom (s.resolve v) (s.resolve w)) ↔ s.Ties (s.bindFrom v w)) ∧
      (¬ s.Ties (s.bindFrom v w) → s.bindFrom (s.resolve v) (s.resolve w) = s.bindFrom v w) := by
  have hread : s.Ends (s.resolve w) := hw.resolve
  refine ties_iff_of_concur (f := (·.bindFrom v w))
    (g := (·.bindFrom (s.resolve v) (s.resolve w))) (fun h => ?_) fun h => ?_
  · exact concur_bindFrom (s.precedes_bindFrom v w) (hv.bindFrom hw h) (hw.bindFrom hw h)
  · exact concur_bindFrom (s.precedes_bindFrom _ _) (hv.bindFrom hread h) (hw.bindFrom hread h)

end Store

/-! ## Entries -/

theorem Reference.toValue_resolve (s : Store) (r : Reference Value) :
    (r.resolve s).toValue = s.resolve r.toValue :=
  (Store.resolve_action s r.name r.arguments).symm

namespace Entry

variable {s t u : Store} {e p x : Entry Value} {q r : Option (Reference Value)}

/-! ### What is seen of an entry -/

/-- The components in parentheses, with their cells written out. -/
def imageText (e : Entry Image) : String :=
  let call (r : Option (Reference Image)) : List String :=
    (r.map fun r => (Image.action r.name r.arguments).text).toList
  "(" ++ ", ".intercalate (call e.prior ++ [e.source.text, e.label.text, e.target.text] ++
    call e.posterior) ++ ")"

/-- **The text of an entry** is the one that is written by going through its cells. -/
theorem text_image (h : e.Forall s.Ends) : (e.image s).imageText = e.text s := by
  have hvalue {v : Value} (hv : v ∈ e.components) : (s.image v).text = s.text v :=
    (h v hv).text_image
  have hcall {r : Reference Value} (hr : r ∈ e.calls) :
      (Image.action (s.image r.name) (r.arguments.map s.image)).text = s.text r.toValue := by
    have himage : s.image r.toValue = .action (s.image r.name) (r.arguments.map s.image) :=
      Store.imageWithin_action s s.size r.name r.arguments
    rw [← himage]
    exact (Reference.ends_toValue fun v hv => h v (mem_components_of_mem_calls hr hv)).text_image
  have hcalls (q : Option (Reference Value)) (hq : ∀ r ∈ q, r ∈ e.calls) :
      ((q.map (·.map s.image)).map fun r => (Image.action r.name r.arguments).text).toList =
        (q.map (s.text ·.toValue)).toList := by
    cases q with
    | none => rfl
    | some r => exact congrArg (fun x => [x]) (hcall (hq r rfl))
  simp only [imageText, image, map, text]
  rw [hcalls e.prior fun r => mem_calls_of_prior,
    hcalls e.posterior fun r => mem_calls_of_posterior,
    hvalue (v := e.source) (by simp [mem_components]),
    hvalue (v := e.label) (by simp [mem_components]),
    hvalue (v := e.target) (by simp [mem_components])]

/-- Entries that read the same have the same text. -/
theorem text_congr (h : e.resolve s = x.resolve s) : e.text s = x.text s := by
  have hread (y : Reference Value) : s.text y.toValue = (y.resolve s).toValue.text := by
    rw [Reference.toValue_resolve, Store.text]
  have hcall {q r : Option (Reference Value)} (h : q.map (·.resolve s) = r.map (·.resolve s)) :
      q.map (s.text ·.toValue) = r.map (s.text ·.toValue) := by
    have hmap := congrArg (Option.map fun y : Reference Value => y.toValue.text) h
    rw [Option.map_map, Option.map_map] at hmap
    simp only [hread]
    exact hmap
  obtain ⟨hprior, hsource, hlabel, htarget, hposterior⟩ := Entry.mk.inj h
  have hvalue {v w : Value} (h : s.resolve v = s.resolve w) : s.text v = s.text w :=
    congrArg Value.text h
  simp only [text, hcall hprior, hvalue hsource, hvalue hlabel, hvalue htarget, hcall hposterior]

theorem fitsCall_congr {q' : Option (Reference Value)}
    (h : q.map (·.resolve s) = q'.map (·.resolve s)) :
    fitsCall s q r = fitsCall s q' r ∧ fitsCall s r q = fitsCall s r q' := by
  cases q with
  | none =>
    cases q' with
    | none => exact ⟨rfl, rfl⟩
    | some y => cases h
  | some x =>
    cases q' with
    | none => cases h
    | some y =>
      have hsame : x.resolve s = y.resolve s := Option.some.inj h
      have hread : s.resolve x.toValue = s.resolve y.toValue := by
        rw [← Reference.toValue_resolve, ← Reference.toValue_resolve, hsame]
      cases r with
      | none => exact ⟨rfl, rfl⟩
      | some z => simp only [fitsCall, Reference.fits, Store.fits, hread, and_self]

/-- Entries that read the same fit the same, as patterns and as stored entries. -/
theorem fits_congr (h : e.resolve s = x.resolve s) :
    e.fits s p = x.fits s p ∧ p.fits s e = p.fits s x := by
  obtain ⟨hprior, hsource, hlabel, htarget, hposterior⟩ := Entry.mk.inj h
  have hprior (r : Option (Reference Value)) := fitsCall_congr (r := r) hprior
  have hposterior (r : Option (Reference Value)) := fitsCall_congr (r := r) hposterior
  simp only [fits, Store.fits, hprior, hsource, hlabel, htarget, hposterior, and_self]

theorem resolve_resolve (h : e.Forall s.Ends) : (e.resolve s).resolve s = e.resolve s := by
  rw [resolve, resolve, map_map]
  exact map_eq_map_iff.2 fun v hv => (h v hv).resolve_resolve fun _ _ hb => hb

/-! ### Matching entries that were read -/

theorem concur_bindCall (hut : u.Precedes t) (hq : ∀ x ∈ q, ∀ v ∈ x.components, t.Ends v)
    (hr : ∀ x ∈ r, ∀ v ∈ x.components, t.Ends v) :
    Store.Concur u t (bindCall · q r)
      (bindCall · (q.map (·.resolve u)) (r.map (·.resolve u))) := by
  cases q with
  | none => exact .refl .refl
  | some x =>
    cases r with
    | none => exact .refl .refl
    | some y =>
      obtain ⟨hx, hxs⟩ := List.forall_mem_cons.1 (hq x rfl)
      obtain ⟨hy, hys⟩ := List.forall_mem_cons.1 (hr y rfl)
      exact (Store.concur_bindFrom hut hx hy).comp (Store.concur_bindFromAll hut hxs hys)

/-- **Matching entries** concurs with matching what they read as earlier. -/
theorem concur_bindFrom (hut : u.Precedes t) (hp : p.Forall t.Ends) (he : e.Forall t.Ends) :
    Store.Concur u t (bindFrom · p e) (bindFrom · (p.resolve u) (e.resolve u)) := by
  have hcall {a : Entry Value} (ha : a.Forall t.Ends) {x : Reference Value} (hx : x ∈ a.calls) :
      ∀ v ∈ x.components, t.Ends v :=
    fun v hv => ha v (mem_components_of_mem_calls hx hv)
  have hprior := concur_bindCall hut (fun x hx => hcall hp (mem_calls_of_prior hx))
    fun x hx => hcall he (mem_calls_of_prior hx)
  have hposterior := concur_bindCall hut (fun x hx => hcall hp (mem_calls_of_posterior hx))
    fun x hx => hcall he (mem_calls_of_posterior hx)
  have hsource := Store.concur_bindFrom hut (hp p.source (by simp [mem_components]))
    (he e.source (by simp [mem_components]))
  have hlabel := Store.concur_bindFrom hut (hp p.label (by simp [mem_components]))
    (he e.label (by simp [mem_components]))
  have htarget := Store.concur_bindFrom hut (hp p.target (by simp [mem_components]))
    (he e.target (by simp [mem_components]))
  exact (((hprior.comp hsource).comp hlabel).comp htarget).comp hposterior

theorem forall_ends_resolve (h : e.Forall s.Ends) : (e.resolve s).Forall s.Ends :=
  forall_resolve.2 fun v hv => (h v hv).resolve

/-- Matching entries as they stand, and as they read before. -/
theorem bindFrom_resolve (hp : p.Forall s.Ends) (he : e.Forall s.Ends) :
    (s.Ties ((p.resolve s).bindFrom s (e.resolve s)) ↔ s.Ties (p.bindFrom s e)) ∧
      (¬ s.Ties (p.bindFrom s e) →
        (p.resolve s).bindFrom s (e.resolve s) = p.bindFrom s e) := by
  have hread := forall_ends_resolve he
  have hprecedes (a x : Entry Value) : s.Precedes (a.bindFrom s x) :=
    Store.bindingRule_precedes.bindEntry (fun _ _ => trivial) a
  refine Store.ties_iff_of_concur (f := (bindFrom · p e))
    (g := (bindFrom · (p.resolve s) (e.resolve s))) (fun h => ?_) fun h => ?_
  · exact concur_bindFrom (hprecedes p e) (fun v hv => (hp v hv).bindEntry he h)
      fun v hv => (he v hv).bindEntry he h
  · exact concur_bindFrom (hprecedes _ _) (fun v hv => (hp v hv).bindEntry hread h)
      fun v hv => (he v hv).bindEntry hread h

end Entry

/-- **Reading** a value or an entry whose cells do not lead back to themselves leaves no bound
    cell in it, and what was read reads as itself.  Nothing tells the two apart: the text, which
    is the one that is written by going through the cells, the name, whether it is an unbound
    cell, and what it fits, as the pattern and as what is stored.

    Matching binds the same cells to the same values, so that every cell reads the same after it,
    whether the two sides were read before or are read on the way.  This is so unless a cell comes
    to refer to itself, and it does in both cases or in neither. -/
theorem resolve_invisible (s : Store) :
    (∀ v, s.Ends v →
      (∀ c, .cell c ∈ (s.resolve v).leaves → s.binding? c = none) ∧
      s.resolve (s.resolve v) = s.resolve v ∧
      s.text (s.resolve v) = s.text v ∧ (s.image v).text = s.text v ∧
      (s.image (s.resolve v)).text = s.text v ∧
      s.name? (s.resolve v) = s.name? v ∧ s.isUnbound (s.resolve v) = s.isUnbound v ∧
      (∀ w, s.fits (s.resolve v) w = s.fits v w ∧ s.fits w (s.resolve v) = s.fits w v) ∧
      ∀ w, s.Ends w →
        (s.Ties (s.bindFrom (s.resolve v) (s.resolve w)) ↔ s.Ties (s.bindFrom v w)) ∧
        (¬ s.Ties (s.bindFrom v w) → s.bindFrom (s.resolve v) (s.resolve w) = s.bindFrom v w)) ∧
    ∀ e : Entry Value, e.Forall s.Ends →
      (e.resolve s).Forall (fun v => ∀ c, .cell c ∈ v.leaves → s.binding? c = none) ∧
      (e.resolve s).resolve s = e.resolve s ∧
      (e.resolve s).text s = e.text s ∧ (e.image s).imageText = e.text s ∧
      ((e.resolve s).image s).imageText = e.text s ∧
      (∀ x, (e.resolve s).fits s x = e.fits s x ∧ x.fits s (e.resolve s) = x.fits s e) ∧
      ∀ x : Entry Value, x.Forall s.Ends →
        (s.Ties ((e.resolve s).bindFrom s (x.resolve s)) ↔ s.Ties (e.bindFrom s x)) ∧
        (¬ s.Ties (e.bindFrom s x) →
          (e.resolve s).bindFrom s (x.resolve s) = e.bindFrom s x) := by
  refine ⟨fun v hv => ?_, fun e he => ?_⟩
  · have hread : s.resolve (s.resolve v) = s.resolve v := hv.resolve_resolve fun _ _ hb => hb
    have htext : s.text (s.resolve v) = s.text v := congrArg Value.text hread
    have hends : s.Ends (s.resolve v) := hv.resolve
    exact ⟨fun c => hv.unbound_of_mem_resolve, hread, htext, hv.text_image,
      hends.text_image.trans htext, congrArg Value.name? hread, congrArg Value.isCell hread,
      fun w => ⟨congrArg (Value.fits · (s.resolve w)) hread,
        congrArg (Value.fits (s.resolve w)) hread⟩,
      fun w hw => Store.bindFrom_resolve hv hw⟩
  · have hread := Entry.resolve_resolve he
    have htext : (e.resolve s).text s = e.text s := Entry.text_congr hread
    have hends := Entry.forall_ends_resolve he
    exact ⟨Entry.forall_resolve.2 fun v hv c => (he v hv).unbound_of_mem_resolve, hread, htext,
      Entry.text_image he, (Entry.text_image hends).trans htext,
      fun x => Entry.fits_congr hread, fun x hx => Entry.bindFrom_resolve he hx⟩

/-! ## Cells that are bound on the way -/

/-- A call in which two arguments read as the same cell. -/
def Value.meeting : Value :=
  .action (.literal "f") [Store.nth 1, Store.nth 0, Store.nth 2, Store.nth 3]

/-- A call that fits it and holds two of its cells. -/
def Value.crossing : Value :=
  .action (.literal "f")
    [.call (Store.nth 4), .call (.state "9"), Store.nth 1, .call (Store.nth 2)]

/-- What the cells are bound to when these are matched. -/
def Store.crossed : Store where
  bindings := #[some (.call (.state "3")), some (nth 0), some (.call (.state "3")),
    some (.call (.call (.state "3"))), some (.state "3")]
  supply := .numbered
  drawn := 5

theorem Store.acyclic_crossed : crossed.Acyclic := by
  have hbound {c : Cell} {w : Value} (hb : crossed.binding? c = some w) :
      w.CellFree ∨ c.place = 1 ∧ w = nth 0 := by
    obtain ⟨_ | _ | _ | _ | _ | n, id⟩ := c
    · exact .inl (Option.some.inj hb ▸ by simp)
    · exact .inr ⟨rfl, (Option.some.inj hb).symm⟩
    · exact .inl (Option.some.inj hb ▸ by simp)
    · exact .inl (Option.some.inj hb ▸ by simp)
    · exact .inl (Option.some.inj hb ▸ by simp)
    · exact absurd (show none = some w from hb) (by simp)
  have hrank : crossed.Rank fun c => c.place := by
    refine ⟨fun h => h, @fun c d w hb hd => ?_⟩
    rcases hbound hb with hw | ⟨hc, rfl⟩
    · exact absurd hd (hw d)
    · rw [nth, Value.leaves_cell, List.mem_singleton, Value.cell.injEq] at hd
      rw [hd, hc]
      exact Nat.one_pos
  exact hrank.acyclic

/-- The first argument binds a cell that stands in the second one, and that the third and the
    fourth one are matched with later.  The entry has a call before it and a bound cell at its
    end. -/
theorem resolve_invisible_crossing :
    let s := Store.chained
    s.resolve .meeting =
      .action (.literal "f") [Store.nth 0, Store.nth 0, Store.nth 2, Store.nth 3] ∧
    (s.image (s.resolve .meeting)).text = s.text .meeting ∧
    s.fits (s.resolve .meeting) .crossing = true ∧ s.bindFrom .meeting .crossing = .crossed ∧
    s.bindFrom (s.resolve .meeting) (s.resolve .crossing) = .crossed ∧
    Store.crossed.resolve (Store.nth 3) = .call (.call (.state "3")) ∧
    (Entry.chainedPattern.resolve s).text s = Entry.chainedPattern.text s ∧
    (Entry.chainedPattern.resolve s).fits s .chained = true ∧
    ((Entry.chainedPattern.resolve s).bindFrom s (Entry.chained.resolve s)).resolve (Store.nth 1) =
      .state "1" := by
  have hends (v : Value) : Store.chained.Ends v := fun _ _ c _ => Store.acyclic_chained c
  obtain ⟨hvalue, hentry⟩ := resolve_invisible .chained
  obtain ⟨-, -, -, -, htext, -, -, hfits, hbind⟩ := hvalue .meeting (hends _)
  obtain ⟨-, -, hentryText, -, -, hentryFits, hentryBind⟩ :=
    hentry .chainedPattern fun v _ => hends v
  have hmatched : Store.chained.bindFrom .meeting .crossing = .crossed := rfl
  have hearly := (hbind .crossing (hends _)).2 fun ⟨c, hc, _⟩ =>
    Store.acyclic_crossed c (hmatched ▸ hc)
  have hfills := Entry.fills_bindFrom (s := .chained) (p := .chainedPattern) (e := .chained) rfl
    (fun v _ => hends v) (by decide)
  have hentryEarly := (hentryBind .chained fun v _ => hends v).2 fun ⟨c, hc, _⟩ =>
    (hfills.ends (hends (.cell c))).not_leadsToItself (.leaf (by simp)) hc
  exact ⟨rfl, htext, (hfits .crossing).1.trans rfl, hmatched, hearly, rfl, hentryText,
    (hentryFits .chained).1.trans rfl, hentryEarly ▸ rfl⟩

end AdaptiveAutomata
