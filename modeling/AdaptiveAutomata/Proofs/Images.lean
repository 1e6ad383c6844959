/-
  Images against the values they show.

  An image shows a value node by node: every cell with its identifier, and with
  what it is bound to.  So what an image shows does not depend on where in the
  store the cells are, and a value can be taken from one store to another.

  * `Image.Shows` is the relation, `Store.Alike` says of two values in two stores
    that they are the same node by node;
  * `shows_image`: the image of a value shows the value, unless one comes from it
    to a cell that leads back to itself, and `imageWithin_of_shows`: no other image does;
  * `Store.grounded_iff`: these are the only values that an image shows;
  * `Image.Shows.of_binding?`: what is done to other cells does not matter;
  * `Image.Shows.outline_eq` and `Image.Shows.outline_resolveWithin`: what one image
    shows in two stores is taken for equal, also as it reads.
-/
import AdaptiveAutomata.Proofs.Acyclic

namespace AdaptiveAutomata

/-- Two relations to the same list give a relation between the two others. -/
theorem forall₂_of_forall₂ {α β γ : Type} {R : α → β → Prop} {T : α → γ → Prop}
    {Q : β → γ → Prop} {as : List α} {bs : List β} {cs : List γ}
    (h : ∀ a ∈ as, ∀ b c, R a b → T a c → Q b c) (hb : List.Forall₂ R as bs)
    (hc : List.Forall₂ T as cs) : List.Forall₂ Q bs cs := by
  induction hb generalizing cs with
  | nil => cases hc; exact .nil
  | @cons a b as bs hab _ ih =>
    cases hc with
    | cons hac hc =>
      exact .cons (h a List.mem_cons_self _ _ hab hac)
        (ih (fun x hx => h x (List.mem_cons_of_mem a hx)) hc)

theorem forall₂_imp_of_mem {α β : Type} {R Q : α → β → Prop} {as : List α} {bs : List β}
    (h : ∀ a ∈ as, ∀ b ∈ bs, R a b → Q a b) (hr : List.Forall₂ R as bs) :
    List.Forall₂ Q as bs :=
  List.forall₂_iff_zip.2 ⟨hr.length_eq, fun hz =>
    h _ (List.of_mem_zip hz).1 _ (List.of_mem_zip hz).2 (List.forall₂_zip hr hz)⟩

theorem map_eq_map_of_forall₂ {α β γ : Type} {R : α → β → Prop} {f : α → γ} {g : β → γ}
    {as : List α} {bs : List β} (hr : List.Forall₂ R as bs)
    (h : ∀ a ∈ as, ∀ b ∈ bs, R a b → f a = g b) : as.map f = bs.map g := by
  rw [← List.forall₂_eq_eq_eq, List.forall₂_map_left_iff, List.forall₂_map_right_iff]
  exact forall₂_imp_of_mem h hr

theorem exists_of_mem_forall₂ {α β : Type} {R : α → β → Prop} {as : List α} {bs : List β}
    (hr : List.Forall₂ R as bs) {b : β} (hb : b ∈ bs) : ∃ a ∈ as, R a b := by
  induction hr with
  | nil => exact absurd hb List.not_mem_nil
  | @cons a b' as bs h _ ih =>
    rcases List.mem_cons.1 hb with rfl | hb
    · exact ⟨a, List.mem_cons_self, h⟩
    · obtain ⟨a', ha', h'⟩ := ih hb
      exact ⟨a', List.mem_cons_of_mem a ha', h'⟩

/-! ## Induction over images -/

namespace Image

mutual

/-- **Induction over images**, with a hypothesis for each argument of a call of an
    adaptive action. -/
theorem induct {P : Image → Prop} (epsilon : P .epsilon) (state : ∀ name, P (.state name))
    (symbol : ∀ name, P (.symbol name)) (literal : ∀ name, P (.literal name))
    (call : ∀ a, P a → P (.call a))
    (action : ∀ a as, P a → (∀ b ∈ as, P b) → P (.action a as))
    (free : ∀ id, P (.free id)) (bound : ∀ id a, P a → P (.bound id a)) : ∀ a, P a
  | .epsilon => epsilon
  | .state name => state name
  | .symbol name => symbol name
  | .literal name => literal name
  | .call a => call a (induct epsilon state symbol literal call action free bound a)
  | .action a as =>
    action a as (induct epsilon state symbol literal call action free bound a)
      (inductAll epsilon state symbol literal call action free bound as)
  | .free id => free id
  | .bound id a => bound id a (induct epsilon state symbol literal call action free bound a)

theorem inductAll {P : Image → Prop} (epsilon : P .epsilon) (state : ∀ name, P (.state name))
    (symbol : ∀ name, P (.symbol name)) (literal : ∀ name, P (.literal name))
    (call : ∀ a, P a → P (.call a))
    (action : ∀ a as, P a → (∀ b ∈ as, P b) → P (.action a as))
    (free : ∀ id, P (.free id)) (bound : ∀ id a, P a → P (.bound id a)) :
    ∀ as : List Image, ∀ a ∈ as, P a
  | [], _, h => absurd h List.not_mem_nil
  | a :: as, b, h => by
    rcases List.mem_cons.1 h with h | h
    · exact h ▸ induct epsilon state symbol literal call action free bound a
    · exact inductAll epsilon state symbol literal call action free bound as b h

end

/-! ## What an image shows -/

/-- An image shows a value of a store node by node. -/
inductive Shows (s : Store) : Image → Value → Prop
  | epsilon : Shows s .epsilon .epsilon
  | state (name : String) : Shows s (.state name) (.state name)
  | symbol (name : String) : Shows s (.symbol name) (.symbol name)
  | literal (name : String) : Shows s (.literal name) (.literal name)
  | call {a : Image} {v : Value} (h : Shows s a v) : Shows s (.call a) (.call v)
  | action {a : Image} {v : Value} {as : List Image} {vs : List Value} (h : Shows s a v)
      (hs : List.Forall₂ (Shows s) as vs) : Shows s (.action a as) (.action v vs)
  | free {c : Cell} (hb : s.binding? c = none) : Shows s (.free c.id) (.cell c)
  | bound {a : Image} {v : Value} {c : Cell} (hb : s.binding? c = some v) (h : Shows s a v) :
      Shows s (.bound c.id a) (.cell c)

end Image

namespace Store

variable {s t u : Store} {v w : Value} {a : Image}

/-- Two values in two stores are the same node by node: they are built alike, and
    their cells have the same identifiers and are bound to values of which the
    same holds. -/
inductive Alike (s t : Store) : Value → Value → Prop
  | epsilon : Alike s t .epsilon .epsilon
  | state (name : String) : Alike s t (.state name) (.state name)
  | symbol (name : String) : Alike s t (.symbol name) (.symbol name)
  | literal (name : String) : Alike s t (.literal name) (.literal name)
  | call {v w : Value} (h : Alike s t v w) : Alike s t (.call v) (.call w)
  | action {v w : Value} {vs ws : List Value} (h : Alike s t v w)
      (hs : List.Forall₂ (Alike s t) vs ws) : Alike s t (.action v vs) (.action w ws)
  | free {c d : Cell} (hc : s.binding? c = none) (hd : t.binding? d = none) (h : c.id = d.id) :
      Alike s t (.cell c) (.cell d)
  | bound {c d : Cell} {v w : Value} (hc : s.binding? c = some v) (hd : t.binding? d = some w)
      (h : c.id = d.id) (hvw : Alike s t v w) : Alike s t (.cell c) (.cell d)

/-- What one image shows in two stores is the same node by node. -/
theorem alike_of_shows (hv : a.Shows s v) (hw : a.Shows t w) : s.Alike t v w := by
  induction a using Image.induct generalizing v w with
  | epsilon => cases hv; cases hw; exact .epsilon
  | state => cases hv; cases hw; exact .state _
  | symbol => cases hv; cases hw; exact .symbol _
  | literal => cases hv; cases hw; exact .literal _
  | call a ih =>
    cases hv with
    | call hv =>
      cases hw with
      | call hw => exact .call (ih hv hw)
  | action a as ih ihs =>
    cases hv with
    | action hv hvs =>
      cases hw with
      | action hw hws =>
        exact .action (ih hv hw) (forall₂_of_forall₂ (fun b hb v w => ihs b hb) hvs hws)
  | free id =>
    cases hv with
    | @free c hv =>
      generalize hid : c.id = id at hw
      cases hw with
      | free hw => exact .free hv hw hid
  | bound id a ih =>
    cases hv with
    | @bound _ _ c hb hv =>
      generalize hid : c.id = id at hw
      cases hw with
      | bound hb' hw => exact .bound hb hb' hid (ih hv hw)

end Store

/-! ## The image of a value -/

namespace Store

/-- Nothing that a value leads to leads back to itself. -/
def Grounded (s : Store) (v : Value) : Prop := ∀ c, s.Reaches v (.cell c) → ¬ s.LeadsToItself c

variable {s t u : Store} {v w : Value} {a : Image}

/-- A value is shown by what is made of images that show its cells. -/
theorem shows_image_of_leaves {f : Cell → Image}
    (h : ∀ c, .cell c ∈ v.leaves → (f c).Shows s (.cell c)) : (v.image f).Shows s v := by
  induction v using Value.recParts with
  | leaf v hv =>
    cases v with
    | call | action => exact absurd hv Bool.false_ne_true
    | epsilon => exact .epsilon
    | state => exact .state _
    | symbol => exact .symbol _
    | literal => exact .literal _
    | cell c => exact h c (by simp)
  | call v ih => exact .call (ih fun c hc => h c (by simpa using hc))
  | action v vs ih ihs =>
    rw [Value.image, Value.imageAll_eq_map]
    refine .action (ih fun c hc => h c (by simp [hc])) ?_
    rw [List.forall₂_map_left_iff, List.forall₂_same]
    refine fun w hw => ihs w hw fun c hc => h c ?_
    rw [Value.leaves_action]
    exact List.mem_append_right _ (List.mem_flatMap.2 ⟨w, hw, hc⟩)

theorem shows_imageWithin {depth : Nat} (hv : s.Grounded v)
    (hd : ∀ c, .cell c ∈ v.leaves → (s.below c).card ≤ depth) :
    (s.imageWithin depth v).Shows s v := by
  induction depth generalizing v with
  | zero =>
    exact shows_image_of_leaves fun c hc =>
      .free (unbound_of_card_below (Nat.le_zero.1 (hd c hc)))
  | succ depth ih =>
    refine shows_image_of_leaves fun c hc => ?_
    cases hb : s.binding? c with
    | none => exact .free hb
    | some w =>
      refine .bound hb (ih (fun d hd => hv d (.binding hc hb hd)) fun d hd' => ?_)
      have := card_below_lt (hv c (.leaf hc)) hb hd'
      have := hd c hc
      omega

/-- **The image of a value shows it**, unless one comes from it to a cell that leads
    back to itself. -/
theorem shows_image (hv : s.Grounded v) : (s.image v).Shows s v :=
  shows_imageWithin hv fun c _ => card_below_le s c

/-! ## Other cells -/

/-- What a value leads to in one store it leads to in another that has the same
    bindings for the cells on the way. -/
theorem Reaches.of_binding? {x : Value} (h : t.Reaches v x)
    (hst : ∀ c, s.Reaches v (.cell c) → t.binding? c = s.binding? c) : s.Reaches v x := by
  induction h with
  | leaf h => exact .leaf h
  | binding hc hb _ ih =>
    rw [hst _ (.leaf hc)] at hb
    exact .binding hc hb (ih fun d hd => hst d (.binding hc hb hd))

theorem resolveWithin_call (s : Store) (depth : Nat) (v : Value) :
    s.resolveWithin depth (.call v) = .call (s.resolveWithin depth v) := by
  rw [resolveWithin_eq_subst, Value.subst, ← resolveWithin_eq_subst]

theorem resolveWithin_action (s : Store) (depth : Nat) (v : Value) (vs : List Value) :
    s.resolveWithin depth (.action v vs) =
      .action (s.resolveWithin depth v) (vs.map (s.resolveWithin depth)) := by
  rw [resolveWithin_eq_subst, Value.subst, Value.substAll_eq_map, ← resolveWithin_eq_subst]
  exact congrArg _ (List.map_congr_left fun w _ => (resolveWithin_eq_subst s depth w).symm)

theorem Reaches.call {x : Value} (h : s.Reaches v x) : s.Reaches (.call v) x :=
  h.of_leaves_subset fun _ hx => by rwa [Value.leaves_call]

theorem Reaches.action_name {x : Value} (h : s.Reaches v x) (vs : List Value) :
    s.Reaches (.action v vs) x :=
  h.of_leaves_subset fun _ hx => by
    rw [Value.leaves_action]
    exact List.mem_append_left _ hx

theorem Reaches.action_argument {x : Value} {vs : List Value} (h : s.Reaches v x) (hv : v ∈ vs)
    (w : Value) : s.Reaches (.action w vs) x :=
  h.of_leaves_subset fun _ hx => by
    rw [Value.leaves_action]
    exact List.mem_append_right _ (List.mem_flatMap.2 ⟨v, hv, hx⟩)

end Store

namespace Image

variable {s t r : Store} {a : Image} {v w : Value}

/-- **Other cells do not matter**: an image shows a value in every store that has the
    same bindings for the cells that the value leads to. -/
theorem Shows.of_binding? (h : a.Shows s v)
    (hst : ∀ c, s.Reaches v (.cell c) → t.binding? c = s.binding? c) : a.Shows t v := by
  induction a using Image.induct generalizing v with
  | epsilon => cases h; exact .epsilon
  | state => cases h; exact .state _
  | symbol => cases h; exact .symbol _
  | literal => cases h; exact .literal _
  | call a ih =>
    cases h with
    | call h => exact .call (ih h fun c hc => hst c hc.call)
  | action a as ih ihs =>
    cases h with
    | @action _ _ _ vs h hs =>
      refine .action (ih h fun c hc => hst c (hc.action_name vs)) ?_
      exact forall₂_imp_of_mem (fun b hb x hx hbx =>
        ihs b hb hbx fun c hc => hst c (hc.action_argument hx _)) hs
  | free id =>
    cases h with
    | free hb => exact .free (by rw [hst _ (.leaf (by simp)), hb])
  | bound id a ih =>
    cases h with
    | bound hb h =>
      refine .bound (by rw [hst _ (.leaf (by simp)), hb]) (ih h fun c hc => hst c ?_)
      exact .binding (by simp) hb hc

/-! ## Reading through an image -/

mutual

/-- The image with what its cells are bound to in their place. -/
def flatten : Image → Image
  | epsilon => .epsilon
  | state name => .state name
  | symbol name => .symbol name
  | literal name => .literal name
  | call a => .call (flatten a)
  | action a as => .action (flatten a) (flattenAll as)
  | free id => .free id
  | bound _ a => flatten a
termination_by structural a => a

def flattenAll : List Image → List Image
  | [] => []
  | a :: as => flatten a :: flattenAll as
termination_by structural as => as

end

mutual

/-- How many bound cells stand inside each other. -/
def cellDepth : Image → Nat
  | epsilon | state _ | symbol _ | literal _ | free _ => 0
  | call a => cellDepth a
  | action a as => max (cellDepth a) (cellDepths as)
  | bound _ a => cellDepth a + 1
termination_by structural a => a

/-- The greatest of their depths. -/
def cellDepths : List Image → Nat
  | [] => 0
  | a :: as => max (cellDepth a) (cellDepths as)
termination_by structural as => as

end

@[simp]
theorem flattenAll_eq_map (as : List Image) : flattenAll as = as.map flatten := by
  induction as with
  | nil => rfl
  | cons a as ih => simp [flattenAll, ih]

theorem cellDepths_le_iff {as : List Image} {n : Nat} :
    cellDepths as ≤ n ↔ ∀ a ∈ as, a.cellDepth ≤ n := by
  induction as with
  | nil => simp [cellDepths]
  | cons a as ih => simp [cellDepths, ih]

theorem cellDepth_action_le {as : List Image} {n : Nat} :
    (action a as).cellDepth ≤ n ↔ a.cellDepth ≤ n ∧ ∀ b ∈ as, b.cellDepth ≤ n := by
  rw [cellDepth, Nat.max_le, cellDepths_le_iff]

/-- **Reading a value** gives what its image is with bindings in the place of cells,
    if it is read as deep as cells stand inside each other. -/
theorem Shows.outline_resolveWithin {depth : Nat} (h : a.Shows s v) (hd : a.cellDepth ≤ depth) :
    (s.resolveWithin depth v).outline = a.flatten := by
  induction a using Image.induct generalizing v depth with
  | epsilon | state | symbol | literal =>
    cases h
    rw [Store.resolveWithin_eq_subst, Value.subst, flatten, Value.outline, Value.image]
  | call a ih =>
    cases h with
    | call h =>
      rw [cellDepth] at hd
      rw [Store.resolveWithin_call, Value.outline_call, ih h hd, flatten]
  | action a as ih ihs =>
    cases h with
    | @action _ _ _ vs h hs =>
      obtain ⟨hd, hds⟩ := cellDepth_action_le.1 hd
      have hvs : (vs.map (s.resolveWithin depth)).map Value.outline = as.map flatten := by
        rw [List.map_map]
        exact (map_eq_map_of_forall₂ hs fun b hb w _ hbw =>
          (ihs b hb hbw (hds b hb)).symm).symm
      rw [Store.resolveWithin_action, Value.outline_action, ih h hd, hvs, flatten,
        flattenAll_eq_map]
  | free id =>
    cases h with
    | free hb => rw [Store.resolveWithin_cell_of_none hb, Value.outline_cell, flatten]
  | bound id a ih =>
    cases h with
    | bound hb h =>
      rw [cellDepth] at hd
      cases depth with
      | zero => exact absurd hd (Nat.not_succ_le_zero _)
      | succ depth =>
        rw [Store.resolveWithin_succ, Value.subst, hb, flatten]
        exact ih h (Nat.le_of_succ_le_succ hd)

/-- What an image shows in two stores is taken for equal. -/
theorem Shows.outline_eq (hv : a.Shows s v) (hw : a.Shows t w) : v.outline = w.outline := by
  induction a using Image.induct generalizing v w with
  | epsilon | state | symbol | literal => cases hv; cases hw; rfl
  | call a ih =>
    cases hv with
    | call hv =>
      cases hw with
      | call hw => rw [Value.outline_call, Value.outline_call, ih hv hw]
  | action a as ih ihs =>
    cases hv with
    | action hv hvs =>
      cases hw with
      | action hw hws =>
        rw [Value.outline_action, Value.outline_action, ih hv hw, Image.action.injEq,
          ← List.forall₂_eq_eq_eq, List.forall₂_map_left_iff, List.forall₂_map_right_iff]
        exact ⟨rfl, forall₂_of_forall₂ (fun b hb v w => ihs b hb) hvs hws⟩
  | free id =>
    cases hv with
    | @free c hv =>
      generalize hid : c.id = id at hw
      cases hw with
      | free hw => rw [Value.outline_cell, Value.outline_cell, hid]
  | bound id a ih =>
    cases hv with
    | @bound _ _ c hb hv =>
      generalize hid : c.id = id at hw
      cases hw with
      | bound hb' hw => rw [Value.outline_cell, Value.outline_cell, hid]

end Image

namespace Store

variable {s t u r : Store} {v w : Value} {a : Image}

theorem cellDepth_image_le {f : Cell → Image} {n : Nat}
    (h : ∀ c, .cell c ∈ v.leaves → (f c).cellDepth ≤ n) : (v.image f).cellDepth ≤ n := by
  induction v using Value.recParts with
  | leaf v hv =>
    cases v with
    | call | action => exact absurd hv Bool.false_ne_true
    | cell c => exact h c (by simp)
    | _ => rw [Value.image, Image.cellDepth]; exact Nat.zero_le n
  | call v ih =>
    rw [Value.image, Image.cellDepth]
    exact ih fun c hc => h c (by simpa using hc)
  | action v vs ih ihs =>
    rw [Value.image, Value.imageAll_eq_map, Image.cellDepth_action_le]
    refine ⟨ih fun c hc => h c (by simp [hc]), fun b hb => ?_⟩
    obtain ⟨w, hw, rfl⟩ := List.mem_map.1 hb
    refine ihs w hw fun c hc => h c ?_
    rw [Value.leaves_action]
    exact List.mem_append_right _ (List.mem_flatMap.2 ⟨w, hw, hc⟩)

theorem imageWithin_call (s : Store) (depth : Nat) (v : Value) :
    s.imageWithin depth (.call v) = .call (s.imageWithin depth v) := by
  cases depth <;> rfl

theorem imageWithin_action (s : Store) (depth : Nat) (v : Value) (vs : List Value) :
    s.imageWithin depth (.action v vs) =
      .action (s.imageWithin depth v) (vs.map (s.imageWithin depth)) := by
  cases depth with
  | zero => exact Value.outline_action v vs
  | succ depth =>
    rw [imageWithin, Value.image, Value.imageAll_eq_map]
    rfl

/-- The image of a value is the one that shows it, if it is taken as deep as cells
    stand inside each other. -/
theorem imageWithin_of_shows {depth : Nat} (h : a.Shows s v) (hd : a.cellDepth ≤ depth) :
    s.imageWithin depth v = a := by
  induction a using Image.induct generalizing v depth with
  | epsilon | state | symbol | literal => cases h; cases depth <;> rfl
  | call a ih =>
    cases h with
    | call h =>
      rw [Image.cellDepth] at hd
      rw [imageWithin_call, ih h hd]
  | action a as ih ihs =>
    cases h with
    | @action _ _ _ vs h hs =>
      obtain ⟨hd, hds⟩ := Image.cellDepth_action_le.1 hd
      have hvs : vs.map (s.imageWithin depth) = as := by
        have h := map_eq_map_of_forall₂ (f := id) hs fun b hb w _ hbw =>
          (ihs b hb hbw (hds b hb)).symm
        rw [← h, List.map_id]
      rw [imageWithin_action, ih h hd, hvs]
  | free id =>
    cases h with
    | free hb =>
      cases depth with
      | zero => rfl
      | succ depth => rw [imageWithin, Value.image, hb]
  | bound id a ih =>
    cases h with
    | bound hb h =>
      rw [Image.cellDepth] at hd
      cases depth with
      | zero => exact absurd hd (Nat.not_succ_le_zero _)
      | succ depth =>
        rw [imageWithin, Value.image, hb]
        exact congrArg _ (ih h (Nat.le_of_succ_le_succ hd))

theorem cellDepth_imageWithin_le (s : Store) (depth : Nat) (v : Value) :
    (s.imageWithin depth v).cellDepth ≤ depth := by
  induction depth generalizing v with
  | zero => exact cellDepth_image_le fun c _ => by rw [Image.cellDepth]
  | succ depth ih =>
    refine cellDepth_image_le fun c _ => ?_
    cases s.binding? c with
    | none => exact Nat.zero_le _
    | some w => exact Nat.succ_le_succ (ih w)

end Store

/-! ## Which values have an image -/

namespace Image

variable {s : Store} {a b : Image} {v : Value} {c : Cell}

theorem Shows.unique (ha : a.Shows s v) (hb : b.Shows s v) : a = b :=
  (Store.imageWithin_of_shows ha (Nat.le_max_left _ b.cellDepth)).symm.trans
    (Store.imageWithin_of_shows hb (Nat.le_max_right _ _))

theorem Shows.of_mem_leaves (h : a.Shows s v) (hc : .cell c ∈ v.leaves) :
    ∃ b : Image, b.Shows s (.cell c) ∧ b.cellDepth ≤ a.cellDepth := by
  induction a using Image.induct generalizing v with
  | epsilon | state | symbol | literal => cases h; simp [Value.leaves] at hc
  | call a ih =>
    cases h with
    | call h =>
      rw [Value.leaves_call] at hc
      exact ih h hc
  | action a as ih ihs =>
    cases h with
    | action h hs =>
      have hd := cellDepth_action_le.1 (le_refl (Image.action a as).cellDepth)
      rw [Value.leaves_action, List.mem_append, List.mem_flatMap] at hc
      rcases hc with hc | ⟨w, hw, hc⟩
      · obtain ⟨b, hb, hbd⟩ := ih h hc
        exact ⟨b, hb, hbd.trans hd.1⟩
      · obtain ⟨x, hx, hxw⟩ := exists_of_mem_forall₂ hs hw
        obtain ⟨b, hb, hbd⟩ := ihs x hx hxw hc
        exact ⟨b, hb, hbd.trans (hd.2 x hx)⟩
  | free | bound =>
    have hcell : v = .cell c := by
      cases h
      simpa [eq_comm] using hc
    exact ⟨_, hcell ▸ h, le_rfl⟩

/-- Whatever cell one comes to from a value that is shown, is shown too. -/
theorem Shows.of_reaches (h : a.Shows s v) (hr : s.Reaches v (.cell c)) :
    ∃ b : Image, b.Shows s (.cell c) ∧ b.cellDepth ≤ a.cellDepth := by
  generalize hu : Value.cell c = u at hr
  induction hr generalizing a with
  | leaf hc =>
    subst hu
    exact h.of_mem_leaves hc
  | binding hd hb _ ih =>
    obtain ⟨x, hx, hxd⟩ := h.of_mem_leaves hd
    cases hx with
    | free hb' => exact absurd (hb.symm.trans hb') (Option.some_ne_none _)
    | bound hb' hx =>
      rw [hb, Option.some.injEq] at hb'
      subst hb'
      obtain ⟨b, hb, hbd⟩ := ih hx hu
      rw [cellDepth] at hxd
      exact ⟨b, hb, by omega⟩

end Image

/-- **A value has an image that shows it** exactly if nothing that it leads to leads back
    to itself. -/
theorem Store.grounded_iff {s : Store} {v : Value} : s.Grounded v ↔ ∃ a : Image, a.Shows s v := by
  refine ⟨fun h => ⟨_, shows_image h⟩, fun ⟨a, ha⟩ c hc ⟨w, hb, d, hd, hp⟩ => ?_⟩
  obtain ⟨x, hx, -⟩ := ha.of_reaches hc
  -- The image of a cell on a cycle would stand inside itself.
  have bound {x : Image} {e : Cell} (hx : x.Shows s (.cell e)) (he : e.place = c.place) :
      ∃ y : Image, y.Shows s w ∧ x.cellDepth = y.cellDepth + 1 := by
    have hbe : s.binding? e = some w := (binding?_congr he s).trans hb
    cases hx with
    | free hb' => exact absurd (hbe.symm.trans hb') (Option.some_ne_none _)
    | @bound y _ _ hb' hy =>
      rw [hbe, Option.some.injEq] at hb'
      exact ⟨y, hb' ▸ hy, by rw [Image.cellDepth]⟩
  obtain ⟨y, hy, -⟩ := bound hx rfl
  obtain ⟨z, hz, hzd⟩ := hy.of_reaches hd
  obtain ⟨y', hy', hyd⟩ := bound hz hp
  rw [hy'.unique hy] at hyd
  omega

end AdaptiveAutomata
