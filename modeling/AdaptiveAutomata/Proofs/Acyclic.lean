/-
  Cells that lead back to themselves.

  A cell is bound to what a value reads as, and refuses a value that reads as the
  cell itself.  It does not refuse a call or a reference with the cell inside,
  and that is the only way in which a cell comes to lead back to itself.

  * `Store.Acyclic` says that no cell leads back to itself, `Store.HoldsItself`
    that a cell stands in the very value it is bound to;
  * `Store.Rank` is a number for each cell that goes down along bindings; a store
    has one exactly if it is acyclic, and then one that is at most the number of
    cells (`Acyclic.exists_rank`, `Rank.acyclic`);
  * `Acyclic.resolveWithin_eq` and `Acyclic.bindFromWithin_eq`: in an acyclic
    store the number of cells is depth enough, so reading and matching end by
    themselves;
  * `Store.AcyclicFrom` says that no cell from a place on leads back to itself, and
    `Store.RankOn` is a rank of some cells only;
  * `acyclic_iff_of_uses`: whatever is done with cells, they stay acyclic exactly
    as long as none holds itself.
-/
import AdaptiveAutomata.Proofs.Moves
import Mathlib.Data.Finset.Card

namespace AdaptiveAutomata

namespace Store

variable {s t : Store} {c d : Cell} {v w : Value}

/-! ## Self-reference -/

/-- The cell is bound to a value that leads back to it. -/
def LeadsToItself (s : Store) (c : Cell) : Prop :=
  ∃ w, s.binding? c = some w ∧ ∃ d, s.Reaches w (.cell d) ∧ d.place = c.place

/-- The cell is bound to a value that holds it. -/
def HoldsItself (s : Store) (c : Cell) : Prop :=
  ∃ w, s.binding? c = some w ∧ ∃ d, .cell d ∈ w.leaves ∧ d.place = c.place

/-- No cell leads back to itself. -/
def Acyclic (s : Store) : Prop := ∀ c, ¬ s.LeadsToItself c

/-- No cell from a place on leads back to itself. -/
def AcyclicFrom (s : Store) (place : Nat) : Prop := ∀ c, place ≤ c.place → ¬ s.LeadsToItself c

theorem acyclic_empty (supply : Nat → Uuid) : (empty supply).Acyclic := by
  rintro c ⟨w, hb, -⟩
  exact absurd (place_lt_size hb) (Nat.not_lt_zero _)

theorem HoldsItself.leadsToItself (h : s.HoldsItself c) : s.LeadsToItself c := by
  obtain ⟨w, hb, d, hd, hp⟩ := h
  exact ⟨w, hb, d, .leaf hd, hp⟩

theorem HoldsItself.mono (h : s.HoldsItself c) (hst : t.Extends s) : t.HoldsItself c := by
  obtain ⟨w, hb, hd⟩ := h
  exact ⟨w, hst c w hb, hd⟩

/-! ## Ranks -/

/-- A number for each cell that goes down along bindings. -/
structure Rank (s : Store) (rank : Cell → Nat) : Prop where
  congr : ∀ {c d}, c.place = d.place → rank c = rank d
  lt : ∀ {c d w}, s.binding? c = some w → .cell d ∈ w.leaves → rank d < rank c

theorem Rank.exists_le {rank : Cell → Nat} (hr : s.Rank rank) {u : Value} (h : s.Reaches v u) :
    ∀ d, u = .cell d → ∃ c, .cell c ∈ v.leaves ∧ rank d ≤ rank c := by
  induction h with
  | leaf h => exact fun d hd => ⟨d, hd ▸ h, le_rfl⟩
  | @binding v w u c hc hb _ ih =>
    intro d hd
    obtain ⟨e, he, hle⟩ := ih d hd
    exact ⟨c, hc, hle.trans (hr.lt hb he).le⟩

theorem Rank.acyclic {rank : Cell → Nat} (hr : s.Rank rank) : s.Acyclic := by
  rintro c ⟨w, hb, d, hd, hp⟩
  obtain ⟨e, he, hle⟩ := hr.exists_le hd d rfl
  have := hr.lt hb he
  rw [hr.congr hp] at hle
  omega

open Classical in
/-- The places of the bound cells that a cell leads to. -/
noncomputable def below (s : Store) (c : Cell) : Finset Nat :=
  (Finset.range s.size).filter fun i =>
    ∃ d, s.Reaches (.cell c) (.cell d) ∧ d.place = i ∧ s.binding? d ≠ none

theorem mem_below {i : Nat} :
    i ∈ s.below c ↔ ∃ d, s.Reaches (.cell c) (.cell d) ∧ d.place = i ∧ s.binding? d ≠ none := by
  simp only [below, Finset.mem_filter, Finset.mem_range, and_iff_right_iff_imp]
  rintro ⟨d, -, rfl, hd⟩
  obtain ⟨w, hw⟩ := Option.ne_none_iff_exists'.1 hd
  exact place_lt_size hw

theorem below_congr (h : c.place = d.place) : s.below c = s.below d := by
  have key {c d : Cell} (h : c.place = d.place) {i : Nat} (hi : i ∈ s.below c) :
      i ∈ s.below d := by
    obtain ⟨e, he, rfl, hb⟩ := mem_below.1 hi
    refine mem_below.2 ?_
    cases he with
    | leaf he =>
      rw [Value.leaves_cell, List.mem_singleton, Value.cell.injEq] at he
      exact ⟨d, .leaf (by simp), by rw [he, h], by rwa [← binding?_congr h, ← he]⟩
    | binding hc hb' he =>
      rw [Value.leaves_cell, List.mem_singleton, Value.cell.injEq] at hc
      rw [hc, binding?_congr h] at hb'
      exact ⟨e, .binding (by simp) hb' he, rfl, hb⟩
  exact Finset.Subset.antisymm (fun _ => key h) fun _ => key h.symm

theorem self_mem_below (h : s.binding? c = some w) : c.place ∈ s.below c :=
  mem_below.2 ⟨c, .leaf (by simp), rfl, by simp [h]⟩

theorem card_below_le (s : Store) (c : Cell) : (s.below c).card ≤ s.size := by
  have hsub : s.below c ⊆ Finset.range s.size := by
    intro i hi
    obtain ⟨d, -, rfl, hd⟩ := mem_below.1 hi
    obtain ⟨w, hw⟩ := Option.ne_none_iff_exists'.1 hd
    exact Finset.mem_range.2 (place_lt_size hw)
  simpa using Finset.card_le_card hsub

theorem unbound_of_card_below (h : (s.below c).card = 0) : s.binding? c = none := by
  by_contra hn
  obtain ⟨w, hw⟩ := Option.ne_none_iff_exists'.1 hn
  exact Finset.card_ne_zero_of_mem (self_mem_below hw) h

/-- From a cell that does not lead back to itself, there are fewer bound cells left
    past its binding. -/
theorem card_below_lt (h : ¬ s.LeadsToItself c) (hb : s.binding? c = some w)
    (hd : .cell d ∈ w.leaves) : (s.below d).card < (s.below c).card := by
  refine Finset.card_lt_card (Finset.ssubset_iff_of_subset ?_ |>.2 ⟨_, self_mem_below hb, ?_⟩)
  · intro i hi
    obtain ⟨e, he, h⟩ := mem_below.1 hi
    exact mem_below.2 ⟨e, .binding (by simp) hb (he.of_leaf hd), h⟩
  · intro hi
    obtain ⟨e, he, hp, -⟩ := mem_below.1 hi
    exact h ⟨w, hb, e, he.of_leaf hd, hp⟩

/-- **An acyclic store has a rank**: the number of bound cells that a cell leads
    to.  It is zero for unbound cells only, and at most the number of cells. -/
theorem Acyclic.exists_rank (hs : s.Acyclic) :
    ∃ rank : Cell → Nat, s.Rank rank ∧ (∀ c, rank c ≤ s.size) ∧
      ∀ c, rank c = 0 → s.binding? c = none :=
  ⟨fun c => (s.below c).card, ⟨fun h => by rw [below_congr h], card_below_lt (hs _)⟩,
    card_below_le s, fun _ => unbound_of_card_below⟩

/-! ## Depth enough -/

/-- A number for each of some cells that goes down along bindings, and is zero for
    unbound cells only.  What these cells are bound to holds no others. -/
structure RankOn (s : Store) (P : Cell → Prop) (rank : Cell → Nat) : Prop where
  lt : ∀ {c d w}, P c → s.binding? c = some w → .cell d ∈ w.leaves → P d ∧ rank d < rank c
  zero : ∀ {c}, P c → rank c = 0 → s.binding? c = none

theorem Rank.on {rank : Cell → Nat} (hr : s.Rank rank)
    (hz : ∀ c, rank c = 0 → s.binding? c = none) : s.RankOn (fun _ => True) rank :=
  ⟨fun _ hb hd => ⟨trivial, hr.lt hb hd⟩, fun _ => hz _⟩

theorem RankOn.unbound_of_mem_resolveWithin {P : Cell → Prop} {rank : Cell → Nat}
    (hr : s.RankOn P rank) {depth : Nat} (hv : ∀ c, .cell c ∈ v.leaves → P c ∧ rank c ≤ depth)
    (hc : .cell c ∈ (s.resolveWithin depth v).leaves) : s.binding? c = none := by
  induction depth generalizing v with
  | zero => exact hr.zero (hv c hc).1 (Nat.le_zero.1 (hv c hc).2)
  | succ depth ih =>
    rw [resolveWithin_succ] at hc
    obtain ⟨x, hx, hc⟩ := Value.mem_leaves_subst.1 hc
    by_cases hd : ∃ d, x = .cell d
    · obtain ⟨d, rfl⟩ := hd
      rw [Value.subst] at hc
      cases hb : s.binding? d with
      | none =>
        rw [hb, Value.leaves_cell, List.mem_singleton, Value.cell.injEq] at hc
        exact hc ▸ hb
      | some w =>
        rw [hb] at hc
        refine ih (fun e he => ?_) hc
        have hlt := hr.lt (hv d hx).1 hb he
        have hle := (hv d hx).2
        exact ⟨hlt.1, by omega⟩
    · have hl := Value.isLeaf_of_mem_leaves hx
      rw [not_exists] at hd
      rw [Value.subst_of_isLeaf hl hd, Value.leaves_of_isLeaf hl, List.mem_singleton] at hc
      exact absurd hc.symm (hd c)

/-- Beyond the rank of the cells of a value, depth changes nothing. -/
theorem RankOn.resolveWithin_congr {P : Cell → Prop} {rank : Cell → Nat} (hr : s.RankOn P rank)
    {r m n : Nat} (hv : ∀ c, .cell c ∈ v.leaves → P c ∧ rank c ≤ r) (hm : r ≤ m) (hn : r ≤ n) :
    s.resolveWithin m v = s.resolveWithin n v := by
  induction r generalizing v m n with
  | zero =>
    rw [resolveWithin_eq_subst, resolveWithin_eq_subst s n]
    refine Value.subst_congr fun c hc => ?_
    have hb := hr.zero (hv c hc).1 (Nat.le_zero.1 (hv c hc).2)
    rw [resolveWithin_cell_of_none hb, resolveWithin_cell_of_none hb]
  | succ r ih =>
    obtain ⟨m, rfl⟩ := Nat.exists_eq_add_of_le' hm
    obtain ⟨n, rfl⟩ := Nat.exists_eq_add_of_le' hn
    rw [← Nat.add_assoc, ← Nat.add_assoc, resolveWithin_succ, resolveWithin_succ]
    refine Value.subst_congr fun c hc => ?_
    cases hb : s.binding? c with
    | none => rfl
    | some w =>
      refine ih (fun d hd => ?_) (Nat.le_add_left r m) (Nat.le_add_left r n)
      have hlt := hr.lt (hv c hc).1 hb hd
      have hle := (hv c hc).2
      exact ⟨hlt.1, by omega⟩

/-- In an acyclic store, what is read holds no bound cell. -/
theorem Acyclic.unbound_of_mem_resolve (hs : s.Acyclic)
    (hc : .cell c ∈ (s.resolve v).leaves) : s.binding? c = none := by
  obtain ⟨rank, hr, hle, hz⟩ := hs.exists_rank
  exact (hr.on hz).unbound_of_mem_resolveWithin (fun d _ => ⟨trivial, hle d⟩) hc

/-- **Reading ends**: in an acyclic store it is not cut off by the depth. -/
theorem Acyclic.resolveWithin_eq (hs : s.Acyclic) {depth : Nat} (hd : s.size ≤ depth) (v : Value) :
    s.resolveWithin depth v = s.resolve v := by
  obtain ⟨rank, hr, hle, hz⟩ := hs.exists_rank
  exact (hr.on hz).resolveWithin_congr (fun c _ => ⟨trivial, hle c⟩) hd le_rfl

/-- What a value leads to is in what is read, unless it is a cell. -/
theorem Acyclic.mem_leaves_resolve (hs : s.Acyclic) {u : Value} (h : s.Reaches v u)
    (hu : ∀ c, u ≠ .cell c) : u ∈ (s.resolve v).leaves := by
  induction h with
  | leaf h =>
    rw [resolve_eq_subst]
    have hl := Value.isLeaf_of_mem_leaves h
    refine Value.mem_leaves_subst.2 ⟨_, h, ?_⟩
    rw [Value.subst_of_isLeaf hl hu, Value.leaves_of_isLeaf hl]
    exact List.mem_singleton_self _
  | @binding v w u c hc hb _ ih =>
    have hw : s.resolve (.cell c) = s.resolve w := by
      rw [← hs.resolveWithin_eq (Nat.le_succ s.size), resolveWithin_succ, Value.subst, hb]
      rfl
    rw [resolve_eq_subst]
    refine Value.mem_leaves_subst.2 ⟨_, hc, ?_⟩
    rw [Value.subst, hw]
    exact ih hu

/-! ## Binding a cell -/

theorem LeadsToItself.mono (h : s.LeadsToItself c) (hst : t.Extends s) : t.LeadsToItself c := by
  obtain ⟨w, hb, d, hd, hp⟩ := h
  exact ⟨w, hst c w hb, d, hd.mono hst, hp⟩

theorem Acyclic.of_extends (ht : t.Acyclic) (hst : t.Extends s) : s.Acyclic :=
  fun c hc => ht c (hc.mono hst)

theorem AcyclicFrom.of_extends {place : Nat} (ht : t.AcyclicFrom place) (hst : t.Extends s) :
    s.AcyclicFrom place :=
  fun c hp hc => ht c hp (hc.mono hst)

/-- **A new binding** to a value as it reads makes a cell lead back to itself
    exactly if the value holds the cell that is bound. -/
theorem Acyclic.write_iff (hs : s.Acyclic) (hlt : c.place < s.size)
    (hw : ∀ d, .cell d ∈ w.leaves → s.binding? d = none) :
    (s.write c w).Acyclic ↔ ∀ d, .cell d ∈ w.leaves → d.place ≠ c.place := by
  constructor
  · intro h d hd hp
    exact h c ⟨w, binding?_write_self hlt w, d, .leaf hd, hp⟩
  · intro h
    obtain ⟨rank, hr, -, -⟩ := hs.exists_rank
    -- the cells of `w` stay unbound, so they can all be put at the bottom
    classical
    let rank' : Cell → Nat := fun e => if (s.write c w).binding? e = none then 0 else rank e + 1
    have hrank : (s.write c w).Rank rank' := by
      refine ⟨fun he => ?_, @fun e d x hb hd => ?_⟩
      · simp only [rank', binding?_congr he, hr.congr he]
      · have hpos : rank' e = rank e + 1 := by simp [rank', hb]
        by_cases hn : (s.write c w).binding? d = none
        · simp [hpos, rank', hn]
        · have hd' : rank' d = rank d + 1 := by simp [rank', hn]
          rw [binding?_write hlt] at hb hn
          split at hb
          · obtain rfl := Option.some.inj hb
            rw [if_neg (h d hd).symm] at hn
            exact absurd (hw d hd) hn
          · have := hr.lt hb hd
            omega
    exact hrank.acyclic

theorem Acyclic.of_move (hs : s.Acyclic) (h : Move s t) (ht : ∀ c, ¬ t.HoldsItself c) :
    t.Acyclic := by
  cases h with
  | fresh => exact hs.of_extends fun c w hb => (binding?_fresh s c).symm.trans hb
  | @bind _ c v h =>
    obtain ⟨-, -, rfl⟩ := bind?_eq_some_iff.1 h
    by_cases hlt : c.place < s.size
    · refine (hs.write_iff hlt fun d => hs.unbound_of_mem_resolve).2 fun d hd hp => ?_
      exact ht c ⟨_, binding?_write_self hlt _, d, hd, hp⟩
    · rwa [write_of_le (Nat.le_of_not_lt hlt)]

/-- However many moves are made, it takes a cell that holds itself to make a
    cell lead back to itself. -/
theorem Acyclic.moves_iff (hs : s.Acyclic) (h : Moves s t) :
    t.Acyclic ↔ ∀ c, ¬ t.HoldsItself c := by
  constructor
  · exact fun ht c hc => ht c hc.leadsToItself
  · intro ht
    induction h with
    | refl => exact hs
    | tail _ hm ih =>
      have hmid := ih fun c hc => ht c (hc.mono hm.extends)
      exact hmid.of_move hm ht

theorem Acyclic.bind?_iff (hs : s.Acyclic) (hlt : c.place < s.size) (h : s.bind? c v = some t) :
    t.Acyclic ↔ ∀ d, .cell d ∈ (s.resolve v).leaves → d.place ≠ c.place := by
  obtain ⟨-, -, rfl⟩ := bind?_eq_some_iff.1 h
  exact hs.write_iff hlt fun d => hs.unbound_of_mem_resolve

/-! ## Matching ends -/

section

variable {f g : Value → Value → Store → Store} (hf : ∀ p v s, (f p v s).Extends s)

include hf

theorem extends_walk (p v : Value) (s : Store) : (walk f p v s).Extends s :=
  bindingRule_extends.walk (fun p v s _ => hf p v s) p v s trivial

theorem extends_walkAll (ps vs : List Value) (s : Store) : (walkAll f ps vs s).Extends s :=
  bindingRule_extends.walkAll (fun p _ v s _ => extends_walk hf p v s) vs s fun _ _ => trivial

theorem walkAll_congr :
    ∀ {ps : List Value}, (∀ p ∈ ps, ∀ v s, t.Extends (walk f p v s) → walk f p v s = walk g p v s) →
      ∀ (ws : List Value) (s : Store), t.Extends (walkAll f ps ws s) →
        walkAll f ps ws s = walkAll g ps ws s
  | [], _, ws, s, _ => by cases ws <;> rfl
  | _ :: _, _, [], s, _ => rfl
  | p :: ps, ih, w :: ws, s, ht => by
    have hp : walk f p w s = walk g p w s :=
      ih p List.mem_cons_self w s (ht.trans (extends_walkAll hf ps ws _))
    rw [walkAll, walkAll, ← hp]
    exact walkAll_congr (fun q hq => ih q (List.mem_cons_of_mem p hq)) ws _ ht

/-- Two walks agree if they go on in the same way through the cells that are
    bound in the end. -/
theorem walk_congr {p : Value} :
    ∀ {v : Value} {s : Store}, t.Extends (walk f p v s) →
      (∀ c b v s, .cell c ∈ p.leaves → t.binding? c = some b → t.Extends (f b v s) →
        f b v s = g b v s) → walk f p v s = walk g p v s := by
  induction p using Value.recParts with
  | leaf p hp =>
    intro v s ht h
    cases p with
    | call | action => exact absurd hp Bool.false_ne_true
    | epsilon | state | symbol | literal => rw [walk, walk]
    | cell c =>
      rw [walk] at ht
      rw [walk, walk]
      cases hb : s.binding? c with
      | none => rfl
      | some b =>
        rw [hb] at ht
        exact h c b v s (by simp) (ht c b (hf b v s c b hb)) ht
  | call p ih =>
    intro v s ht h
    rw [walk] at ht
    rw [walk, walk]
    split at ht
    · next w hw => exact ih ht fun c b v s hc => h c b v s (by rwa [Value.leaves_call])
    · rfl
  | action p ps ih ihs =>
    intro v s ht h
    rw [walk] at ht
    rw [walk, walk]
    split at ht
    · next w ws hw =>
      have hp : walk f p w s = walk g p w s :=
        ih (ht.trans (extends_walkAll hf ps ws _)) fun c b v s hc =>
          h c b v s (by rw [Value.leaves_action]; exact List.mem_append_left _ hc)
      rw [← hp]
      refine walkAll_congr hf (fun q hq v s ht => ihs q hq ht fun c b v s hc => h c b v s ?_) ws _ ht
      rw [Value.leaves_action]
      exact List.mem_append_right _ (List.mem_flatMap.2 ⟨q, hq, hc⟩)
    · rfl

end

theorem extends_bindFromWithin (depth : Nat) (p v : Value) (s : Store) :
    (bindFromWithin depth p v s).Extends s :=
  bindingRule_extends.bindFromWithin depth p v s trivial

/-- Beyond the rank of its cells a pattern is not followed. -/
theorem RankOn.bindFromWithin_congr {P : Cell → Prop} {rank : Cell → Nat} (hr : t.RankOn P rank)
    {r m n : Nat} {p : Value} (hp : ∀ c, .cell c ∈ p.leaves → P c ∧ rank c ≤ r) (hm : r ≤ m)
    (hn : r ≤ n) (ht : t.Extends (bindFromWithin (m + 1) p v s)) :
    bindFromWithin (m + 1) p v s = bindFromWithin (n + 1) p v s := by
  induction r generalizing p v s m n with
  | zero =>
    refine walk_congr (extends_bindFromWithin m) ht fun c b v s hc hb _ => ?_
    rw [hr.zero (hp c hc).1 (Nat.le_zero.1 (hp c hc).2)] at hb
    exact absurd hb (by simp)
  | succ r ih =>
    obtain ⟨m, rfl⟩ := Nat.exists_eq_add_of_le' hm
    obtain ⟨n, rfl⟩ := Nat.exists_eq_add_of_le' hn
    refine walk_congr (extends_bindFromWithin (m + (r + 1))) ht fun c b v s hc hb ht => ?_
    refine ih (fun d hd => ?_) (Nat.le_add_left r m) (Nat.le_add_left r n) ht
    have hlt := hr.lt (hp c hc).1 hb hd
    have hle := (hp c hc).2
    exact ⟨hlt.1, by omega⟩

/-- **Matching ends**: where it leaves an acyclic store, it was not cut off by
    the depth. -/
theorem Acyclic.bindFromWithin_eq {p : Value} (h : (s.bindFrom p v).Acyclic) {depth : Nat}
    (hd : s.size < depth) : bindFromWithin depth p v s = s.bindFrom p v := by
  obtain ⟨rank, hr, hle, hz⟩ := h.exists_rank
  have hsize : s.size = (s.bindFrom p v).size := bindingRule_size.bindFrom trivial p
  obtain ⟨n, rfl⟩ : ∃ n, depth = n + 1 := ⟨depth - 1, by omega⟩
  exact ((hr.on hz).bindFromWithin_congr (fun c _ => ⟨trivial, hsize ▸ hle c⟩) le_rfl
    (Nat.le_of_lt_succ hd) fun _ _ hb => hb).symm

end Store

end AdaptiveAutomata
