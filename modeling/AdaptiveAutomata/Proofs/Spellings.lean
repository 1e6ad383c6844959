/-
  The spellings of a record.

  An object is read as the same record in whatever order its members stand, with or without
  the members whose values are missing, and whatever else stands among them.

  * `Place` says what a record has in the place of a field: the names, the texts of the value,
    and whether the member may be left out; `ObjectOf` are the objects with such places;
  * `Codec.Accepts` ties a codec to the texts of a value, and `Field.Stands` a field to its
    place, with a rule for every way to make a field;
  * `Reader.enters_of_perm`: the members enter a record in whatever order they stand;
  * `Codec.accepts_record`: a record is read off all its spellings.
-/
import AdaptiveAutomata.Proofs.Codecs
import AdaptiveAutomata.Proofs.Passing
import Mathlib.Data.List.Perm.Basic
import Mathlib.Data.List.Pairwise
import Mathlib.Data.List.ReduceOption

namespace AdaptiveAutomata

namespace Json

variable {α σ : Type}

/-! ## Objects -/

/-- What a record has in the place of a field. -/
structure Place where
  /-- The names that the member may have. -/
  names : List String
  /-- The texts of its value. -/
  texts : List Char → Prop
  /-- Whether it may be left out. -/
  mayMiss : Prop

namespace Place

/-- An optional value may be left out or `null` when missing. -/
def optional (name : String) (texts : α → List Char → Prop) (a : Option α) : Place :=
  ⟨[name], a.elim (Writes .null) texts, a = none⟩

/-- A list may be left out when empty. -/
def list (name : String) (texts : α → List Char → Prop) (as : List α) : Place :=
  ⟨[name], ArrayOf (as.map texts), as = []⟩

/-- The same place, also under another name. -/
def alsoCalled (p : Place) (other : String) : Place := { p with names := p.names ++ [other] }

/-- The members in the places, in their order, without those that are left out. -/
inductive Filled : List Place → List (List Char) → Prop
  | nil : Filled [] []
  | member {p : Place} {ps : List Place} {name : String} {d : List Char} {ds : List (List Char)}
      (hn : name ∈ p.names) (hd : MemberOf name p.texts d) (h : Filled ps ds) :
      Filled (p :: ps) (d :: ds)
  | missing {p : Place} {ps : List Place} {ds : List (List Char)} (hp : p.mayMiss)
      (h : Filled ps ds) : Filled (p :: ps) ds

/-- A member with a name that belongs to none of the places, and with any value. -/
def Foreign (ps : List Place) (d : List Char) : Prop :=
  ∃ name, (∀ p ∈ ps, name ∉ p.names) ∧ MemberOf name Scan.AnyText d

end Place

/-- The texts of an object: the members in the places and any others, in any order. -/
def ObjectOf (ps : List Place) (cs : List Char) : Prop :=
  ∃ known foreign ds tail, Place.Filled ps known ∧ (∀ d ∈ foreign, Place.Foreign ps d) ∧
    ds.Perm (known ++ foreign) ∧ Row '}' [] ds tail ∧ cs = '{' :: tail

theorem opens_objectOf {other : Char} (ho : other ≠ '{') (ps : List Place) :
    Reader.Opens other (ObjectOf ps) := by
  rintro _ ⟨-, -, ds, tail, -, -, -, -, rfl⟩
  exact ⟨_, _, rfl, rfl, ho.symm⟩

namespace Reader

variable {n : Nat} {fields pending left : List (Slot σ)} {x blank : σ}

/-! ## Members in any order -/

/-- What a member does to a record: it is read by a field and changes the record, or it is
    passed over. -/
abbrev Piece (σ : Type) := Option (Slot σ × (σ → σ))

/-- The record after the member was read. -/
def Piece.enter (x : σ) (p : Piece σ) : σ := p.elim x fun r => r.2 x

/-- The texts of a member that does so. -/
def Piece.Text (fields : List (Slot σ)) (n : Nat) : Piece σ → List Char → Prop
  | some (f, set), d => ∃ name ∈ f.names, ∃ T, MemberOf name T d ∧ Takes f.read n T set
  | none, d => ∃ name T, (∀ f ∈ fields, f.has name = false) ∧ MemberOf name T d ∧
      Takes (fun _ => Scan.skip) n T ()

/-- **Members in any order** enter a record one after the other: by induction along them, with
    the fields that are still to come and those that are left out. -/
theorem enters_of_pieces {pieces : List (Piece σ)} {ds : List (List Char)}
    (h : List.Forall₂ (Piece.Text fields n) pieces ds) (hsub : pending ⊆ fields)
    (hn : (pending.flatMap (·.names)).Nodup)
    (hp : pending.Perm (pieces.reduceOption.map Prod.fst ++ left))
    (hleft : ∀ f ∈ left, f.presence ≠ .required) :
    Enters fields n pending x ds (pieces.foldl Piece.enter x) := by
  induction h generalizing pending x with
  | nil => exact .nil fun f hf => hleft f (hp.mem_iff.1 hf)
  | @cons piece d pieces ds hd _ ih =>
    cases piece with
    | none =>
      obtain ⟨name, T, hnot, hd, hskip⟩ := hd
      exact .other hd (fun f hf => hnot f (hsub hf)) hnot hskip (ih hsub hn hp)
    | some r =>
      obtain ⟨f, set⟩ := r
      obtain ⟨name, hname, T, hd, hread⟩ := hd
      have hmem : f ∈ pending := hp.mem_iff.2 List.mem_cons_self
      obtain ⟨ps, qs, rfl⟩ := List.append_of_mem hmem
      obtain ⟨hfind, hfilter⟩ := Field.find?_slot hn hname
      have hrest : (ps ++ qs).Sublist (ps ++ f :: qs) :=
        (List.sublist_cons_self f qs).append_left ps
      refine .field hd hfind hread ?_
      rw [hfilter]
      exact ih (fun g hg => hsub (hrest.subset hg)) (hn.sublist (hrest.flatMap _))
        (List.perm_middle.symm.trans hp).cons_inv

end Reader

/-! ## Fields and their places -/

/-- A codec reads these texts as the value, and what it writes of the value is one of them. -/
structure Codec.Accepts (c : Codec α) (n : Nat) (T : List Char → Prop) (a : α) : Prop where
  takes : Reader.Takes c.reader n T a
  writes : ∀ cs, Writes (c.toJson a) cs → T cs
  opens : ∀ other, other = 'n' ∨ other = ']' → Reader.Opens other T

/-- The place that a field has in the objects for `x`, and what it does to a record: if it may
    be left out, it would not have changed a blank one. -/
structure Field.Stands (f : Field σ) (n : Nat) (x blank : σ) (p : Place) (set : σ → σ) : Prop where
  names : f.slot.names = p.names
  presence : f.slot.presence ≠ .required
  takes : Reader.Takes f.slot.read n p.texts set
  missing : p.mayMiss → set blank = blank
  written : ∀ j, f.write x = some j → f.name ∈ p.names ∧ ∀ cs, Writes j cs → p.texts cs
  omitted : f.write x = none → p.mayMiss

/-- The fields of a record, each with its place and with what it does. -/
inductive Field.StandAll (n : Nat) (x blank : σ) :
    List (Field σ) → List Place → List (σ → σ) → Prop
  | nil : StandAll n x blank [] [] []
  | cons {f : Field σ} {fs : List (Field σ)} {p : Place} {ps : List Place} {set : σ → σ}
      {sets : List (σ → σ)} (hf : f.Stands n x blank p set) (h : StandAll n x blank fs ps sets) :
      StandAll n x blank (f :: fs) (p :: ps) (set :: sets)

namespace Codec

open Reader (Takes)

variable {c : Codec α} {T : α → List Char → Prop} {n : Nat} {a : α}

theorem accepts_text (n : Nat) (s : String) : text.Accepts n (Quotes s) s where
  takes := Reader.takes_text n s
  writes cs h := by
    cases h
    exact quotes_quoted s
  opens other ho := Reader.opens_quotes (by rcases ho with rfl | rfl <;> decide) s

theorem takes_optional (name : String) {o : Option α} (h : ∀ a ∈ o, c.Accepts n (T a) a) :
    Takes c.nullable.reader n (Place.optional name T o).texts o := by
  cases o with
  | none => exact Reader.takes_nullable_null c.reader n
  | some a => exact (h a rfl).takes.nullable ((h a rfl).opens 'n' (.inl rfl))

theorem takes_list (name : String) {as : List α} (h : ∀ a ∈ as, c.Accepts n (T a) a) :
    Takes c.list.reader (n + 1) (Place.list name T as).texts as :=
  Takes.list (fun a ha => (h a ha).takes) fun a ha => (h a ha).opens ']' (.inr rfl)

theorem writes_list (name : String) {as : List α} (h : ∀ a ∈ as, c.Accepts n (T a) a)
    {cs : List Char} (hw : Writes (c.list.toJson as) cs) : (Place.list name T as).texts cs := by
  cases hw with
  | @array _ ds cs hds hr =>
    refine ⟨ds, cs, ?_, hr, rfl⟩
    rw [List.forall₂_map_left_iff] at hds ⊢
    exact ((List.forall₂_and_left as ds).2 ⟨fun a ha => ha, hds⟩).imp
      fun a d ⟨ha, hd⟩ => (h a ha).writes d hd

end Codec

namespace Field

open Reader (Piece Takes Slot)

variable {c : Codec α} {T : α → List Char → Prop} {n : Nat} {name : String} {x blank : σ}

theorem stands_nullable {get : σ → Option α} {set : Option α → σ → σ}
    (h : ∀ a ∈ get x, c.Accepts n (T a) a) (hs : set none blank = blank) :
    (nullable name c get set).Stands n x blank (.optional name T (get x)) (set (get x)) where
  names := rfl
  presence := Reader.Presence.noConfusion
  takes := (Codec.takes_optional name h).map set
  missing (hx : get x = none) := by rw [hx, hs]
  written j hj := by
    refine ⟨List.mem_singleton.2 rfl, fun cs hw => ?_⟩
    cases hj
    cases hx : get x with
    | none => rwa [hx] at hw
    | some a =>
      rw [hx] at hw
      exact (h a hx).writes cs hw
  omitted := nofun

theorem stands_omitted {get : σ → Option α} {set : Option α → σ → σ}
    (h : ∀ a ∈ get x, c.Accepts n (T a) a) (hs : set none blank = blank) :
    (omitted name c get set).Stands n x blank (.optional name T (get x)) (set (get x)) where
  names := rfl
  presence := Reader.Presence.noConfusion
  takes := (Codec.takes_optional name h).map set
  missing (hx : get x = none) := by rw [hx, hs]
  written j hj := by
    obtain ⟨a, hx, rfl⟩ := Option.map_eq_some_iff.1 hj
    refine ⟨List.mem_singleton.2 rfl, fun cs hw => ?_⟩
    rw [hx]
    exact (h a hx).writes cs hw
  omitted := Option.map_eq_none_iff.1

theorem stands_list {get : σ → List α} {set : List α → σ → σ}
    (h : ∀ a ∈ get x, c.Accepts n (T a) a) (hs : set [] blank = blank) :
    (defaulted name (.list c) get set).Stands (n + 1) x blank (.list name T (get x))
      (set (get x)) where
  names := rfl
  presence := Reader.Presence.noConfusion
  takes := (Codec.takes_list name h).map set
  missing (hx : get x = []) := by rw [hx, hs]
  written j hj := by
    cases hj
    exact ⟨List.mem_singleton.2 rfl, fun cs hw => Codec.writes_list name h hw⟩
  omitted := nofun

theorem stands_nullable_text {get : σ → Option String} {set : Option String → σ → σ}
    (hs : set none blank = blank) :
    (nullable name .text get set).Stands n x blank (.optional name Quotes (get x)) (set (get x)) :=
  stands_nullable (fun s _ => Codec.accepts_text n s) hs

theorem stands_omitted_text {get : σ → Option String} {set : Option String → σ → σ}
    (hs : set none blank = blank) :
    (omitted name .text get set).Stands n x blank (.optional name Quotes (get x)) (set (get x)) :=
  stands_omitted (fun s _ => Codec.accepts_text n s) hs

theorem stands_texts {get : σ → List String} {set : List String → σ → σ}
    (hs : set [] blank = blank) :
    (defaulted name (.list .text) get set).Stands (n + 1) x blank (.list name Quotes (get x))
      (set (get x)) :=
  stands_list (fun s _ => Codec.accepts_text n s) hs

variable {f : Field σ} {p : Place} {set : σ → σ}

theorem Stands.mono {m : Nat} (h : f.Stands n x blank p set) (hm : n ≤ m) :
    f.Stands m x blank p set :=
  { h with takes := h.takes.mono hm }

theorem Stands.withDefault (h : f.Stands n x blank p set) :
    f.withDefault.Stands n x blank p set :=
  { h with presence := Reader.Presence.noConfusion }

theorem Stands.alsoCalled (h : f.Stands n x blank p set) (other : String) :
    (f.alsoCalled other).Stands n x blank (p.alsoCalled other) set :=
  { h with
    names := congrArg (· ++ [other]) h.names
    written := fun j hj => (h.written j hj).imp_left (List.mem_append_left _) }

variable {fields : List (Field σ)} {ps : List Place} {sets : List (σ → σ)}

theorem StandAll.mono {m : Nat} (h : StandAll n x blank fields ps sets) (hm : n ≤ m) :
    StandAll m x blank fields ps sets := by
  induction h with
  | nil => exact .nil
  | cons hf _ ih => exact .cons (hf.mono hm) ih

/-- A name that belongs to none of the places is that of no field. -/
theorem StandAll.not_has (h : StandAll n x blank fields ps sets) {name : String}
    (hname : ∀ p ∈ ps, name ∉ p.names) : ∀ s ∈ fields.map (·.slot), s.has name = false := by
  induction h with
  | nil => nofun
  | cons hf _ ih =>
    obtain ⟨hp, hps⟩ := List.forall_mem_cons.1 hname
    rw [List.map_cons]
    refine List.forall_mem_cons.2 ⟨?_, ih hps⟩
    rw [Slot.has, hf.names]
    simpa using hp

/-- What is written of the fields fills the places. -/
theorem StandAll.filled (h : StandAll n x blank fields ps sets) {ds : List (List Char)}
    (hw : List.Forall₂ WritesMember (fields.filterMap fun f => (f.write x).map (f.name, ·)) ds) :
    Place.Filled ps ds := by
  induction h generalizing ds with
  | nil =>
    cases hw
    exact .nil
  | @cons f fs p ps set sets hf _ ih =>
    cases hj : f.write x with
    | none =>
      rw [List.filterMap_cons_none (by rw [hj]; rfl)] at hw
      exact .missing (hf.omitted hj) (ih hw)
    | some j =>
      rw [List.filterMap_cons_some (by rw [hj]; rfl)] at hw
      obtain ⟨hname, htexts⟩ := hf.written j hj
      cases hw with
      | cons hd hds => exact .member hname (hd.memberOf.imp htexts) (ih hds)

/-- The members in the places are read by the fields; what is left out need not be present, and
    changes nothing. -/
theorem StandAll.exists_chosen (h : StandAll n x blank fields ps sets) {known : List (List Char)}
    (hk : Place.Filled ps known) (all : List (Slot σ)) :
    ∃ chosen left : List (Slot σ × (σ → σ)),
      List.Forall₂ (Piece.Text all n) (chosen.map some) known ∧
      (fields.map (·.slot)).Perm (chosen.map Prod.fst ++ left.map Prod.fst) ∧
      sets.Perm (left.map Prod.snd ++ chosen.map Prod.snd) ∧
      ∀ r ∈ left, r.1.presence ≠ .required ∧ r.2 blank = blank := by
  induction h generalizing known with
  | nil =>
    cases hk
    exact ⟨[], [], .nil, .nil, .nil, nofun⟩
  | @cons f fs p ps set sets hf _ ih =>
    cases hk with
    | @member _ _ name d ds hname hd hds =>
      obtain ⟨chosen, left, htexts, hslots, hsets, hleft⟩ := ih hds
      refine ⟨(f.slot, set) :: chosen, left, .cons ⟨name, hf.names ▸ hname, _, hd, hf.takes⟩ htexts,
        hslots.cons _, ?_, hleft⟩
      exact (hsets.cons set).trans List.perm_middle.symm
    | missing hp hds =>
      obtain ⟨chosen, left, htexts, hslots, hsets, hleft⟩ := ih hds
      refine ⟨chosen, (f.slot, set) :: left, htexts, ?_, hsets.cons set,
        List.forall_mem_cons.2 ⟨⟨hf.presence, hf.missing hp⟩, hleft⟩⟩
      exact (hslots.cons _).trans List.perm_middle.symm

/-- The other members are passed over, since their names are those of no field. -/
theorem StandAll.passed (h : StandAll n x blank fields ps sets) {foreign : List (List Char)}
    (hforeign : ∀ d ∈ foreign, Place.Foreign ps d) :
    List.Forall₂ (Piece.Text (fields.map (·.slot)) n) (foreign.map fun _ => none) foreign := by
  refine List.forall₂_map_left_iff.2 (List.forall₂_same.2 fun d hd => ?_)
  obtain ⟨name, hname, hd⟩ := hforeign d hd
  exact ⟨name, _, h.not_has hname, hd, Reader.takes_skip n⟩

end Field

/-! ## Records -/

namespace Reader

variable {n : Nat} {fields : List (Field σ)} {ps : List Place} {sets : List (σ → σ)} {x blank : σ}

/-- The record after each of these changes. -/
def changed (blank : σ) (sets : List (σ → σ)) : σ := sets.foldl (fun x set => set x) blank

/-- It does not matter which of two changes is made first. -/
def Swap (set set' : σ → σ) : Prop := ∀ x, set (set' x) = set' (set x)

/-- Changes that swap can be made in any order. -/
theorem changed_perm {sets' : List (σ → σ)} (hc : sets.Pairwise Swap)
    (hp : sets.Perm sets') (x : σ) : changed x sets = changed x sets' := by
  have : Std.Symm (@Swap σ) := ⟨fun _ _ h x => (h x).symm⟩
  have hall := hc.forall_of_forall fun _ _ _ => rfl
  exact hp.foldl_eq' (fun _ hset _ hset' y => hall hset' hset y) x

/-- What does not change a record may be left out. -/
theorem changed_append_of_fixed {left : List (σ → σ)} (h : ∀ set ∈ left, set blank = blank)
    (sets : List (σ → σ)) : changed blank (left ++ sets) = changed blank sets := by
  induction left with
  | nil => rfl
  | cons set left ih =>
    obtain ⟨hset, hleft⟩ := List.forall_mem_cons.1 h
    rw [List.cons_append, changed, List.foldl_cons, hset]
    exact ih hleft

/-- What members that enter in this order do to a record. -/
theorem foldl_enter (pieces : List (Piece σ)) (x : σ) :
    pieces.foldl Piece.enter x = changed x (pieces.reduceOption.map Prod.snd) := by
  induction pieces generalizing x with
  | nil => rfl
  | cons piece pieces ih =>
    cases piece with
    | none => exact ih x
    | some r => exact ih (r.2 x)

/-- Members that are passed over bring nothing. -/
theorem reduceOption_passed (chosen : List (Slot σ × (σ → σ))) (foreign : List (List Char)) :
    (chosen.map some ++ foreign.map fun _ => none).reduceOption = chosen := by
  rw [List.reduceOption_append, List.map_const', List.reduceOption_replicate_none, List.append_nil,
    List.reduceOption, List.filterMap_map]
  exact List.filterMap_some

/-- The members of an object enter a record in whatever order they stand. -/
theorem enters_of_perm (h : Field.StandAll n x blank fields ps sets)
    (hn : (fields.flatMap (·.slot.names)).Nodup) (hc : sets.Pairwise Swap)
    {known foreign ds : List (List Char)} (hknown : Place.Filled ps known)
    (hforeign : ∀ d ∈ foreign, Place.Foreign ps d) (hp : ds.Perm (known ++ foreign)) :
    Enters (fields.map (·.slot)) n (fields.map (·.slot)) blank ds (changed blank sets) := by
  obtain ⟨chosen, left, hchosen, hslots, hsets, hleft⟩ :=
    h.exists_chosen hknown (fields.map (·.slot))
  obtain ⟨pieces, htexts, hpieces⟩ :=
    List.perm_comp_forall₂ hp (List.rel_append hchosen (h.passed hforeign)).flip
  have hbrought : pieces.reduceOption.Perm chosen := by
    have := hpieces.filterMap id
    rwa [← List.reduceOption, reduceOption_passed] at this
  have hfixed : ∀ set ∈ left.map Prod.snd, set blank = blank :=
    List.forall_mem_map.2 fun r hr => (hleft r hr).2
  have hmade : pieces.foldl Piece.enter blank = changed blank sets := calc
    pieces.foldl Piece.enter blank
      = changed blank (pieces.reduceOption.map Prod.snd) := foldl_enter pieces blank
    _ = changed blank (left.map Prod.snd ++ pieces.reduceOption.map Prod.snd) :=
      (changed_append_of_fixed hfixed _).symm
    _ = changed blank sets :=
      (changed_perm hc (hsets.trans ((hbrought.symm.map _).append_left _)) blank).symm
  rw [← hmade]
  refine enters_of_pieces htexts.flip (List.Subset.refl _) (by rwa [List.flatMap_map])
    (hslots.trans ((hbrought.symm.map _).append_right _)) ?_
  exact List.forall_mem_map.2 fun r hr => (hleft r hr).1

end Reader

/-- **A record is read off all its spellings**, if its fields go by different names, what they
    do does not depend on their order, and all of them together make the record. -/
theorem Codec.accepts_record {n : Nat} {fields : List (Field σ)} {ps : List Place}
    {sets : List (σ → σ)} {x blank : σ} (h : Field.StandAll n x blank fields ps sets)
    (hn : (fields.flatMap (·.slot.names)).Nodup) (hc : sets.Pairwise Reader.Swap)
    (hx : Reader.changed blank sets = x) :
    (Codec.record blank fields).Accepts (n + 1) (ObjectOf ps) x where
  takes := by
    rintro depth b _ rest hd hm hb ⟨known, foreign, ds, tail, hknown, hforeign, hp, hr, rfl⟩ _
    obtain ⟨depth, rfl⟩ : ∃ m, depth = m + 1 := ⟨depth - 1, by omega⟩
    have henters := Reader.enters_of_perm (h.mono (Nat.le_of_succ_le_succ hd)) hn hc hknown
      hforeign hp
    rw [hx] at henters
    exact henters.record hm hb hr rest
  writes cs hw := by
    cases hw with
    | @object _ ds tail hds hr =>
      exact ⟨ds, [], ds, tail, h.filled hds, nofun, by rw [List.append_nil], hr, rfl⟩
  opens other ho := opens_objectOf (by rcases ho with rfl | rfl <;> decide) ps

end Json

end AdaptiveAutomata
