/-
  Laws of the readers.

  `Takes r n T a` says that the reader `r` reads all texts of some kind as `a`, with
  any blanks in front, whatever may follow a value behind them, and as long as it may
  open `n` brackets inside each other.  `Reads r j a` says so of the texts of the
  document `j`.

  * `Takes.nullable` and `Takes.list` are the laws of optional values and of lists, with
    `Reads.nullable` and `Reads.list` for documents;
  * `reads_text`, `reads_natural` and `Reads.tagged` are those of plain values and of
    variants, in an object of one member;
  * `Enters` says what the members of an object make of a record, one after the
    other, and `Enters.record` that it is read so; `Fills` and `Fills.reads` are the same
    for documents.
-/
import AdaptiveAutomata.Json.Reader
import AdaptiveAutomata.Proofs.Texts

namespace AdaptiveAutomata

namespace Json

namespace Reader

open Scan

variable {α β σ : Type} {r : Reader α} {j : Json} {a : α} {b b' cs rest : List Char}

/-- A reader reads a document as a value, however it is written. -/
def Reads (r : Reader α) (j : Json) (a : α) : Prop :=
  ∀ ⦃depth : Nat⦄ ⦃b cs rest : List Char⦄, j.depth ≤ depth → depth ≤ maxDepth → Blanks b →
    Writes j cs → Ends rest → r depth (b ++ (cs ++ rest)) = .ok (a, rest)

/-- A reader takes the texts of a kind for a value, if it may open so many brackets. -/
def Takes (r : Reader α) (n : Nat) (T : List Char → Prop) (a : α) : Prop :=
  ∀ ⦃depth : Nat⦄ ⦃b cs rest : List Char⦄, n ≤ depth → depth ≤ maxDepth → Blanks b →
    T cs → Ends rest → r depth (b ++ (cs ++ rest)) = .ok (a, rest)

/-- The texts begin with a character that is neither a blank nor the given one. -/
def Opens (other : Char) (T : List Char → Prop) : Prop :=
  ∀ cs, T cs → ∃ c ds, cs = c :: ds ∧ isBlank c = false ∧ c ≠ other

theorem opens_writes (j : Json) : Opens ']' (Writes j) := fun cs h => by
  obtain ⟨c, ds, hc, hb, hne, -⟩ := exists_cons_of_writes h
  exact ⟨c, ds, hc, hb, hne⟩

theorem opens_writes_of_ne_null (hj : j ≠ .null) : Opens 'n' (Writes j) := fun cs h => by
  obtain ⟨c, ds, hc, hb, -, hn⟩ := exists_cons_of_writes h
  exact ⟨c, ds, hc, hb, hn hj⟩

theorem opens_quotes {other : Char} (ho : other ≠ '"') (s : String) : Opens other (Quotes s) := by
  rintro _ ⟨cs, -, rfl⟩
  exact ⟨_, _, rfl, rfl, ho.symm⟩

variable {n : Nat} {T : List Char → Prop}

theorem Takes.mono {m : Nat} (h : Takes r n T a) (hm : n ≤ m) : Takes r m T a :=
  fun _ _ _ _ hd => h (hm.trans hd)

theorem Takes.map (h : Takes r n T a) (f : α → β) :
    Takes (fun depth => f <$> r depth) n T (f a) :=
  fun _ _ _ _ hd hm hb hw hr => map_ok (h hd hm hb hw hr)

/-- A whole text is read, with blanks around the value. -/
theorem Takes.read (h : Takes r n T a) (hn : n ≤ maxDepth) (hb : Blanks b) (ht : T cs)
    (hb' : Blanks b') {text : String} (htext : text.toList = b ++ (cs ++ b')) :
    r.read text = .ok a := by
  have hread := h hn le_rfl hb ht (ends_blanks hb')
  rw [Reader.read, htext, hread]
  exact if_pos (List.all_eq_true.2 hb')

/-! ## Plain values -/

theorem advance_cons (c : Char) (cs : List Char) : advance (c :: cs) = .ok ((), cs) := rfl

theorem takes_text (n : Nat) (s : String) : Takes text n (Quotes s) s := by
  rintro depth b _ rest _ _ hb ⟨cs, hs, rfl⟩ _
  rw [List.cons_append, List.append_assoc, List.singleton_append, text,
    bind_ok (blanks_cons hb rfl _)]
  exact string_spells hs rest

theorem reads_text (s : String) : Reads text (.string s) s := by
  intro depth b cs rest hd hm hb h hr
  cases h
  exact takes_text 0 s hd hm hb (quotes_quoted s) hr

theorem reads_natural {n bound : Nat} (hn : n < UInt64.size) (hb : n < bound) :
    Reads (natural bound) (.number n) n := by
  intro depth b cs rest _ _ hblank h hr
  cases h
  obtain ⟨d, ds, hds⟩ := List.exists_cons_of_ne_nil (Nat.toDigits_ne_nil (n := n) (b := 10))
  obtain ⟨c, cs, hc, hcb, -⟩ := exists_cons_of_writes (Writes.number n)
  have hd : startsNumber c = true := by
    have := isDigit_of_mem_toDigits (hc ▸ List.mem_cons_self)
    simp [startsNumber, this]
  have hnum := number_toDigits hn hr
  rw [hc, List.cons_append] at hnum ⊢
  rw [natural, bind_ok (blanks_cons hblank hcb _)]
  simp only [hd, if_true]
  rw [bind_ok hnum, natural?_numeralOf hn]
  simp only [hb, if_true, pure_ok]

theorem Reads.map (h : Reads r j a) (f : α → β) : Reads (fun depth => f <$> r depth) j (f a) :=
  Takes.map h f

theorem takes_nullable_null (r : Reader α) (n : Nat) : Takes r.nullable n (Writes .null) none := by
  intro depth b cs rest _ _ hb h _
  cases h
  rw [List.cons_append, nullable, bind_ok (blanks_cons hb rfl _)]
  exact bind_ok (word_append ['n', 'u', 'l', 'l'] rest)

theorem reads_nullable_null (r : Reader α) : Reads r.nullable .null none := takes_nullable_null r _

theorem Takes.nullable (h : Takes r n T a) (ho : Opens 'n' T) : Takes r.nullable n T (some a) := by
  intro depth b cs rest hd hm hb hw hr
  obtain ⟨c, ds, rfl, hcb, hn⟩ := ho cs hw
  have hread := h hd hm blanks_nil hw hr
  rw [List.nil_append, List.cons_append] at hread
  rw [List.cons_append, Reader.nullable, bind_ok (blanks_cons hb hcb _)]
  generalize ho : some c = o
  split
  · exact absurd (Option.some.inj ho) hn
  · exact map_ok hread

theorem Reads.nullable (h : Reads r j a) (hj : j ≠ .null) : Reads r.nullable j (some a) :=
  Takes.nullable h (opens_writes_of_ne_null hj)

theorem Reads.refine {f : α → Option β} {x : β} (h : Reads r j a) (hf : f a = some x) :
    Reads (r.refine f) j x := by
  intro depth b cs rest hd hm hb hw hr
  rw [Reader.refine, bind_ok (h hd hm hb hw hr), hf]
  rfl

/-! ## Lists -/

theorem anotherItem_close (hb : Blanks b) (first : Bool) (rest : List Char) :
    anotherItem first (b ++ (']' :: rest)) = .ok (false, rest) := by
  rw [anotherItem, bind_ok (blanks_cons hb rfl rest)]
  rfl

theorem anotherItem_item {c : Char} (hb : Blanks b) (hb' : Blanks b') (hc : isBlank c = false)
    (hne : c ≠ ']') (first : Bool) (cs : List Char) :
    anotherItem first (b ++ ((if first then [] else [',']) ++ (b' ++ c :: cs))) =
      .ok (true, c :: cs) := by
  cases first with
  | true =>
    rw [if_pos rfl, List.nil_append, ← List.append_assoc, anotherItem,
      bind_ok (blanks_cons (blanks_append hb hb') hc cs)]
    generalize ho : some c = o
    split
    · cases ho
    · exact absurd (Option.some.inj ho) hne
    · rfl
    · rfl
  | false =>
    rw [if_neg Bool.false_ne_true, List.singleton_append, anotherItem,
      bind_ok (blanks_cons hb rfl _)]
    change (advance >>= fun _ => _) _ = _
    rw [bind_ok (advance_cons ',' _), bind_ok (blanks_cons hb' hc cs)]
    generalize ho : some c = o
    split
    · cases ho
    · exact absurd (Option.some.inj ho) hne
    · rfl

theorem items_row {r : Scan α} {as : List α} {ds : List (List Char)} {fuel : Nat} {first : Bool}
    (h : List.Forall₂ (fun a d => (∃ c ds, d = c :: ds ∧ isBlank c = false ∧ c ≠ ']') ∧
      ∀ rest, Ends rest → r (d ++ rest) = .ok (a, rest)) as ds)
    (hr : Row ']' (if first then [] else [',']) ds cs) (hf : as.length < fuel)
    (rest : List Char) : items r fuel first (cs ++ rest) = .ok (as, rest) := by
  induction h generalizing cs fuel first with
  | nil =>
    obtain ⟨fuel, rfl⟩ : ∃ n, fuel = n + 1 := ⟨fuel - 1, by omega⟩
    cases hr with
    | nil hb =>
      rw [List.append_assoc, items, List.singleton_append,
        bind_ok (anotherItem_close hb first rest)]
      rfl
  | @cons a d as ds hd _ ih =>
    obtain ⟨fuel, rfl⟩ : ∃ n, fuel = n + 1 := ⟨fuel - 1, by omega⟩
    obtain ⟨⟨c, d', rfl, hcb, hne⟩, ha⟩ := hd
    cases hr with
    | @cons _ b b' _ tail _ hb hb' htail =>
      have hread := ha (tail ++ rest) (Row.ends htail (.inl rfl) rest)
      have htail : Row ']' (if false then [] else [',']) ds tail := htail
      simp only [List.append_assoc, List.cons_append] at hread ⊢
      rw [items, bind_ok (anotherItem_item hb hb' hcb hne first _), if_pos rfl, bind_ok hread,
        bind_ok (ih htail (Nat.lt_of_succ_lt_succ hf))]
      rfl

theorem nested_cons (r : Reader α) (depth : Nat) (c : Char) (cs : List Char) :
    nested r (depth + 1) (c :: cs) = r depth cs := by
  rw [nested, bind_ok (advance_cons c cs)]

theorem Takes.list {T : α → List Char → Prop} {as : List α} (h : ∀ a ∈ as, Takes r n (T a) a)
    (ho : ∀ a ∈ as, Opens ']' (T a)) : Takes r.list (n + 1) (ArrayOf (as.map T)) as := by
  rintro depth b _ rest hd hm hb ⟨ds, cs, hds, hr, rfl⟩ _
  obtain ⟨depth, rfl⟩ : ∃ m, depth = m + 1 := ⟨depth - 1, by omega⟩
  rw [List.forall₂_map_left_iff] at hds
  have hitems : List.Forall₂ (fun a d => (∃ c ds, d = c :: ds ∧ isBlank c = false ∧ c ≠ ']') ∧
      ∀ rest, Ends rest → r depth (d ++ rest) = .ok (a, rest)) as ds := by
    refine ((List.forall₂_and_left as ds).2 ⟨fun a ha => ha, hds⟩).imp ?_
    rintro a d ⟨ha, hd'⟩
    exact ⟨ho a ha d hd', fun rest hrest =>
      h a ha (Nat.le_of_succ_le_succ hd) (Nat.le_of_succ_le hm) blanks_nil hd' hrest⟩
  have hlt : as.length < (cs ++ rest).length := by
    have hne : ∀ d ∈ ds, d ≠ [] := by
      refine ((List.forall₂_and_left ds as).1 (hitems.flip.imp fun d a h => ⟨?_, h⟩)).1
      obtain ⟨⟨c, d', rfl, -⟩, -⟩ := h
      exact List.cons_ne_nil c d'
    have := hr.length_lt hne
    rw [List.length_append, hitems.length_eq]
    omega
  have hr : Row ']' (if true then [] else [',']) ds cs := hr
  rw [List.cons_append, Reader.list, bind_ok (blanks_cons hb rfl _)]
  change nested _ (depth + 1) _ = _
  rw [nested_cons, bind_ok (get_ok _)]
  exact items_row hitems hr hlt rest

theorem Reads.list {f : α → Json} {as : List α} (h : ∀ a ∈ as, Reads r (f a) a) :
    Reads r.list (.array (as.map f)) as := by
  intro depth b cs rest hd hm hb hw hr
  cases hw with
  | @array _ ds cs hds hrow =>
    obtain ⟨depth, rfl⟩ : ∃ n, depth = n + 1 := ⟨depth - 1, by rw [Json.depth] at hd; omega⟩
    rw [List.forall₂_map_left_iff] at hds
    have hitems (a : α) (ha : a ∈ as) : Takes r depth (Writes (f a)) a :=
      Takes.mono (h a ha) (depth_array_le_iff.1 hd _ (List.mem_map_of_mem ha))
    exact Takes.list hitems (fun a _ => opens_writes (f a)) le_rfl hm hb
      ⟨ds, cs, List.forall₂_map_left_iff.2 hds, hrow, rfl⟩ hr

/-! ## Variants -/

theorem colon_cons (hb : Blanks b) (cs : List Char) : colon (b ++ ':' :: cs) = .ok ((), cs) := by
  rw [colon, bind_ok (blanks_cons hb rfl cs)]
  rfl

theorem memberName_quoted (hb : Blanks b) (name : String) (cs : List Char) :
    memberName (b ++ (quoted name ++ cs)) = .ok (name, cs) := by
  rw [quoted_append, memberName, bind_ok (blanks_cons hb rfl _)]
  exact string_quoted name cs

variable {variant? : String → Option (Variant α)} {name : String}

theorem reads_tagged_unit (hv : variant? name = some (.unit a)) :
    Reads (tagged variant?) (.string name) a := by
  intro depth b cs rest _ _ hb h _
  cases h
  rw [quoted_append, tagged, bind_ok (blanks_cons hb rfl _)]
  change (advance >>= fun _ => _) _ = _
  rw [bind_ok (advance_cons '"' _), bind_ok (string_quoted name rest), hv]
  rfl

theorem Reads.tagged {v : Variant α} (hv : variant? name = some v) (h : Reads v.read j a) :
    Reads (tagged variant?) (.object [(name, j)]) a := by
  intro depth b cs rest hd hm hb hw _
  cases hw with
  | @object _ ds cs hds hr =>
    obtain ⟨depth, rfl⟩ : ∃ n, depth = n + 1 := ⟨depth - 1, by rw [Json.depth] at hd; omega⟩
    cases hds with
    | cons hmember hds =>
      cases hds
      cases hr with
      | @cons _ b₁ b₂ _ _ _ hb₁ hb₂ hr =>
        cases hr with
        | @nil _ b₃ hb₃ =>
          cases hmember with
          | @mk _ _ b₄ b₅ e hb₄ hb₅ he =>
            have hb₁₂ : Blanks (b₁ ++ b₂) := blanks_append hb₁ hb₂
            have hread := h (depth_object_le_iff.1 hd _ List.mem_cons_self) (by omega) hb₅ he
              (ends_append hb₃ (.inr (.inr rfl)) rest)
            have hname := memberName_quoted hb₁₂ name
            simp only [List.append_assoc, List.cons_append, List.nil_append] at hread hname ⊢
            rw [Reader.tagged, bind_ok (blanks_cons hb rfl _)]
            change nested _ (depth + 1) _ = _
            rw [nested_cons, bind_ok (hname _), hv]
            change (colon >>= fun _ => _) _ = _
            rw [bind_ok (colon_cons hb₄ _), bind_ok hread, bind_ok (blanks_cons hb₃ rfl _)]
            rfl

/-! ## Records -/

/-- What the members of an object make of a record, one after the other: each is read
    by the pending field of its name, which is not pending any more, and in the end
    no field is pending that has to be present. -/
inductive Fills : (pending : List (Slot σ)) → σ → List (String × Json) → σ → Prop
  | nil {pending : List (Slot σ)} {x : σ} (h : ∀ f ∈ pending, f.presence ≠ .required) :
      Fills pending x [] x
  | cons {pending : List (Slot σ)} {x y : σ} {name : String} {j : Json} {f : Slot σ} {set : σ → σ}
      {members : List (String × Json)} (hf : pending.find? (·.has name) = some f)
      (hr : Reads f.read j set) (h : Fills (pending.filter (!·.has name)) (set x) members y) :
      Fills pending x ((name, j) :: members) y

theorem anotherMember_close (hb : Blanks b) (first : Bool) (rest : List Char) :
    anotherMember first (b ++ '}' :: rest) = .ok (false, rest) := by
  rw [anotherMember, bind_ok (blanks_cons hb rfl rest)]
  rfl

theorem anotherMember_member (hb : Blanks b) (hb' : Blanks b') (first : Bool) (cs : List Char) :
    anotherMember first (b ++ ((if first then [] else [',']) ++ (b' ++ '"' :: cs))) =
      .ok (true, '"' :: cs) := by
  cases first with
  | true =>
    rw [if_pos rfl, List.nil_append, ← List.append_assoc, anotherMember,
      bind_ok (blanks_cons (blanks_append hb hb') rfl cs)]
    rfl
  | false =>
    rw [if_neg Bool.false_ne_true, List.singleton_append, anotherMember,
      bind_ok (blanks_cons hb rfl _)]
    change (advance >>= fun _ => _) _ = _
    rw [bind_ok (advance_cons ',' _), bind_ok (blanks_cons hb' rfl cs)]
    rfl

/-- What the texts of members make of a record, one after the other.  A member whose name is
    none of a field is passed over. -/
inductive Enters (fields : List (Slot σ)) (depth : Nat) :
    (pending : List (Slot σ)) → σ → List (List Char) → σ → Prop
  | nil {pending : List (Slot σ)} {x : σ} (h : ∀ f ∈ pending, f.presence ≠ .required) :
      Enters fields depth pending x [] x
  | field {pending : List (Slot σ)} {x y : σ} {name : String} {f : Slot σ} {set : σ → σ}
      {T : List Char → Prop} {d : List Char} {ds : List (List Char)} (hd : MemberOf name T d)
      (hf : pending.find? (·.has name) = some f) (hr : Takes f.read depth T set)
      (h : Enters fields depth (pending.filter (!·.has name)) (set x) ds y) :
      Enters fields depth pending x (d :: ds) y
  | other {pending : List (Slot σ)} {x y : σ} {name : String} {T : List Char → Prop}
      {d : List Char} {ds : List (List Char)} (hd : MemberOf name T d)
      (hp : ∀ f ∈ pending, f.has name = false) (hn : ∀ f ∈ fields, f.has name = false)
      (hs : Takes (fun _ => skip) depth T ()) (h : Enters fields depth pending x ds y) :
      Enters fields depth pending x (d :: ds) y

theorem Enters.ne_nil {fields pending : List (Slot σ)} {x y : σ} {ds : List (List Char)}
    {depth : Nat} (h : Enters fields depth pending x ds y) : ∀ d ∈ ds, d ≠ [] := by
  induction h with
  | nil _ => simp
  | field hd _ _ _ ih => exact List.forall_mem_cons.2 ⟨hd.ne_nil, ih⟩
  | other hd _ _ _ _ ih => exact List.forall_mem_cons.2 ⟨hd.ne_nil, ih⟩

/-- The members of an object, by induction along what they make of the record. -/
theorem members_row {fields pending : List (Slot σ)} {x y : σ} {ds : List (List Char)}
    {depth fuel : Nat} {first : Bool} (h : Enters fields depth pending x ds y)
    (hr : Row '}' (if first then [] else [',']) ds cs) (hm : depth ≤ maxDepth)
    (hf : ds.length < fuel) (rest : List Char) :
    members fields depth fuel first pending x (cs ++ rest) = .ok (y, rest) := by
  induction h generalizing cs fuel first with
  | @nil pending x hp =>
    obtain ⟨fuel, rfl⟩ : ∃ n, fuel = n + 1 := ⟨fuel - 1, by omega⟩
    have hany : pending.any (·.presence = .required) = false := by
      simpa using hp
    cases hr with
    | nil hb =>
      rw [List.append_assoc, members, List.singleton_append,
        bind_ok (anotherMember_close hb first rest), if_neg Bool.false_ne_true, hany]
      rfl
  | @field pending x y name f set T d ds hd hf' hread _ ih =>
    obtain ⟨fuel, rfl⟩ : ∃ n, fuel = n + 1 := ⟨fuel - 1, by omega⟩
    obtain ⟨_, b₁, b₂, e, ⟨q, hq, rfl⟩, hb₁, hb₂, he, rfl⟩ := hd
    cases hr with
    | @cons _ b b' _ tail _ hb hb' htail =>
      have hset := hread le_rfl hm hb₂ he (Row.ends htail (.inr rfl) rest)
      have htail : Row '}' (if false then [] else [',']) ds tail := htail
      have hmore := anotherMember_member hb hb' first
      simp only [List.append_assoc, List.cons_append, List.nil_append] at hset ⊢
      rw [members, bind_ok (hmore _), if_pos rfl, bind_ok (advance_cons '"' _),
        bind_ok (string_spells hq _), hf']
      change (colon >>= fun _ => _) _ = _
      rw [bind_ok (colon_cons hb₁ _), bind_ok hset]
      exact ih htail (Nat.lt_of_succ_lt_succ hf)
  | @other pending x y name T d ds hd hp hn hskip _ ih =>
    obtain ⟨fuel, rfl⟩ : ∃ n, fuel = n + 1 := ⟨fuel - 1, by omega⟩
    obtain ⟨_, b₁, b₂, e, ⟨q, hq, rfl⟩, hb₁, hb₂, he, rfl⟩ := hd
    cases hr with
    | @cons _ b b' _ tail _ hb hb' htail =>
      have hpass := hskip le_rfl hm hb₂ he (Row.ends htail (.inr rfl) rest)
      have htail : Row '}' (if false then [] else [',']) ds tail := htail
      have hmore := anotherMember_member hb hb' first
      have hnone : pending.find? (·.has name) = none :=
        List.find?_eq_none.2 fun f hf => by simp [hp f hf]
      have hany : fields.any (·.has name) = false :=
        List.any_eq_false.2 fun f hf => by simp [hn f hf]
      simp only [List.append_assoc, List.cons_append, List.nil_append] at hpass ⊢
      rw [members, bind_ok (hmore _), if_pos rfl, bind_ok (advance_cons '"' _),
        bind_ok (string_spells hq _), hnone, hany]
      change (colon >>= fun _ => _) _ = _
      rw [bind_ok (colon_cons hb₁ _), bind_ok hpass]
      exact ih htail (Nat.lt_of_succ_lt_succ hf)

/-- **A record** is read off an object as its members enter it. -/
theorem Enters.record {blank y : σ} {fields : List (Slot σ)} {ds : List (List Char)} {depth : Nat}
    (h : Enters fields depth fields blank ds y) (hm : depth < maxDepth) (hb : Blanks b)
    (hr : Row '}' [] ds cs) (rest : List Char) :
    record blank fields (depth + 1) (b ++ ('{' :: cs ++ rest)) = .ok (y, rest) := by
  have hlt : ds.length < (cs ++ rest).length := by
    have := hr.length_lt h.ne_nil
    rw [List.length_append]
    omega
  have hr : Row '}' (if true then [] else [',']) ds cs := hr
  rw [List.cons_append, Reader.record, bind_ok (blanks_cons hb rfl _)]
  change nested _ (depth + 1) _ = _
  rw [nested_cons, bind_ok (get_ok _)]
  exact members_row h hr (Nat.le_of_lt hm) hlt rest

theorem Fills.enters {fields pending : List (Slot σ)} {x y : σ} {ms : List (String × Json)}
    {ds : List (List Char)} {depth : Nat} (h : Fills pending x ms y)
    (hw : List.Forall₂ WritesMember ms ds) (hd : ∀ m ∈ ms, m.2.depth ≤ depth) :
    Enters fields depth pending x ds y := by
  induction h generalizing ds with
  | nil hp =>
    cases hw
    exact .nil hp
  | cons hf hread _ ih =>
    obtain ⟨hdj, hdms⟩ := List.forall_mem_cons.1 hd
    cases hw with
    | cons hmember hds => exact .field hmember.memberOf hf (Takes.mono hread hdj) (ih hds hdms)

/-- A record is read off an object as its members fill it. -/
theorem Fills.reads {blank y : σ} {fields : List (Slot σ)} {ms : List (String × Json)}
    (h : Fills fields blank ms y) : Reads (record blank fields) (.object ms) y := by
  intro depth b cs rest hd hm hb hw _
  cases hw with
  | @object _ ds cs hds hr =>
    obtain ⟨depth, rfl⟩ : ∃ n, depth = n + 1 := ⟨depth - 1, by rw [Json.depth] at hd; omega⟩
    exact (h.enters hds fun m hmem => depth_object_le_iff.1 hd m hmem).record hm hb hr rest

end Reader

end Json

end AdaptiveAutomata
