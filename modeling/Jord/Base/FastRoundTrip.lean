import Jord.Base.DumpRoundTrip
import Jord.Base.FastTree

/-!
# Loading what the fast mode has written

In the fast mode `table.dump` comes to an end exactly if no table that it reaches is reached by
itself (`dataDumperFast_returns_iff`), and what it writes makes the value as a tree
(`runChunk_dataDumperFast`), if it keeps to the limits of the parser. So the fast mode loses what
the other mode keeps: cycles, tables that are reached twice, and metatables.
-/

namespace Jord.Base

open LuaChunk (Literal Expr Fields Chunk)

/-! ## Cycles -/

section Cycles

variable {α : Type}

/-- The table `a` has the table `b` as a value. -/
def LeadsByValue (H : Heap α) (a b : ℕ) : Prop :=
  ∃ o, H[a]? = some o ∧ ∃ p ∈ o.pairs, p.2 = .table b

/-- The table is reached from the value, by values. -/
def ReachedByValue (H : Heap α) (r : Ref α) (a : ℕ) : Prop :=
  ∃ b, r = .table b ∧ Relation.ReflTransGen (LeadsByValue H) b a

/-- No table that is reached is reached by itself. -/
def Acyclic (H : Heap α) (r : Ref α) : Prop :=
  ∀ a, ReachedByValue H r a → ¬ Relation.TransGen (LeadsByValue H) a a

/-- The value can be written, and so can the keys and the values of the tables that it reaches by
values. -/
structure Printable (literal : α → Option Literal) (H : Heap α) (r : Ref α) : Prop where
  root : ∀ x, r = .atom x → literal x ≠ none
  key : ∀ {a o p}, ReachedByValue H r a → H[a]? = some o → p ∈ o.pairs →
    ∃ x, p.1 = .atom x ∧ literal x ≠ none
  value : ∀ {a o p x}, ReachedByValue H r a → H[a]? = some o → p ∈ o.pairs → p.2 = .atom x →
    literal x ≠ none

variable {H : Heap α} {literal : α → Option Literal} {r : Ref α} {a : ℕ} {o : Object α}
  {p : Ref α × Ref α}

/-- What a value of a table reaches is reached by the table. -/
theorem reachedByValue_of_mem (ho : H[a]? = some o) (hp : p ∈ o.pairs) {c : ℕ}
    (h : ReachedByValue H p.2 c) : ReachedByValue H (.table a) c := by
  obtain ⟨b, hb, hpath⟩ := h
  exact ⟨a, rfl, .head ⟨o, ho, p, hp, hb⟩ hpath⟩

theorem Printable.of_mem (h : Printable literal H (.table a)) (ho : H[a]? = some o)
    (hp : p ∈ o.pairs) : Printable literal H p.2 :=
  ⟨fun _ hx => h.value ⟨a, rfl, .refl⟩ ho hp hx, fun hc => h.key (reachedByValue_of_mem ho hp hc),
    fun hc => h.value (reachedByValue_of_mem ho hp hc)⟩

theorem Acyclic.of_mem (h : Acyclic H (.table a)) (ho : H[a]? = some o) (hp : p ∈ o.pairs) :
    Acyclic H p.2 := fun c hc => h c (reachedByValue_of_mem ho hp hc)

/-- Where there is no way on without end there is no cycle. -/
theorem not_transGen_of_acc {β : Type*} {R : β → β → Prop} {a : β} (h : Acc (fun b a => R a b) a) :
    ¬ Relation.TransGen R a a := by
  induction h with
  | intro a _ ih =>
    intro hcycle
    obtain ⟨b, hab, hba⟩ := Relation.TransGen.head'_iff.1 hcycle
    exact ih b hab (.tail' hba hab)

theorem acyclic_of_acc (h : ∀ a, r = .table a → Acc (fun c b => LeadsByValue H b c) a) :
    Acyclic H r := by
  rintro c ⟨b, hb, hpath⟩
  apply not_transGen_of_acc
  induction hpath with
  | refl => exact h b hb
  | tail _ hlead ih => exact ih.inv hlead

variable [DecidableEq α] {position : ℕ → α}

theorem exists_of_treeFields {tree : Ref α → Option Expr} {pairs : List (Ref α × Ref α)} {i : ℕ}
    {fs : Fields} (h : treeFields literal position tree pairs i = some fs) :
    ∀ p ∈ pairs, ∃ e, tree p.2 = some e := by
  induction pairs generalizing i fs with
  | nil => simp
  | cons p pairs ih =>
    obtain ⟨k | b, value⟩ := p
    · obtain ⟨l, hl, h⟩ := Option.bind_eq_some_iff.1 h
      obtain ⟨e, he, h⟩ := Option.bind_eq_some_iff.1 h
      obtain ⟨fs₁, hrest, -⟩ := Option.bind_eq_some_iff.1 h
      exact List.forall_mem_cons.2 ⟨⟨e, he⟩, ih hrest⟩
    · cases h

/-- The loop over the pairs of a table returns if its calls do. -/
theorem treeFields_returns {tree : Ref α → Option Expr} {pairs : List (Ref α × Ref α)}
    (hkey : ∀ p ∈ pairs, ∃ x, p.1 = .atom x ∧ literal x ≠ none)
    (hvalue : ∀ p ∈ pairs, ∃ e, tree p.2 = some e) (i : ℕ) :
    ∃ fs, treeFields literal position tree pairs i = some fs := by
  induction pairs generalizing i with
  | nil => exact ⟨_, rfl⟩
  | cons p pairs ih =>
    obtain ⟨⟨x, hx, hlit⟩, hkeys⟩ := List.forall_mem_cons.1 hkey
    obtain ⟨⟨e, he⟩, hvalues⟩ := List.forall_mem_cons.1 hvalue
    obtain ⟨l, hl⟩ := Option.ne_none_iff_exists'.1 hlit
    obtain ⟨k, v⟩ := p
    obtain rfl : k = .atom x := hx
    obtain ⟨fs, hfs⟩ := ih hkeys hvalues (if x = position i then i + 1 else i)
    exact ⟨.cons (if x = position i then none else some l) e fs, by
      simp only [treeFields, hl, he, hfs, Option.bind_eq_bind, Option.bind_some, Option.pure_def]⟩

theorem Printable.treeExpr_atom {x : α} (h : Printable literal H (.atom x)) (position : ℕ → α)
    (fuel : ℕ) : ∃ e, treeExpr literal position H fuel (.atom x) = some e := by
  obtain ⟨l, hl⟩ := Option.ne_none_iff_exists'.1 (h.root x rfl)
  exact ⟨.literal l, by rw [Base.treeExpr_atom, hl, Option.map_some]⟩

/-- **Without a cycle the recursion ends.** The tables in `S` are the ones that the recursion is
in; none of them is come to again. -/
theorem treeExpr_returns (hH : H.Wf) (fuel : ℕ) {r : Ref α} (hr : r.Inside H.length)
    (hprint : Printable literal H r) (hacyclic : Acyclic H r) (S : Finset ℕ)
    (hS : ∀ b ∈ S, b < H.length ∧ ∀ a, r = .table a → Relation.TransGen (LeadsByValue H) b a)
    (hfuel : H.length ≤ S.card + fuel) : ∃ e, treeExpr literal position H fuel r = some e := by
  induction fuel generalizing r S with
  | zero =>
    cases r with
    | atom x => exact hprint.treeExpr_atom position _
    | table a =>
      have ha : a ∉ S := fun hmem => hacyclic a ⟨a, rfl, .refl⟩ ((hS a hmem).2 a rfl)
      have hsub : insert a S ⊆ Finset.range H.length := by
        intro b hb
        rw [Finset.mem_range]
        rcases Finset.mem_insert.1 hb with rfl | hb
        · exact hr
        · exact (hS b hb).1
      have hcard := Finset.card_le_card hsub
      rw [Finset.card_insert_of_notMem ha, Finset.card_range] at hcard
      omega
  | succ fuel ih =>
    cases r with
    | atom x => exact hprint.treeExpr_atom position _
    | table a =>
      have ha : a ∉ S := fun hmem => hacyclic a ⟨a, rfl, .refl⟩ ((hS a hmem).2 a rfl)
      have ho : H[a]? = some H[a] := List.getElem?_eq_getElem hr
      have hvalue : ∀ p ∈ H[a].pairs, ∃ e, treeExpr literal position H fuel p.2 = some e := by
        intro p hp
        have hin := (hH.pairs H[a] (List.getElem_mem hr) p hp).2
        refine ih hin (hprint.of_mem ho hp) (hacyclic.of_mem ho hp) (insert a S) ?_ ?_
        · intro b hb
          have hlead : ∀ c, p.2 = .table c → LeadsByValue H a c := fun c hc =>
            ⟨H[a], ho, p, hp, hc⟩
          rcases Finset.mem_insert.1 hb with rfl | hb
          · exact ⟨hr, fun c hc => .single (hlead c hc)⟩
          · exact ⟨(hS b hb).1, fun c hc => ((hS b hb).2 a rfl).tail (hlead c hc)⟩
        · rw [Finset.card_insert_of_notMem ha]
          omega
      obtain ⟨fs, hfs⟩ : ∃ fs, treeFields literal position (treeExpr literal position H fuel)
          H[a].pairs 1 = some fs :=
        treeFields_returns (fun p hp => hprint.key ⟨a, rfl, .refl⟩ ho hp) hvalue 1
      exact ⟨.table fs, treeExpr_succ_of_fields _ _ ho hfs⟩

/-- What is written as one expression leads to no cycle. -/
theorem acc_of_treeExpr (fuel : ℕ) {e : Expr}
    (h : treeExpr literal position H fuel (.table a) = some e) :
    Acc (fun c b => LeadsByValue H b c) a := by
  induction fuel generalizing a e with
  | zero => cases h
  | succ fuel ih =>
    obtain ⟨o, fs, ho, hfs, -⟩ := treeExpr_succ_eq_some _ _ h
    constructor
    rintro b ⟨o', ho', p, hp, hb⟩
    obtain rfl := Option.some.inj (ho.symm.trans ho')
    obtain ⟨e', he'⟩ := exists_of_treeFields hfs p hp
    rw [hb] at he'
    exact ih he'

end Cycles

/-! ## The dump -/

section Dump

variable {ρ : Type} [DecidableEq ρ] {lib : Library ρ} {H : Heap (Atom ρ)} {r : Ref (Atom ρ)}

/-- The loop over the pairs returns only if the calls for the values do. -/
theorem exists_of_fastFields {dump : Dumplua ρ} {pairs : List (Ref (Atom ρ) × Ref (Atom ρ))} {i : ℕ}
    {s s' : DumpState} (h : fastFields lib dump pairs i s = .ok s') :
    ∀ p ∈ pairs, ∃ s₀ y, dump s₀ p.2 0 none = .ok y := by
  induction pairs generalizing i s with
  | nil => simp
  | cons p pairs ih =>
    obtain ⟨s₁, -, h⟩ := bind_eq_ok_iff.1 h
    obtain ⟨y, hcall, hrest⟩ := bind_eq_ok_iff.1 h
    exact List.forall_mem_cons.2 ⟨⟨s₁, y, hcall⟩, ih hrest⟩

/-- What returns is the expression. -/
theorem exists_treeExpr (fuel : ℕ) {r : Ref (Atom ρ)} (hprint : Printable (Atom.literal lib) H r)
    (hr : r.Inside H.length) (hH : H.Wf) {s : DumpState} {ident : ℕ} {path : Option Str}
    {y : DumpState × Str} (h : dumpluaFast lib H fuel s r ident path = .ok y) :
    ∃ e, treeExpr (Atom.literal lib) (constants lib).position H fuel r = some e := by
  induction fuel generalizing r s ident path y with
  | zero =>
    cases r with
    | atom x => exact hprint.treeExpr_atom (constants lib).position 0
    | table a => cases h
  | succ fuel ih =>
    cases r with
    | atom x => exact hprint.treeExpr_atom (constants lib).position _
    | table a =>
      have ho : H[a]? = some H[a] := List.getElem?_eq_getElem hr
      have hkey : ∀ p ∈ H[a].pairs, ∃ x, p.1 = .atom x ∧ x.literal lib ≠ none := fun p hp =>
        hprint.key ⟨a, rfl, .refl⟩ ho hp
      rw [dumpluaFast, ho, Option.getD_some] at h
      obtain ⟨s₁, hloop, -⟩ := bind_eq_ok_iff.1 h
      have hvalue : ∀ p ∈ H[a].pairs,
          ∃ e, treeExpr (Atom.literal lib) (constants lib).position H fuel p.2 = some e := by
        intro p hp
        obtain ⟨s₀, y, hcall⟩ := exists_of_fastFields hloop p hp
        exact ih (hprint.of_mem ho hp) (hH.pairs H[a] (List.getElem_mem hr) p hp).2 hcall
      obtain ⟨fs, hfs⟩ : ∃ fs, treeFields (Atom.literal lib) (constants lib).position
          (treeExpr (Atom.literal lib) (constants lib).position H fuel) H[a].pairs 1 = some fs :=
        treeFields_returns hkey hvalue 1
      exact ⟨.table fs, treeExpr_succ_of_fields _ _ ho hfs⟩

/-- What `dump` returns, `dump'` returns. -/
def GoesFurther (dump dump' : Dumplua ρ) : Prop :=
  ∀ {s r ident path y}, dump s r ident path = .ok y → dump' s r ident path = .ok y

section GoesFurther

variable {dump dump' : Dumplua ρ} {s s' : DumpState}

omit [DecidableEq ρ] in
theorem GoesFurther.keycache (hfar : GoesFurther dump dump') {key : Ref (Atom ρ)}
    {y : DumpState × Str} (h : keycache dump s key = .ok y) :
    Base.keycache dump' s key = .ok y := by
  cases hmake : dump s key 0 none with
  | ok z =>
    rw [← h]
    simp only [Base.keycache, hmake, hfar hmake]
  | error e =>
    unfold Base.keycache at h ⊢
    rw [hmake] at h
    dsimp only [Except.map] at h ⊢
    split at h
    · split at h
      · next hreserved => rwa [if_pos hreserved]
      · next hreserved =>
        split at h
        · next hname => rwa [if_neg hreserved, if_pos hname]
        · cases h
    · split at h
      · next hfound => simpa only [hfound] using h
      · cases h
    · cases h

theorem GoesFurther.fastKey (hfar : GoesFurther dump dump') {key : Ref (Atom ρ)} {i : ℕ}
    (h : fastKey lib dump s key i = .ok s') : Base.fastKey lib dump' s key i = .ok s' := by
  rw [Base.fastKey] at h ⊢
  split at h
  · next hnext => rwa [if_pos hnext]
  · next hnext =>
    obtain ⟨y, hkey, h⟩ := bind_eq_ok_iff.1 h
    rw [if_neg hnext]
    exact bind_eq_ok_iff.2 ⟨y, hfar.keycache hkey, h⟩

theorem GoesFurther.fastFields (hfar : GoesFurther dump dump')
    {pairs : List (Ref (Atom ρ) × Ref (Atom ρ))} {i : ℕ}
    (h : fastFields lib dump pairs i s = .ok s') :
    Base.fastFields lib dump' pairs i s = .ok s' := by
  induction pairs generalizing i s with
  | nil => exact h
  | cons p pairs ih =>
    obtain ⟨s₁, hkey, h⟩ := bind_eq_ok_iff.1 h
    obtain ⟨y, hcall, h⟩ := bind_eq_ok_iff.1 h
    exact bind_eq_ok_iff.2 ⟨s₁, hfar.fastKey hkey, bind_eq_ok_iff.2 ⟨y, hfar hcall, ih h⟩⟩

end GoesFurther

/-- What returns at some depth of the recursion returns at every greater depth. -/
theorem goesFurther_dumpluaFast {fuel fuel' : ℕ} (hle : fuel ≤ fuel') :
    GoesFurther (dumpluaFast lib H fuel) (dumpluaFast lib H fuel') := by
  induction fuel generalizing fuel' with
  | zero =>
    intro s r ident path y h
    cases r with
    | atom x => rwa [dumpsAtoms_dumpluaFast] at h ⊢
    | table a => cases h
  | succ fuel ih =>
    intro s r ident path y h
    cases r with
    | atom x => rwa [dumpsAtoms_dumpluaFast] at h ⊢
    | table a =>
      obtain ⟨fuel', rfl⟩ := Nat.exists_eq_add_of_le' (Nat.le_of_add_left_le hle)
      obtain ⟨s₁, hloop, h⟩ := bind_eq_ok_iff.1 h
      have hfar : GoesFurther (dumpluaFast lib H fuel) (dumpluaFast lib H fuel') :=
        ih (Nat.le_of_succ_le_succ hle)
      exact bind_eq_ok_iff.2 ⟨s₁, hfar.fastFields hloop, h⟩

/-- **When the fast mode returns**: exactly if no table that the value reaches by values is reached
by itself. One level of recursion for each table is enough, and more levels change nothing. The
interpreter has a limit of its own on nested calls, which is not a part of this. -/
theorem dataDumperFast_returns_iff (hH : H.Wf) (hr : r.Inside H.length)
    (hprint : Printable (Atom.literal lib) H r) (varname : Option Str) :
    ((∃ fuel text, dataDumperFast lib H fuel (some r) varname = .ok text) ↔ Acyclic H r) ∧
      (Acyclic H r → ∃ text, ∀ fuel, H.length ≤ fuel →
        dataDumperFast lib H fuel (some r) varname = .ok text) := by
  have hreturns : Acyclic H r → ∃ text, ∀ fuel, H.length ≤ fuel →
      dataDumperFast lib H fuel (some r) varname = .ok text := by
    intro hacyclic
    have hcard : H.length ≤ (∅ : Finset ℕ).card + H.length := by simp
    obtain ⟨e, he⟩ : ∃ e, treeExpr (Atom.literal lib) (constants lib).position H H.length r =
        some e := treeExpr_returns hH H.length hr hprint hacyclic ∅ (by simp) hcard
    obtain ⟨pieces, t, hcall, -⟩ := prints_dumpluaFast H.length he
      ⟨[variableText varname], fun _ => none, fun _ => none⟩ 0 none
    exact ⟨_, fun fuel hfuel => bind_eq_ok_iff.2 ⟨_, goesFurther_dumpluaFast hfuel hcall, rfl⟩⟩
  refine ⟨⟨?_, fun hacyclic => ?_⟩, hreturns⟩
  · rintro ⟨fuel, text, h⟩
    obtain ⟨y, hcall, -⟩ := bind_eq_ok_iff.1 h
    obtain ⟨e, he⟩ := exists_treeExpr fuel hprint hr hH hcall
    apply acyclic_of_acc
    rintro a rfl
    exact acc_of_treeExpr fuel he
  · obtain ⟨text, h⟩ := hreturns hacyclic
    exact ⟨H.length, text, h _ le_rfl⟩

end Dump

/-! ## A table that is reached twice -/

/-- `t = { m, "a", x = m }` with `m = { y = -1 }`, where `t` is its own metatable -/
def twofold : Heap (Atom ℤ) :=
  [⟨[(.atom (.number 1), .table 1), (.atom (.number 2), .atom (.string (Str.ascii "a"))),
      (.atom (.string (Str.ascii "x")), .table 1)], some 0⟩,
    ⟨[(.atom (.string (Str.ascii "y")), .atom (.number (-1)))], none⟩]

theorem twofold_wf : twofold.Wf := ⟨by decide, by decide, by decide⟩

theorem twofold_printable : Printable (Atom.literal integers) twofold (.table 0) := by
  have hkey : ∀ o ∈ twofold, ∀ p ∈ o.pairs,
      ∃ x, p.1 = .atom x ∧ Atom.literal integers x ≠ none := by
    simp only [twofold, List.forall_mem_cons, List.not_mem_nil, false_imp_iff, implies_true,
      and_true]
    exact ⟨⟨⟨_, rfl, by decide⟩, ⟨_, rfl, by decide⟩, _, rfl, by decide⟩, _, rfl, by decide⟩
  have hvalue : ∀ o ∈ twofold, ∀ p ∈ o.pairs, ∀ x, p.2 = .atom x →
      Atom.literal integers x ≠ none := by
    simp only [twofold, List.forall_mem_cons, List.not_mem_nil, false_imp_iff, implies_true,
      and_true, Ref.atom.injEq, reduceCtorEq, forall_eq']
    decide
  exact ⟨by rintro x ⟨⟩, fun _ ho hp => hkey _ (List.mem_of_getElem? ho) _ hp,
    fun _ ho hp => hvalue _ (List.mem_of_getElem? ho) _ hp _⟩

/-- What is written for it. -/
def twofoldText : Str := Str.ascii "return \x7b\x7by=-1\x7d,\"a\",x=\x7by=-1\x7d\x7d"

theorem dataDumperFast_twofold :
    dataDumperFast integers twofold 2 (some (.table 0)) none = .ok twofoldText := by
  rfl

theorem dataDumperFast_returns_iff_twofold :
    ((∃ fuel text, dataDumperFast integers twofold fuel (some (.table 0)) none = .ok text) ↔
        Acyclic twofold (.table 0)) ∧
      (Acyclic twofold (.table 0) → ∃ text, ∀ fuel, 2 ≤ fuel →
        dataDumperFast integers twofold fuel (some (.table 0)) none = .ok text) :=
  dataDumperFast_returns_iff twofold_wf (by decide) twofold_printable none

theorem twofold_within : ∀ c ∈ LuaChunk.ofText twofoldText, c.Within 100 twofoldText := by
  decide +kernel

end Jord.Base
