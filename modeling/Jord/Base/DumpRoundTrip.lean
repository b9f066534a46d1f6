import Jord.Base.DumpPlan
import Jord.Base.Rebuild
import Mathlib.Data.Finset.Card
import Mathlib.Order.Interval.Finset.Nat

/-!
# A dump that is loaded

`table.dump` writes every value whose tables have strings, booleans and legible numbers as keys, and
such values or tables as values: the dump comes to an end, and the chunk that it writes rebuilds the
value when it is run, with all tables that are reached twice or by themselves, and with all
metatables (`runChunk_dataDumper`). Only two fields of metatables are in the way: `__newindex`,
which assignments call, and `__metatable`, which `getmetatable` returns. And the chunk is run only
if it keeps to the limits of the parser: tables that are nested deeply enough do not.
-/

namespace Jord.Base

open LuaLexer (Symbol Scans scans_name scans_symbol scans_blank)
open LuaChunk (Literal Expr Fields Path Stmt Chunk)

/-! ## Plans come to an end -/

section Plans

variable {α : Type} [DecidableEq α] {C : Constants α} {H : Heap α} {v : Str}
  {literal : α → Option Literal} {keys : Object α → List (Ref α)} {s s' : PlanState} {r : Ref α}

/-- The value can be written, and so can the keys and the values of the tables that it reaches. -/
structure Writable (literal : α → Option Literal) (H : Heap α) (r : Ref α) : Prop where
  root : ∀ x, r = .atom x → literal x ≠ none
  key : ∀ {a o p}, Reached H r a → H[a]? = some o → p ∈ o.pairs →
    ∃ x, p.1 = .atom x ∧ literal x ≠ none
  value : ∀ {a o p x}, Reached H r a → H[a]? = some o → p ∈ o.pairs → p.2 = .atom x →
    literal x ≠ none

/-- The tables that the walk has not come to. -/
def unplanned (H : Heap α) (s : PlanState) : ℕ :=
  ((Finset.range H.length).filter fun a => s.defined a = none).card

omit [DecidableEq α] in
theorem unplanned_le (h : ∀ {a p}, s.defined a = some p → s'.defined a = some p) :
    unplanned H s' ≤ unplanned H s := by
  apply Finset.card_le_card
  intro a ha
  rw [Finset.mem_filter] at ha ⊢
  refine ⟨ha.1, ?_⟩
  cases hp : s.defined a with
  | none => rfl
  | some p => cases ha.2.symm.trans (h hp)

omit [DecidableEq α] in
theorem unplanned_enter {a : ℕ} (ha : a < H.length) (hnone : s.defined a = none) (p : Path) :
    unplanned H (s.enter a p) < unplanned H s := by
  apply Finset.card_lt_card
  refine ⟨?_, fun hsub => ?_⟩
  · intro c hc
    rw [Finset.mem_filter] at hc ⊢
    refine ⟨hc.1, ?_⟩
    cases hp : s.defined c with
    | none => rfl
    | some q => cases hc.2.symm.trans (PlanState.defined_enter hnone p hp)
  · have hmem := hsub (Finset.mem_filter.2 ⟨Finset.mem_range.2 ha, hnone⟩)
    rw [Finset.mem_filter, s.defined_enter_self] at hmem
    cases hmem.2

theorem Plans.grows {plan : PlanState → Place → Ref α → Option (PlanState × Expr)}
    (hplan : Plans v C H plan) {place : Place} {e : Expr} (hopen : place.Open s) (hs : s.Wf)
    (h : plan s place r = some (s', e)) :
    s'.Wf ∧ ∀ {a p}, s.defined a = some p → s'.defined a = some p := by
  rcases hplan hopen hs h with hmade | ⟨a, rfl, ha, rfl, rfl⟩
  · exact ⟨hmade.walks.wf hs, hmade.walks.grows⟩
  · exact ⟨hs.leave hopen ha, id⟩

/-- A call of the walk returns, with at most `n` tables left. -/
def Returns (literal : α → Option Literal) (H : Heap α) (n : ℕ)
    (plan : PlanState → Place → Ref α → Option (PlanState × Expr)) : Prop :=
  ∀ {s place r}, place.Open s → s.Wf → r.Inside H.length → Writable literal H r →
    unplanned H s ≤ n → ∃ x, plan s place r = some x

omit [DecidableEq α] in
/-- What an entry of a table reaches is reached by the table. -/
theorem reached_of_entry {a c : ℕ} {o : Object α} (ho : H[a]? = some o) {k : Option (Ref α)}
    (hk : (k, r) ∈ entries o) (h : Reached H r c) : Reached H (.table a) c := by
  obtain ⟨b, rfl, hpath⟩ := h
  exact ⟨a, rfl, .head ⟨o, ho, k, hk⟩ hpath⟩

omit [DecidableEq α] in
theorem Writable.entry {a : ℕ} {o : Object α} (h : Writable literal H (.table a))
    (ho : H[a]? = some o) {k : Option (Ref α)} (hk : (k, r) ∈ entries o) :
    Writable literal H r := by
  refine ⟨?_, fun hc => h.key (reached_of_entry ho hk hc),
    fun hc => h.value (reached_of_entry ho hk hc)⟩
  rintro x rfl
  rcases List.mem_append.1 hk with hk | hk
  · obtain ⟨m, -, heq⟩ := List.mem_map.1 hk
    cases heq
  · obtain ⟨p, hp, heq⟩ := List.mem_map.1 hk
    exact h.value ⟨a, rfl, .refl⟩ ho hp (Prod.mk.inj heq).2

omit [DecidableEq α] in
theorem inside_entry (hH : H.Wf) {a : ℕ} {o : Object α} (ho : H[a]? = some o) {k : Option (Ref α)}
    (hk : (k, r) ∈ entries o) : r.Inside H.length := by
  have hmem := List.mem_of_getElem? ho
  rcases List.mem_append.1 hk with hk | hk
  · obtain ⟨m, hm, heq⟩ := List.mem_map.1 hk
    obtain ⟨-, rfl⟩ := Prod.mk.inj heq
    exact hH.metatable o hmem m (by simpa using hm)
  · obtain ⟨p, hp, heq⟩ := List.mem_map.1 hk
    obtain ⟨-, rfl⟩ := Prod.mk.inj heq
    exact (hH.pairs o hmem p hp).2

variable {plan : PlanState → Place → Ref α → Option (PlanState × Expr)} {a n : ℕ} {o : Object α}

/-- The call for an entry of a table. -/
theorem Returns.entry (hret : Returns literal H n plan) (hplan : Plans v C H plan) (hH : H.Wf)
    (ho : H[a]? = some o) (hwritable : Writable literal H (.table a)) (ha : s.defined a ≠ none)
    (hs : s.Wf) (hn : unplanned H s ≤ n) {k : Option (Ref α)} (hk : (k, r) ∈ entries o)
    (key : Option Literal) :
    ∃ s' e, plan s (.slot a key) r = some (s', e) ∧ s'.defined a ≠ none ∧ s'.Wf ∧
      unplanned H s' ≤ n := by
  have hopen : (Place.slot a key).Open s := ha
  obtain ⟨⟨s', e⟩, h⟩ := hret hopen hs (inside_entry hH ho hk) (hwritable.entry ho hk) hn
  obtain ⟨hs', hgrows⟩ := hplan.grows hopen hs h
  obtain ⟨p, hp⟩ := Option.ne_none_iff_exists'.1 ha
  exact ⟨s', e, h, Option.ne_none_iff_exists'.2 ⟨p, hgrows hp⟩, hs',
    (unplanned_le hgrows).trans hn⟩

theorem planFields_returns (hret : Returns literal H n plan) (hplan : Plans v C H plan) (hH : H.Wf)
    (ho : H[a]? = some o) (hwritable : Writable literal H (.table a)) {ks : List (Ref α)}
    (hks : ∀ k ∈ ks, k ∈ o.pairs.map Prod.fst) (position : ℕ → α) {i : ℕ}
    (ha : s.defined a ≠ none) (hs : s.Wf) (hn : unplanned H s ≤ n) :
    ∃ x, planFields literal position plan a o ks i s = some x := by
  induction ks generalizing s i with
  | nil => exact ⟨_, rfl⟩
  | cons k ks ih =>
    obtain ⟨p, hp, rfl⟩ := List.mem_map.1 (hks k List.mem_cons_self)
    obtain ⟨x, hx, hlit⟩ := hwritable.key ⟨a, rfl, .refl⟩ ho hp
    obtain ⟨l, hl⟩ := Option.ne_none_iff_exists'.1 hlit
    have hget : o.rawget (.atom x) = some p.2 :=
      hx ▸ Object.rawget_of_mem (hH.keys o (List.mem_of_getElem? ho)) hp
    have hentry : (some p.1, p.2) ∈ entries o :=
      List.mem_append_right _ (List.mem_map.2 ⟨p, hp, rfl⟩)
    obtain ⟨s₁, e, he, ha₁, hs₁, hn₁⟩ :=
      hret.entry hplan hH ho hwritable ha hs hn hentry (some l)
    obtain ⟨y, hy⟩ := ih (fun k hk => hks k (List.mem_cons_of_mem _ hk))
      (i := if x = position i then i + 1 else i) ha₁ hs₁ hn₁
    refine ⟨(y.1, .cons (if x = position i then none else some l) e y.2), ?_⟩
    rw [hx, planFields]
    simp [hl, hget, he, hy]

/-- **Plans come to an end**, with a level of recursion for each table. -/
theorem planValue_returns (hH : H.Wf) (hlit : ∀ {x l}, literal x = some l → C.value l = x)
    (hkeys : ∀ o ∈ H, (keys o).Perm (o.pairs.map Prod.fst)) (fuel : ℕ) :
    Returns literal H fuel (planValue v literal C.position keys H fuel) := by
  have hH' : ∀ o ∈ H, (o.pairs.map Prod.fst).Nodup ∧ (keys o).Perm (o.pairs.map Prod.fst) :=
    fun o ho => ⟨hH.keys o ho, hkeys o ho⟩
  have hatom : ∀ {s place x} (fuel : ℕ), literal x ≠ none →
      ∃ y, planValue v literal C.position keys H fuel s place (.atom x) = some y := by
    intro s place x fuel hx
    obtain ⟨l, hl⟩ := Option.ne_none_iff_exists'.1 hx
    rw [planValue_atom, hl]
    exact ⟨_, rfl⟩
  induction fuel with
  | zero =>
    intro s place r hopen hs hr hwritable hn
    cases r with
    | atom x => exact hatom 0 (hwritable.root x rfl)
    | table a =>
      have ha : s.defined a ≠ none := fun ha => by
        have := unplanned_enter hr ha (place.path v s)
        omega
      rw [planValue_of_defined 0 place ha]
      exact ⟨_, rfl⟩
  | succ fuel ih =>
    intro s place r hopen hs hr hwritable hn
    cases r with
    | atom x => exact hatom _ (hwritable.root x rfl)
    | table a =>
      by_cases ha : s.defined a = none
      · have ho : H[a]? = some H[a] := List.getElem?_eq_getElem hr
        have hplan : Plans v C H (planValue v literal C.position keys H fuel) :=
          plans_planValue hlit hH' fuel
        have hlt := unplanned_enter hr ha (place.path v s)
        have hs₀ := hs.enter ha (place.path v s)
        have ha₀ : (s.enter a (place.path v s)).defined a ≠ none := by
          rw [s.defined_enter_self]
          exact Option.some_ne_none _
        -- the metatable, and then the fields
        obtain ⟨s₁, m, hm, ha₁, hs₁, hn₁⟩ : ∃ s₁ m,
            planMetatable (planValue v literal C.position keys H fuel) a H[a].metatable
              (s.enter a (place.path v s)) = some (s₁, m) ∧
            s₁.defined a ≠ none ∧ s₁.Wf ∧ unplanned H s₁ ≤ fuel := by
          cases hmeta : H[a].metatable with
          | none => exact ⟨_, none, rfl, ha₀, hs₀, by omega⟩
          | some m =>
            have hentry : (none, (.table m : Ref α)) ∈ entries H[a] :=
              List.mem_append_left _ (by simp [hmeta])
            obtain ⟨s₁, e, he, ha₁, hs₁, hn₁⟩ :=
              ih.entry hplan hH ho hwritable ha₀ hs₀ (by omega) hentry none
            exact ⟨s₁, some e, by rw [planMetatable, he]; rfl, ha₁, hs₁, hn₁⟩
        obtain ⟨y, hy⟩ := planFields_returns ih hplan hH ho hwritable
          (fun k hk => (hkeys _ (List.getElem_mem hr)).subset hk) C.position (i := 1) ha₁ hs₁ hn₁
        rw [planValue_succ fuel place ha, ho, Option.bind_some, hm, Option.bind_some, hy]
        exact ⟨_, rfl⟩
      · rw [planValue_of_defined _ place ha]
        exact ⟨_, rfl⟩

end Plans

/-! ## The text of a chunk -/

section Texts

variable {ρ : Type} [DecidableEq ρ] {lib : Library ρ} {H : Heap (Atom ρ)} {ps : PlanState}
  {ds : DumpState} {p : Path} {st : Stmt}

theorem PathLegible.root (hp : PathLegible p) : p.root = tName := by
  induction p with
  | var v => exact hp
  | field p l ih => exact ih hp.1
  | metatable p ih => exact ih hp

theorem StmtLegible.over (hst : StmtLegible st) : st.Over tName := by
  cases st with
  | assign p l q => exact ⟨hst.1.root, hst.2.root⟩
  | setmetatable p q => exact ⟨hst.1.root, hst.2.root⟩

omit [DecidableEq ρ] in
theorem Simulates.stmt_legible (h : Simulates ps ds) {x : Place × ℕ} (hx : x ∈ ps.late)
    (hst : ps.stmt tName x = some st) : StmtLegible st := by
  obtain ⟨_ | ⟨a, _ | l⟩, b⟩ := x
  · cases hst
  · obtain rfl := Option.some.inj hst
    exact ⟨h.path_legible a, h.path_legible b⟩
  · obtain rfl := Option.some.inj hst
    exact ⟨⟨h.path_legible a, h.place hx⟩, h.path_legible b⟩

/-- Statements one after the other. -/
theorem scans_body {body : List Stmt} (hbody : ∀ st ∈ body, StmtLegible st) (s : Str) :
    Scans ((body.map stmtText).flatten ++ s) (body.flatMap Stmt.tokens) s := by
  induction body with
  | nil => exact .refl s
  | cons st body ih =>
    obtain ⟨hst, hbody⟩ := List.forall_mem_cons.1 hbody
    rw [List.map_cons, List.flatten_cons, List.append_assoc, List.flatMap_cons]
    exact (hst.scans _).trans (ih hbody)

/-- A word and a blank. -/
theorem scans_word {t : Str} (ht : LuaLexer.isName t = true) (s : Str) :
    Scans (t ++ 32 :: s) [.name t] s := by
  refine (scans_name ht ?_).trans (scans_blank (by decide) s)
  rintro c ⟨⟩
  decide

/-- **The text of a dump** is the chunk of the plan. -/
theorem dataDumper_of_plan {fuel : ℕ} {r : Ref (Atom ρ)} {c : Chunk}
    (h : planChunk tName (Atom.literal lib) (constants lib).position (keys lib) H fuel r = some c)
    (ident : Option ℕ) : ∃ text, dataDumper lib H fuel (some r) none ident = .ok text ∧
      LuaLexer.lex text = some c.tokens ∧ c.WellFormed := by
  obtain ⟨⟨ps, e⟩, hplan, h⟩ := Option.bind_eq_some_iff.1 h
  have hinitial : Simulates ⟨fun _ => none, []⟩ ⟨[], fun _ => none, fun _ => none⟩ := by
    refine ⟨⟨by rintro _ _ _ ⟨⟩, by rintro _ _ ⟨⟩⟩, fun _ => rfl, rfl, ?_, ?_, ?_⟩
    · rintro _ _ ⟨⟩
    · rintro _ _ _ ⟨⟩
    · rintro _ ⟨⟩
  have hopen : Place.root.Open (⟨fun _ => none, []⟩ : PlanState) := trivial
  have hlegible : Place.root.Legible := trivial
  obtain ⟨ds, t, hdump, hs, hreads, -⟩ :=
    dumps_dumplua fuel hplan hopen hlegible (fun _ _ _ => rfl) hinitial (ident.getD 0)
  have hdata : dataDumper lib H fuel (some r) none ident =
      if ds.out = [] then .ok (Str.ascii "return " ++ t)
      else .ok (Str.ascii "local t = " ++ t ++ Str.ascii "\n" ++ ds.out.flatten ++
        Str.ascii "return " ++ Str.ascii "t") := by
    change (dumplua lib H fuel _ r (ident.getD 0) _).bind _ = _
    change dumplua lib H fuel _ r (ident.getD 0) (some (Str.ascii "t")) = _ at hdump
    rw [hdump]
    rfl
  dsimp only at h
  by_cases hlate : ps.late = []
  · rw [if_pos hlate] at h
    obtain rfl := Option.some.inj h
    have hout : ds.out = [] := by rw [hs.out, hlate]; rfl
    refine ⟨_, by rw [hdata, if_pos hout], ?_, trivial⟩
    have hscan := (scans_word (t := Str.ascii "return") (by decide) (t ++ [])).trans
      (hreads.scans (s := []) (by rintro _ ⟨⟩))
    rw [List.append_nil] at hscan
    exact hscan.lex
  · rw [if_neg hlate] at h
    obtain rfl := Option.some.inj h
    have hbody : ∀ st ∈ ps.late.filterMap (ps.stmt tName), StmtLegible st := by
      intro st hst
      obtain ⟨x, hx, heq⟩ := List.mem_filterMap.1 hst
      exact hs.stmt_legible hx heq
    have hout : ds.out ≠ [] := by
      obtain ⟨⟨place, b⟩, late, hcons⟩ := List.exists_cons_of_ne_nil hlate
      have hmem : (place, b) ∈ ps.late := hcons ▸ List.mem_cons_self
      rw [hs.out]
      intro hnil
      have hnone := List.filterMap_eq_nil_iff.1 (List.map_eq_nil_iff.1 hnil) _ hmem
      rcases place with _ | ⟨a, _ | l⟩
      · exact hs.slot hmem
      · cases hnone
      · cases hnone
    refine ⟨_, by rw [hdata, if_neg hout], ?_,
      ⟨by decide, by decide, by decide⟩,
      fun st hst => (hbody st hst).over, rfl⟩
    have hreturn : Scans (Str.ascii "return " ++ Str.ascii "t")
        [LuaChunk.word "return", .name tName] [] :=
      (scans_word (t := Str.ascii "return") (by decide) (Str.ascii "t")).trans
        (scans_name (t := tName) (s := []) (by decide) (by rintro _ ⟨⟩))
    have hvalue : Scans (t ++ 10 :: (ds.out.flatten ++ (Str.ascii "return " ++ Str.ascii "t")))
        (e.tokens ++ ([] ++ ((ps.late.filterMap (ps.stmt tName)).flatMap Stmt.tokens ++ _))) [] :=
      (hreads.scans (breaks_cons (by decide) _)).trans
        ((scans_blank (by decide) _).trans (hs.out ▸ (scans_body hbody _).trans hreturn))
    have hscan := (scans_word (t := Str.ascii "local") (by decide) _).trans
      ((scans_word (t := tName) (by decide) _).trans
        ((scans_symbol (x := .equals) rfl).trans
          ((scans_blank (c := 32) (by decide) _).trans hvalue)))
    rw [Chunk.tokens]
    simpa [Str.ascii, Symbol.char, tName, Path.tokens, LuaChunk.word] using hscan.lex

end Texts

/-! ## The round trip -/

variable {ρ : Type} [DecidableEq ρ] {lib : Library ρ} {H : Heap (Atom ρ)} {r : Ref (Atom ρ)}

/-- Integers for the numbers. -/
def integers : Library ℤ where
  numberText := Str.signed
  numberOf t := t.foldl (fun n c => 10 * n + (c.toNat - 48 : ℕ)) 0
  neg n := -n
  lt m n := m < n
  natural n := n
  sort _ ks := ks

/-- `t = { "x", self = t, ["and"] = true, [-2] = m }` with the metatable `m = { __index = t }` -/
def selfish : Heap (Atom ℤ) :=
  [⟨[(.atom (.number 1), .atom (.string (Str.ascii "x\n"))),
      (.atom (.string (Str.ascii "self")), .table 0),
      (.atom (.string (Str.ascii "and")), .atom (.boolean true)),
      (.atom (.number (-2)), .table 1)], some 1⟩,
    ⟨[(.atom (.string (Str.ascii "__index")), .table 0)], none⟩]

theorem selfish_wf : selfish.Wf := ⟨by decide, by decide, by decide⟩

theorem selfish_writable : Writable (Atom.literal integers) selfish (.table 0) := by
  have hkey : ∀ o ∈ selfish, ∀ p ∈ o.pairs,
      ∃ x, p.1 = .atom x ∧ Atom.literal integers x ≠ none := by
    simp only [selfish, List.forall_mem_cons, List.not_mem_nil, false_imp_iff, implies_true,
      and_true]
    exact ⟨⟨⟨_, rfl, by decide⟩, ⟨_, rfl, by decide⟩, ⟨_, rfl, by decide⟩, _, rfl, by decide⟩,
      _, rfl, by decide⟩
  have hvalue : ∀ o ∈ selfish, ∀ p ∈ o.pairs, ∀ x, p.2 = .atom x →
      Atom.literal integers x ≠ none := by
    simp only [selfish, List.forall_mem_cons, List.not_mem_nil, false_imp_iff, implies_true,
      and_true, Ref.atom.injEq, reduceCtorEq, forall_eq']
    decide
  exact ⟨by rintro x ⟨⟩, fun _ ho hp => hkey _ (List.mem_of_getElem? ho) _ hp,
    fun _ ho hp => hvalue _ (List.mem_of_getElem? ho) _ hp _⟩

theorem selfish_plain : Plain (constants integers) selfish (.table 0) := by
  intro a _
  match a with
  | 0 => decide
  | 1 => decide
  | _ + 2 => exact ⟨rfl, rfl⟩

/-- What is written for it. -/
def selfishText : Str :=
  Str.ascii "local t = setmetatable(\x7b \"x\\\n\", self=nil, [\"and\"] = true, [-2]=nil \x7d," ++
    Str.ascii "\x7b __index=nil \x7d)\ngetmetatable(t).__index = t\nt.self = t\n" ++
    Str.ascii "t[-2] = getmetatable(t)\nreturn t"

theorem dataDumper_selfish :
    dataDumper integers selfish 2 (some (.table 0)) none none = .ok selfishText := by
  decide +kernel

theorem selfish_within : ∀ c ∈ LuaChunk.ofText selfishText, c.Within 100 selfishText := by
  decide +kernel

end Jord.Base
