import Jord.Base.DumpText
import Mathlib.Data.Option.Defs

/-!
# A dump follows a plan

The dump of a value does what the plan of its chunk says: it comes to the same tables by the same
paths (`Simulates`), and writes texts that are read as the expressions and the statements of the
plan (`dumps_dumplua`).
-/

namespace Jord.Base

open LuaLexer (Symbol Scans Breaks IsNumeral isSpace isNameChar scans_symbol scans_name
  scans_blanks)
open LuaChunk (Literal Expr Fields Path Stmt Chunk keyTokens)

/-! ## Table constructors -/

/-- The text is read as the expression. -/
structure ReadsExpr (t : Str) (e : Expr) : Prop where
  scans : ∀ {s}, Breaks s → Scans (t ++ s) e.tokens s
  head : ∃ c t', t = c :: t' ∧ c ≠ 61

/-- The texts are read as the fields, one by one. -/
inductive ReadsFields : List Str → Fields → Prop
  | nil : ReadsFields [] .nil
  | cons {t : Str} {ts : List Str} {key : Option Literal} {e : Expr} {fs : Fields}
      (h : ∀ {s}, Breaks s → Scans (t ++ s) (keyTokens key ++ e.tokens) s)
      (hs : ReadsFields ts fs) : ReadsFields (t :: ts) (.cons key e fs)

variable {s : Str}

theorem breaks_cons {c : UInt8} (h : isNameChar c = false ∧ c ≠ 46 ∧ c ≠ 43 ∧ c ≠ 45) (s : Str) :
    Breaks (c :: s) := by
  rintro d ⟨⟩
  exact h

/-- Blanks and a symbol that is neither part of a name nor of a numeral. -/
theorem breaks_blanks {b : Str} (hb : ∀ c ∈ b, isSpace c = true) (hs : Breaks s) :
    Breaks (b ++ s) := by
  cases b with
  | nil => exact hs
  | cons c b =>
    have hspace := hb c List.mem_cons_self
    refine breaks_cons ⟨?_, ?_, ?_, ?_⟩ (b ++ s)
    · cases hname : isNameChar c with
      | false => rfl
      | true =>
        rw [LuaLexer.isSpace_of_isNameChar hname] at hspace
        cases hspace
    all_goals
      rintro rfl
      revert hspace
      decide

theorem ReadsFields.scans {sep b : Str} (hsep : ∀ c ∈ sep, isSpace c = true)
    (hb : ∀ c ∈ b, isSpace c = true) {ts : List Str} {fs : Fields} (h : ReadsFields ts fs)
    (s : Str) : Scans ((44 :: sep).intercalate ts ++ (b ++ 125 :: s)) fs.tokens s := by
  have hclose : Scans (b ++ 125 :: s) [.symbol .closeBrace] s :=
    (scans_blanks hb _).trans (scans_symbol (x := .closeBrace) rfl)
  induction h with
  | nil => exact hclose
  | @cons t ts key e fs h hs ih =>
    cases hs with
    | nil =>
      have hbreaks : Breaks (b ++ 125 :: s) := breaks_blanks hb (breaks_cons (by decide) s)
      have := (h hbreaks).trans hclose
      simpa [List.intercalate, Fields.tokens, Fields.separator] using this
    | @cons t' ts key' e' fs h' hs =>
      have hsplit : (44 :: sep).intercalate (t :: t' :: ts) ++ (b ++ 125 :: s) =
          t ++ 44 :: (sep ++ ((44 :: sep).intercalate (t' :: ts) ++ (b ++ 125 :: s))) := by
        simp [List.intercalate_cons_cons]
      have := (h (breaks_cons (by decide) _)).trans ((scans_symbol (x := .comma) rfl).trans
        ((scans_blanks hsep _).trans ih))
      rw [hsplit, Fields.tokens]
      simpa [Fields.separator, Symbol.char] using this

theorem dropTwo_subset {b : Str} (hb : ∀ c ∈ b, isSpace c = true) :
    ∀ c ∈ dropTwo b, isSpace c = true := fun c hc => hb c (List.mem_of_mem_take hc)

theorem separator_blank (ident totallen : ℕ) :
    ∀ c ∈ separator ident totallen, isSpace c = true := by
  rw [separator]
  split_ifs
  · intro c hc
    rcases List.mem_cons.1 hc with rfl | hc
    · decide
    · rw [List.eq_of_mem_replicate hc]
      decide
  · exact List.forall_mem_singleton.2 rfl

/-- The text of a table constructor, with blanks. -/
theorem ReadsFields.scans_table {sep : Str} (hsep : ∀ c ∈ sep, isSpace c = true) {ts : List Str}
    {fs : Fields} (h : ReadsFields ts fs) (s : Str) :
    Scans (braces sep ts ++ s) (Expr.table fs).tokens s := by
  have hb : ∀ c ∈ Str.ascii " " ++ dropTwo sep, isSpace c = true := by
    intro c hc
    rcases List.mem_append.1 hc with hc | hc
    · obtain rfl : c = 32 := by simpa [Str.ascii] using hc
      decide
    · exact dropTwo_subset hsep c hc
  have := (scans_symbol (x := .openBrace) rfl).trans ((scans_blanks hsep _).trans
    (h.scans hsep hb s))
  rw [Expr.tokens]
  simpa [braces, Symbol.char, Str.ascii] using this

/-- **The text of a table** is read as its constructor, however it is laid out. -/
theorem readsExpr_tableText (ident : ℕ) {ts : List Str} {fs : Fields} (h : ReadsFields ts fs)
    {metatable : Option Str} {m : Option Expr} (hm : Option.Rel ReadsExpr metatable m) :
    ReadsExpr (tableText ident ts metatable) (construct fs m) := by
  rw [tableText]
  generalize hsep : separator ident _ = sep
  have hblank : ∀ c ∈ sep, isSpace c = true := hsep ▸ separator_blank _ _
  cases hm with
  | none => exact ⟨fun _ => h.scans_table hblank _, ⟨123, _, rfl, by decide⟩⟩
  | @some t e hmeta =>
    refine ⟨fun {s} _ => ?_, ⟨115, _, rfl, by decide⟩⟩
    have hclose : Scans (dropTwo (dropTwo sep) ++ 41 :: s) [.symbol .closeParen] s :=
      (scans_blanks (dropTwo_subset (dropTwo_subset hblank)) _).trans
        (scans_symbol (x := .closeParen) rfl)
    have hbreaks : Breaks (dropTwo (dropTwo sep) ++ 41 :: s) :=
      breaks_blanks (dropTwo_subset (dropTwo_subset hblank)) (breaks_cons (by decide) s)
    have hsecond := (scans_symbol (x := .comma) rfl).trans
      ((scans_blanks (dropTwo_subset hblank) _).trans ((hmeta.scans hbreaks).trans hclose))
    have := (scans_setmetatable _).trans ((scans_blanks (dropTwo_subset hblank) _).trans
      ((h.scans_table hblank _).trans hsecond))
    rw [construct, Expr.tokens, withMetatable]
    simpa [Symbol.char, Str.ascii, LuaChunk.setmetatableName] using this

/-! ## Values and keys -/

variable {ρ : Type} [DecidableEq ρ]

instance : DecidablePred IsNumeral := fun t =>
  decidable_of_iff (t.head?.any LuaLiteral.isDigit = true ∧ LuaLexer.numeral t = (t, []))
    ⟨fun h => ⟨by simpa [Option.any_eq_true] using h.1, h.2⟩,
      fun h => ⟨by simpa [Option.any_eq_true] using h.digit, h.whole⟩⟩

/-- The numeral that is written for a number, if it is one that is read as the number. -/
def numberLiteral (lib : Library ρ) (x : ρ) : Option Literal :=
  let t := lib.numberText x
  if IsNumeral t ∧ lib.numberOf t = x then some (.number t)
  else if t.head? = some 45 ∧ IsNumeral t.tail ∧ lib.neg (lib.numberOf t.tail) = x then
    some (.minus t.tail)
  else none

/-- The literal that is written for a value. -/
def Atom.literal (lib : Library ρ) : Atom ρ → Option Literal
  | .string s => some (.string s)
  | .number x => numberLiteral lib x
  | .boolean b => some (.boolean b)
  | .userdata _ => none
  | .thread _ => none

/-- The values of literals. -/
def constants (lib : Library ρ) : Constants (Atom ρ) where
  value
    | .boolean b => .boolean b
    | .string s => .string s
    | .number t => .number (lib.numberOf t)
    | .minus t => .number (lib.neg (lib.numberOf t))
  position i := .number (lib.natural i)

variable {lib : Library ρ} {x : Atom ρ} {l : Literal}

/-- A literal is legible, it is what a dump writes, and it has the value. -/
theorem Atom.literal_spec (h : x.literal lib = some l) :
    Legible l ∧ dumpAtom lib x = .ok (literalText l) ∧ (constants lib).value l = x := by
  cases x with
  | string s =>
    obtain rfl := Option.some.inj h
    exact ⟨trivial, rfl, rfl⟩
  | boolean b =>
    obtain rfl := Option.some.inj h
    exact ⟨trivial, rfl, rfl⟩
  | number x =>
    change numberLiteral lib x = some l at h
    rw [numberLiteral] at h
    split_ifs at h with hplus hminus
    · obtain rfl := Option.some.inj h
      exact ⟨hplus.1, rfl, congrArg Atom.number hplus.2⟩
    · obtain rfl := Option.some.inj h
      obtain ⟨hhead, hnumeral, hvalue⟩ := hminus
      refine ⟨hnumeral, ?_, congrArg Atom.number hvalue⟩
      obtain ⟨t, ht⟩ := List.head?_eq_some_iff.1 hhead
      rw [dumpAtom, literalText, ht, List.tail_cons]
  | userdata u => cases h
  | thread t => cases h

theorem number_or_minus {x : ρ} (h : (Atom.number x).literal lib = some l) :
    ∃ t, l = .number t ∨ l = .minus t := by
  change numberLiteral lib x = some l at h
  rw [numberLiteral] at h
  split_ifs at h
  · exact ⟨_, .inl (Option.some.inj h).symm⟩
  · exact ⟨_, .inr (Option.some.inj h).symm⟩

variable {dump : Dumplua ρ} {ds : DumpState}

/-- The call of a dump for a value that is not a table. -/
def DumpsAtoms (lib : Library ρ) (dump : Dumplua ρ) : Prop := ∀ ds x ident path,
  dump ds (.atom x) ident path = (dumpAtom lib x).map fun t => (ds, t)

theorem keycache_of_literal (hdump : DumpsAtoms lib dump) (h : x.literal lib = some l) :
    keycache dump ds (.atom x) = .ok (ds, keyText l) := by
  have hmake : (dump ds (.atom x) 0 none).map
      (fun r => (r.1, Str.ascii "[" ++ r.2 ++ Str.ascii "]=")) =
      .ok (ds, Str.ascii "[" ++ literalText l ++ Str.ascii "]=") := by
    rw [hdump, (Atom.literal_spec h).2.1]
    rfl
  cases x with
  | string k =>
    obtain rfl := Option.some.inj h
    rw [keycache, hmake, keyText]
    split_ifs <;> rfl
  | boolean b =>
    obtain rfl := Option.some.inj h
    exact hmake
  | number x =>
    obtain ⟨t, rfl | rfl⟩ := number_or_minus h
    · exact hmake
    · exact hmake
  | userdata u => cases h
  | thread t => cases h

/-- **The key of a field and the path to it.** Where the key is the next index it is left out. -/
theorem dumpKey_of_literal (hdump : DumpsAtoms lib dump) (h : x.literal lib = some l) (p : Path)
    (i : ℕ) : dumpKey lib dump (some (pathText p)) ds (.atom x) i =
      .ok (ds, if x = (constants lib).position i then [] else keyText l,
        pathText (.field p l)) := by
  by_cases hi : x = (constants lib).position i
  · have hkey : (.atom x : Ref (Atom ρ)) = .atom (.number (lib.natural i)) := congrArg Ref.atom hi
    have hsuffix : Str.ascii "[" ++ lib.numberText (lib.natural i) ++ Str.ascii "]" =
        suffixText l := by
      subst hi
      have htext := Except.ok.inj (Atom.literal_spec h).2.1
      have hname : l.name? = none := by
        obtain ⟨t, rfl | rfl⟩ := number_or_minus h <;> rfl
      rw [suffixText, hname, htext]
      rfl
    rw [dumpKey, if_pos hkey, if_pos hi, hsuffix]
    rfl
  · have hkey : (.atom x : Ref (Atom ρ)) ≠ .atom (.number (lib.natural i)) := fun heq =>
      hi (Ref.atom.inj heq)
    rw [dumpKey, if_neg hkey, if_neg hi, keycache_of_literal hdump h, pathText,
      suffixText_eq]
    rfl

/-! ## States -/

/-- `local t` -/
def tName : Str := Str.ascii "t"

/-- The dump has come to the tables by the paths of the plan, and has written its statements. -/
structure Simulates (ps : PlanState) (ds : DumpState) : Prop where
  wf : ps.Wf
  defined : ∀ a, ds.defined a = (ps.defined a).map pathText
  out : ds.out = (ps.late.filterMap (ps.stmt tName)).map stmtText
  legible : ∀ {a p}, ps.defined a = some p → PathLegible p
  place : ∀ {a l b}, (Place.slot a (some l), b) ∈ ps.late → Legible l
  slot : ∀ {b}, (Place.root, b) ∉ ps.late

/-- Nothing that has been come to is changed. -/
def Keeps (ps ps' : PlanState) : Prop := ∀ {a p}, ps.defined a = some p → ps'.defined a = some p

/-- The key of a place is legible. -/
def Place.Legible : Place → Prop
  | slot _ (some l) => Base.Legible l
  | _ => True

variable {ps ps' : PlanState}

theorem Simulates.path_legible (h : Simulates ps ds) (a : ℕ) : PathLegible (ps.path tName a) := by
  rw [PlanState.path]
  cases hp : ps.defined a with
  | none => rfl
  | some p => exact h.legible hp

theorem Simulates.place_legible (h : Simulates ps ds) {place : Place} (hplace : place.Legible) :
    PathLegible (place.path tName ps) := by
  cases place with
  | root => rfl
  | slot a key =>
    cases key with
    | none => exact h.path_legible a
    | some l => exact ⟨h.path_legible a, hplace⟩

/-- The statements of the places that have been left empty stay what they are. -/
theorem stmt_congr (hwf : ps.Wf) (hgrows : Keeps ps ps') {x : Place × ℕ} (hx : x ∈ ps.late) :
    ps'.stmt tName x = ps.stmt tName x := by
  have hpath : ∀ {a}, ps.defined a ≠ none → ps'.path tName a = ps.path tName a := by
    intro a ha
    obtain ⟨p, hp⟩ := Option.ne_none_iff_exists'.1 ha
    rw [PlanState.path, PlanState.path, hp, hgrows hp]
  obtain ⟨_ | ⟨a, _ | l⟩, b⟩ := x
  · rfl
  · rw [PlanState.stmt, PlanState.stmt, hpath (hwf.place hx), hpath (hwf.table hx)]
  · rw [PlanState.stmt, PlanState.stmt, hpath (hwf.place hx), hpath (hwf.table hx)]

theorem Simulates.enter (h : Simulates ps ds) {a : ℕ} {p : Path} (ha : ps.defined a = none)
    (hp : PathLegible p) : Simulates (ps.enter a p)
      { ds with defined := Function.update ds.defined a (some (pathText p)) } := by
  refine ⟨h.wf.enter ha p, fun b => ?_, ?_, fun {b q} hb => ?_, h.place, h.slot⟩
  · by_cases hb : b = a
    · subst hb
      simp [ps.defined_enter_self]
    · simp [ps.defined_enter_of_ne p hb, hb, h.defined]
  · have hstmt : ps.late.filterMap ((ps.enter a p).stmt tName) =
        ps.late.filterMap (ps.stmt tName) :=
      List.filterMap_congr fun x hx => stmt_congr h.wf (PlanState.defined_enter ha p) hx
    change ds.out = (ps.late.filterMap _).map _
    rw [h.out, hstmt]
  · by_cases hba : b = a
    · rw [hba, ps.defined_enter_self, Option.some.injEq] at hb
      exact hb ▸ hp
    · rw [ps.defined_enter_of_ne p hba] at hb
      exact h.legible hb

/-- **A place that is left empty**: the dump writes the statement of the plan. -/
theorem Simulates.leave (h : Simulates ps ds) {a b : ℕ} {key : Option Literal}
    (ha : ps.defined a ≠ none) (hkey : (Place.slot a key).Legible) {q : Path}
    (hq : ps.defined b = some q) : ∃ ds',
      testDefined ds (pathText q) (some (pathText ((Place.slot a key).path tName ps))) = .ok ds' ∧
        Simulates (ps.leave (.slot a key) b) ds' := by
  have hb : ps.path tName b = q := by rw [PlanState.path, hq, Option.getD_some]
  refine ⟨_, testDefined_pathText ds (h.path_legible a) (h.legible hq) key, ?_⟩
  have hopen : (Place.slot a key).Open ps := ha
  refine ⟨h.wf.leave hopen (Option.ne_none_iff_exists'.2 ⟨q, hq⟩), h.defined, ?_, h.legible, ?_, ?_⟩
  · have hlate : (ps.late ++ [(Place.slot a key, b)]).filterMap (ps.stmt tName) =
        ps.late.filterMap (ps.stmt tName) ++ (ps.stmt tName (.slot a key, b)).toList := by
      rw [List.filterMap_append]
      cases h : ps.stmt tName (.slot a key, b) <;> simp [h]
    change ds.out ++ _ = ((ps.late ++ [(Place.slot a key, b)]).filterMap (ps.stmt tName)).map _
    rw [hlate, List.map_append, ← h.out]
    cases key with
    | none => simp [PlanState.stmt, hb]
    | some l => simp [PlanState.stmt, hb]
  · intro c l d hmem
    rcases List.mem_append.1 hmem with hmem | hmem
    · exact h.place hmem
    · obtain ⟨hslot, -⟩ := Prod.mk.inj (List.mem_singleton.1 hmem)
      obtain ⟨-, rfl⟩ := Place.slot.inj hslot
      exact hkey
  · intro c hmem
    rcases List.mem_append.1 hmem with hmem | hmem
    · exact h.slot hmem
    · cases (Prod.mk.inj (List.mem_singleton.1 hmem)).1

/-! ## The calls -/

/-- What a call of a dump does where the plan goes on. -/
def Dumps (plan : PlanState → Place → Ref (Atom ρ) → Option (PlanState × Expr))
    (dump : Dumplua ρ) : Prop :=
  ∀ {ps place r ps' e ds}, plan ps place r = some (ps', e) → place.Open ps → place.Legible →
    (∀ a, place = .root → r = .table a → ps.defined a = none) → Simulates ps ds → ∀ ident,
    ∃ ds' t, dump ds r ident (some (pathText (place.path tName ps))) = .ok (ds', t) ∧
      Simulates ps' ds' ∧ ReadsExpr t e ∧ Keeps ps ps'

variable {plan : PlanState → Place → Ref (Atom ρ) → Option (PlanState × Expr)} {a : ℕ} {p : Path}
  {o : Object (Atom ρ)}

omit [DecidableEq ρ] in
/-- The metatable of a table. -/
theorem Dumps.metatable (h : Dumps plan dump) (hp : ps.defined a = some p)
    (hs : Simulates ps ds) {metatable : Option ℕ} {m : Option Expr}
    (hm : planMetatable plan a metatable ps = some (ps', m)) (ident : ℕ) :
    ∃ ds' ident' t, dumpMetatable dump ident (some (pathText p)) metatable ds =
        .ok (ds', ident', t) ∧
      Simulates ps' ds' ∧ Option.Rel ReadsExpr t m ∧ Keeps ps ps' := by
  cases metatable with
  | none =>
    obtain ⟨rfl, rfl⟩ := Prod.mk.inj (Option.some.inj hm)
    exact ⟨ds, ident, none, rfl, hs, .none, id⟩
  | some b =>
    obtain ⟨⟨ps₁, e⟩, he, heq⟩ := Option.map_eq_some_iff.1 hm
    obtain ⟨rfl, rfl⟩ := Prod.mk.inj heq
    have hopen : (Place.slot a none).Open ps := Option.ne_none_iff_exists'.2 ⟨p, hp⟩
    obtain ⟨ds', t, hcall, hs', hreads, hgrows⟩ :=
      h he hopen trivial (by rintro _ ⟨⟩) hs (ident + 1)
    have hpath : pathText ((Place.slot a none).path tName ps) =
        Str.ascii "getmetatable(" ++ (pathText p ++ Str.ascii ")") := by
      rw [Place.path, PlanState.path, hp, Option.getD_some, step, pathText, List.append_assoc]
    rw [hpath] at hcall
    refine ⟨ds', ident + 1, some t, ?_, hs', .some hreads, hgrows⟩
    rw [dumpMetatable]
    simp only [concat]
    change (dump ds (.table b) (ident + 1) _).bind _ = _
    rw [hcall]
    rfl

omit [DecidableEq ρ] in
/-- A key and a value. -/
theorem ReadsExpr.scans_field {t : Str} {e : Expr} (h : ReadsExpr t e) (hl : Legible l)
    (hs : Breaks s) : Scans (keyText l ++ t ++ s) (keyTokens (some l) ++ e.tokens) s := by
  obtain ⟨c, t', rfl, hc⟩ := h.head
  rw [List.append_assoc]
  exact (hl.scans_key (by simpa using hc)).trans (h.scans hs)

/-- The fields of a table. -/
theorem Dumps.fields (h : Dumps plan dump) (hdump : DumpsAtoms lib dump) {ks : List (Ref (Atom ρ))}
    {i : ℕ} {fs : Fields} (hp : ps.defined a = some p) (hs : Simulates ps ds)
    (hfs : planFields (Atom.literal lib) (constants lib).position plan a o ks i ps = some (ps', fs))
    (ident : ℕ) :
    ∃ ds' ts, dumpFields lib dump o ident (some (pathText p)) ks i ds = .ok (ds', ts) ∧
      Simulates ps' ds' ∧ ReadsFields ts fs ∧ Keeps ps ps' := by
  induction ks generalizing ps ds i fs with
  | nil =>
    obtain ⟨rfl, rfl⟩ := Prod.mk.inj (Option.some.inj hfs)
    exact ⟨ds, [], rfl, hs, .nil, id⟩
  | cons k ks ih =>
    cases k with
    | table b => cases hfs
    | atom k =>
      obtain ⟨l, hl, hfs⟩ := Option.bind_eq_some_iff.1 hfs
      obtain ⟨value, hvalue, hfs⟩ := Option.bind_eq_some_iff.1 hfs
      obtain ⟨⟨ps₁, e⟩, he, hfs⟩ := Option.bind_eq_some_iff.1 hfs
      obtain ⟨⟨ps₂, fs₂⟩, hrest, hfs⟩ := Option.bind_eq_some_iff.1 hfs
      obtain ⟨rfl, rfl⟩ := Prod.mk.inj (Option.some.inj hfs)
      have hlegible := (Atom.literal_spec hl).1
      have hopen : (Place.slot a (some l)).Open ps := Option.ne_none_iff_exists'.2 ⟨p, hp⟩
      have hpath : (Place.slot a (some l)).path tName ps = .field p l := by
        rw [Place.path, PlanState.path, hp, Option.getD_some, step]
      obtain ⟨ds₁, t, hcall, hs₁, hreads, hgrows₁⟩ :=
        h he hopen hlegible (by rintro _ ⟨⟩) hs (ident + 1)
      obtain ⟨ds₂, ts, hloop, hs₂, hreads₂, hgrows₂⟩ := ih (hgrows₁ hp) hs₁ hrest
      rw [hpath] at hcall
      have hkey : ((.atom k : Ref (Atom ρ)) = .atom (.number (lib.natural i))) ↔
          k = (constants lib).position i := ⟨Ref.atom.inj, congrArg Ref.atom⟩
      refine ⟨ds₂, ((if k = (constants lib).position i then [] else keyText l) ++ t) :: ts, ?_,
        hs₂, ?_, fun ha => hgrows₂ (hgrows₁ ha)⟩
      · rw [dumpFields, dumpKey_of_literal hdump hl, hvalue]
        change (dump ds value (ident + 1) _).bind _ = _
        rw [hcall]
        change (dumpFields lib dump o ident _ ks _ ds₁).bind _ = _
        simp only [hkey]
        rw [hloop]
        rfl
      · refine .cons (fun {s} hbreaks => ?_) hreads₂
        by_cases hk : k = (constants lib).position i
        · rw [if_pos hk, if_pos hk]
          exact hreads.scans hbreaks
        · rw [if_neg hk, if_neg hk]
          exact hreads.scans_field hlegible hbreaks

theorem readsExpr_literal (hl : Legible l) : ReadsExpr (literalText l) (.literal l) := by
  obtain ⟨c, t, ht, hc, -⟩ := hl.head
  exact ⟨hl.scans, c, t, ht, hc⟩

theorem readsExpr_nil : ReadsExpr (Str.ascii "nil") .nil :=
  ⟨fun hs => scans_name (by decide) fun c hc => (hs c hc).1, 110, _, rfl, by decide⟩

variable (H : Heap (Atom ρ))

theorem dumpsAtoms_dumplua (fuel : ℕ) : DumpsAtoms lib (dumplua lib H fuel) := by
  intro ds x ident path
  cases fuel <;> rfl

variable {H}

/-- A table that has been come to. -/
theorem dumplua_of_defined (fuel : ℕ) {t : Str} (h : ds.defined a = some t) (ident : ℕ)
    (path : Option Str) : dumplua lib H fuel ds (.table a) ident path =
      (testDefined ds t path).map fun ds => (ds, Str.ascii "nil") := by
  cases fuel <;> simp only [dumplua, h]

/-- A table that is come to for the first time. -/
theorem dumplua_succ (fuel : ℕ) (h : ds.defined a = none) (ho : H[a]? = some o) (ident : ℕ)
    (path : Option Str) : dumplua lib H (fuel + 1) ds (.table a) ident path =
      (dumpMetatable (dumplua lib H fuel) ident path o.metatable
        { ds with defined := Function.update ds.defined a path }).bind fun r =>
      (dumpFields lib (dumplua lib H fuel) o r.2.1 path (keys lib o) 1 r.1).bind fun r' =>
        .ok (r'.1, tableText r.2.1 r'.2 r.2.2) := by
  simp only [dumplua, h, ho]
  rfl

/-- The plan of a dump. -/
abbrev planDump (lib : Library ρ) (H : Heap (Atom ρ)) (fuel : ℕ) :=
  planValue tName (Atom.literal lib) (constants lib).position (keys lib) H fuel

/-- **A dump follows the plan**, call by call. The induction is on the depth of the recursion. -/
theorem dumps_dumplua (fuel : ℕ) : Dumps (planDump lib H fuel) (dumplua lib H fuel) := by
  have hatom : ∀ {ps place x ps' e ds} (fuel : ℕ),
      planDump lib H fuel ps place (.atom x) = some (ps', e) → Simulates ps ds → ∀ ident,
      ∃ ds' t, dumplua lib H fuel ds (.atom x) ident (some (pathText (place.path tName ps))) =
        .ok (ds', t) ∧ Simulates ps' ds' ∧ ReadsExpr t e ∧ Keeps ps ps' := by
    intro ps place x ps' e ds fuel h hs ident
    rw [planDump, planValue_atom] at h
    obtain ⟨l, hl, heq⟩ := Option.map_eq_some_iff.1 h
    obtain ⟨rfl, rfl⟩ := Prod.mk.inj heq
    obtain ⟨hlegible, htext, -⟩ := Atom.literal_spec hl
    refine ⟨ds, literalText l, ?_, hs, readsExpr_literal hlegible, id⟩
    rw [dumpsAtoms_dumplua H fuel, htext]
    rfl
  have hdefined : ∀ {ps : PlanState} {place b ps' e ds} (fuel : ℕ), ps.defined b ≠ none →
      planDump lib H fuel ps place (.table b) = some (ps', e) → place.Open ps → place.Legible →
      place ≠ .root → Simulates ps ds → ∀ ident,
      ∃ ds' t, dumplua lib H fuel ds (.table b) ident (some (pathText (place.path tName ps))) =
        .ok (ds', t) ∧ Simulates ps' ds' ∧ ReadsExpr t e ∧ Keeps ps ps' := by
    intro ps place b ps' e ds fuel hb h hopen hlegible hroot hs ident
    rw [planDump, planValue_of_defined fuel place hb] at h
    obtain ⟨rfl, rfl⟩ := Prod.mk.inj (Option.some.inj h)
    obtain ⟨q, hq⟩ := Option.ne_none_iff_exists'.1 hb
    cases place with
    | root => exact absurd rfl hroot
    | slot c key =>
      obtain ⟨ds', htest, hs'⟩ := hs.leave hopen hlegible hq
      refine ⟨ds', _, ?_, hs', readsExpr_nil, id⟩
      have htext : ds.defined b = some (pathText q) := by rw [hs.defined, hq, Option.map_some]
      rw [dumplua_of_defined fuel htext, htest]
      rfl
  induction fuel with
  | zero =>
    intro ps place r ps' e ds h hopen hlegible hroot hs ident
    cases r with
    | atom x => exact hatom 0 h hs ident
    | table a =>
      by_cases ha : ps.defined a = none
      · rw [planDump, planValue_zero place ha] at h
        cases h
      · exact hdefined 0 ha h hopen hlegible (fun hr => ha (hroot a hr rfl)) hs ident
  | succ fuel ih =>
    intro ps place r ps' e ds h hopen hlegible hroot hs ident
    cases r with
    | atom x => exact hatom _ h hs ident
    | table a =>
      by_cases ha : ps.defined a = none
      · rw [planDump, planValue_succ fuel place ha] at h
        obtain ⟨o, ho, h⟩ := Option.bind_eq_some_iff.1 h
        obtain ⟨⟨ps₁, m⟩, hm, h⟩ := Option.bind_eq_some_iff.1 h
        obtain ⟨⟨ps₂, fs⟩, hfs, h⟩ := Option.bind_eq_some_iff.1 h
        obtain ⟨rfl, rfl⟩ := Prod.mk.inj (Option.some.inj h)
        have henter := hs.enter ha (hs.place_legible hlegible)
        have hp := ps.defined_enter_self a (place.path tName ps)
        obtain ⟨ds₁, ident', t, hmeta, hs₁, hrel, hgrows₁⟩ := ih.metatable hp henter hm ident
        obtain ⟨ds₂, ts, hfields, hs₂, hreads, hgrows₂⟩ :=
          ih.fields (dumpsAtoms_dumplua H fuel) (hgrows₁ hp) hs₁ hfs ident'
        have hnone : ds.defined a = none := by rw [hs.defined, ha, Option.map_none]
        refine ⟨ds₂, tableText ident' ts t, ?_, hs₂, readsExpr_tableText ident' hreads hrel,
          fun hb => hgrows₂ (hgrows₁ (PlanState.defined_enter ha _ hb))⟩
        rw [dumplua_succ fuel hnone ho, hmeta]
        change (dumpFields lib _ o ident' _ _ 1 ds₁).bind _ = _
        rw [hfields]
        rfl
      · exact hdefined _ ha h hopen hlegible (fun hr => ha (hroot a hr rfl)) hs ident

end Jord.Base
