import Jord.Base.DumpPlan

/-!
# Dumping a value in the fast mode

`table.dump` with `fastmode`: the pieces of the chunk are pushed on `out` as they come, in the order
in which `pairs` enumerates the fields, and the comma behind the last field is taken back. Nothing
is kept of tables that have been come to, and metatables are not looked at. What is written is the
text of an expression in which every table stands once for each way that leads to it (`treeExpr`).
-/

namespace Jord.Base

open LuaLexer (Breaks Scans scans_symbol)
open LuaChunk (Literal Expr Fields)

variable {ρ : Type} [DecidableEq ρ]

/-- `out[#out+1] = text` -/
def DumpState.push (s : DumpState) (text : Str) : DumpState := { s with out := s.out ++ [text] }

/-- A comma at the end of the last text is cut off. -/
def dropComma (out : List Str) : List Str :=
  match out.getLast? with
  | some text => if text.getLast? = some 44 then out.dropLast ++ [text.dropLast] else out
  | none => out

section Model

variable (lib : Library ρ)

/-- The key of a field, where `numidx` is the next index: `out[#out+1] = keycache[key]`, which
finds the place before the key is made. -/
def fastKey (dumplua : Dumplua ρ) (s : DumpState) (key : Ref (Atom ρ)) (numidx : ℕ) :
    Except DumpError DumpState :=
  if key = .atom (.number (lib.natural numidx)) then .ok s
  else do
    let (s', k) ← keycache dumplua s key
    return { s' with out := s'.out.take s.out.length ++ k :: s'.out.drop (s.out.length + 1) }

/-- The loop over the pairs of a table, where `numidx` is the next index. -/
def fastFields (dumplua : Dumplua ρ) :
    List (Ref (Atom ρ) × Ref (Atom ρ)) → ℕ → DumpState → Except DumpError DumpState
  | [], _, s => .ok s
  | (key, val) :: pairs, numidx, s => do
    let s ← fastKey lib dumplua s key numidx
    let (s, str) ← dumplua s val 0 none
    let next := if key = .atom (.number (lib.natural numidx)) then numidx + 1 else numidx
    fastFields dumplua pairs next (s.push (str ++ Str.ascii ","))

variable (H : Heap (Atom ρ))

/-- `dumplua` in the fast mode, which looks neither at `ident` nor at `path` -/
def dumpluaFast : ℕ → Dumplua ρ
  | _, s, .atom x, _, _ => (dumpAtom lib x).map fun text => (s, text)
  | 0, _, .table _, _, _ => .error .unfinished
  | fuel + 1, s, .table a, _, _ => do
    let t := (H[a]?).getD ⟨[], none⟩
    let s ← fastFields lib (dumpluaFast fuel) t.pairs 1 (s.push (Str.ascii "\x7b"))
    return ({ s with out := dropComma s.out ++ [Str.ascii "\x7d"] }, [])

/-- `DataDumper` in the fast mode -/
def dataDumperFast (fuel : ℕ) (value : Option (Ref (Atom ρ))) (varname : Option Str) :
    Except DumpError Str := do
  let (s, text) ← dumpValue (dumpluaFast lib H fuel)
    ⟨[variableText varname], fun _ => none, fun _ => none⟩ value 0 none
  return (s.push text).out.flatten

end Model

/-! ## The expression of a value -/

section Tree

variable {α : Type} [DecidableEq α] (literal : α → Option Literal) (position : ℕ → α)

/-- The fields of a table constructor. -/
def treeFields (tree : Ref α → Option Expr) : List (Ref α × Ref α) → ℕ → Option Fields
  | [], _ => some .nil
  | (.table _, _) :: _, _ => none
  | (.atom k, value) :: pairs, i => do
    let l ← literal k
    let e ← tree value
    let fs ← treeFields tree pairs (if k = position i then i + 1 else i)
    return .cons (if k = position i then none else some l) e fs

/-- The value as one expression, without metatables. -/
def treeExpr (H : Heap α) : ℕ → Ref α → Option Expr
  | _, .atom x => (literal x).map .literal
  | 0, .table _ => none
  | fuel + 1, .table a => do
    let o ← H[a]?
    let fs ← treeFields literal position (treeExpr H fuel) o.pairs 1
    return .table fs

theorem treeExpr_atom (H : Heap α) (fuel : ℕ) (x : α) :
    treeExpr literal position H fuel (.atom x) = (literal x).map .literal := by
  cases fuel <;> rfl

/-- A table that is written. -/
theorem treeExpr_succ_eq_some {H : Heap α} {fuel a : ℕ} {e : Expr}
    (h : treeExpr literal position H (fuel + 1) (.table a) = some e) : ∃ o fs, H[a]? = some o ∧
      treeFields literal position (treeExpr literal position H fuel) o.pairs 1 = some fs ∧
      e = .table fs := by
  obtain ⟨o, ho, h⟩ := Option.bind_eq_some_iff.1 h
  obtain ⟨fs, hfs, h⟩ := Option.bind_eq_some_iff.1 h
  exact ⟨o, fs, ho, hfs, (Option.some.inj h).symm⟩

theorem treeExpr_succ_of_fields {H : Heap α} {fuel a : ℕ} {o : Object α} {fs : Fields}
    (ho : H[a]? = some o)
    (hfs : treeFields literal position (treeExpr literal position H fuel) o.pairs 1 = some fs) :
    treeExpr literal position H (fuel + 1) (.table a) = some (.table fs) := by
  simp only [treeExpr, ho, hfs, Option.bind_eq_bind, Option.bind_some, Option.pure_def]

end Tree

/-! ## The text -/

theorem dropComma_concat (out : List Str) (t : Str) :
    dropComma (out ++ [t ++ [44]]) = out ++ [t] := by
  simp [dropComma]

theorem dropComma_brace (out : List Str) :
    dropComma (out ++ [Str.ascii "\x7b"]) = out ++ [Str.ascii "\x7b"] := by
  simp [dropComma, Str.ascii]

/-- What a call pushes and returns is read as the expression. -/
def Prints (tree : Ref (Atom ρ) → Option Expr) (dump : Dumplua ρ) : Prop :=
  ∀ {r e}, tree r = some e → ∀ s ident path, ∃ pieces t,
    dump s r ident path = .ok ({ s with out := s.out ++ pieces }, t) ∧
      ReadsExpr (pieces.flatten ++ t) e

variable {lib : Library ρ} {dump : Dumplua ρ} {tree : Ref (Atom ρ) → Option Expr}

/-- The key of a field is pushed, unless it is the next index. -/
theorem fastKey_of_literal (hdump : DumpsAtoms lib dump) {k : Atom ρ} {l : Literal}
    (hl : k.literal lib = some l) (s : DumpState) (i : ℕ) : fastKey lib dump s (.atom k) i = .ok
      { s with out := s.out ++ if k = (constants lib).position i then [] else [keyText l] } := by
  by_cases hk : k = (constants lib).position i
  · have hkey : (.atom k : Ref (Atom ρ)) = .atom (.number (lib.natural i)) := congrArg Ref.atom hk
    rw [fastKey, if_pos hkey, if_pos hk, List.append_nil]
  · have hkey : (.atom k : Ref (Atom ρ)) ≠ .atom (.number (lib.natural i)) := fun heq =>
      hk (Ref.atom.inj heq)
    rw [fastKey, if_neg hkey, if_neg hk, keycache_of_literal hdump hl]
    change Except.ok { s with out := s.out.take s.out.length ++ keyText l :: _ } = _
    rw [List.take_length, List.drop_eq_nil_of_le (Nat.le_succ _)]

/-- The text of a field. -/
theorem ReadsExpr.scans_fastField {t : Str} {e : Expr} {l : Literal} (h : ReadsExpr t e)
    (hl : Legible l) (first : Prop) [Decidable first] {s : Str} (hs : Breaks s) :
    Scans ((if first then [] else [keyText l]).flatten ++ t ++ s)
      (LuaChunk.keyTokens (if first then none else some l) ++ e.tokens) s := by
  by_cases hfirst : first
  · rw [if_pos hfirst, if_pos hfirst]
    exact h.scans hs
  · rw [if_neg hfirst, if_neg hfirst, List.flatten_singleton]
    exact h.scans_field hl hs

/-- **The loop over the pairs**: every field is pushed with a comma behind it. -/
theorem Prints.fields (h : Prints tree dump) (hdump : DumpsAtoms lib dump)
    {pairs : List (Ref (Atom ρ) × Ref (Atom ρ))} {i : ℕ} {fs : Fields}
    (hfs : treeFields (Atom.literal lib) (constants lib).position tree pairs i = some fs)
    (s : DumpState) :
    ∃ pieces ts, fastFields lib dump pairs i s = .ok { s with out := s.out ++ pieces } ∧
      ReadsFields ts fs ∧ (pieces = [] ∧ ts = [] ∨ ∃ init t ts₀ t₀, pieces = init ++ [t ++ [44]] ∧
        ts = ts₀ ++ [t₀] ∧ init.flatten ++ t = ts₀.flatMap (· ++ [44]) ++ t₀) := by
  induction pairs generalizing i fs s with
  | nil =>
    obtain rfl := Option.some.inj hfs
    refine ⟨[], [], ?_, .nil, .inl ⟨rfl, rfl⟩⟩
    rw [fastFields, List.append_nil]
  | cons p pairs ih =>
    obtain ⟨_ | b, value⟩ := p
    case table => cases hfs
    case atom k =>
      obtain ⟨l, hl, hfs⟩ := Option.bind_eq_some_iff.1 hfs
      obtain ⟨e, he, hfs⟩ := Option.bind_eq_some_iff.1 hfs
      obtain ⟨fs₁, hrest, hfs⟩ := Option.bind_eq_some_iff.1 hfs
      obtain rfl := Option.some.inj hfs
      have hlegible := (Atom.literal_spec hl).1
      have hnext : ((.atom k : Ref (Atom ρ)) = .atom (.number (lib.natural i))) ↔
          k = (constants lib).position i := ⟨Ref.atom.inj, congrArg Ref.atom⟩
      obtain ⟨key, hkey⟩ : ∃ key : List Str,
          key = if k = (constants lib).position i then [] else [keyText l] := ⟨_, rfl⟩
      obtain ⟨pieces, t, hcall, hreads⟩ := h he { s with out := s.out ++ key } 0 none
      obtain ⟨pieces', ts, hloop, hreads', hlast⟩ :=
        ih hrest { s with out := s.out ++ key ++ pieces ++ [t ++ [44]] }
      refine ⟨key ++ pieces ++ [t ++ [44]] ++ pieces', (key.flatten ++ (pieces.flatten ++ t)) :: ts,
        ?_, .cons (fun hs => ?_) hreads', .inr ?_⟩
      · rw [fastFields, fastKey_of_literal hdump hl, ← hkey]
        change (dump _ value 0 none).bind _ = _
        rw [hcall]
        simp only [hnext]
        change fastFields lib dump pairs _ { s with out := _ } = _
        simpa [List.append_assoc, Str.ascii] using hloop
      · rw [hkey]
        exact hreads.scans_fastField hlegible _ hs
      · rcases hlast with ⟨rfl, rfl⟩ | ⟨init, t', ts₀, t₀, rfl, rfl, htext⟩
        · refine ⟨key ++ pieces, t, [], _, by simp, rfl, by simp⟩
        · refine ⟨key ++ pieces ++ [t ++ [44]] ++ init, t', _ :: ts₀, t₀, by simp, rfl, ?_⟩
          simp only [List.flatten_append, List.flatten_singleton, List.flatMap_cons,
            List.append_assoc, ← htext]

variable {H : Heap (Atom ρ)}

theorem dumpsAtoms_dumpluaFast (fuel : ℕ) : DumpsAtoms lib (dumpluaFast lib H fuel) := by
  intro s x ident path
  cases fuel <;> rfl

/-- The pieces of a table. -/
theorem readsExpr_pieces {init : List Str} {t t₀ : Str} {ts₀ : List Str} {fs : Fields}
    (hreads : ReadsFields (ts₀ ++ [t₀]) fs)
    (htext : init.flatten ++ t = ts₀.flatMap (· ++ [44]) ++ t₀) :
    ReadsExpr (123 :: (init.flatten ++ t) ++ [125]) (.table fs) := by
  refine ⟨fun {s} _ => ?_, 123, _, rfl, by decide⟩
  have hblank : ∀ c ∈ ([] : Str), LuaLexer.isSpace c = true := by simp
  have hscan := (scans_symbol (x := .openBrace) rfl).trans (hreads.scans hblank hblank s)
  rw [intercalate_concat, ← htext] at hscan
  simpa [Expr.tokens, LuaLexer.Symbol.char] using hscan

/-- **The fast mode writes the expression.** The induction is on the depth of the recursion. -/
theorem prints_dumpluaFast (fuel : ℕ) :
    Prints (treeExpr (Atom.literal lib) (constants lib).position H fuel)
      (dumpluaFast lib H fuel) := by
  have hatom : ∀ {x e} (fuel : ℕ),
      treeExpr (Atom.literal lib) (constants lib).position H fuel (.atom x) = some e →
      ∀ s ident path, ∃ pieces t, dumpluaFast lib H fuel s (.atom x) ident path =
        .ok ({ s with out := s.out ++ pieces }, t) ∧ ReadsExpr (pieces.flatten ++ t) e := by
    intro x e fuel h s ident path
    rw [treeExpr_atom] at h
    obtain ⟨l, hl, rfl⟩ := Option.map_eq_some_iff.1 h
    obtain ⟨hlegible, htext, -⟩ := Atom.literal_spec hl
    refine ⟨[], literalText l, ?_, readsExpr_literal hlegible⟩
    rw [dumpsAtoms_dumpluaFast, htext, List.append_nil]
    rfl
  induction fuel with
  | zero =>
    intro r e h s ident path
    cases r with
    | atom x => exact hatom 0 h s ident path
    | table a => cases h
  | succ fuel ih =>
    intro r e h s ident path
    cases r with
    | atom x => exact hatom _ h s ident path
    | table a =>
      obtain ⟨o, fs, ho, hfs, rfl⟩ := treeExpr_succ_eq_some _ _ h
      obtain ⟨pieces, ts, hloop, hreads, hlast⟩ :=
        ih.fields (dumpsAtoms_dumpluaFast fuel) hfs (s.push (Str.ascii "\x7b"))
      have hcall : dumpluaFast lib H (fuel + 1) s (.table a) ident path =
          .ok ({ s with out := dropComma (s.out ++ [Str.ascii "\x7b"] ++ pieces) ++
            [Str.ascii "\x7d"] }, []) := by
        rw [dumpluaFast, ho, Option.getD_some, hloop]
        rfl
      rcases hlast with ⟨rfl, rfl⟩ | ⟨init, t, ts₀, t₀, rfl, rfl, htext⟩
      · refine ⟨[Str.ascii "\x7b", Str.ascii "\x7d"], [], ?_, ?_⟩
        · rw [hcall, List.append_nil, dropComma_brace, List.append_assoc]
          rfl
        · have hblank : ∀ c ∈ ([] : Str), LuaLexer.isSpace c = true := by simp
          refine ⟨fun {u} _ => ?_, 123, _, rfl, by decide⟩
          have hscan := (scans_symbol (x := .openBrace) rfl).trans (hreads.scans hblank hblank u)
          simpa [Expr.tokens, LuaLexer.Symbol.char, Str.ascii] using hscan
      · refine ⟨Str.ascii "\x7b" :: init ++ [t, Str.ascii "\x7d"], [], ?_, ?_⟩
        · rw [hcall, ← List.append_assoc, dropComma_concat]
          simp
        · simpa [Str.ascii] using readsExpr_pieces hreads htext

end Jord.Base
