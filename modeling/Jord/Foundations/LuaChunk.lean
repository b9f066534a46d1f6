import Jord.Foundations.LuaLexer

/-!
# Chunks of Lua that build tables

A part of the grammar of Lua: literals, table constructors, the calls of `setmetatable` and
`getmetatable`, paths of fields, assignments to a field, and a chunk that returns an expression or a
local variable. Chunks are written as tokens, and a parser with one token of lookahead reads them
back (`read_tokens`).
-/

namespace Jord.LuaChunk

open LuaLexer (Token Symbol isName)

/-- The reserved words. -/
def reserved : List Str :=
  ["and", "break", "do", "else", "elseif", "end", "false", "for", "function", "if", "in", "local",
    "nil", "not", "or", "repeat", "return", "then", "true", "until", "while"].map Str.ascii

/-- `setmetatable` -/
def setmetatableName : Str := Str.ascii "setmetatable"

/-- `getmetatable` -/
def getmetatableName : Str := Str.ascii "getmetatable"

/-- A literal, a minus in front of a numeral included. -/
inductive Literal
  | boolean (b : Bool)
  | string (s : Str)
  | number (t : Str)
  | minus (t : Str)
  deriving DecidableEq

mutual

/-- An expression. -/
inductive Expr
  | nil
  | literal (l : Literal)
  | table (fs : Fields)
  | setmetatable (e m : Expr)

/-- The fields of a table constructor, with a key or without one. -/
inductive Fields
  | nil
  | cons (key : Option Literal) (e : Expr) (fs : Fields)

end

/-- A variable, a field of a path, or the metatable of one. -/
inductive Path
  | var (v : Str)
  | field (p : Path) (l : Literal)
  | metatable (p : Path)
  deriving DecidableEq

/-- `p[l] = q`, or `setmetatable(p, q)` -/
inductive Stmt
  | assign (p : Path) (l : Literal) (q : Path)
  | setmetatable (p q : Path)
  deriving DecidableEq

/-- `return e`, or `local v = e`, some statements, and `return w` -/
inductive Chunk
  | expression (e : Expr)
  | block (v : Str) (e : Expr) (body : List Stmt) (w : Path)

/-! ## Writing -/

/-- A reserved word or a name. -/
def word (s : String) : Token := .name (Str.ascii s)

namespace Literal

/-- The name that the literal may be written as, after a dot or as a key. -/
def name? : Literal → Option Str
  | string s => if isName s && !reserved.contains s then some s else none
  | _ => none

/-- The tokens of a literal. -/
def tokens : Literal → List Token
  | boolean true => [word "true"]
  | boolean false => [word "false"]
  | string s => [.string s]
  | number t => [.number t]
  | minus t => [.symbol .minus, .number t]

/-- The tokens behind a path for one of its fields. -/
def suffix (l : Literal) : List Token :=
  match l.name? with
  | some s => [.symbol .dot, .name s]
  | none => .symbol .openBracket :: l.tokens ++ [.symbol .closeBracket]

/-- The tokens of a key in front of its value. -/
def key (l : Literal) : List Token :=
  match l.name? with
  | some s => [.name s, .symbol .equals]
  | none => .symbol .openBracket :: l.tokens ++ [.symbol .closeBracket, .symbol .equals]

end Literal

/-- The tokens in front of a value in a table constructor. -/
def keyTokens : Option Literal → List Token
  | none => []
  | some l => l.key

/-- What separates a field from the ones that follow. -/
def Fields.separator : Fields → List Token
  | .nil => []
  | .cons .. => [.symbol .comma]

mutual

/-- The tokens of an expression. -/
def Expr.tokens : Expr → List Token
  | .nil => [word "nil"]
  | .literal l => l.tokens
  | .table fs => .symbol .openBrace :: fs.tokens
  | .setmetatable e m =>
    .name setmetatableName :: .symbol .openParen :: e.tokens ++
      .symbol .comma :: m.tokens ++ [.symbol .closeParen]

/-- The tokens of fields and of the closing brace. -/
def Fields.tokens : Fields → List Token
  | .nil => [.symbol .closeBrace]
  | .cons key e fs => keyTokens key ++ e.tokens ++ fs.separator ++ fs.tokens

end

/-- The tokens of a path. -/
def Path.tokens : Path → List Token
  | .var v => [.name v]
  | .field p l => p.tokens ++ l.suffix
  | .metatable p =>
    .name getmetatableName :: .symbol .openParen :: p.tokens ++ [.symbol .closeParen]

/-- The tokens of a statement. -/
def Stmt.tokens : Stmt → List Token
  | .assign p l q => p.tokens ++ l.suffix ++ .symbol .equals :: q.tokens
  | .setmetatable p q =>
    .name setmetatableName :: .symbol .openParen :: p.tokens ++
      .symbol .comma :: q.tokens ++ [.symbol .closeParen]

/-- The tokens of a chunk. -/
def Chunk.tokens : Chunk → List Token
  | .expression e => word "return" :: e.tokens
  | .block v e body w =>
    word "local" :: .name v :: .symbol .equals :: e.tokens ++ body.flatMap Stmt.tokens ++
      word "return" :: w.tokens

/-! ## Reading -/

/-- Reads a given token. -/
def expect (t : Token) : List Token → Option (List Token)
  | u :: ts => if u = t then some ts else none
  | [] => none

/-- Reads a literal. -/
def parseLiteral : List Token → Option (Literal × List Token)
  | .name s :: ts =>
    if s = Str.ascii "true" then some (.boolean true, ts)
    else if s = Str.ascii "false" then some (.boolean false, ts)
    else none
  | .string s :: ts => some (.string s, ts)
  | .number t :: ts => some (.number t, ts)
  | .symbol .minus :: .number t :: ts => some (.minus t, ts)
  | _ => none

/-- Reads a literal in brackets, behind the opening one. -/
def parseBracket (ts : List Token) : Option (Literal × List Token) := do
  let (l, ts) ← parseLiteral ts
  let ts ← expect (.symbol .closeBracket) ts
  return (l, ts)

/-- Reads a name that is not reserved. -/
def parseName : List Token → Option (Str × List Token)
  | .name s :: ts => if reserved.contains s then none else some (s, ts)
  | _ => none

/-- Reads the key of a field, if there is one. -/
def parseKey : List Token → Option (Option Literal × List Token)
  | .symbol .openBracket :: ts => do
    let (l, ts) ← parseBracket ts
    let ts ← expect (.symbol .equals) ts
    return (some l, ts)
  | .name s :: .symbol .equals :: ts =>
    if reserved.contains s then none else some (some (.string s), ts)
  | ts => some (none, ts)

mutual

/-- Reads an expression. -/
def parseExpr : ℕ → List Token → Option (Expr × List Token)
  | 0, _ => none
  | fuel + 1, ts =>
    if ts.head? = some (word "nil") then some (.nil, ts.tail)
    else if ts.head? = some (.symbol .openBrace) then
      (parseFields fuel ts.tail).map fun r => (.table r.1, r.2)
    else if ts.head? = some (.name setmetatableName) then do
      let ts ← expect (.symbol .openParen) ts.tail
      let (e, ts) ← parseExpr fuel ts
      let ts ← expect (.symbol .comma) ts
      let (m, ts) ← parseExpr fuel ts
      let ts ← expect (.symbol .closeParen) ts
      return (.setmetatable e m, ts)
    else (parseLiteral ts).map fun r => (.literal r.1, r.2)

/-- Reads the fields of a table constructor and the closing brace. -/
def parseFields : ℕ → List Token → Option (Fields × List Token)
  | 0, _ => none
  | fuel + 1, ts =>
    if ts.head? = some (.symbol .closeBrace) then some (.nil, ts.tail)
    else do
      let (key, ts) ← parseKey ts
      let (e, ts) ← parseExpr fuel ts
      if ts.head? = some (.symbol .comma) then
        let (fs, ts) ← parseFields fuel ts.tail
        return (.cons key e fs, ts)
      else
        let ts ← expect (.symbol .closeBrace) ts
        return (.cons key e .nil, ts)

end

/-- Reads the fields behind a path. -/
def parseSuffixes : ℕ → Path → List Token → Option (Path × List Token)
  | 0, _, _ => none
  | fuel + 1, p, ts =>
    if ts.head? = some (.symbol .dot) then do
      let (s, ts) ← parseName ts.tail
      parseSuffixes fuel (.field p (.string s)) ts
    else if ts.head? = some (.symbol .openBracket) then do
      let (l, ts) ← parseBracket ts.tail
      parseSuffixes fuel (.field p l) ts
    else some (p, ts)

/-- Reads a path. -/
def parsePath : ℕ → List Token → Option (Path × List Token)
  | 0, _ => none
  | fuel + 1, ts =>
    if ts.head? = some (.name getmetatableName) then do
      let ts ← expect (.symbol .openParen) ts.tail
      let (p, ts) ← parsePath fuel ts
      let ts ← expect (.symbol .closeParen) ts
      parseSuffixes fuel (.metatable p) ts
    else do
      let (v, ts) ← parseName ts
      parseSuffixes fuel (.var v) ts

/-- Reads a statement. -/
def parseStmt (fuel : ℕ) (ts : List Token) : Option (Stmt × List Token) :=
  if ts.head? = some (.name setmetatableName) then do
    let ts ← expect (.symbol .openParen) ts.tail
    let (p, ts) ← parsePath fuel ts
    let ts ← expect (.symbol .comma) ts
    let (q, ts) ← parsePath fuel ts
    let ts ← expect (.symbol .closeParen) ts
    return (.setmetatable p q, ts)
  else do
    let (target, ts) ← parsePath fuel ts
    let ts ← expect (.symbol .equals) ts
    let (q, ts) ← parsePath fuel ts
    match target with
    | .field p l => return (.assign p l q, ts)
    | _ => none

/-- Reads statements, up to `return`. -/
def parseBody : ℕ → List Token → Option (List Stmt × List Token)
  | 0, _ => none
  | fuel + 1, ts =>
    if ts.head? = some (word "return") then some ([], ts.tail)
    else do
      let (st, ts) ← parseStmt fuel ts
      let (body, ts) ← parseBody fuel ts
      return (st :: body, ts)

/-- Reads a chunk. -/
def parseChunk (fuel : ℕ) (ts : List Token) : Option (Chunk × List Token) :=
  if ts.head? = some (word "return") then
    (parseExpr fuel ts.tail).map fun r => (.expression r.1, r.2)
  else do
    let ts ← expect (word "local") ts
    let (v, ts) ← parseName ts
    let ts ← expect (.symbol .equals) ts
    let (e, ts) ← parseExpr fuel ts
    let (body, ts) ← parseBody fuel ts
    let (w, ts) ← parsePath fuel ts
    return (.block v e body w, ts)

/-- The chunk that the tokens are. -/
def read (ts : List Token) : Option Chunk :=
  match parseChunk (ts.length + 1) ts with
  | some (c, []) => some c
  | _ => none

/-! ## What is written is read -/

variable {ts rest : List Token}

@[simp]
theorem expect_cons_self (t : Token) (ts : List Token) : expect t (t :: ts) = some ts := if_pos rfl

theorem parseName_cons {s : Str} (h : reserved.contains s = false) (ts : List Token) :
    parseName (.name s :: ts) = some (s, ts) := by
  rw [parseName, h]
  rfl

theorem Literal.eq_of_name? {l : Literal} {s : Str} (h : l.name? = some s) :
    l = .string s ∧ isName s = true ∧ reserved.contains s = false := by
  cases l with
  | string s' =>
    rw [Literal.name?] at h
    split at h
    · next hname =>
      obtain rfl := Option.some.inj h
      rw [Bool.and_eq_true, Bool.not_eq_true'] at hname
      exact ⟨rfl, hname.1, hname.2⟩
    · cases h
  | boolean b => cases h
  | number t => cases h
  | minus t => cases h

theorem parseLiteral_tokens (l : Literal) (rest : List Token) :
    parseLiteral (l.tokens ++ rest) = some (l, rest) := by
  cases l with
  | boolean b => cases b <;> rfl
  | string s => rfl
  | number t => rfl
  | minus t => rfl

theorem parseBracket_tokens (l : Literal) (rest : List Token) :
    parseBracket (l.tokens ++ .symbol .closeBracket :: rest) = some (l, rest) := by
  simp [parseBracket, parseLiteral_tokens]

theorem parseKey_some (l : Literal) (rest : List Token) :
    parseKey (l.key ++ rest) = some (some l, rest) := by
  rw [Literal.key]
  split
  · next s hs =>
    obtain ⟨rfl, -, hreserved⟩ := Literal.eq_of_name? hs
    rw [List.cons_append, List.singleton_append, parseKey, hreserved]
    rfl
  · rw [List.cons_append, List.cons_append, parseKey, List.append_assoc, List.cons_append,
      parseBracket_tokens]
    simp

/-- A field without a key is not mistaken for one with a key. -/
theorem parseKey_none (e : Expr) (h : rest.head? ≠ some (.symbol .equals)) :
    parseKey (e.tokens ++ rest) = some (none, e.tokens ++ rest) := by
  have hname : ∀ s, parseKey (.name s :: rest) = some (none, .name s :: rest) := by
    intro s
    cases rest with
    | nil => rfl
    | cons t rest =>
      rw [parseKey]
      · rintro ts ⟨⟩
      · rintro s' ts ⟨⟩
        exact h rfl
  cases e with
  | nil => exact hname _
  | literal l =>
    cases l with
    | boolean b => cases b <;> exact hname _
    | string s => rfl
    | number t => rfl
    | minus t => rfl
  | table fs => rfl
  | setmetatable e m => rfl

theorem Literal.length_tokens_pos (l : Literal) : 0 < l.tokens.length := by
  cases l with
  | boolean b => cases b <;> exact Nat.one_pos
  | string s => exact Nat.one_pos
  | number t => exact Nat.one_pos
  | minus t => exact Nat.two_pos

theorem Expr.length_tokens_pos (e : Expr) : 0 < e.tokens.length := by
  cases e with
  | nil => exact Nat.one_pos
  | literal l => exact l.length_tokens_pos
  | table fs => exact Nat.succ_pos _
  | setmetatable e m => simp [tokens]

theorem Fields.length_tokens_pos (fs : Fields) : 0 < fs.tokens.length := by
  cases fs with
  | nil => exact Nat.one_pos
  | cons key e fs =>
    have := e.length_tokens_pos
    simp only [tokens, List.length_append]
    omega

theorem Literal.head_tokens (l : Literal) (rest : List Token) :
    ∃ t, (l.tokens ++ rest).head? = some t ∧ t ≠ word "nil" ∧ t ≠ .symbol .openBrace ∧
      t ≠ .name setmetatableName ∧ t ≠ .symbol .closeBrace := by
  cases l with
  | boolean b => cases b <;> exact ⟨_, rfl, by decide⟩
  | string s => exact ⟨_, rfl, by simp [word]⟩
  | number t => exact ⟨_, rfl, by simp [word]⟩
  | minus t => exact ⟨_, rfl, by simp [word]⟩

theorem Expr.head_tokens_ne (e : Expr) (rest : List Token) :
    (e.tokens ++ rest).head? ≠ some (.symbol .closeBrace) := by
  cases e with
  | nil => simp [tokens, word]
  | literal l =>
    obtain ⟨t, ht, -, -, -, hne⟩ := l.head_tokens rest
    rw [tokens, ht]
    simpa using hne
  | table fs => simp [tokens]
  | setmetatable e m => simp [tokens]

theorem head_field_ne (key : Option Literal) (e : Expr) (rest : List Token) :
    (keyTokens key ++ (e.tokens ++ rest)).head? ≠ some (.symbol .closeBrace) := by
  cases key with
  | none => exact e.head_tokens_ne rest
  | some l =>
    rw [keyTokens, Literal.key]
    split <;> simp

theorem parseKey_tokens (key : Option Literal) (e : Expr)
    (h : rest.head? ≠ some (.symbol .equals)) :
    parseKey (keyTokens key ++ (e.tokens ++ rest)) = some (key, e.tokens ++ rest) := by
  cases key with
  | none => exact parseKey_none e h
  | some l => exact parseKey_some l _

theorem parseExpr_literal (fuel : ℕ) (l : Literal) (rest : List Token) :
    parseExpr (fuel + 1) (l.tokens ++ rest) = some (.literal l, rest) := by
  obtain ⟨t, ht, hnil, hbrace, hset, -⟩ := l.head_tokens rest
  rw [parseExpr, ht, if_neg (by simpa using hnil), if_neg (by simpa using hbrace),
    if_neg (by simpa using hset), parseLiteral_tokens]
  rfl

mutual

/-- An expression is read back. -/
theorem parseExpr_tokens (e : Expr) (fuel : ℕ) (rest : List Token) (h : e.tokens.length ≤ fuel) :
    parseExpr fuel (e.tokens ++ rest) = some (e, rest) := by
  obtain _ | fuel := fuel
  · exact absurd h (Nat.not_le.2 e.length_tokens_pos)
  cases e with
  | nil => rfl
  | literal l => exact parseExpr_literal fuel l rest
  | table fs =>
    have hfs := parseFields_tokens fs fuel rest (by simpa [Expr.tokens] using h)
    simp [Expr.tokens, parseExpr, hfs, word]
  | setmetatable e m =>
    simp only [Expr.tokens, List.length_append, List.length_cons] at h
    have he := parseExpr_tokens e fuel
      (.symbol .comma :: (m.tokens ++ .symbol .closeParen :: rest)) (by omega)
    have hm := parseExpr_tokens m fuel (.symbol .closeParen :: rest) (by omega)
    simp only [Expr.tokens, List.cons_append, List.append_assoc, List.nil_append, parseExpr,
      List.head?_cons, List.tail_cons]
    rw [if_neg (by decide), if_neg (by decide), if_pos trivial]
    simp [he, hm]

/-- Fields are read back. -/
theorem parseFields_tokens (fs : Fields) (fuel : ℕ) (rest : List Token)
    (h : fs.tokens.length ≤ fuel) : parseFields fuel (fs.tokens ++ rest) = some (fs, rest) := by
  obtain _ | fuel := fuel
  · exact absurd h (Nat.not_le.2 fs.length_tokens_pos)
  cases fs with
  | nil => rfl
  | cons key e fs =>
    simp only [Fields.tokens, List.length_append] at h
    have hpos := e.length_tokens_pos
    have hpos' := fs.length_tokens_pos
    have hsep : (fs.separator ++ fs.tokens ++ rest).head? ≠ some (.symbol .equals) := by
      cases fs <;> simp [Fields.separator, Fields.tokens]
    have hkey := parseKey_tokens key e hsep
    have hne := head_field_ne key e (fs.separator ++ fs.tokens ++ rest)
    have he := parseExpr_tokens e fuel (fs.separator ++ fs.tokens ++ rest) (by omega)
    have htokens : (Fields.cons key e fs).tokens ++ rest =
        keyTokens key ++ (e.tokens ++ (fs.separator ++ fs.tokens ++ rest)) := by
      simp [Fields.tokens]
    rw [htokens, parseFields, if_neg hne, hkey]
    simp only [Option.bind_eq_bind, Option.bind_some, he]
    cases fs with
    | nil => rfl
    | cons key' e' fs' =>
      have hfs := parseFields_tokens (.cons key' e' fs') fuel rest (by omega)
      simp only [Fields.separator, List.cons_append, List.nil_append, List.head?_cons, if_pos,
        List.tail_cons, hfs]
      rfl

end

/-! ## Paths and statements -/

theorem parseSuffixes_suffix (fuel : ℕ) (p : Path) (l : Literal) (rest : List Token) :
    parseSuffixes (fuel + 1) p (l.suffix ++ rest) = parseSuffixes fuel (.field p l) rest := by
  rw [Literal.suffix]
  split
  · next s hs =>
    obtain ⟨rfl, -, hreserved⟩ := Literal.eq_of_name? hs
    simp [parseSuffixes, parseName_cons hreserved]
  · simp [parseSuffixes, parseBracket_tokens]

/-- A path does not go on here. -/
def Stops (ts : List Token) : Prop :=
  ts.head? ≠ some (.symbol .dot) ∧ ts.head? ≠ some (.symbol .openBracket)

theorem Stops.parseSuffixes (h : Stops rest) (fuel : ℕ) (p : Path) :
    parseSuffixes (fuel + 1) p rest = some (p, rest) := by
  rw [LuaChunk.parseSuffixes, if_neg h.1, if_neg h.2]

/-- The name of a local variable that hides no function which chunks call. -/
def IsVariable (v : Str) : Prop :=
  reserved.contains v = false ∧ v ≠ getmetatableName ∧ v ≠ setmetatableName

/-- The variable that a path starts from. -/
def Path.root : Path → Str
  | .var v => v
  | .field p _ => p.root
  | .metatable p => p.root

/-- A path is read as far as it is written, and then its suffixes are. -/
theorem parsePath_append (p : Path) (hp : IsVariable p.root) {n : ℕ} {r : Path × List Token}
    (hrest : ∀ fuel, n ≤ fuel → parseSuffixes fuel p rest = some r) (fuel : ℕ)
    (h : n + p.tokens.length ≤ fuel) : parsePath fuel (p.tokens ++ rest) = some r := by
  induction p generalizing rest n r fuel with
  | var v =>
    obtain _ | fuel := fuel
    · simp [Path.tokens] at h
    have hget : v ≠ getmetatableName := hp.2.1
    have hreserved : reserved.contains v = false := hp.1
    rw [Path.tokens, List.singleton_append, parsePath, if_neg (by simpa using hget),
      parseName_cons hreserved]
    exact hrest fuel (by simpa [Path.tokens] using h)
  | field p l ih =>
    rw [Path.tokens, List.length_append] at h
    rw [Path.tokens, List.append_assoc]
    refine ih hp (n := n + 1) (fun fuel hfuel => ?_) fuel ?_
    · obtain _ | fuel := fuel
      · simp at hfuel
      · rw [parseSuffixes_suffix]
        exact hrest fuel (Nat.le_of_succ_le_succ hfuel)
    · have hpos : 0 < l.suffix.length := by
        rw [Literal.suffix]
        split <;> simp
      omega
  | metatable p ih =>
    obtain _ | fuel := fuel
    · simp [Path.tokens] at h
    simp only [Path.tokens, List.length_append, List.length_cons, List.length_nil] at h
    have hclose : Stops (.symbol .closeParen :: rest) := ⟨by simp, by simp⟩
    have hp' : parsePath fuel (p.tokens ++ .symbol .closeParen :: rest) =
        some (p, .symbol .closeParen :: rest) := by
      refine ih hp (n := 1) (fun fuel hfuel => ?_) fuel (by omega)
      obtain ⟨fuel, rfl⟩ := Nat.exists_eq_add_of_le' hfuel
      exact hclose.parseSuffixes fuel p
    simp only [Path.tokens, List.cons_append, List.append_assoc, List.nil_append, parsePath,
      List.head?_cons, if_pos, List.tail_cons, expect_cons_self, Option.bind_eq_bind,
      Option.bind_some, hp']
    exact hrest fuel (by omega)

/-- A path is read back. -/
theorem parsePath_tokens {p : Path} (hp : IsVariable p.root) (h : Stops rest) (fuel : ℕ)
    (hfuel : p.tokens.length < fuel) : parsePath fuel (p.tokens ++ rest) = some (p, rest) := by
  refine parsePath_append p hp (n := 1) (fun fuel hfuel => ?_) fuel (by omega)
  obtain ⟨fuel, rfl⟩ := Nat.exists_eq_add_of_le' hfuel
  exact h.parseSuffixes fuel p

/-- The variables of a statement. -/
def Stmt.Over (v : Str) : Stmt → Prop
  | .assign p _ q => p.root = v ∧ q.root = v
  | .setmetatable p q => p.root = v ∧ q.root = v

/-- A path does not start like a call of `setmetatable`, and not with `return`. -/
theorem Path.head_tokens_ne {p : Path} (hp : IsVariable p.root) (rest : List Token) :
    (p.tokens ++ rest).head? ≠ some (.name setmetatableName) ∧
      (p.tokens ++ rest).head? ≠ some (word "return") := by
  induction p generalizing rest with
  | var v =>
    have hset : v ≠ setmetatableName := hp.2.2
    refine ⟨by simpa [tokens] using hset, fun h => ?_⟩
    obtain rfl : v = Str.ascii "return" := by simpa [tokens, word] using h
    exact absurd hp.1 (by decide)
  | field p l ih =>
    rw [tokens, List.append_assoc]
    exact ih hp _
  | metatable p _ =>
    simp only [tokens, List.cons_append, List.head?_cons]
    decide

/-- A statement is read back. -/
theorem parseStmt_tokens {v : Str} (hv : IsVariable v) {st : Stmt} (hst : st.Over v)
    (h : Stops rest) (fuel : ℕ) (hfuel : st.tokens.length < fuel) :
    parseStmt fuel (st.tokens ++ rest) = some (st, rest) := by
  cases st with
  | assign p l q =>
    obtain ⟨hp, hq⟩ := hst
    have hroot : IsVariable (Path.field p l).root := by rwa [Path.root, hp]
    have htokens : (Stmt.assign p l q).tokens ++ rest =
        (Path.field p l).tokens ++ (.symbol .equals :: (q.tokens ++ rest)) := by
      simp [Stmt.tokens, Path.tokens]
    have hlen := congrArg List.length htokens
    simp only [List.length_append, List.length_cons] at hlen
    have hequals : Stops (.symbol .equals :: (q.tokens ++ rest)) := ⟨by simp, by simp⟩
    have hfield := parsePath_tokens hroot hequals fuel (by omega)
    have hvalue := parsePath_tokens (hq ▸ hv) h fuel (by omega)
    rw [htokens, parseStmt, if_neg (Path.head_tokens_ne hroot _).1, hfield]
    simp [hvalue]
  | setmetatable p q =>
    obtain ⟨hp, hq⟩ := hst
    simp only [Stmt.tokens, List.length_append, List.length_cons] at hfuel
    have hcomma : Stops (.symbol .comma :: (q.tokens ++ .symbol .closeParen :: rest)) :=
      ⟨by simp, by simp⟩
    have hclose : Stops (.symbol .closeParen :: rest) := ⟨by simp, by simp⟩
    have htarget := parsePath_tokens (hp ▸ hv) hcomma fuel (by omega)
    have hvalue := parsePath_tokens (hq ▸ hv) hclose fuel (by omega)
    simp [Stmt.tokens, parseStmt, htarget, hvalue]

theorem Path.stops (p : Path) (rest : List Token) : Stops (p.tokens ++ rest) := by
  induction p generalizing rest with
  | var v => exact ⟨by simp [tokens], by simp [tokens]⟩
  | field p l ih =>
    rw [tokens, List.append_assoc]
    exact ih _
  | metatable p _ => exact ⟨by simp [tokens], by simp [tokens]⟩

/-- A statement starts with a name other than `return`. -/
theorem Stmt.head_tokens_ne {v : Str} (hv : IsVariable v) {st : Stmt} (hst : st.Over v)
    (rest : List Token) :
    Stops (st.tokens ++ rest) ∧ (st.tokens ++ rest).head? ≠ some (word "return") := by
  cases st with
  | assign p l q =>
    rw [tokens, List.append_assoc, List.append_assoc]
    exact ⟨p.stops _, (Path.head_tokens_ne (hst.1 ▸ hv) _).2⟩
  | setmetatable p q =>
    refine ⟨⟨by simp [tokens], by simp [tokens]⟩, ?_⟩
    simp only [tokens, List.cons_append, List.head?_cons]
    decide

theorem Stmt.length_tokens_pos (st : Stmt) : 0 < st.tokens.length := by
  cases st with
  | assign p l q =>
    simp only [tokens, List.length_append, List.length_cons]
    omega
  | setmetatable p q => simp [tokens]

/-- Where statements and `return` follow, a path ends. -/
theorem stops_body {v : Str} (hv : IsVariable v) {body : List Stmt} (hbody : ∀ st ∈ body, st.Over v)
    (rest : List Token) : Stops (body.flatMap Stmt.tokens ++ word "return" :: rest) := by
  cases body with
  | nil => exact ⟨by simp [word], by simp [word]⟩
  | cons st body =>
    rw [List.flatMap_cons, List.append_assoc]
    exact (Stmt.head_tokens_ne hv (hbody st List.mem_cons_self) _).1

/-- Statements are read back, up to `return`. -/
theorem parseBody_tokens {v : Str} (hv : IsVariable v) {body : List Stmt}
    (hbody : ∀ st ∈ body, st.Over v) (fuel : ℕ)
    (hfuel : (body.flatMap Stmt.tokens).length + 1 < fuel) :
    parseBody fuel (body.flatMap Stmt.tokens ++ word "return" :: rest) = some (body, rest) := by
  induction body generalizing fuel with
  | nil =>
    obtain ⟨fuel, rfl⟩ := Nat.exists_eq_add_of_le' (Nat.one_pos.trans hfuel)
    simp [parseBody]
  | cons st body ih =>
    obtain ⟨hst, hbody⟩ := List.forall_mem_cons.1 hbody
    rw [List.flatMap_cons, List.length_append] at hfuel
    have hpos := st.length_tokens_pos
    obtain ⟨fuel, rfl⟩ := Nat.exists_eq_add_of_le' (Nat.one_pos.trans (by omega : 1 < fuel))
    have hfirst := parseStmt_tokens hv hst (stops_body hv hbody rest) fuel (by omega)
    have hrest := ih hbody fuel (by omega)
    rw [List.flatMap_cons, List.append_assoc, parseBody,
      if_neg (Stmt.head_tokens_ne hv hst _).2, hfirst]
    simp [hrest]

/-- A chunk that is written properly: a local variable hides no function, and the paths start
from it. -/
def Chunk.WellFormed : Chunk → Prop
  | .expression _ => True
  | .block v _ body w => IsVariable v ∧ (∀ st ∈ body, st.Over v) ∧ w.root = v

/-- **Chunks are read back** as they are written. -/
theorem read_tokens {c : Chunk} (hc : c.WellFormed) : read c.tokens = some c := by
  cases c with
  | expression e =>
    have he := parseExpr_tokens e ((Chunk.expression e).tokens.length + 1) [] (by
      simp only [Chunk.tokens, List.length_cons]
      omega)
    rw [List.append_nil] at he
    rw [read, parseChunk, Chunk.tokens, List.head?_cons, if_pos rfl, List.tail_cons,
      ← Chunk.tokens, he]
    rfl
  | block v e body w =>
    obtain ⟨hv, hbody, hw⟩ := hc
    obtain ⟨fuel, hfuel⟩ : ∃ fuel, fuel = (Chunk.block v e body w).tokens.length + 1 := ⟨_, rfl⟩
    have hlen := hfuel
    simp only [Chunk.tokens, List.length_append, List.length_cons] at hlen
    have he := parseExpr_tokens e fuel
      (body.flatMap Stmt.tokens ++ word "return" :: w.tokens) (by omega)
    have hstmts : parseBody fuel (body.flatMap Stmt.tokens ++ word "return" :: w.tokens) =
        some (body, w.tokens) := parseBody_tokens hv hbody fuel (by omega)
    have hend : Stops [] := ⟨by simp, by simp⟩
    have hpath := parsePath_tokens (hw ▸ hv) hend fuel (by omega)
    rw [List.append_nil] at hpath
    rw [read, ← hfuel, parseChunk, Chunk.tokens]
    simp only [List.cons_append, List.append_assoc, List.head?_cons]
    rw [if_neg (by decide)]
    simp [parseName_cons hv.1, he, hstmts, hpath]

end Jord.LuaChunk
