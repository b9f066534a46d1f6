import Jord.Base.Dump
import Jord.Base.Plan

/-!
# The texts of a dump

The texts that a dump puts together are read as the tokens that they are meant to be: a string in
quotes, a number, a key, a path of fields and metatables, and a statement. No path has a NUL, and
only a path to a metatable ends with a parenthesis, so that the dump tells such paths from the
others (`testDefined_pathText`).
-/

namespace Jord.Base

open LuaLexer (Symbol Scans Breaks IsNumeral isSpace isName isNameChar isNameStart scans_symbol
  scans_name scans_number scans_string scans_blank scans_blanks)
open LuaChunk (Literal Path Stmt reserved)

variable {s t : Str}

/-! ## Strings in quotes -/

theorem writes_zero : LuaLiteral.Writes 34 (Str.ascii "\\000") [0] := by
  intro out t
  cases t with
  | nil => rfl
  | cons c t =>
    change LuaLiteral.readFrom 34 (.digits 0 3) out (c :: t) = _
    rw [LuaLiteral.readFrom, LuaLiteral.readFrom, LuaLiteral.step_digits]
    simp [LuaLiteral.step]

/-- A line end that has been escaped, with no second one behind it. -/
theorem readFrom_newline (out : Str) (h : t.head? ≠ some 13) :
    LuaLiteral.readFrom 34 .plain out (92 :: 10 :: t) =
      LuaLiteral.readFrom 34 .plain (out ++ [10]) t := by
  cases t with
  | nil => rfl
  | cons c t =>
    have hc : (LuaLiteral.isNewline c && c != 10) = false := by
      have hne : c ≠ 13 := fun heq => h (congrArg some heq)
      by_cases h10 : c = 10
      · simp [h10]
      · simp [LuaLiteral.isNewline, hne, h10]
    change LuaLiteral.readFrom 34 (.newline 10) (out ++ [10]) (c :: t) = _
    rw [LuaLiteral.readFrom, LuaLiteral.readFrom, LuaLiteral.step_newline, hc]
    rfl

theorem head_quoted_ne (s t : Str) : (s.flatMap quotedChar ++ 34 :: t).head? ≠ some 13 := by
  cases s with
  | nil => simp
  | cons c s =>
    rw [List.flatMap_cons, quotedChar]
    split_ifs with h₁ h₂ h₃
    · simp
    · simp [Str.ascii]
    · simp [Str.ascii]
    · simpa using h₂

/-- **A string in quotes is read back**, whatever follows. -/
theorem read_quoted (s t : Str) :
    LuaLiteral.read 34 (s.flatMap quotedChar ++ 34 :: t) = some (s, t) := by
  have hread : ∀ out, LuaLiteral.readFrom 34 .plain out (s.flatMap quotedChar ++ 34 :: t) =
      some (out ++ s, t) := by
    induction s with
    | nil =>
      intro out
      rw [List.append_nil]
      rfl
    | cons c s ih =>
      intro out
      have hnext := ih (out ++ [c])
      rw [List.append_assoc, List.singleton_append] at hnext
      rw [List.flatMap_cons, List.append_assoc, quotedChar]
      split_ifs with hescape hreturn hzero
      · rcases hescape with rfl | rfl | rfl
        · exact (LuaLiteral.writes_escape (by decide) (by decide) (by decide) out _).trans hnext
        · exact (LuaLiteral.writes_escape (by decide) (by decide) (by decide) out _).trans hnext
        · exact (readFrom_newline out (head_quoted_ne s t)).trans hnext
      · subst hreturn
        exact (LuaLiteral.writes_escape (c := 114) (by decide) (by decide) (by decide) out _).trans
          hnext
      · subst hzero
        exact (writes_zero out _).trans hnext
      · push Not at hescape
        refine (LuaLiteral.writes_plain hescape.1 ?_ hescape.2.1 out _).trans hnext
        simp [LuaLiteral.isNewline, hescape.2.2, hreturn]
  exact hread []

theorem zero_notMem_quotedChar (c : UInt8) : 0 ∉ quotedChar c := by
  rw [quotedChar]
  split_ifs with hescape hreturn hzero
  · rcases hescape with rfl | rfl | rfl <;> decide
  · decide
  · decide
  · simpa using Ne.symm hzero

theorem zero_notMem_quoted (s : Str) : 0 ∉ quoted s := by
  simp only [quoted, List.cons_append, List.mem_cons, List.mem_append, List.mem_flatMap,
    List.not_mem_nil, or_false, not_or, not_exists, not_and]
  exact ⟨by decide, fun c _ => zero_notMem_quotedChar c, by decide⟩

/-! ## Literals -/

/-- A literal as a dump writes it. -/
def literalText : Literal → Str
  | .boolean b => booleanText b
  | .string s => quoted s
  | .number t => t
  | .minus t => 45 :: t

/-- The numeral of a literal is one. -/
def Legible : Literal → Prop
  | .number t => IsNumeral t
  | .minus t => IsNumeral t
  | _ => True

variable {l : Literal}

theorem Legible.scans (hl : Legible l) (hs : Breaks s) :
    Scans (literalText l ++ s) l.tokens s := by
  have hname : ∀ c ∈ s.head?, isNameChar c = false := fun c hc => (hs c hc).1
  cases l with
  | boolean b => cases b <;> exact scans_name (by decide) hname
  | string u =>
    rw [literalText, quoted, List.append_assoc]
    exact scans_string (read_quoted u s)
  | number t => exact scans_number hl hs
  | minus t =>
    obtain ⟨c, hc, hdigit⟩ := hl.digit
    have hminus : Symbol.minus.standsBefore (t ++ s) = true := by
      obtain ⟨t', rfl⟩ := List.head?_eq_some_iff.1 hc
      have hne : c ≠ 45 := by
        rintro rfl
        revert hdigit
        decide
      simp [Symbol.standsBefore, hne]
    exact (scans_symbol hminus).trans (scans_number hl hs)

/-- The beginning of a literal. -/
theorem Legible.head (hl : Legible l) : ∃ c t, literalText l = c :: t ∧ c ≠ 61 ∧ c ≠ 91 := by
  have hdigit : ∀ {t : Str}, IsNumeral t → ∃ c t', t = c :: t' ∧ c ≠ 61 ∧ c ≠ 91 := by
    intro t ht
    obtain ⟨c, hc, hdigit⟩ := ht.digit
    obtain ⟨t', rfl⟩ := List.head?_eq_some_iff.1 hc
    refine ⟨c, t', rfl, ?_, ?_⟩
    · rintro rfl
      revert hdigit
      decide
    · rintro rfl
      revert hdigit
      decide
  cases l with
  | boolean b => cases b <;> exact ⟨_, _, rfl, by decide, by decide⟩
  | string u => exact ⟨_, _, rfl, by decide, by decide⟩
  | number t => exact hdigit hl
  | minus t => exact ⟨_, _, rfl, by decide, by decide⟩

theorem zero_notMem_of_isNumeral (h : IsNumeral t) : 0 ∉ t := by
  intro hmem
  have hmem' : 0 ∈ (LuaLexer.numeral t).1 := by rwa [h.whole]
  rcases LuaLexer.mem_numeral hmem' with h | h | h | h
  · revert h
    decide
  · cases h
  · cases h
  · cases h

theorem Legible.zero_notMem (hl : Legible l) : 0 ∉ literalText l := by
  cases l with
  | boolean b => cases b <;> decide
  | string u => exact zero_notMem_quoted u
  | number t => exact zero_notMem_of_isNumeral hl
  | minus t =>
    rw [literalText, List.mem_cons, not_or]
    exact ⟨by decide, zero_notMem_of_isNumeral hl⟩

/-! ## Keys and paths -/

/-- What a path to a field ends with. -/
def suffixText (l : Literal) : Str :=
  match l.name? with
  | some k => 46 :: k
  | none => 91 :: literalText l ++ [93]

/-- The key of a field in front of its value. -/
def keyText (l : Literal) : Str :=
  match l with
  | .string k =>
    if reserved.contains k then Str.ascii "[\"" ++ k ++ Str.ascii "\"] = "
    else if isName k then k ++ Str.ascii "="
    else Str.ascii "[" ++ literalText l ++ Str.ascii "]="
  | _ => Str.ascii "[" ++ literalText l ++ Str.ascii "]="

/-- A path as a dump writes it. -/
def pathText : Path → Str
  | .var v => v
  | .field p l => pathText p ++ suffixText l
  | .metatable p => Str.ascii "getmetatable(" ++ pathText p ++ Str.ascii ")"

/-- A statement as a dump writes it. -/
def stmtText : Stmt → Str
  | .assign p l q => pathText (.field p l) ++ Str.ascii " = " ++ pathText q ++ Str.ascii "\n"
  | .setmetatable p q =>
    Str.ascii "setmetatable(" ++ pathText p ++ Str.ascii ", " ++ pathText q ++ Str.ascii ")\n"

theorem Legible.scans_bracket (hl : Legible l) (s : Str) :
    Scans (91 :: literalText l ++ 93 :: s)
      (.symbol .openBracket :: l.tokens ++ [.symbol .closeBracket]) s := by
  have hopen : Symbol.openBracket.standsBefore (literalText l ++ 93 :: s) = true := by
    obtain ⟨c, t, ht, h61, h91⟩ := hl.head
    simp [Symbol.standsBefore, ht, h61, h91]
  have hbreaks : Breaks (93 :: s) := by
    rintro c ⟨⟩
    decide
  exact (scans_symbol hopen).trans ((hl.scans hbreaks).trans
    (scans_symbol (x := .closeBracket) rfl))

theorem Legible.scans_suffix (hl : Legible l) (hs : ∀ c ∈ s.head?, isNameChar c = false) :
    Scans (suffixText l ++ s) l.suffix s := by
  cases hk : l.name? with
  | some k =>
    obtain ⟨-, hname, -⟩ := Literal.eq_of_name? hk
    have hdot : Symbol.dot.standsBefore (k ++ s) = true := by
      cases k with
      | nil => cases hname
      | cons c k =>
        have hstart : isNameStart c = true := (Bool.and_eq_true_iff.1 hname).1
        obtain ⟨-, hdigit, -, hpoint⟩ := LuaLexer.isNameStart_ne hstart
        simp [Symbol.standsBefore, hdigit, hpoint]
    rw [suffixText, Literal.suffix, hk]
    exact (scans_symbol hdot).trans (scans_name hname hs)
  | none =>
    rw [suffixText, Literal.suffix, hk]
    dsimp only
    rw [List.append_assoc]
    exact hl.scans_bracket s

/-- `%q` of a reserved word needs no escape sequence. -/
theorem quoted_of_reserved {k : Str} (h : reserved.contains k = true) :
    quoted k = 34 :: k ++ [34] := by
  have hall : ∀ k ∈ reserved, quoted k = 34 :: k ++ [34] := by decide
  exact hall k (List.contains_iff_mem.1 h)

theorem keyText_of_some {k : Str} (hk : l.name? = some k) : keyText l = k ++ [61] := by
  obtain ⟨rfl, hname, hreserved⟩ := Literal.eq_of_name? hk
  rw [keyText, if_neg (by simpa using hreserved), if_pos hname]
  rfl

/-- A key in brackets, with or without blanks. -/
theorem keyText_of_none (hk : l.name? = none) : ∃ b : Str, (∀ c ∈ b, isSpace c = true) ∧
    (b ++ s).head? ∈ [s.head?, some 32] ∧
    keyText l = 91 :: literalText l ++ 93 :: (b ++ 61 :: b) := by
  have hplain : ∃ b : Str, (∀ c ∈ b, isSpace c = true) ∧ (b ++ s).head? ∈ [s.head?, some 32] ∧
      Str.ascii "[" ++ literalText l ++ Str.ascii "]=" =
        91 :: literalText l ++ 93 :: (b ++ 61 :: b) :=
    ⟨[], by simp, by simp, by simp [Str.ascii]⟩
  cases l with
  | string k =>
    rw [keyText]
    split_ifs with hreserved hname
    · refine ⟨[32], List.forall_mem_singleton.2 rfl, by simp, ?_⟩
      rw [literalText, quoted_of_reserved hreserved]
      simp [Str.ascii]
    · simp only [Literal.name?, hname, hreserved] at hk
      cases hk
    · exact hplain
  | boolean b => exact hplain
  | number t => exact hplain
  | minus t => exact hplain

theorem Legible.scans_key (hl : Legible l) (hs : s.head? ≠ some 61) :
    Scans (keyText l ++ s) l.key s := by
  have hequals : ∀ {s : Str}, s.head? ≠ some 61 → Symbol.equals.standsBefore s = true := by
    intro s hs
    simpa [Symbol.standsBefore] using hs
  have hbracket : ∀ {b b' : Str}, (∀ c ∈ b, isSpace c = true) → (∀ c ∈ b', isSpace c = true) →
      (b' ++ s).head? ≠ some 61 →
      Scans (91 :: literalText l ++ 93 :: (b ++ 61 :: (b' ++ s)))
        (.symbol .openBracket :: l.tokens ++ [.symbol .closeBracket, .symbol .equals]) s := by
    intro b b' hb hb' hhead
    have hrest : Scans (b ++ 61 :: (b' ++ s)) [.symbol .equals] s :=
      (scans_blanks hb _).trans ((scans_symbol (hequals hhead)).trans (scans_blanks hb' s))
    have := (hl.scans_bracket (b ++ 61 :: (b' ++ s))).trans hrest
    simpa using this
  cases hk : l.name? with
  | some k =>
    rw [keyText_of_some hk, Literal.key, hk, List.append_assoc]
    refine (scans_name (Literal.eq_of_name? hk).2.1 ?_).trans
      (scans_symbol (x := .equals) (hequals hs))
    rintro c ⟨⟩
    decide
  | none =>
    obtain ⟨b, hb, hhead, htext⟩ := keyText_of_none (s := s) hk
    rw [htext, Literal.key, hk]
    have hne : (b ++ s).head? ≠ some 61 := by
      rcases List.mem_cons.1 hhead with h | h
      · rwa [h]
      · rw [List.mem_singleton.1 h]
        decide
    simpa using hbracket hb hb hne

theorem head_suffixText (l : Literal) : ∃ c t, suffixText l = c :: t ∧ (c = 46 ∨ c = 91) := by
  rw [suffixText]
  split
  · exact ⟨46, _, rfl, .inl rfl⟩
  · exact ⟨91, _, rfl, .inr rfl⟩

/-- A path from the variable of a dump. -/
def PathLegible : Path → Prop
  | .var v => v = Str.ascii "t"
  | .field p l => PathLegible p ∧ Legible l
  | .metatable p => PathLegible p

variable {p q : Path}

theorem PathLegible.scans (hp : PathLegible p) (hs : ∀ c ∈ s.head?, isNameChar c = false) :
    Scans (pathText p ++ s) p.tokens s := by
  induction p generalizing s with
  | var v =>
    obtain rfl : v = Str.ascii "t" := hp
    exact scans_name (by decide) hs
  | field p l ih =>
    rw [pathText, List.append_assoc, Path.tokens]
    refine (ih hp.1 ?_).trans (hp.2.scans_suffix hs)
    obtain ⟨d, t, ht, hd⟩ := head_suffixText l
    intro c hc
    obtain rfl : d = c := by simpa [ht] using hc
    rcases hd with rfl | rfl <;> decide
  | metatable p ih =>
    have htext : pathText (.metatable p) ++ s =
        LuaChunk.getmetatableName ++ 40 :: (pathText p ++ 41 :: s) := by
      rw [pathText, List.append_assoc, List.append_assoc]
      rfl
    rw [htext, Path.tokens]
    refine (scans_name (by decide) ?_).trans ((scans_symbol (x := .openParen) rfl).trans
      ((ih hp ?_).trans (scans_symbol (x := .closeParen) rfl)))
    · rintro c ⟨⟩
      decide
    · rintro c ⟨⟩
      decide

theorem Legible.zero_notMem_suffixText (hl : Legible l) : 0 ∉ suffixText l := by
  rw [suffixText]
  split
  · next k hk =>
    rw [List.mem_cons, not_or]
    refine ⟨by decide, fun h => ?_⟩
    have := LuaLexer.mem_name (Literal.eq_of_name? hk).2.1 h
    revert this
    decide
  · simpa using hl.zero_notMem

theorem PathLegible.zero_notMem (hp : PathLegible p) : 0 ∉ pathText p := by
  induction p with
  | var v =>
    obtain rfl : v = Str.ascii "t" := hp
    decide
  | field p l ih =>
    rw [pathText, List.mem_append, not_or]
    exact ⟨ih hp.1, hp.2.zero_notMem_suffixText⟩
  | metatable p ih =>
    rw [pathText, List.mem_append, List.mem_append, not_or, not_or]
    exact ⟨⟨by decide, ih hp⟩, by decide⟩

theorem getLast_suffixText (l : Literal) : (suffixText l).getLast? ≠ some 41 := by
  rw [suffixText]
  split
  · next k hk =>
    have hname := (Literal.eq_of_name? hk).2.1
    intro h
    have hmem : 41 ∈ k := by
      rcases List.mem_cons.1 (List.mem_of_mem_getLast? (Option.mem_def.2 h)) with h | h
      · cases h
      · exact h
    have := LuaLexer.mem_name hname hmem
    revert this
    decide
  · rw [List.getLast?_concat]
    decide

/-- A path to a field does not end like one to a metatable. -/
theorem isMetatablePath_field (p : Path) (l : Literal) :
    isMetatablePath (pathText (.field p l)) = false := by
  have hlast : (pathText (.field p l)).getLast? ≠ some 41 := by
    obtain ⟨c, t, ht, -⟩ := head_suffixText l
    have hne : suffixText l ≠ [] := ht ▸ List.cons_ne_nil c t
    rw [pathText, List.getLast?_append_of_ne_nil _ hne]
    exact getLast_suffixText l
  rw [isMetatablePath, Bool.and_eq_false_iff, List.getLast?_drop]
  right
  split_ifs
  · rfl
  · simpa using hlast

theorem isMetatablePath_metatable (p : Path) :
    isMetatablePath (pathText (.metatable p)) = true := by
  have htext : pathText (.metatable p) =
      Str.ascii "getmetatable" ++ (40 :: pathText p ++ [41]) := by
    simp [pathText, Str.ascii]
  have hlen : (Str.ascii "getmetatable").length = 12 := rfl
  rw [isMetatablePath, htext, ← hlen, List.drop_left, List.getLast?_concat, Bool.and_eq_true,
    List.isPrefixOf_iff_prefix]
  exact ⟨List.prefix_append .., rfl⟩

/-! ## Keys without their assignment -/

theorem isAssign_blank {b b' : Str} (hb : ∀ c ∈ b, isSpace c = true)
    (hb' : ∀ c ∈ b', isSpace c = true) : isAssign (b ++ 61 :: b') = true := by
  have hdrop : (b ++ 61 :: b').dropWhile isSpace = 61 :: b' := by
    rw [List.dropWhile_append_of_pos hb]
    rfl
  rw [isAssign, hdrop, Bool.and_eq_true]
  exact ⟨rfl, List.all_eq_true.2 hb'⟩

theorem isAssign_append (ht : ∃ c ∈ t, isSpace c = false) (hs : 61 ∈ s) :
    isAssign (t ++ s) = false := by
  have hne : t.dropWhile isSpace ≠ [] := by
    intro h
    obtain ⟨c, hc, hspace⟩ := ht
    rw [List.dropWhile_eq_nil_iff.1 h c hc] at hspace
    cases hspace
  obtain ⟨d, t', hd⟩ := List.exists_cons_of_ne_nil hne
  have hdrop : (t ++ s).dropWhile isSpace = d :: (t' ++ s) := by
    rw [List.dropWhile_append, hd]
    rfl
  rw [isAssign, hdrop, Bool.and_eq_false_iff]
  right
  rw [List.tail_cons, List.all_eq_false]
  exact ⟨61, List.mem_append_right t' hs, by decide⟩

theorem dropAssign_of_isAssign (h : isAssign s = true) : dropAssign s = [] := by
  cases s with
  | nil => rfl
  | cons c s => rw [dropAssign, if_pos h]

/-- An assignment at the end is dropped, and nothing in front of it. -/
theorem dropAssign_append {b b' : Str} (hb : ∀ c ∈ b, isSpace c = true)
    (hb' : ∀ c ∈ b', isSpace c = true) (t : Str) (ht : ∀ c ∈ t.getLast?, isSpace c = false) :
    dropAssign (t ++ (b ++ 61 :: b')) = t := by
  induction t with
  | nil => exact dropAssign_of_isAssign (isAssign_blank hb hb')
  | cons c t ih =>
    have hblank : ∃ d ∈ c :: t, isSpace d = false := by
      have hlast := List.getLast?_eq_some_getLast (List.cons_ne_nil c t)
      exact ⟨_, List.getLast_mem _, ht _ hlast⟩
    have hassign := isAssign_append (s := b ++ 61 :: b') hblank (by simp)
    rw [List.cons_append] at hassign ⊢
    rw [dropAssign, if_neg (by simp [hassign]), ih]
    intro d hd
    apply ht
    cases t with
    | nil => cases hd
    | cons e t => rwa [List.getLast?_cons_cons]

/-- The path to a field ends with its key. -/
theorem suffixText_eq (l : Literal) : suffixText l =
    (if (keyText l).head? = some 91 then [] else Str.ascii ".") ++ dropAssign (keyText l) := by
  cases hk : l.name? with
  | some k =>
    have hname := (Literal.eq_of_name? hk).2.1
    have hblank : ∀ c ∈ ([] : Str), isSpace c = true := by simp
    have hdrop : dropAssign (k ++ [61]) = k := by
      refine dropAssign_append hblank hblank k fun c hc => ?_
      exact LuaLexer.isSpace_of_isNameChar
        (LuaLexer.mem_name hname (List.mem_of_mem_getLast? hc))
    have hhead : (k ++ [61]).head? ≠ some 91 := by
      cases k with
      | nil => cases hname
      | cons c k =>
        rintro ⟨⟩
        have := LuaLexer.mem_name hname List.mem_cons_self
        revert this
        decide
    rw [keyText_of_some hk, suffixText, hk, if_neg hhead, hdrop]
    rfl
  | none =>
    obtain ⟨b, hb, -, htext⟩ := keyText_of_none (s := []) hk
    have hdrop : dropAssign ((91 :: literalText l ++ [93]) ++ (b ++ 61 :: b)) =
        91 :: literalText l ++ [93] := by
      apply dropAssign_append hb hb
      intro c hc
      rw [List.getLast?_concat] at hc
      obtain rfl := Option.some.inj hc
      decide
    have hsplit : 91 :: literalText l ++ 93 :: (b ++ 61 :: b) =
        (91 :: literalText l ++ [93]) ++ (b ++ 61 :: b) := by simp
    have hhead : (91 :: literalText l ++ 93 :: (b ++ 61 :: b)).head? = some 91 := rfl
    rw [htext, suffixText, hk, if_pos hhead, hsplit, hdrop]
    rfl

/-! ## Statements -/

variable {st : Stmt}

/-- The paths of a statement. -/
def StmtLegible : Stmt → Prop
  | .assign p l q => PathLegible (.field p l) ∧ PathLegible q
  | .setmetatable p q => PathLegible p ∧ PathLegible q

theorem scans_setmetatable (s : Str) : Scans (LuaChunk.setmetatableName ++ 40 :: s)
    [.name LuaChunk.setmetatableName, .symbol .openParen] s := by
  refine (scans_name (by decide) ?_).trans (scans_symbol (x := .openParen) rfl)
  rintro c ⟨⟩
  decide

theorem StmtLegible.scans (hst : StmtLegible st) (s : Str) :
    Scans (stmtText st ++ s) st.tokens s := by
  have hblank : ∀ {c : UInt8} {t : Str}, isSpace c = true →
      ∀ d ∈ (c :: t).head?, isNameChar d = false := by
    rintro c t hc d ⟨⟩
    cases hname : isNameChar c with
    | false => rfl
    | true =>
      rw [LuaLexer.isSpace_of_isNameChar hname] at hc
      cases hc
  cases st with
  | assign p l q =>
    obtain ⟨hp, hq⟩ := hst
    have htext : stmtText (.assign p l q) ++ s =
        pathText (.field p l) ++ 32 :: 61 :: 32 :: (pathText q ++ 10 :: s) := by
      simp [stmtText, Str.ascii]
    have hvalue : Scans (pathText q ++ 10 :: s) (q.tokens ++ []) s :=
      (hq.scans (hblank (by decide))).trans (scans_blank (by decide) s)
    rw [List.append_nil] at hvalue
    rw [htext, Stmt.tokens]
    exact (hp.scans (hblank (by decide))).trans ((scans_blank (by decide) _).trans
      ((scans_symbol (x := .equals) rfl).trans ((scans_blank (by decide) _).trans hvalue)))
  | setmetatable p q =>
    obtain ⟨hp, hq⟩ := hst
    have htext : stmtText (.setmetatable p q) ++ s = LuaChunk.setmetatableName ++
        40 :: (pathText p ++ 44 :: 32 :: (pathText q ++ 41 :: 10 :: s)) := by
      simp [stmtText, Str.ascii, LuaChunk.setmetatableName]
    have hvalue : Scans (pathText q ++ 41 :: 10 :: s) (q.tokens ++ [.symbol .closeParen]) s := by
      have hclose : Scans (41 :: 10 :: s) ([.symbol .closeParen] ++ []) s :=
        (scans_symbol (x := .closeParen) rfl).trans (scans_blank (by decide) s)
      refine (hq.scans ?_).trans hclose
      rintro c ⟨⟩
      decide
    have htarget : Scans (pathText p ++ 44 :: 32 :: (pathText q ++ 41 :: 10 :: s))
        (p.tokens ++ .symbol .comma :: (q.tokens ++ [.symbol .closeParen])) s := by
      refine (hp.scans ?_).trans ((scans_symbol (x := .comma) rfl).trans
        ((scans_blank (by decide) _).trans hvalue))
      rintro c ⟨⟩
      decide
    have hall := (scans_setmetatable _).trans htarget
    rw [htext, Stmt.tokens]
    simpa using hall

theorem formatString_of_zero_notMem (h : 0 ∉ s) : formatString s = s := by
  rw [formatString, Str.takeWhile_of_zero_notMem h, ite_self]

/-- **The statement for a place that is left empty** is an assignment, or a call of
`setmetatable`. -/
theorem testDefined_pathText (s : DumpState) (hp : PathLegible p) (hq : PathLegible q)
    (key : Option Literal) : testDefined s (pathText q) (some (pathText (step p key))) =
      .ok { s with out := s.out ++ [stmtText (match key with
        | some l => .assign p l q
        | none => .setmetatable p q)] } := by
  cases key with
  | some l =>
    rw [testDefined, step, isMetatablePath_field]
    rfl
  | none =>
    have hsub : ((pathText (.metatable p)).drop 1).dropLast =
        Str.ascii "etmetatable(" ++ pathText p := by
      have htext : pathText (.metatable p) =
          Str.ascii "g" ++ (Str.ascii "etmetatable(" ++ pathText p ++ [41]) := by
        simp [pathText, Str.ascii]
      have hlen : (Str.ascii "g").length = 1 := rfl
      rw [htext, ← hlen, List.drop_left, List.dropLast_concat]
    have hzero : 0 ∉ Str.ascii "etmetatable(" ++ pathText p := by
      rw [List.mem_append, not_or]
      exact ⟨by decide, hp.zero_notMem⟩
    rw [testDefined, step, isMetatablePath_metatable]
    dsimp only
    rw [if_pos rfl, hsub, formatString_of_zero_notMem hzero,
      formatString_of_zero_notMem hq.zero_notMem, stmtText]
    simp [Str.ascii]

end Jord.Base
