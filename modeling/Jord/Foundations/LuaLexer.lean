import Jord.Foundations.LuaLiteral

/-!
# Tokens of Lua

The lexer of Lua, as far as names, numerals, strings in double quotes and a few symbols go: `Scans`
reads the tokens of a text one after the other. A name and a numeral are as long as possible, so
that what stands behind them matters (`Breaks`).
-/

namespace Jord.LuaLexer

open LuaLiteral (isDigit)

/-- A token of one character. -/
inductive Symbol
  | openBrace
  | closeBrace
  | openParen
  | closeParen
  | openBracket
  | closeBracket
  | comma
  | equals
  | minus
  | dot
  deriving DecidableEq

/-- A token. Reserved words are names here. -/
inductive Token
  | name (s : Str)
  | number (t : Str)
  | string (s : Str)
  | symbol (x : Symbol)
  deriving DecidableEq

/-- `isspace` -/
def isSpace (c : UInt8) : Bool := c = 32 || (9 ≤ c && c ≤ 13)

/-- `isalpha`, or an underscore. -/
def isNameStart (c : UInt8) : Bool := (65 ≤ c && c ≤ 90) || (97 ≤ c && c ≤ 122) || c = 95

/-- `isalnum`, or an underscore. -/
def isNameChar (c : UInt8) : Bool := isNameStart c || isDigit c

/-- A digit or the decimal point. -/
def isDecimal (c : UInt8) : Bool := isDigit c || c = 46

/-- The beginning of an exponent with its sign, and the rest. -/
def exponent : Str → Str × Str
  | [] => ([], [])
  | c :: s =>
    if c = 69 ∨ c = 101 then
      if s.head? = some 43 ∨ s.head? = some 45 then (c :: s.take 1, s.drop 1) else ([c], s)
    else ([], c :: s)

/-- `read_numeral`: the numeral and the rest. -/
def numeral (s : Str) : Str × Str :=
  let s₁ := s.dropWhile isDecimal
  let s₂ := (exponent s₁).2
  (s.takeWhile isDecimal ++ (exponent s₁).1 ++ s₂.takeWhile isNameChar, s₂.dropWhile isNameChar)

namespace Symbol

/-- The character. -/
def char : Symbol → UInt8
  | openBrace => 123
  | closeBrace => 125
  | openParen => 40
  | closeParen => 41
  | openBracket => 91
  | closeBracket => 93
  | comma => 44
  | equals => 61
  | minus => 45
  | dot => 46

/-- The character is a token of its own before the text `s`. -/
def standsBefore (s : Str) : Symbol → Bool
  | openBracket => s.head? != some 91 && s.head? != some 61
  | equals => s.head? != some 61
  | minus => s.head? != some 45
  | dot => s.head?.all fun c => c != 46 && !isDigit c
  | _ => true

/-- All symbols. -/
def all : List Symbol :=
  [openBrace, closeBrace, openParen, closeParen, openBracket, closeBracket, comma, equals, minus,
    dot]

end Symbol

/-- The next character between tokens, or the next token; and the rest. -/
def next : Str → Option (Option Token × Str)
  | [] => none
  | c :: s =>
    if isSpace c then some (none, s)
    else if c = 34 then (LuaLiteral.read 34 s).map fun r => (some (.string r.1), r.2)
    else if isDigit c then some (some (.number (numeral (c :: s)).1), (numeral (c :: s)).2)
    else if isNameStart c then
      some (some (.name (c :: s.takeWhile isNameChar)), s.dropWhile isNameChar)
    else
      (Symbol.all.find? fun x => x.char = c && x.standsBefore s).map fun x => (some (.symbol x), s)

/-- From the text `s` the lexer reads the tokens `ts`, and `s'` is left. -/
inductive Scans : Str → List Token → Str → Prop
  | refl (s : Str) : Scans s [] s
  | blank {s s₁ s' : Str} {ts : List Token} (h : next s = some (none, s₁)) (hs : Scans s₁ ts s') :
      Scans s ts s'
  | token {s s₁ s' : Str} {t : Token} {ts : List Token} (h : next s = some (some t, s₁))
      (hs : Scans s₁ ts s') : Scans s (t :: ts) s'

variable {s s' s'' t : Str} {ts us : List Token} {c : UInt8}

theorem Scans.trans (h : Scans s ts s') (h' : Scans s' us s'') : Scans s (ts ++ us) s'' := by
  induction h with
  | refl => exact h'
  | blank h _ ih => exact .blank h (ih h')
  | token h _ ih => exact .token h (ih h')

/-! ## The lexer -/

/-- The tokens of a text, with a bound for the number of steps. -/
def lexFrom : ℕ → Str → Option (List Token)
  | _, [] => some []
  | 0, _ :: _ => none
  | fuel + 1, c :: s =>
    match next (c :: s) with
    | none => none
    | some (none, s') => lexFrom fuel s'
    | some (some t, s') => (lexFrom fuel s').map (t :: ·)

/-- The tokens of a text. -/
def lex (s : Str) : Option (List Token) := lexFrom s.length s

theorem readFrom_length_lt {del : UInt8} {m : LuaLiteral.Mode} {out : Str} {r : Str × Str}
    (h : LuaLiteral.readFrom del m out s = some r) : r.2.length < s.length := by
  induction s generalizing m out with
  | nil => cases h
  | cons c s ih =>
    rw [LuaLiteral.readFrom] at h
    split at h
    · exact (ih h).trans (Nat.lt_succ_self _)
    · obtain rfl := Option.some.inj h
      exact Nat.lt_succ_self _
    · cases h

theorem exponent_length_le (s : Str) : (exponent s).2.length ≤ s.length := by
  unfold exponent
  split
  · exact le_rfl
  · split_ifs
    · simp
      omega
    · simp
    · exact le_rfl

/-- A token takes at least one character. -/
theorem next_length_lt {r : Option Token × Str} (h : next s = some r) :
    r.2.length < s.length := by
  cases s with
  | nil => cases h
  | cons c s =>
    rw [next] at h
    split_ifs at h with hspace hquote hdigit hname
    · obtain rfl := Option.some.inj h
      exact Nat.lt_succ_self _
    · obtain ⟨r', hr', rfl⟩ := Option.map_eq_some_iff.1 h
      exact (readFrom_length_lt hr').trans (Nat.lt_succ_self _)
    · obtain rfl := Option.some.inj h
      have hdecimal : isDecimal c = true := by simp [isDecimal, hdigit]
      have hdrop := (List.dropWhile_suffix isDecimal (l := s)).length_le
      have hexp := exponent_length_le (s.dropWhile isDecimal)
      have hrest := (List.dropWhile_suffix isNameChar
        (l := (exponent (s.dropWhile isDecimal)).2)).length_le
      simp only [numeral, List.dropWhile_cons, hdecimal, if_true, List.length_cons]
      omega
    · obtain rfl := Option.some.inj h
      exact Nat.lt_succ_of_le (List.dropWhile_suffix isNameChar).length_le
    · obtain ⟨x, -, rfl⟩ := Option.map_eq_some_iff.1 h
      exact Nat.lt_succ_self _

theorem lexFrom_of_scans (h : Scans s ts s') (hend : s' = []) {fuel : ℕ} (hfuel : s.length ≤ fuel) :
    lexFrom fuel s = some ts := by
  induction h generalizing fuel with
  | refl =>
    subst hend
    cases fuel <;> rfl
  | @blank s s₁ s' ts hnext _ ih =>
    have hlt := next_length_lt hnext
    obtain _ | ⟨c, s⟩ := s
    · cases hnext
    obtain _ | fuel := fuel
    · cases hfuel
    rw [lexFrom, hnext]
    exact ih hend (Nat.le_of_lt_succ (hlt.trans_le hfuel))
  | @token s s₁ s' t ts hnext _ ih =>
    have hlt := next_length_lt hnext
    obtain _ | ⟨c, s⟩ := s
    · cases hnext
    obtain _ | fuel := fuel
    · cases hfuel
    rw [lexFrom, hnext]
    exact congrArg (Option.map (t :: ·)) (ih hend (Nat.le_of_lt_succ (hlt.trans_le hfuel)))

/-- What is scanned up to its end are the tokens. -/
theorem Scans.lex (h : Scans s ts []) : lex s = some ts := lexFrom_of_scans h rfl le_rfl

/-! ## Blanks and symbols -/

theorem scans_blank (hc : isSpace c = true) (s : Str) : Scans (c :: s) [] s :=
  .blank (by rw [next, if_pos hc]) (.refl s)

theorem scans_blanks {b : Str} (hb : ∀ c ∈ b, isSpace c = true) (s : Str) :
    Scans (b ++ s) [] s := by
  induction b with
  | nil => exact .refl s
  | cons c b ih =>
    exact (scans_blank (hb c List.mem_cons_self) (b ++ s)).trans
      (ih fun d hd => hb d (List.mem_cons_of_mem _ hd))

theorem scans_symbol {x : Symbol} (h : x.standsBefore s = true) :
    Scans (x.char :: s) [.symbol x] s := by
  refine .token ?_ (.refl s)
  rw [next]
  cases x
  all_goals
    simp only [Symbol.char, isSpace, isDigit, isNameStart, Symbol.all, List.find?_cons, h]
    rfl

/-! ## Names and numerals -/

/-- The text goes on with a character that is no part of a name or a numeral. -/
def Breaks (s : Str) : Prop :=
  ∀ c ∈ s.head?, isNameChar c = false ∧ c ≠ 46 ∧ c ≠ 43 ∧ c ≠ 45

theorem takeWhile_append_of_stops {p : UInt8 → Bool} (t : Str) (h : ∀ c ∈ s.head?, p c = false) :
    (t ++ s).takeWhile p = t.takeWhile p ∧ (t ++ s).dropWhile p = t.dropWhile p ++ s := by
  induction t with
  | nil =>
    cases s with
    | nil => exact ⟨rfl, rfl⟩
    | cons c s =>
      have hc := h c rfl
      simp [hc]
  | cons d t ih =>
    cases hd : p d with
    | true => simpa [hd] using ih
    | false => simp [hd]

theorem Breaks.exponent_append (h : Breaks s) (t : Str) :
    exponent (t ++ s) = ((exponent t).1, (exponent t).2 ++ s) := by
  cases t with
  | nil =>
    cases s with
    | nil => rfl
    | cons c s =>
      obtain ⟨hname, -⟩ := h c rfl
      have hc : ¬ (c = 69 ∨ c = 101) := by
        rintro (rfl | rfl) <;> simp [isNameChar, isNameStart] at hname
      rw [List.nil_append, exponent.eq_def]
      dsimp only
      rw [if_neg hc]
      rfl
  | cons c t =>
    rw [List.cons_append, exponent, exponent]
    by_cases hc : c = 69 ∨ c = 101
    · rw [if_pos hc, if_pos hc]
      cases t with
      | nil =>
        have hsign : ¬ (s.head? = some 43 ∨ s.head? = some 45) := by
          rintro (hs | hs)
          · exact (h 43 hs).2.2.1 rfl
          · exact (h 45 hs).2.2.2 rfl
        rw [List.nil_append, if_neg hsign]
        rfl
      | cons d t =>
        rw [List.cons_append, List.head?_cons, List.head?_cons]
        split
        · simp
        · rfl
    · rw [if_neg hc, if_neg hc]
      rfl

theorem Breaks.numeral_append (h : Breaks s) (t : Str) :
    numeral (t ++ s) = ((numeral t).1, (numeral t).2 ++ s) := by
  have hdecimal : ∀ c ∈ s.head?, isDecimal c = false := by
    intro c hc
    obtain ⟨hname, hpoint, -⟩ := h c hc
    simp only [isNameChar, Bool.or_eq_false_iff] at hname
    simp [isDecimal, hname.2, hpoint]
  obtain ⟨htake, hdrop⟩ := takeWhile_append_of_stops t hdecimal
  obtain ⟨htake', hdrop'⟩ := takeWhile_append_of_stops (exponent (t.dropWhile isDecimal)).2
    fun c hc => (h c hc).1
  rw [numeral, htake, hdrop, h.exponent_append]
  dsimp only
  rw [htake', hdrop']
  rfl

/-- A text that is a numeral as a whole. -/
structure IsNumeral (t : Str) : Prop where
  digit : ∃ c ∈ t.head?, isDigit c = true
  whole : numeral t = (t, [])

/-- The characters of a numeral. -/
theorem mem_numeral (h : c ∈ (numeral s).1) :
    isNameChar c = true ∨ c = 46 ∨ c = 43 ∨ c = 45 := by
  have hexponent : ∀ s : Str, c ∈ (exponent s).1 → isNameChar c = true ∨ c = 43 ∨ c = 45 := by
    intro s h
    unfold exponent at h
    split at h
    · cases h
    · next d s =>
      have hletter : ∀ {d : UInt8}, d = 69 ∨ d = 101 → isNameChar d = true := by
        rintro d (rfl | rfl) <;> decide
      split_ifs at h with hd hsign
      · rcases List.mem_cons.1 h with rfl | h
        · exact .inl (hletter hd)
        · cases s with
          | nil => cases h
          | cons e s =>
            obtain rfl : c = e := by simpa using h
            exact .inr (by simpa using hsign)
      · rw [List.mem_singleton.1 h]
        exact .inl (hletter hd)
      · cases h
  simp only [numeral, List.mem_append] at h
  rcases h with (h | h) | h
  · have hdecimal := List.mem_takeWhile_imp h
    rw [isDecimal, Bool.or_eq_true, decide_eq_true_eq] at hdecimal
    refine hdecimal.imp (fun hdigit => ?_) .inl
    rw [isNameChar, hdigit, Bool.or_true]
  · exact (hexponent _ h).imp_right .inr
  · exact .inl (List.mem_takeWhile_imp h)

theorem scans_number (h : IsNumeral t) (hs : Breaks s) : Scans (t ++ s) [.number t] s := by
  obtain ⟨c, hc, hdigit⟩ := h.digit
  obtain ⟨t', rfl⟩ := List.head?_eq_some_iff.1 hc
  have hspace : isSpace c = false := by
    cases hblank : isSpace c with
    | false => rfl
    | true =>
      simp only [isSpace, isDigit, Bool.or_eq_true, Bool.and_eq_true, decide_eq_true_eq,
        UInt8.le_iff_toNat_le] at hblank hdigit
      rcases hblank with rfl | hblank
      · simp at hdigit
      · simp at hblank hdigit
        omega
  have hquote : c ≠ 34 := by
    rintro rfl
    simp [isDigit] at hdigit
  refine .token ?_ (.refl s)
  have hwhole := hs.numeral_append (c :: t')
  rw [h.whole, List.nil_append] at hwhole
  rw [List.cons_append, next, if_neg (by simp [hspace]), if_neg hquote, if_pos hdigit,
    ← List.cons_append, hwhole]

/-- The text is a name, or a reserved word. -/
def isName : Str → Bool
  | [] => false
  | c :: s => isNameStart c && s.all isNameChar

/-- The beginning of a name is that of no other token. -/
theorem isNameStart_ne (h : isNameStart c = true) :
    isSpace c = false ∧ isDigit c = false ∧ c ≠ 34 ∧ c ≠ 46 := by
  simp only [isNameStart, Bool.or_eq_true, Bool.and_eq_true, decide_eq_true_eq,
    UInt8.le_iff_toNat_le, ← UInt8.toNat_inj] at h
  simp only [isSpace, isDigit, Bool.or_eq_false_iff, Bool.and_eq_false_iff, decide_eq_false_iff_not,
    UInt8.le_iff_toNat_le, ← UInt8.toNat_inj, ne_eq]
  simp at h ⊢
  omega

theorem isSpace_of_isNameChar (h : isNameChar c = true) : isSpace c = false := by
  rw [isNameChar, Bool.or_eq_true] at h
  rcases h with h | h
  · exact (isNameStart_ne h).1
  · simp only [isDigit, Bool.and_eq_true, decide_eq_true_eq, UInt8.le_iff_toNat_le] at h
    simp only [isSpace, Bool.or_eq_false_iff, Bool.and_eq_false_iff, decide_eq_false_iff_not,
      UInt8.le_iff_toNat_le, ← UInt8.toNat_inj]
    simp at h ⊢
    omega

theorem mem_name (h : isName t = true) (hc : c ∈ t) : isNameChar c = true := by
  cases t with
  | nil => cases hc
  | cons d t =>
    obtain ⟨hstart, hall⟩ := Bool.and_eq_true_iff.1 h
    rcases List.mem_cons.1 hc with rfl | hc
    · rw [isNameChar, hstart, Bool.true_or]
    · exact List.all_eq_true.1 hall c hc

theorem scans_name (h : isName t = true) (hs : ∀ c ∈ s.head?, isNameChar c = false) :
    Scans (t ++ s) [.name t] s := by
  cases t with
  | nil => cases h
  | cons c t =>
    obtain ⟨hstart, hall⟩ := Bool.and_eq_true_iff.1 h
    obtain ⟨hspace, hdigit, hquote, -⟩ := isNameStart_ne hstart
    obtain ⟨htake, hdrop⟩ := takeWhile_append_of_stops t hs
    have hself : t.takeWhile isNameChar = t ∧ t.dropWhile isNameChar = [] := by
      rw [List.all_eq_true] at hall
      exact ⟨List.takeWhile_eq_self_iff.2 hall, List.dropWhile_eq_nil_iff.2 hall⟩
    refine .token ?_ (.refl s)
    rw [List.cons_append, next, if_neg (by simp [hspace]), if_neg hquote, if_neg (by simp [hdigit]),
      if_pos hstart, htake, hdrop, hself.1, hself.2, List.nil_append]

/-! ## Strings -/

theorem scans_string {v : Str} (h : LuaLiteral.read 34 (t ++ 34 :: s) = some (v, s)) :
    Scans (34 :: t ++ 34 :: s) [.string v] s := by
  refine .token ?_ (.refl s)
  rw [List.cons_append, next, if_neg (by decide), if_pos rfl, h]
  rfl

end Jord.LuaLexer
