import Jord.Foundations.Bytes

/-!
# String literals of Lua

The lexer of Lua on a string literal in quotes, behind the opening quote: a machine that takes one
character at a time (`step`). An escape sequence is a letter, up to three decimal digits, a line end
of one or two characters, or any other character, which stands for itself.

* `read` is the value of a literal and the text behind the closing quote.
* `Writes` says that a text inside of a literal stands for some characters; such texts are composed
  (`Writes.append`) and closed (`Writes.read_append`).
-/

namespace Jord.LuaLiteral

/-- `'\\'` -/
def backslash : UInt8 := 92

/-- `'\n'` and `'\r'` -/
def isNewline (c : UInt8) : Bool := c = 10 || c = 13

/-- `'0'` to `'9'` -/
def isDigit (c : UInt8) : Bool := 48 ≤ c && c ≤ 57

/-- The character behind a backslash that is neither a digit nor a line end. -/
def simpleEscape (c : UInt8) : UInt8 :=
  if c = 97 then 7 else if c = 98 then 8 else if c = 102 then 12 else if c = 110 then 10
  else if c = 114 then 13 else if c = 116 then 9 else if c = 118 then 11 else c

/-- What the lexer is in the middle of: an escape sequence, the line end that the given character
has begun, or the digits of a number. -/
inductive Mode
  | plain
  | escape
  | newline (first : UInt8)
  | digits (n count : ℕ)
  deriving DecidableEq

/-- The outcome of a character: the literal goes on, it is closed, or it is no literal. -/
inductive Outcome
  | more (m : Mode) (out : Str)
  | closed (out : Str)
  | failed
  deriving DecidableEq

variable (del : UInt8)

/-- A character outside of escape sequences. -/
def plainStep (out : Str) (c : UInt8) : Outcome :=
  if c = del then .closed out
  else if isNewline c then .failed
  else if c = backslash then .more .escape out
  else .more .plain (out ++ [c])

/-- One character of a literal with the delimiter `del`. -/
def step (out : Str) (c : UInt8) : Mode → Outcome
  | .plain => plainStep del out c
  | .escape =>
    if isNewline c then .more (.newline c) (out ++ [10])
    else if isDigit c then .more (.digits (c.toNat - 48) 1) out
    else .more .plain (out ++ [simpleEscape c])
  | .newline first => if isNewline c && c != first then .more .plain out else plainStep del out c
  | .digits n count =>
    if isDigit c && count < 3 then .more (.digits (10 * n + (c.toNat - 48)) (count + 1)) out
    else if 255 < n then .failed
    else plainStep del (out ++ [UInt8.ofNat n]) c

theorem step_newline (out : Str) (c first : UInt8) : step del out c (.newline first) =
    if isNewline c && c != first then .more .plain out else plainStep del out c := rfl

theorem step_digits (out : Str) (c : UInt8) (n count : ℕ) : step del out c (.digits n count) =
    if isDigit c && count < 3 then .more (.digits (10 * n + (c.toNat - 48)) (count + 1)) out
    else if 255 < n then .failed
    else plainStep del (out ++ [UInt8.ofNat n]) c := rfl

/-- The lexer from a mode on: the value of the literal and the rest of the text, if it is closed. -/
def readFrom (m : Mode) (out : Str) : Str → Option (Str × Str)
  | [] => none
  | c :: s =>
    match step del out c m with
    | .more m' out' => readFrom m' out' s
    | .closed v => some (v, s)
    | .failed => none

/-- The value of the literal whose opening quote is in front of the text, and what is behind it. -/
def read (s : Str) : Option (Str × Str) := readFrom del .plain [] s

/-! ## Texts inside of a literal -/

variable {del}

/-- From between two characters the lexer comes through `s` to between two others, and finds the
characters `v`. -/
def Writes (del : UInt8) (s v : Str) : Prop :=
  ∀ out t, readFrom del .plain out (s ++ t) = readFrom del .plain (out ++ v) t

theorem Writes.nil : Writes del [] [] := by
  intro out t
  rw [List.append_nil]
  rfl

theorem Writes.append {s s' v v' : Str} (h : Writes del s v) (h' : Writes del s' v') :
    Writes del (s ++ s') (v ++ v') := by
  intro out t
  rw [List.append_assoc, h, h', List.append_assoc]

/-- A text that stands for `v`, closed. -/
theorem Writes.read_append {s v : Str} (h : Writes del s v) (t : Str) :
    read del (s ++ del :: t) = some (v, t) := by
  rw [read, h, readFrom, step, plainStep, if_pos rfl]
  rfl

/-- A character that stands for itself. -/
theorem writes_plain {c : UInt8} (hdel : c ≠ del) (hnewline : isNewline c = false)
    (hbackslash : c ≠ backslash) : Writes del [c] [c] := by
  intro out t
  rw [List.singleton_append, readFrom, step, plainStep, if_neg hdel, if_neg (by simp [hnewline]),
    if_neg hbackslash]

/-- A simple escape sequence. -/
theorem writes_escape {c : UInt8} (hdel : backslash ≠ del) (hnewline : isNewline c = false)
    (hdigit : isDigit c = false) : Writes del [backslash, c] [simpleEscape c] := by
  intro out t
  have hfirst : readFrom del .plain out (backslash :: c :: t) =
      readFrom del .escape out (c :: t) := by
    rw [readFrom, step, plainStep, if_neg hdel, if_neg (by decide), if_pos rfl]
  rw [List.cons_append, List.singleton_append, hfirst, readFrom, step, if_neg (by simp [hnewline]),
    if_neg (by simp [hdigit])]

/-- A line end that is not escaped is no part of a literal. -/
theorem readFrom_newline {c : UInt8} (hdel : c ≠ del) (hnewline : isNewline c = true)
    (out t : Str) : readFrom del .plain out (c :: t) = none := by
  rw [readFrom, step, plainStep, if_neg hdel, if_pos hnewline]

end Jord.LuaLiteral
