import Jord.Foundations.LuaChunk

/-!
# Limits of the parser

A text that follows the grammar may still be too much for the parser, which generates code as it
reads. It counts the expressions that it is inside of together with the C calls in progress, it has
a fixed number of registers for what an expression holds on to, and a constant has a number of
fixed width. `parse` reads the texts that keep to these limits (`Chunk.Within`). What is counted
here is never less than what the parser counts: a name behind a dot is taken for an expression in
brackets, and for the parser a constant operand takes a register only if its number is large, and
equal constants share one.
-/

namespace Jord.LuaChunk

open LuaLexer (Token)

/-- `LUAI_MAXCCALLS` -/
def maxCCalls : ℕ := 200

/-- `MAXSTACK` -/
def maxStack : ℕ := 250

/-- `MAXARG_Bx`, a number of 18 bits -/
def maxArgBx : ℕ := 0x3FFFF

/-- `LFIELDS_PER_FLUSH` -/
def fieldsPerFlush : ℕ := 50

/-- Texts that are no longer than this have too few lines, fields and instructions to reach
`MAX_INT`. -/
def maxLength : ℕ := 0x10000000

/-! ## Levels -/

/-- The calls of `subexpr` inside each other for a literal: one more behind a minus. -/
def Literal.levels : Literal → ℕ
  | .minus _ => 2
  | _ => 1

/-- The levels of a key. A name has none, and its value has one. -/
def keyLevels : Option Literal → ℕ
  | none => 0
  | some l => l.levels

mutual

/-- The calls of `subexpr` inside each other for an expression. -/
def Expr.levels : Expr → ℕ
  | .nil => 1
  | .literal l => l.levels
  | .table fs => 1 + fs.levels
  | .setmetatable e m => 1 + max e.levels m.levels

/-- The levels of the fields of a table constructor. -/
def Fields.levels : Fields → ℕ
  | .nil => 0
  | .cons key e fs => max (max (keyLevels key) e.levels) fs.levels

end

/-- The levels inside of a path, which is a `primaryexp`. -/
def Path.levels : Path → ℕ
  | .var _ => 0
  | .field p l => max p.levels l.levels
  | .metatable p => 1 + p.levels

/-- The levels of a statement. What is assigned to is no expression of its own. -/
def Stmt.levels : Stmt → ℕ
  | .assign p l q => max (Path.field p l).levels (1 + q.levels)
  | .setmetatable p q => max (1 + p.levels) (1 + q.levels)

/-- The levels of a chunk, which is one itself. -/
def Chunk.levels : Chunk → ℕ
  | .expression e => 1 + e.levels
  | .block _ e body w => 1 + max (max e.levels (1 + w.levels)) ((body.map Stmt.levels).foldr max 0)

/-! ## Registers -/

mutual

/-- The registers that an expression takes until its value is in the first of them. -/
def Expr.registers : Expr → ℕ
  | .nil => 1
  | .literal _ => 1
  | .table fs => 1 + fs.registers 0
  | .setmetatable e m => 1 + max e.registers (1 + m.registers)

/-- The registers behind the one of the table for its fields, `n` fields without a key being in
front of them. Those that are not stored in the table yet are held on to, and so is a key until its
value is stored. -/
def Fields.registers : Fields → ℕ → ℕ
  | .nil, _ => 0
  | .cons none e fs, n => max (n % fieldsPerFlush + e.registers) (fs.registers (n + 1))
  | .cons (some _) e fs, n => max (n % fieldsPerFlush + (1 + e.registers)) (fs.registers n)

end

/-- The registers that a path takes. -/
def Path.registers : Path → ℕ
  | .var _ => 1
  | .field p _ => max p.registers 2
  | .metatable p => 1 + p.registers

/-- The registers that a statement takes. What is assigned to holds a table and a key. -/
def Stmt.registers : Stmt → ℕ
  | .assign p _ q => max p.registers (2 + q.registers)
  | .setmetatable p q => 1 + max p.registers (1 + q.registers)

/-- The registers of a chunk, the first one being that of its local variable. -/
def Chunk.registers : Chunk → ℕ
  | .expression e => e.registers
  | .block _ e body w =>
    max e.registers (1 + max w.registers ((body.map Stmt.registers).foldr max 0))

/-! ## Constants -/

/-- A token that may make a constant. -/
def isConstant : Token → Bool
  | .symbol _ => false
  | _ => true

/-- The constants of a chunk. -/
def Chunk.constants (c : Chunk) : ℕ := c.tokens.countP isConstant

/-! ## Texts within the limits -/

/-- The parser takes the text of a chunk while `calls` C calls are in progress. -/
structure Chunk.Within (calls : ℕ) (text : Str) (c : Chunk) : Prop where
  levels : calls + c.levels ≤ maxCCalls
  registers : c.registers < maxStack
  constants : c.constants ≤ maxArgBx
  length : text.length ≤ maxLength

instance (calls : ℕ) (text : Str) (c : Chunk) : Decidable (c.Within calls text) :=
  decidable_of_iff (calls + c.levels ≤ maxCCalls ∧ c.registers < maxStack ∧
      c.constants ≤ maxArgBx ∧ text.length ≤ maxLength)
    ⟨fun ⟨hl, hr, hc, ht⟩ => ⟨hl, hr, hc, ht⟩, fun ⟨hl, hr, hc, ht⟩ => ⟨hl, hr, hc, ht⟩⟩

/-- The chunk that a text is, whether or not it keeps to the limits. -/
def ofText (text : Str) : Option Chunk := (LuaLexer.lex text).bind read

/-- `luaY_parser`: the chunk that a text is, unless it exceeds a limit. -/
def parse (calls : ℕ) (text : Str) : Option Chunk :=
  (ofText text).filter fun c => c.Within calls text

variable {calls : ℕ} {text : Str} {c : Chunk}

/-- What is written as the tokens of a chunk is that chunk. -/
theorem ofText_eq_some (hlex : LuaLexer.lex text = some c.tokens) (hc : c.WellFormed) :
    ofText text = some c := by
  rw [ofText, hlex, Option.bind_some, read_tokens hc]

/-- **What the parser takes**: the texts of the grammar that keep to the limits. -/
theorem parse_eq_some_iff :
    parse calls text = some c ↔ ofText text = some c ∧ c.Within calls text := by
  simp [parse, Option.filter_eq_some_iff]

end Jord.LuaChunk
