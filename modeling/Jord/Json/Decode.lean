import Jord.Json.Encode

/-!
# Decoding

`decode` of the JSON module with the functions that scan the parts of a text. They work on the
position of a character in the text, counted from 1, and return the position behind what they have
read. Numbers and strings are evaluated by `loadstring`.

The loops over characters are counted on the text behind a position (`textAt`); the recursion of
`decode`, `decode_scanArray` and `decode_scanObject` has fuel.
-/

namespace Jord.Json

variable {ρ : Type}

/-! ## Texts and positions -/

/-- The text from a position on. -/
def textAt (s : Str) (pos : ℕ) : Str := s.drop (pos - 1)

/-- `string.sub( s, pos, pos )`, if it is not empty -/
def charAt (s : Str) (pos : ℕ) : Option UInt8 := (textAt s pos).head?

/-- `string.sub( s, first, last - 1 )` -/
def slice (s : Str) (first last : ℕ) : Str := (textAt s first).take (last - first)

section Positions

variable {s : Str} {pos : ℕ}

theorem textAt_add (hpos : 1 ≤ pos) (n : ℕ) : textAt s (pos + n) = (textAt s pos).drop n := by
  rw [textAt, textAt, List.drop_drop, show pos + n - 1 = pos - 1 + n by omega]

theorem length_textAt (hpos : 1 ≤ pos) : (textAt s pos).length = s.length + 1 - pos := by
  rw [textAt, List.length_drop]
  omega

theorem textAt_eq_cons {c : UInt8} (hpos : 1 ≤ pos) (h : charAt s pos = some c) :
    textAt s pos = c :: textAt s (pos + 1) := by
  rw [textAt_add hpos]
  unfold charAt at h
  cases ht : textAt s pos with
  | nil => simp [ht] at h
  | cons c' t =>
    obtain rfl : c' = c := by simpa [ht] using h
    rfl

/-- A position is known by the text from it on. -/
theorem pos_inj {pos' : ℕ} (hpos : 1 ≤ pos) (hle : pos ≤ s.length + 1) (hpos' : 1 ≤ pos')
    (hle' : pos' ≤ s.length + 1) (h : textAt s pos = textAt s pos') : pos = pos' := by
  have hlen := congrArg List.length h
  rw [length_textAt hpos, length_textAt hpos'] at hlen
  omega

end Positions

/-- `" \n\r\t"` -/
def isWhitespace (c : UInt8) : Bool := c = 32 || c = 10 || c = 13 || c = 9

/-- `"+-0123456789.e"` -/
def isNumberChar (c : UInt8) : Bool :=
  c = 43 || c = 45 || (48 ≤ c && c ≤ 57) || c = 46 || c = 101

/-- `decode_scanWhitespace` -/
def scanWhitespace (s : Str) (startPos : ℕ) : ℕ :=
  startPos + ((textAt s startPos).takeWhile isWhitespace).length

/-- The number of characters before the first `*/`. -/
def findCommentEnd : Str → Option ℕ
  | [] => none
  | c :: s => if c = 42 && s.head? = some 47 then some 0 else (findCommentEnd s).map (· + 1)

/-- `decode_scanComment` -/
def scanComment (s : Str) (startPos : ℕ) : Except Error ℕ :=
  match findCommentEnd (textAt s (startPos + 2)) with
  | some n => .ok (startPos + 2 + n + 2)
  | none => .error (.assertion (Str.ascii "Unterminated comment in string at " ++
      Str.decimal startPos))

/-- The loop of `decode_scanString`: the number of characters up to the delimiter `q`, the
delimiter included. -/
def scanDelimiter (q : UInt8) : Bool → Str → Option ℕ
  | _, [] => none
  | true, _ :: s => (scanDelimiter q false s).map (· + 1)
  | false, c :: s =>
    if c = LuaLiteral.backslash then (scanDelimiter q true s).map (· + 1)
    else if c = q then some 1
    else (scanDelimiter q false s).map (· + 1)

/-! ## Values -/

/-- The value that a chunk returns. -/
def Loaded.value (message : Str) : Loaded ρ → Except Error (Value ρ)
  | .syntaxError => .error (.assertion message)
  | .raises e => .error (.chunk e)
  | .returns v => .ok v

variable (H : Host ρ)

/-- `decode_scanString` -/
def scanString (s : Str) (startPos : ℕ) (q : UInt8) : Except Error (Value ρ × ℕ) :=
  match scanDelimiter q false (textAt s (startPos + 1)) with
  | none => .error (.assertion (Str.ascii
      "String decoding failed: unterminated string at position " ++ Str.decimal (s.length + 2)))
  | some n =>
    let endPos := startPos + 1 + n
    let stringValue := returnText ++ slice s startPos endPos
    ((H.loadstring stringValue).value (Str.ascii "Failed to load string [ " ++ stringValue ++
      Str.ascii "] in JSON4Lua.decode_scanString at position " ++ Str.decimal startPos ++
      Str.ascii " : " ++ Str.decimal endPos)).map fun v => (v, endPos)

/-- `decode_scanNumber` -/
def scanNumber (s : Str) (startPos : ℕ) : Except Error (Value ρ × ℕ) :=
  let endPos := startPos + 1 + ((textAt s (startPos + 1)).takeWhile isNumberChar).length
  let stringValue := returnText ++ slice s startPos endPos
  ((H.loadstring stringValue).value (Str.ascii "Failed to scan number [ " ++ stringValue ++
    Str.ascii "] in JSON string at position " ++ Str.decimal startPos ++ Str.ascii " : " ++
    Str.decimal endPos)).map fun v => (v, endPos)

/-- `decode_scanConstant`; the value of `null` is `nil`. -/
def scanConstant (s : Str) (startPos : ℕ) : Except Error (Value ρ × ℕ) :=
  let t := textAt s startPos
  if Str.ascii "true" <+: t then .ok (.boolean true, startPos + 4)
  else if Str.ascii "false" <+: t then .ok (.boolean false, startPos + 5)
  else if Str.ascii "null" <+: t then .ok (.nil, startPos + 4)
  else .error (.assertion (Str.ascii "Failed to scan constant from string " ++ s ++
    Str.ascii " at starting position " ++ Str.decimal startPos))

/-- The text of a key in a message: only strings and numbers can be concatenated. -/
def concatenated : Value ρ → Except Error Str
  | .string s => .ok s
  | .number n => .ok (H.tostring n)
  | _ => .error .concatenate

/-- `assert( condition, message )` -/
def luaAssert (condition : Bool) (message : Str) : Except Error Unit :=
  if condition then .ok () else .error (.assertion message)

/-- `assert( startPos <= stringLen, message )` -/
def assertInside (s : Str) (startPos : ℕ) (message : Str) : Except Error Unit :=
  luaAssert (startPos ≤ s.length) message

/-- The scan behind an element: a comma and the blanks around it. -/
def skipComma (s : Str) (startPos : ℕ) : ℕ :=
  if charAt s startPos = some 44 then scanWhitespace s (startPos + 1) else startPos

/-- The message of an object that ends behind a key. -/
def noValue (key : Str) : Str :=
  Str.ascii "JSON string ended unexpectedly searching for value of key " ++ key

variable [DecidableEq ρ]

/-- `object[key] = value`; that the key can be concatenated has been seen before. -/
def setKey (object : Table ρ) (key value : Value ρ) : Except Error (Table ρ) :=
  match key with
  | .string k => .ok (object.assign (.string k) value)
  | .number .nan => .error .nanIndex
  | .number n => .ok (object.assign (.number n) value)
  | _ => .error .concatenate

mutual

/-- `decode` -/
def decode : ℕ → Str → ℕ → Except Error (Value ρ × ℕ)
  | 0, _, _ => .error .unfinished
  | fuel + 1, s, startPos => do
    let startPos := scanWhitespace s startPos
    assertInside s startPos
      (Str.ascii "Unterminated JSON encoded object found at position in [" ++ s ++ Str.ascii "]")
    match charAt s startPos with
    | some c =>
      if c = 123 then scanObject fuel s (startPos + 1) []
      else if c = 91 then scanArray fuel s (startPos + 1) []
      else if isNumberChar c then scanNumber H s startPos
      else if isQuote c then scanString H s startPos c
      else if c = 47 && charAt s (startPos + 1) = some 42 then do
        decode fuel s (← scanComment s startPos)
      else scanConstant s startPos
    | none => scanConstant s startPos

/-- The loop of `decode_scanArray` -/
def scanArray : ℕ → Str → ℕ → Table ρ → Except Error (Value ρ × ℕ)
  | 0, _, _, _ => .error .unfinished
  | fuel + 1, s, startPos, array => do
    let startPos := scanWhitespace s startPos
    assertInside s startPos (Str.ascii "JSON String ended unexpectedly scanning array.")
    if charAt s startPos = some 93 then return (.table array, startPos + 1)
    let startPos := skipComma s startPos
    assertInside s startPos (Str.ascii "JSON String ended unexpectedly scanning array.")
    let (object, startPos) ← decode fuel s startPos
    scanArray fuel s startPos (tableInsert H array object)

/-- The loop of `decode_scanObject` -/
def scanObject : ℕ → Str → ℕ → Table ρ → Except Error (Value ρ × ℕ)
  | 0, _, _, _ => .error .unfinished
  | fuel + 1, s, startPos, object => do
    let startPos := scanWhitespace s startPos
    assertInside s startPos (Str.ascii "JSON string ended unexpectedly while scanning object.")
    if charAt s startPos = some 125 then return (.table object, startPos + 1)
    let startPos := skipComma s startPos
    assertInside s startPos (Str.ascii "JSON string ended unexpectedly scanning object.")
    let (key, startPos) ← decode fuel s startPos
    let keyText ← concatenated H key
    assertInside s startPos (noValue keyText)
    let startPos := scanWhitespace s startPos
    assertInside s startPos (noValue keyText)
    luaAssert (charAt s startPos = some 58)
      (Str.ascii "JSON object key-value assignment mal-formed at " ++ Str.decimal startPos)
    let startPos := scanWhitespace s (startPos + 1)
    assertInside s startPos (noValue keyText)
    let (value, startPos) ← decode fuel s startPos
    scanObject fuel s startPos (← setKey object key value)

end

end Jord.Json
