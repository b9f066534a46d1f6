import Jord.Foundations.Fields
import Jord.Json.Value

/-!
# Encoding

`encode` of the JSON module, and the functions it uses: `encodeString`, `isArray`, `isEncodable`.

A table is an array if all its keys are positive integers, except for keys with values that cannot
be encoded and for an `n` that holds the length; the elements up to the largest index are written,
and holes are written as `null`. From other tables the pairs are written whose key and value can be
encoded; a key is written as a string, so that a number becomes one.
-/

namespace Jord.Json

/-- The errors that the module raises, or runs into. -/
inductive Error
  /-- `assert` -/
  | assertion (message : Str)
  /-- attempt to concatenate a value that is neither a string nor a number -/
  | concatenate
  /-- table index is NaN -/
  | nanIndex
  /-- bad argument to `string.gsub` -/
  | gsub
  /-- The chunk that is made of a text raises an error. -/
  | chunk (message : Str)
  /-- A loop up to infinity is begun. -/
  | diverges
  /-- The recursion is deeper than the model follows. -/
  | unfinished
  deriving DecidableEq

variable {ρ : Type}

/-! ## Strings -/

/-- `encodeString` -/
def encodeString (s : Str) : Str :=
  let s := substitute 92 [92, 92] s
  let s := substitute 34 [92, 34] s
  let s := substitute 39 [92, 39] s
  let s := substitute 10 [92, 110] s
  substitute 9 [92, 116] s

/-- `isEncodable` -/
def isEncodable : Value ρ → Bool
  | .other _ _ => false
  | _ => true

/-- `isEncodable` of a key -/
def isEncodableKey : Key ρ → Bool
  | .other _ _ => false
  | _ => true

/-! ## Arrays -/

/-- What `isArray` takes for an index: an integer, or infinity, which is its own `math.floor`. -/
inductive Index
  | natural (n : ℕ)
  | infinity
  deriving DecidableEq

/-- `math.max` -/
def Index.max : Index → Index → Index
  | .natural m, .natural n => .natural (Nat.max m n)
  | _, _ => .infinity

/-- The index that a key is. -/
def Key.index? : Key ρ → Option Index
  | .number (.natural n) => if 1 ≤ n then some (.natural n) else none
  | .number .infinity => some .infinity
  | _ => none

/-- The value is the number `n`. -/
def Value.isNatural (n : ℕ) : Value ρ → Bool
  | .number (.natural m) => m = n
  | _ => false

variable [DecidableEq ρ] (H : Host ρ)

/-- The loop of `isArray` over the pairs of the table `t`. -/
def isArrayLoop (t : Table ρ) : Table ρ → Index → Option Index
  | [], maxIndex => some maxIndex
  | (k, v) :: rest, maxIndex =>
    match k.index? with
    | some i => if isEncodable v then isArrayLoop t rest (maxIndex.max i) else none
    | none =>
      if k = .string (Str.ascii "n") then
        if v.isNatural (H.getn t) then isArrayLoop t rest maxIndex else none
      else if isEncodable v then none
      else isArrayLoop t rest maxIndex

/-- `isArray`: the largest index, if the table is an array. -/
def isArray (t : Table ρ) : Option Index := isArrayLoop H t t (.natural 0)

/-! ## Values -/

/-- `table.concat( rval, ',' )` between brackets -/
def bracketed (left right : UInt8) (rval : List Str) : Str :=
  left :: [44].intercalate rval ++ [right]

omit [DecidableEq ρ] in
/-- `encodeString` of a key; a number is taken for a string. -/
def encodeKey : Key ρ → Except Error Str
  | .string s => .ok (encodeString s)
  | .number n => .ok (encodeString (H.tostring n))
  | _ => .error .gsub

/-- The error of a value that cannot be encoded. -/
def unsupported (type : Str) (address : ℕ) : Error :=
  .assertion (Str.ascii "encode attempt to encode unsupported type " ++ type ++ Str.ascii ":" ++
    H.describe type address)

/-- The pairs of a table that are written. -/
def encodablePairs (t : Table ρ) : Table ρ :=
  t.filter fun p => isEncodableKey p.1 && isEncodable p.2

/-- `encode` -/
def encode : Value ρ → Except Error Str
  | .nil => .ok (Str.ascii "null")
  | .string s => .ok (34 :: encodeString s ++ [34])
  | .number n => .ok (H.tostring n)
  | .boolean b => .ok (if b then Str.ascii "true" else Str.ascii "false")
  | .table t =>
    match isArray H t with
    | some .infinity => .error .diverges
    | some (.natural maxCount) => do
      let rval ← (List.range maxCount).mapM fun i => encode (Table.get t (.index (i + 1)))
      return bracketed 91 93 rval
    | none => do
      let rval ← (encodablePairs t).attach.mapM fun p => do
        let key ← encodeKey H p.1.1
        let value ← encode p.1.2
        return 34 :: key ++ [34, 58] ++ value
      return bracketed 123 125 rval
  | .null => .ok (Str.ascii "null")
  | .other type address => .error (unsupported H type address)
termination_by v => v
decreasing_by
  · exact Table.sizeOf_get_lt t _
  · exact Table.sizeOf_lt_of_mem (List.mem_of_mem_filter p.2)

/-- A pair of an object. -/
def encodePair (p : Key ρ × Value ρ) : Except Error Str := do
  let key ← encodeKey H p.1
  let value ← encode H p.2
  return 34 :: key ++ [34, 58] ++ value

theorem encode_table (t : Table ρ) : encode H (.table t) =
    match isArray H t with
    | some .infinity => .error .diverges
    | some (.natural maxCount) =>
      ((List.range maxCount).mapM fun i => encode H (Table.get t (.index (i + 1)))).map
        (bracketed 91 93)
    | none => ((encodablePairs t).mapM (encodePair H)).map (bracketed 123 125) := by
  rw [encode]
  split
  · rfl
  · rfl
  · rw [List.mapM_subtype (g := encodePair H) (fun p hp => rfl), List.unattach_attach]
    rfl

end Jord.Json
