import Jord.Foundations.LuaLiteral
import Mathlib.Data.List.Nodup

/-!
# Values of Lua

What the JSON module works with. A table is the list of its pairs in the order in which `pairs`
enumerates them; tables without cycles are trees. Integers from 0 on are told apart from other
numbers, since the array part of a table is looked up by them.

`Host` is what the module relies on: how numbers become strings, what `loadstring` makes of a chunk,
and the border that `#` finds in a table. `Host.Lawful` is what the manual says about these.
-/

namespace Jord.Json

/-- A number. `ρ` is the type of the numbers that are neither integers from 0 on nor special. -/
inductive Number (ρ : Type)
  | natural (n : ℕ)
  | infinity
  | nan
  | other (r : ρ)
  deriving DecidableEq

/-- What a table can have as a key; a table is known by its address, and so are functions. -/
inductive Key (ρ : Type)
  | boolean (b : Bool)
  | number (n : Number ρ)
  | string (s : Str)
  | table (address : ℕ)
  | null
  | other (type : Str) (address : ℕ)
  deriving DecidableEq

/-- A value; `null` is the function `json.null`, and `other` any other function, a userdata or a
thread. -/
inductive Value (ρ : Type)
  | nil
  | boolean (b : Bool)
  | number (n : Number ρ)
  | string (s : Str)
  | null
  | other (type : Str) (address : ℕ)
  | table (pairs : List (Key ρ × Value ρ))

variable {ρ : Type}

/-- The pairs of a table. -/
abbrev Table (ρ : Type) := List (Key ρ × Value ρ)

/-- `v == nil` -/
def Value.isNil : Value ρ → Bool
  | .nil => true
  | _ => false

theorem Value.isNil_iff {v : Value ρ} : v.isNil = true ↔ v = .nil := by
  cases v <;> simp [isNil]

/-- The key of an array element. -/
abbrev Key.index (i : ℕ) : Key ρ := .number (.natural i)

namespace Table

variable [DecidableEq ρ]

/-- `t[k]` -/
def get (t : Table ρ) (k : Key ρ) : Value ρ :=
  match t.find? fun p => p.1 = k with
  | some p => p.2
  | none => .nil

/-- `t[k] = v` -/
def assign (t : Table ρ) (k : Key ρ) (v : Value ρ) : Table ρ :=
  if v.isNil then t.filter fun p => p.1 ≠ k
  else if t.any fun p => p.1 = k then t.map fun p => if p.1 = k then (k, v) else p
  else t ++ [(k, v)]

omit [DecidableEq ρ] in
/-- The table with the elements of a list, the first at index `n`. -/
def sequenceFrom (n : ℕ) : List (Value ρ) → Table ρ
  | [] => []
  | v :: vs => (.index n, v) :: sequenceFrom (n + 1) vs

omit [DecidableEq ρ] in
/-- The array of a list. -/
def sequence (vs : List (Value ρ)) : Table ρ := sequenceFrom 1 vs

/-- Every value of a table is smaller than the table. -/
theorem sizeOf_get_lt (t : Table ρ) (k : Key ρ) :
    sizeOf (get t k) < sizeOf (Value.table t) := by
  unfold get
  split
  · next p hp =>
    have hmem := List.mem_of_find?_eq_some hp
    have hlt := List.sizeOf_lt_of_mem hmem
    obtain ⟨k', v⟩ := p
    simp only [Prod.mk.sizeOf_spec] at hlt
    simp only [Value.table.sizeOf_spec]
    omega
  · simp only [Value.nil.sizeOf_spec, Value.table.sizeOf_spec]
    cases t <;> simp only [List.nil.sizeOf_spec, List.cons.sizeOf_spec] <;> omega

omit [DecidableEq ρ] in
theorem sizeOf_lt_of_mem {t : Table ρ} {p : Key ρ × Value ρ} (hp : p ∈ t) :
    sizeOf p.2 < sizeOf (Value.table t) := by
  have hlt := List.sizeOf_lt_of_mem hp
  obtain ⟨k, v⟩ := p
  simp only [Prod.mk.sizeOf_spec] at hlt
  simp only [Value.table.sizeOf_spec]
  omega

/-! ## Arrays -/

theorem get_sequenceFrom (vs : List (Value ρ)) (n i : ℕ) :
    get (sequenceFrom n vs) (.index i) = if n ≤ i then vs[i - n]?.getD .nil else .nil := by
  induction vs generalizing n with
  | nil =>
    rw [sequenceFrom, get]
    simp
  | cons v vs ih =>
    by_cases hi : i = n
    · subst hi
      simp [sequenceFrom, get]
    · have hskip : get (sequenceFrom n (v :: vs)) (.index i) =
          get (sequenceFrom (n + 1) vs) (.index i) := by
        rw [get, sequenceFrom, List.find?_cons_of_neg]
        · rfl
        · simpa using Ne.symm hi
      rw [hskip, ih]
      by_cases hle : n ≤ i
      · rw [if_pos (by omega), if_pos hle, show i - n = i - (n + 1) + 1 by omega,
          List.getElem?_cons_succ]
      · rw [if_neg (by omega), if_neg hle]

theorem get_sequence (vs : List (Value ρ)) {i : ℕ} (hi : 1 ≤ i) :
    get (sequence vs) (.index i) = vs[i - 1]?.getD .nil := by
  rw [sequence, get_sequenceFrom, if_pos hi]

omit [DecidableEq ρ] in
theorem sequenceFrom_append (n : ℕ) (vs ws : List (Value ρ)) :
    sequenceFrom n (vs ++ ws) = sequenceFrom n vs ++ sequenceFrom (n + vs.length) ws := by
  induction vs generalizing n with
  | nil => rfl
  | cons v vs ih =>
    rw [List.cons_append, sequenceFrom, ih, sequenceFrom, List.cons_append, List.length_cons,
      Nat.add_right_comm, Nat.add_assoc]

omit [DecidableEq ρ] in
theorem mem_sequenceFrom {vs : List (Value ρ)} {n : ℕ} {p : Key ρ × Value ρ}
    (hp : p ∈ sequenceFrom n vs) : ∃ i, n ≤ i ∧ i < n + vs.length ∧ p.1 = .index i ∧ p.2 ∈ vs := by
  induction vs generalizing n with
  | nil => cases hp
  | cons v vs ih =>
    rw [List.length_cons]
    rcases List.mem_cons.1 hp with rfl | hp
    · exact ⟨n, le_rfl, by omega, rfl, List.mem_cons_self⟩
    · obtain ⟨i, hle, hlt, hkey, hval⟩ := ih hp
      exact ⟨i, by omega, by omega, hkey, List.mem_cons_of_mem _ hval⟩

/-- An element assigned behind the last one. -/
theorem assign_sequence (vs : List (Value ρ)) {v : Value ρ} (hv : v ≠ .nil) :
    assign (sequence vs) (.index (vs.length + 1)) v = sequence (vs ++ [v]) := by
  have hnot : (sequence vs).any (fun p => p.1 = .index (vs.length + 1)) = false := by
    rw [List.any_eq_false]
    intro p hp
    obtain ⟨i, -, hlt, hkey, -⟩ := mem_sequenceFrom hp
    simp only [hkey, decide_eq_true_eq, Key.number.injEq, Number.natural.injEq]
    omega
  rw [assign, if_neg (by rwa [Value.isNil_iff]), hnot, if_neg (by decide), sequence, sequence,
    sequenceFrom_append, Nat.add_comm 1]
  rfl

/-- Nothing assigned behind the last element. -/
theorem assign_sequence_nil (vs : List (Value ρ)) :
    assign (sequence vs) (.index (vs.length + 1)) .nil = sequence vs := by
  rw [assign, if_pos (Value.isNil_iff.2 rfl), List.filter_eq_self]
  intro p hp
  obtain ⟨i, -, hlt, hkey, -⟩ := mem_sequenceFrom hp
  simp only [hkey, ne_eq, decide_eq_true_eq, Key.number.injEq, Number.natural.injEq]
  omega

end Table

/-! ## The host -/

/-- What `loadstring` makes of a chunk, and what the chunk does when it is called. -/
inductive Loaded (ρ : Type)
  | syntaxError
  | raises (message : Str)
  | returns (v : Value ρ)

/-- What the module uses of Lua. -/
structure Host (ρ : Type) where
  /-- `tostring` of a number -/
  tostring : Number ρ → Str
  /-- `tostring` of a function, userdata or thread -/
  describe : Str → ℕ → Str
  /-- `loadstring`, and a call of what it returns -/
  loadstring : Str → Loaded ρ
  /-- `table.getn`, the length of a table -/
  getn : Table ρ → ℕ

/-- `'return '` -/
def returnText : Str := Str.ascii "return "

/-- `'"'` or `'\''` -/
def isQuote (c : UInt8) : Bool := c = 34 || c = 39

/-- What the manual says: the length of a table is a border, and the value of a string literal is
returned by a chunk that does nothing else; a chunk with a literal that is not one is an error. -/
structure Host.Lawful [DecidableEq ρ] (H : Host ρ) : Prop where
  border : ∀ t, (H.getn t = 0 ∨ Table.get t (.index (H.getn t)) ≠ .nil) ∧
    Table.get t (.index (H.getn t + 1)) = .nil
  literal : ∀ q s v, isQuote q → LuaLiteral.read q s = some (v, []) →
    H.loadstring (returnText ++ q :: s) = .returns (.string v)
  broken : ∀ q s, isQuote q → LuaLiteral.read q s = none →
    H.loadstring (returnText ++ q :: s) = .syntaxError

/-- `table.insert( t, v )` -/
def tableInsert [DecidableEq ρ] (H : Host ρ) (t : Table ρ) (v : Value ρ) : Table ρ :=
  t.assign (.index (H.getn t + 1)) v

/-- The length of an array is the number of its elements. -/
theorem Host.Lawful.getn_sequence [DecidableEq ρ] {H : Host ρ} (hH : H.Lawful)
    {vs : List (Value ρ)} (hvs : ∀ v ∈ vs, v ≠ .nil) : H.getn (Table.sequence vs) = vs.length := by
  obtain ⟨hlast, hnext⟩ := hH.border (Table.sequence vs)
  have hget : ∀ i, 1 ≤ i → (Table.get (Table.sequence vs) (.index i) = .nil ↔ vs.length < i) := by
    intro i hi
    rw [Table.get_sequence vs hi]
    constructor
    · intro h
      by_contra hlt
      have hget : vs[i - 1]? = some vs[i - 1] := List.getElem?_eq_getElem (by omega)
      rw [hget, Option.getD_some] at h
      exact hvs _ (List.getElem_mem _) h
    · intro h
      rw [List.getElem?_eq_none (by omega)]
      rfl
  have hlt := (hget _ (Nat.le_add_left 1 _)).1 hnext
  rcases hlast with hzero | hne
  · omega
  · by_contra hne'
    have hpos : 1 ≤ H.getn (Table.sequence vs) := by
      by_contra hzero
      have h0 : H.getn (Table.sequence vs) = 0 := by omega
      rw [h0, Table.sequence, Table.get_sequenceFrom, if_neg (by decide)] at hne
      exact hne rfl
    apply hne
    exact (hget _ hpos).2 (by omega)

/-- **`table.insert` on an array**: the value is put behind the last element, and `nil` is lost. -/
theorem tableInsert_sequence [DecidableEq ρ] {H : Host ρ} (hH : H.Lawful) {vs : List (Value ρ)}
    (hvs : ∀ v ∈ vs, v ≠ .nil) (v : Value ρ) : tableInsert H (.sequence vs) v =
      .sequence (vs ++ if v.isNil then [] else [v]) := by
  rw [tableInsert, hH.getn_sequence hvs]
  by_cases hv : v = .nil
  · rw [hv, Table.assign_sequence_nil]
    exact congrArg Table.sequence (List.append_nil vs).symm
  · rw [Table.assign_sequence vs hv, if_neg (by rwa [Value.isNil_iff])]

/-! ## A host with natural numbers -/

/-- The index of an element, and 0 for any other pair. -/
def elementIndex [DecidableEq ρ] (t : Table ρ) : Key ρ × Value ρ → ℕ
  | (.number (.natural n), _) => if (Table.get t (.index n)).isNil then 0 else n
  | _ => 0

/-- The largest index of an element. -/
def lastIndex [DecidableEq ρ] (t : Table ρ) : ℕ := (t.map (elementIndex t)).max?.getD 0

/-- The largest index is a border. -/
theorem lastIndex_border [DecidableEq ρ] (t : Table ρ) :
    (lastIndex t = 0 ∨ Table.get t (.index (lastIndex t)) ≠ .nil) ∧
      Table.get t (.index (lastIndex t + 1)) = .nil := by
  have hle : ∀ p ∈ t, elementIndex t p ≤ lastIndex t := by
    intro p hp
    have hmem := List.mem_map_of_mem (f := elementIndex t) hp
    obtain ⟨m, hm⟩ := Option.isSome_iff_exists.1 (List.isSome_max?_of_mem hmem)
    rw [lastIndex, hm]
    exact (List.max?_eq_some_iff.1 hm).2 _ hmem
  constructor
  · cases hm : (t.map (elementIndex t)).max? with
    | none =>
      left
      rw [lastIndex, hm]
      rfl
    | some m =>
      rw [lastIndex, hm, Option.getD_some]
      obtain ⟨⟨k, v⟩, hp, hk⟩ := List.mem_map.1 (List.max?_eq_some_iff.1 hm).1
      unfold elementIndex at hk
      split at hk
      · split_ifs at hk with hnil
        · exact .inl hk.symm
        · right
          rw [← hk]
          exact fun h => hnil (Value.isNil_iff.2 h)
      · exact .inl hk.symm
  · by_contra hne
    cases hfind : t.find? fun p => p.1 = .index (lastIndex t + 1) with
    | none =>
      rw [Table.get, hfind] at hne
      exact hne rfl
    | some p =>
      obtain ⟨k, v⟩ := p
      have hkey : k = .index (lastIndex t + 1) := by simpa using List.find?_some hfind
      have hindex := hle _ (List.mem_of_find?_eq_some hfind)
      rw [hkey, elementIndex, if_neg (by rwa [Value.isNil_iff])] at hindex
      omega

/-- A host in which `loadstring` knows the literals of strings and of natural numbers, and in which
there are no other numbers. -/
def naturalHost : Host Empty where
  tostring
    | .natural n => Str.decimal n
    | .infinity => Str.ascii "inf"
    | .nan => Str.ascii "nan"
  describe type address := type ++ Str.ascii ": " ++ Str.decimal address
  loadstring chunk :=
    match chunk.drop returnText.length with
    | [] => .returns .nil
    | c :: s =>
      if isQuote c then
        match LuaLiteral.read c s with
        | some (v, []) => .returns (.string v)
        | _ => .syntaxError
      else if (c :: s).all LuaLiteral.isDigit then
        .returns (.number (.natural ((c :: s).foldl (fun n d => 10 * n + (d.toNat - 48)) 0)))
      else .syntaxError
  getn := lastIndex

theorem naturalHost_lawful : naturalHost.Lawful := by
  constructor
  · exact lastIndex_border
  · intro q s v hq hv
    have hdrop : (returnText ++ q :: s).drop returnText.length = q :: s := List.drop_left
    simp only [naturalHost, hdrop, hq, hv, if_true]
  · intro q s hq hv
    have hdrop : (returnText ++ q :: s).drop returnText.length = q :: s := List.drop_left
    simp only [naturalHost, hdrop, hq, hv, if_true]

end Jord.Json
