import Jord.Json.Complete

/-!
# Decoding what has been encoded

What `decode` makes of a text that `encode` has written. Strings are escaped character by character
(`encodeString_eq`), but a carriage return is written as it is, and a string literal of Lua must not
have one (`read_encodeString`). Apart from that a text is read back (`decode_encode_iff`), but not
as the value it was written from (`survives`): what is `null` vanishes, so that the elements behind
it move to the front, keys that are numbers become strings, and of several keys with one text the
last wins.
-/

namespace Jord.Json

open LuaLiteral

variable {ρ : Type}

/-! ## Strings -/

/-- What `encodeString` makes of a character. -/
def escapeChar (c : UInt8) : Str :=
  if c = 92 then [92, 92] else if c = 34 then [92, 34] else if c = 39 then [92, 39]
  else if c = 10 then [92, 110] else if c = 9 then [92, 116] else [c]

/-- **The five substitutions do not interfere.** -/
theorem encodeString_eq (s : Str) : encodeString s = s.flatMap escapeChar := by
  unfold encodeString substitute
  simp only [List.flatMap_assoc]
  congr 1
  funext c
  unfold escapeChar
  split_ifs <;> simp_all

/-- An escaped character stands for itself, unless it is a carriage return. -/
theorem writes_escapeChar {c : UInt8} (hc : c ≠ 13) : Writes 34 (escapeChar c) [c] := by
  unfold escapeChar
  split_ifs with h92 h34 h39 h10 h9
  · rw [h92]
    exact writes_escape (by decide) (by decide) (by decide)
  · rw [h34]
    exact writes_escape (by decide) (by decide) (by decide)
  · rw [h39]
    exact writes_escape (by decide) (by decide) (by decide)
  · rw [h10]
    exact writes_escape (by decide) (by decide) (by decide)
  · rw [h9]
    exact writes_escape (by decide) (by decide) (by decide)
  · apply writes_plain h34 _ h92
    simp [isNewline, h10, hc]

theorem writes_encodeString {s : Str} (hs : 13 ∉ s) : Writes 34 (encodeString s) s := by
  rw [encodeString_eq]
  induction s with
  | nil => exact Writes.nil
  | cons c s ih =>
    rw [List.mem_cons, not_or] at hs
    exact (writes_escapeChar (Ne.symm hs.1)).append (ih hs.2)

/-- **An encoded string in quotes** is a literal exactly if the string has no carriage return. -/
theorem read_encodeString (s t : Str) :
    read 34 (encodeString s ++ 34 :: t) = if 13 ∈ s then none else some (s, t) := by
  split_ifs with hs
  · -- the lexer comes to the first carriage return
    obtain ⟨pre, post, rfl, hpre⟩ := List.eq_append_cons_of_mem hs
    have hsplit : encodeString (pre ++ 13 :: post) =
        encodeString pre ++ 13 :: encodeString post := by
      rw [encodeString_eq, encodeString_eq, encodeString_eq, List.flatMap_append,
        List.flatMap_cons]
      rfl
    change readFrom 34 .plain [] _ = none
    rw [hsplit, List.append_assoc, writes_encodeString hpre, List.cons_append]
    exact readFrom_newline (by decide) (by decide) _ _
  · exact (writes_encodeString hs).read_append t

/-! ## What survives -/

variable [DecidableEq ρ] (H : Host ρ)

/-- What is read where a number has been written. -/
def reread (n : Number ρ) : Value ρ :=
  match H.loadstring (returnText ++ H.tostring n) with
  | .returns v => v
  | _ => .nil

/-- The number is written with characters of numbers only, and what is written can be evaluated. -/
structure Legible (n : Number ρ) : Prop where
  ne_nil : H.tostring n ≠ []
  all : ∀ c ∈ H.tostring n, isNumberChar c
  loaded : ∃ v, H.loadstring (returnText ++ H.tostring n) = .returns v

/-- The text of a key. -/
def keyText : Key ρ → Str
  | .string s => s
  | .number n => H.tostring n
  | _ => []

/-- **What is left of a value** that is encoded and decoded. -/
def survives : Value ρ → Value ρ
  | .number n => reread H n
  | .null => .nil
  | .table t =>
    match isArray H t with
    | some .infinity => .nil
    | some (.natural maxCount) => .table (Table.sequence
        ((List.range maxCount).flatMap fun i => kept (survives (Table.get t (.index (i + 1))))))
    | none => .table (assignAll [] ((encodablePairs t).attach.map fun p =>
        (.string (keyText H p.1.1), survives p.1.2)))
  | .nil => .nil
  | .boolean b => .boolean b
  | .string s => .string s
  | .other _ _ => .nil
termination_by v => v
decreasing_by
  · exact Table.sizeOf_get_lt t _
  · exact Table.sizeOf_lt_of_mem (List.mem_of_mem_filter p.2)

/-- The strings and numbers that are written have the properties. -/
def AllWritten (str : Str → Prop) (num : Number ρ → Prop) : Value ρ → Prop
  | .string s => str s
  | .number n => num n
  | .table t =>
    match isArray H t with
    | some .infinity => True
    | some (.natural maxCount) =>
      ∀ i < maxCount, AllWritten str num (Table.get t (.index (i + 1)))
    | none => ∀ p : {p // p ∈ encodablePairs t},
        str (keyText H p.1.1) ∧ AllWritten str num p.1.2
  | .nil => True
  | .boolean _ => True
  | .null => True
  | .other _ _ => True
termination_by v => v
decreasing_by
  · exact Table.sizeOf_get_lt t _
  · exact Table.sizeOf_lt_of_mem (List.mem_of_mem_filter p.2)

/-- No string that is written has a carriage return. -/
def NoReturns (v : Value ρ) : Prop := AllWritten H (13 ∉ ·) (fun _ => True) v

/-- Every number that is written is legible. -/
def NumbersLegible (v : Value ρ) : Prop := AllWritten H (fun _ => True) (Legible H) v

variable {H}

theorem survives_array {t : Table ρ} {m : ℕ} (h : isArray H t = some (.natural m)) :
    survives H (.table t) = .table (Table.sequence
      ((List.range m).flatMap fun i => kept (survives H (Table.get t (.index (i + 1)))))) := by
  rw [survives, h]

/-- What is left of a pair of an object. -/
def survivingPair (H : Host ρ) (p : Key ρ × Value ρ) : Key ρ × Value ρ :=
  (.string (keyText H p.1), survives H p.2)

theorem survives_object {t : Table ρ} (h : isArray H t = none) : survives H (.table t) =
    .table (assignAll [] ((encodablePairs t).map (survivingPair H))) := by
  have hmap := congrArg (List.map (survivingPair H))
    (List.attach_map_subtype_val (encodablePairs t))
  rw [List.map_map] at hmap
  rw [survives, h, ← hmap]
  rfl

theorem allWritten_array {str : Str → Prop} {num : Number ρ → Prop} {t : Table ρ} {m : ℕ}
    (h : isArray H t = some (.natural m)) : AllWritten H str num (.table t) ↔
      ∀ i < m, AllWritten H str num (Table.get t (.index (i + 1))) := by
  rw [AllWritten, h]

theorem allWritten_object {str : Str → Prop} {num : Number ρ → Prop} {t : Table ρ}
    (h : isArray H t = none) : AllWritten H str num (.table t) ↔
      ∀ p ∈ encodablePairs t, str (keyText H p.1) ∧ AllWritten H str num p.2 := by
  rw [AllWritten, h]
  exact ⟨fun h p hp => h ⟨p, hp⟩, fun h p => h p.1 p.2⟩

/-! ## Reading what has been written -/

/-- The text does not go on with a character of a number. -/
def Stops (t : Str) : Prop := ∀ c ∈ t.head?, isNumberChar c = false

/-- The text begins with a character that is no blank, comma or closing bracket. -/
def Begins (t : Str) : Prop :=
  ∃ c u, t = c :: u ∧ isWhitespace c = false ∧ c ≠ 44 ∧ c ≠ 93 ∧ c ≠ 125

/-- The text `t` is read as the value `v` wherever it stands, if the condition holds, and as nothing
if it does not. -/
structure Text (H : Host ρ) (t : Str) (v : Value ρ) (clean : Prop) : Prop where
  begins : Begins t
  reads : ∀ rest, Stops rest → ∀ v' r,
    Reads H (t ++ rest) (.value v') r ↔ clean ∧ v' = v ∧ r = rest

theorem reads_quote_iff {q : UInt8} (hq : isQuote q) {t : Str} {v : Value ρ} {r : Str} :
    Reads H (q :: t) (.value v) r ↔ ∃ w, v = .string w ∧ LuaLiteral.read q t = some (w, r) := by
  obtain ⟨hblank, h123, h91, hnumber⟩ := of_isQuote hq
  have hfirst : ∀ {a b : UInt8} {as bs : Str}, a :: as = b :: bs → isQuote a → isQuote b := by
    intro a b as bs h ha
    rwa [← (List.cons.inj h).1]
  constructor
  · intro h
    generalize ht : q :: t = u at h
    cases h with
    | blank hc _ => simp [(List.cons.inj ht).1, hc] at hblank
    | comment _ _ => exact absurd (hfirst ht hq) (by decide)
    | number hc _ => simp [(List.cons.inj ht).1, hc] at hnumber
    | string _ hv =>
      obtain ⟨rfl, rfl⟩ := List.cons.inj ht
      exact ⟨_, rfl, hv⟩
    | true => exact absurd (hfirst ht hq) (by decide)
    | false => exact absurd (hfirst ht hq) (by decide)
    | null => exact absurd (hfirst ht hq) (by decide)
    | array _ => exact absurd (List.cons.inj ht).1 h91
    | object _ => exact absurd (List.cons.inj ht).1 h123
  · rintro ⟨w, rfl, hw⟩
    exact .string hq hw

theorem reads_bracket_iff {t : Str} {v : Value ρ} {r : Str} : Reads H (91 :: t) (.value v) r ↔
    ∃ vs, v = .table (Table.sequence vs) ∧ Reads H t (.elements vs) r := by
  constructor
  · intro h
    generalize ht : 91 :: t = u at h
    cases h with
    | blank hc _ => exact absurd ((List.cons.inj ht).1 ▸ hc) (by decide)
    | number hc _ => exact absurd ((List.cons.inj ht).1 ▸ hc) (by decide)
    | string hq _ => exact absurd ((List.cons.inj ht).1 ▸ hq) (by decide)
    | array h =>
      obtain rfl := (List.cons.inj ht).2
      exact ⟨_, rfl, h⟩
    | _ => exact absurd (List.cons.inj ht).1 (by decide)
  · rintro ⟨vs, rfl, h⟩
    exact .array h

theorem reads_brace_iff {t : Str} {v : Value ρ} {r : Str} : Reads H (123 :: t) (.value v) r ↔
    ∃ ms, v = .table (assignAll [] ms) ∧ Reads H t (.members ms) r := by
  constructor
  · intro h
    generalize ht : 123 :: t = u at h
    cases h with
    | blank hc _ => exact absurd ((List.cons.inj ht).1 ▸ hc) (by decide)
    | number hc _ => exact absurd ((List.cons.inj ht).1 ▸ hc) (by decide)
    | string hq _ => exact absurd ((List.cons.inj ht).1 ▸ hq) (by decide)
    | object h =>
      obtain rfl := (List.cons.inj ht).2
      exact ⟨_, rfl, h⟩
    | _ => exact absurd (List.cons.inj ht).1 (by decide)
  · rintro ⟨ms, rfl, h⟩
    exact .object h

theorem reads_number_iff {c : UInt8} (hc : isNumberChar c) {t : Str} {v : Value ρ} {r : Str} :
    Reads H (c :: t) (.value v) r ↔
      H.loadstring (returnText ++ c :: t.takeWhile isNumberChar) = .returns v ∧
        r = t.dropWhile isNumberChar := by
  constructor
  · intro h
    generalize ht : c :: t = u at h
    have hfirst : ∀ {b : UInt8} {bs : Str}, c :: t = b :: bs → isNumberChar b := by
      intro b bs h
      rwa [← (List.cons.inj h).1]
    cases h with
    | blank hb _ => exact absurd hb (by simp [isWhitespace_of_isNumberChar (hfirst ht)])
    | number _ hv =>
      obtain ⟨rfl, rfl⟩ := List.cons.inj ht
      exact ⟨hv, rfl⟩
    | string hq _ =>
      obtain ⟨-, -, -, hnumber⟩ := of_isQuote hq
      exact absurd (hfirst ht) (by simp [hnumber])
    | _ => exact absurd (hfirst ht) (by decide)
  · rintro ⟨hv, rfl⟩
    exact .number hc hv

/-! ## Lists of elements and members -/

theorem afterBlanks_cons {c : UInt8} (hc : isWhitespace c = false) (t : Str) :
    afterBlanks (c :: t) = c :: t :=
  List.dropWhile_cons_of_neg (by simp [hc])

theorem Begins.afterBlanks {t : Str} (ht : Begins t) (u : Str) :
    afterBlanks (t ++ u) = t ++ u := by
  obtain ⟨c, t', rfl, hc, -⟩ := ht
  exact afterBlanks_cons hc _

/-- What begins neither with a blank nor with a comma is there behind a comma, or without one. -/
theorem Begins.afterComma {t : Str} (ht : Begins t) (u : Str) :
    afterComma (t ++ u) = t ++ u ∧ Json.afterComma (44 :: (t ++ u)) = t ++ u := by
  have hblanks := ht.afterBlanks u
  constructor
  · obtain ⟨c, t', rfl, -, hcomma, -⟩ := ht
    unfold Json.afterComma
    rw [hblanks]
    exact if_neg hcomma
  · unfold Json.afterComma
    rw [afterBlanks_cons (by decide)]
    exact hblanks

theorem reads_elements_iff {t : Str} {ws : List (Value ρ)} {r : Str} :
    Reads H t (.elements ws) r ↔ afterBlanks t = 93 :: r ∧ ws = [] ∨
      (afterBlanks t).head? ≠ some 93 ∧ ∃ v t' ws', ws = kept v ++ ws' ∧
        Reads H (afterComma t) (.value v) t' ∧ Reads H t' (.elements ws') r := by
  constructor
  · intro h
    cases h with
    | arrayEnd h => exact .inl ⟨h, rfl⟩
    | element hend hv h => exact .inr ⟨hend, _, _, _, rfl, hv, h⟩
  · rintro (⟨h, rfl⟩ | ⟨hend, v, t', ws', rfl, hv, h⟩)
    · exact .arrayEnd h
    · exact .element hend hv h

theorem reads_members_iff {t : Str} {ms : Table ρ} {r : Str} :
    Reads H t (.members ms) r ↔ afterBlanks t = 125 :: r ∧ ms = [] ∨
      (afterBlanks t).head? ≠ some 125 ∧ ∃ k t₁ key t₂ v t₃ ms', ms = (key, v) :: ms' ∧
        Reads H (afterComma t) (.value k) t₁ ∧ keyOf k = some key ∧ afterBlanks t₁ = 58 :: t₂ ∧
        Reads H t₂ (.value v) t₃ ∧ Reads H t₃ (.members ms') r := by
  constructor
  · intro h
    cases h with
    | objectEnd h => exact .inl ⟨h, rfl⟩
    | member hend hk hkey hcolon hv h =>
      exact .inr ⟨hend, _, _, _, _, _, _, _, rfl, hk, hkey, hcolon, hv, h⟩
  · rintro (⟨h, rfl⟩ | ⟨hend, k, t₁, key, t₂, v, t₃, ms', rfl, hk, hkey, hcolon, hv, h⟩)
    · exact .objectEnd h
    · exact .member hend hk hkey hcolon hv h

section Lists

variable {α : Type} {text : α → Str} {value : α → Value ρ} {clean : α → Prop} {xs : List α}

theorem stops_cons {c : UInt8} (hc : isNumberChar c = false) (t : Str) : Stops (c :: t) := by
  intro c' hc'
  rwa [← Option.some.inj hc']

/-- What follows an element or a member: a comma, or the closing bracket. -/
theorem stops_rest (xs : List α) (f : α → Str) {c : UInt8} (hc : isNumberChar c = false) (t : Str) :
    Stops (xs.flatMap (fun x => 44 :: f x) ++ c :: t) := by
  cases xs with
  | nil => exact stops_cons hc t
  | cons x xs => exact stops_cons (by decide) _

/-- An element, with or without a comma in front of it. -/
theorem reads_element_step {x : α} (hx : Text H (text x) (value x) (clean x)) {t y : Str}
    (hhead : (afterBlanks t).head? ≠ some 93) (ht : afterComma t = text x ++ y) (hy : Stops y)
    {ws : List (Value ρ)} {r : Str} : Reads H t (.elements ws) r ↔
      clean x ∧ ∃ ws', ws = kept (value x) ++ ws' ∧ Reads H y (.elements ws') r := by
  rw [reads_elements_iff, ht]
  constructor
  · rintro (⟨h, -⟩ | ⟨-, v, t', ws', rfl, hv, h⟩)
    · exact absurd (by rw [h, List.head?_cons]) hhead
    · obtain ⟨hclean, rfl, rfl⟩ := (hx.reads y hy v t').1 hv
      exact ⟨hclean, ws', rfl, h⟩
  · rintro ⟨hclean, ws', rfl, h⟩
    exact .inr ⟨hhead, _, y, ws', rfl, (hx.reads y hy _ _).2 ⟨hclean, rfl, rfl⟩, h⟩

/-- The elements behind the first. -/
theorem reads_elements (hxs : ∀ x ∈ xs, Text H (text x) (value x) (clean x)) (rest : Str)
    {ws : List (Value ρ)} {r : Str} :
    Reads H (xs.flatMap (fun x => 44 :: text x) ++ 93 :: rest) (.elements ws) r ↔
      (∀ x ∈ xs, clean x) ∧ ws = xs.flatMap (fun x => kept (value x)) ∧ r = rest := by
  induction xs generalizing ws with
  | nil =>
    rw [List.flatMap_nil, List.nil_append, reads_elements_iff, afterBlanks_cons (by decide)]
    simp [eq_comm, and_comm]
  | cons x xs ih =>
    obtain ⟨hx, hxs⟩ := List.forall_mem_cons.1 hxs
    have hy := stops_rest xs text (c := 93) (by decide) rest
    rw [List.flatMap_cons, List.cons_append, List.cons_append, List.append_assoc,
      reads_element_step hx (by rw [afterBlanks_cons (by decide)]; simp)
        (hx.begins.afterComma _).2 hy]
    simp only [ih hxs, List.forall_mem_cons, List.flatMap_cons]
    constructor
    · rintro ⟨hclean, ws', rfl, hall, rfl, rfl⟩
      exact ⟨⟨hclean, hall⟩, rfl, rfl⟩
    · rintro ⟨⟨hclean, hall⟩, rfl, rfl⟩
      exact ⟨hclean, _, rfl, hall, rfl, rfl⟩

theorem intercalate_comma (x : α) (xs : List α) (f : α → Str) :
    [44].intercalate ((x :: xs).map f) = f x ++ xs.flatMap fun x => 44 :: f x := by
  induction xs generalizing x with
  | nil => simp
  | cons y xs ih =>
    rw [List.map_cons, List.intercalate_cons_of_ne_nil (by simp), ih, List.flatMap_cons]
    simp

/-- **An array of texts** is read as the array of what is kept of their values. -/
theorem text_array (hxs : ∀ x ∈ xs, Text H (text x) (value x) (clean x)) :
    Text H (bracketed 91 93 (xs.map text))
      (.table (Table.sequence (xs.flatMap fun x => kept (value x)))) (∀ x ∈ xs, clean x) := by
  refine ⟨⟨91, _, rfl, by decide⟩, fun rest _ v' r => ?_⟩
  have hopen : bracketed 91 93 (xs.map text) ++ rest =
      91 :: ([44].intercalate (xs.map text) ++ 93 :: rest) := by
    simp [bracketed]
  have helements : ∀ ws, Reads H ([44].intercalate (xs.map text) ++ 93 :: rest) (.elements ws) r ↔
      (∀ x ∈ xs, clean x) ∧ ws = xs.flatMap (fun x => kept (value x)) ∧ r = rest := by
    intro ws
    cases xs with
    | nil =>
      have hnone : ∀ x ∈ ([] : List α), Text H (text x) (value x) (clean x) :=
        List.forall_mem_nil _
      exact reads_elements hnone rest
    | cons x xs =>
      obtain ⟨hx, hxs⟩ := List.forall_mem_cons.1 hxs
      have hy := stops_rest xs text (c := 93) (by decide) rest
      obtain ⟨c, u, hc, -, -, h93, -⟩ := hx.begins
      rw [intercalate_comma, List.append_assoc,
        reads_element_step hx (by rw [hx.begins.afterBlanks, hc]; simpa using h93)
          (hx.begins.afterComma _).1 hy]
      simp only [reads_elements hxs, List.forall_mem_cons, List.flatMap_cons]
      constructor
      · rintro ⟨hclean, ws', rfl, hall, rfl, rfl⟩
        exact ⟨⟨hclean, hall⟩, rfl, rfl⟩
      · rintro ⟨⟨hclean, hall⟩, rfl, rfl⟩
        exact ⟨hclean, _, rfl, hall, rfl, rfl⟩
  rw [hopen, reads_bracket_iff]
  simp only [helements]
  constructor
  · rintro ⟨ws, rfl, hclean, rfl, rfl⟩
    exact ⟨hclean, rfl, rfl⟩
  · rintro ⟨hclean, rfl, rfl⟩
    exact ⟨_, rfl, hclean, rfl, rfl⟩

/-- The text of a member. -/
def memberText (key text : Str) : Str := 34 :: encodeString key ++ [34, 58] ++ text

theorem begins_memberText (k t : Str) : Begins (memberText k t) := ⟨34, _, rfl, by decide⟩

/-- A member, with or without a comma in front of it. -/
theorem reads_member_step {x : α} {key : Str} (hx : Text H (text x) (value x) (clean x))
    {t y : Str} (hhead : (afterBlanks t).head? ≠ some 125)
    (ht : afterComma t = memberText key (text x) ++ y) (hy : Stops y) {ms : Table ρ} {r : Str} :
    Reads H t (.members ms) r ↔ (13 ∉ key ∧ clean x) ∧
      ∃ ms', ms = (.string key, value x) :: ms' ∧ Reads H y (.members ms') r := by
  have hopen : memberText key (text x) ++ y =
      34 :: (encodeString key ++ 34 :: (58 :: (text x ++ y))) := by
    simp [memberText]
  rw [reads_members_iff, ht, hopen]
  constructor
  · rintro (⟨h, -⟩ | ⟨-, k, t₁, key', t₂, v, t₃, ms', rfl, hk, hkey, hcolon, hv, h⟩)
    · exact absurd (by rw [h, List.head?_cons]) hhead
    · obtain ⟨w, rfl, hw⟩ := (reads_quote_iff (by decide)).1 hk
      rw [read_encodeString] at hw
      split_ifs at hw with hreturn
      simp only [Option.some.injEq, Prod.mk.injEq] at hw
      obtain ⟨rfl, rfl⟩ := hw
      obtain rfl := Option.some.inj hkey
      rw [afterBlanks_cons (by decide), List.cons.injEq] at hcolon
      obtain ⟨-, rfl⟩ := hcolon
      obtain ⟨hclean, rfl, rfl⟩ := (hx.reads y hy v t₃).1 hv
      exact ⟨⟨hreturn, hclean⟩, ms', rfl, h⟩
  · rintro ⟨⟨hreturn, hclean⟩, ms', rfl, h⟩
    refine .inr ⟨hhead, .string key, 58 :: (text x ++ y), _, text x ++ y, _, y, ms', rfl, ?_, rfl,
      afterBlanks_cons (by decide) _, (hx.reads y hy _ _).2 ⟨hclean, rfl, rfl⟩, h⟩
    apply (reads_quote_iff (by decide)).2
    exact ⟨key, rfl, by rw [read_encodeString, if_neg hreturn]⟩

variable {key : α → Str}

/-- The members behind the first. -/
theorem reads_members (hxs : ∀ x ∈ xs, Text H (text x) (value x) (clean x)) (rest : Str)
    {ms : Table ρ} {r : Str} :
    Reads H (xs.flatMap (fun x => 44 :: memberText (key x) (text x)) ++ 125 :: rest)
      (.members ms) r ↔ (∀ x ∈ xs, 13 ∉ key x ∧ clean x) ∧
        ms = xs.map (fun x => (.string (key x), value x)) ∧ r = rest := by
  induction xs generalizing ms with
  | nil =>
    rw [List.flatMap_nil, List.nil_append, reads_members_iff, afterBlanks_cons (by decide)]
    simp [eq_comm, and_comm]
  | cons x xs ih =>
    obtain ⟨hx, hxs⟩ := List.forall_mem_cons.1 hxs
    have hy := stops_rest xs (fun x => memberText (key x) (text x)) (c := 125) (by decide) rest
    rw [List.flatMap_cons, List.cons_append, List.cons_append, List.append_assoc,
      reads_member_step hx (by rw [afterBlanks_cons (by decide)]; simp)
        ((begins_memberText _ _).afterComma _).2 hy]
    simp only [ih hxs, List.forall_mem_cons, List.map_cons]
    constructor
    · rintro ⟨hclean, ms', rfl, hall, rfl, rfl⟩
      exact ⟨⟨hclean, hall⟩, rfl, rfl⟩
    · rintro ⟨⟨hclean, hall⟩, rfl, rfl⟩
      exact ⟨hclean, _, rfl, hall, rfl, rfl⟩

/-- **An object of texts** is read as the table to which their values are assigned. -/
theorem text_object (hxs : ∀ x ∈ xs, Text H (text x) (value x) (clean x)) :
    Text H (bracketed 123 125 (xs.map fun x => memberText (key x) (text x)))
      (.table (assignAll [] (xs.map fun x => (.string (key x), value x))))
      (∀ x ∈ xs, 13 ∉ key x ∧ clean x) := by
  refine ⟨⟨123, _, rfl, by decide⟩, fun rest _ v' r => ?_⟩
  have hopen : bracketed 123 125 (xs.map fun x => memberText (key x) (text x)) ++ rest =
      123 :: ([44].intercalate (xs.map fun x => memberText (key x) (text x)) ++ 125 :: rest) := by
    simp [bracketed]
  have hmembers : ∀ ms, Reads H
      ([44].intercalate (xs.map fun x => memberText (key x) (text x)) ++ 125 :: rest)
      (.members ms) r ↔ (∀ x ∈ xs, 13 ∉ key x ∧ clean x) ∧
        ms = xs.map (fun x => (.string (key x), value x)) ∧ r = rest := by
    intro ms
    cases xs with
    | nil =>
      have hnone : ∀ x ∈ ([] : List α), Text H (text x) (value x) (clean x) :=
        List.forall_mem_nil _
      exact reads_members hnone rest
    | cons x xs =>
      obtain ⟨hx, hxs⟩ := List.forall_mem_cons.1 hxs
      have hy := stops_rest xs (fun x => memberText (key x) (text x)) (c := 125) (by decide) rest
      have hbegins := begins_memberText (key x) (text x)
      rw [intercalate_comma, List.append_assoc,
        reads_member_step hx (by rw [hbegins.afterBlanks]; simp [memberText])
          (hbegins.afterComma _).1 hy]
      simp only [reads_members hxs, List.forall_mem_cons, List.map_cons]
      constructor
      · rintro ⟨hclean, ms', rfl, hall, rfl, rfl⟩
        exact ⟨⟨hclean, hall⟩, rfl, rfl⟩
      · rintro ⟨⟨hclean, hall⟩, rfl, rfl⟩
        exact ⟨hclean, _, rfl, hall, rfl, rfl⟩
  rw [hopen, reads_brace_iff]
  simp only [hmembers]
  constructor
  · rintro ⟨ms, rfl, hclean, rfl, rfl⟩
    exact ⟨hclean, rfl, rfl⟩
  · rintro ⟨hclean, rfl, rfl⟩
    exact ⟨_, rfl, hclean, rfl, rfl⟩

end Lists

/-! ## Encoded values -/

/-- The name of a constant. -/
theorem text_constant {a : Str} {v : Value ρ}
    (ha : a = Str.ascii "true" ∧ v = .boolean true ∨ a = Str.ascii "false" ∧ v = .boolean false ∨
      a = Str.ascii "null" ∧ v = .nil) : Text H a v True := by
  constructor
  · obtain ⟨rfl, -⟩ | ⟨rfl, -⟩ | ⟨rfl, -⟩ := ha <;> exact ⟨_, _, rfl, by decide⟩
  · intro rest _ v' r
    constructor
    · intro h
      generalize hu : a ++ rest = u at h
      obtain ⟨rfl, rfl⟩ | ⟨rfl, rfl⟩ | ⟨rfl, rfl⟩ := ha
      all_goals
        cases h with
        | blank hc _ => exact absurd ((List.cons.inj hu).1 ▸ hc) (by decide)
        | number hc _ => exact absurd ((List.cons.inj hu).1 ▸ hc) (by decide)
        | string hq _ => exact absurd ((List.cons.inj hu).1 ▸ hq) (by decide)
        | _ =>
          first
          | exact ⟨trivial, rfl, (List.append_cancel_left hu).symm⟩
          | exact absurd (List.cons.inj hu).1 (by decide)
    · rintro ⟨-, rfl, rfl⟩
      obtain ⟨rfl, rfl⟩ | ⟨rfl, rfl⟩ | ⟨rfl, rfl⟩ := ha
      · exact .true r
      · exact .false r
      · exact .null r

/-- A legible number. -/
theorem text_number {n : Number ρ} (hn : Legible H n) :
    Text H (H.tostring n) (reread H n) True := by
  obtain ⟨c, u, hcu⟩ := List.exists_cons_of_ne_nil hn.ne_nil
  have hall : ∀ x ∈ c :: u, isNumberChar x := hcu ▸ hn.all
  obtain ⟨hc, hu⟩ := List.forall_mem_cons.1 hall
  obtain ⟨v, hv⟩ := hn.loaded
  have hreread : reread H n = v := by
    rw [reread, hv]
  constructor
  · refine ⟨c, u, hcu, isWhitespace_of_isNumberChar hc, ?_, ?_, ?_⟩ <;>
    · rintro rfl
      exact absurd hc (by decide)
  · intro rest hrest v' r
    have htake : (u ++ rest).takeWhile isNumberChar = u := by
      rw [List.takeWhile_append_of_pos hu]
      cases rest with
      | nil => exact List.append_nil u
      | cons d rest =>
        rw [List.takeWhile_cons_of_neg (by simp [hrest d rfl]), List.append_nil]
    have hdrop : (u ++ rest).dropWhile isNumberChar = rest := by
      rw [← drop_takeWhile, htake, List.drop_left]
    rw [hcu, List.cons_append, reads_number_iff hc, htake, hdrop, ← hcu, hv, hreread]
    simp [eq_comm]

/-- A string in quotes. -/
theorem text_string (s : Str) : Text H (34 :: encodeString s ++ [34]) (.string s) (13 ∉ s) := by
  refine ⟨⟨34, _, rfl, by decide⟩, fun rest _ v' r => ?_⟩
  have hopen : 34 :: encodeString s ++ [34] ++ rest = 34 :: (encodeString s ++ 34 :: rest) := by
    simp
  rw [hopen, reads_quote_iff (by decide), read_encodeString]
  split_ifs with hs
  · simp [hs]
  · simp [hs, eq_comm, and_comm]

/-- The text of a computation that returns one. -/
def okText : Except Error Str → Str
  | .ok t => t
  | .error _ => []

/-- The texts that a loop collects. -/
theorem mapM_eq_ok {α : Type} {f : α → Except Error Str} {xs : List α} {ts : List Str}
    (h : xs.mapM f = .ok ts) :
    ts = xs.map (fun x => okText (f x)) ∧ ∀ x ∈ xs, f x = .ok (okText (f x)) := by
  induction xs generalizing ts with
  | nil =>
    obtain rfl := Except.ok.inj h
    exact ⟨rfl, by simp⟩
  | cons x xs ih =>
    rw [List.mapM_cons] at h
    obtain ⟨t, ht, h⟩ := bind_eq_ok_iff.1 h
    obtain ⟨ts', hts, h⟩ := bind_eq_ok_iff.1 h
    obtain rfl := Except.ok.inj h
    obtain ⟨rfl, hall⟩ := ih hts
    have hx : f x = .ok (okText (f x)) := by
      rw [ht]
      rfl
    refine ⟨?_, List.forall_mem_cons.2 ⟨hx, hall⟩⟩
    rw [List.map_cons, ht]
    rfl

theorem map_eq_ok {α β : Type} {x : Except Error α} {f : α → β} {b : β} (h : x.map f = .ok b) :
    ∃ a, x = .ok a ∧ b = f a := by
  cases x with
  | error e => cases h
  | ok a => exact ⟨a, rfl, (Except.ok.inj h).symm⟩

omit [DecidableEq ρ] in
theorem encodeKey_eq_ok {k : Key ρ} {t : Str} (h : encodeKey H k = .ok t) :
    t = encodeString (keyText H k) := by
  cases k with
  | string s => exact (Except.ok.inj h).symm
  | number n => exact (Except.ok.inj h).symm
  | _ => cases h

theorem encodePair_eq_ok {p : Key ρ × Value ρ} {t : Str} (h : encodePair H p = .ok t) :
    t = memberText (keyText H p.1) (okText (encode H p.2)) ∧
      encode H p.2 = .ok (okText (encode H p.2)) := by
  obtain ⟨key, hkey, h⟩ := bind_eq_ok_iff.1 h
  obtain ⟨value, hvalue, h⟩ := bind_eq_ok_iff.1 h
  obtain rfl := Except.ok.inj h
  rw [hvalue, encodeKey_eq_ok hkey]
  exact ⟨rfl, rfl⟩

/-- **What `encode` has written** is read as what is left of the value, exactly if no string that is
written has a carriage return. -/
theorem text_encode {v : Value ρ} {t : Str} (h : encode H v = .ok t) (hv : NumbersLegible H v) :
    Text H t (survives H v) (NoReturns H v) := by
  induction hsize : sizeOf v using Nat.strong_induction_on generalizing v t with
  | _ n ih =>
    subst hsize
    unfold NumbersLegible at hv
    unfold NoReturns
    cases v with
    | nil =>
      rw [encode] at h
      rw [survives, AllWritten, ← Except.ok.inj h]
      exact text_constant (.inr (.inr ⟨rfl, rfl⟩))
    | boolean b =>
      rw [encode] at h
      rw [survives, AllWritten, ← Except.ok.inj h]
      cases b
      · exact text_constant (.inr (.inl ⟨rfl, rfl⟩))
      · exact text_constant (.inl ⟨rfl, rfl⟩)
    | number n =>
      rw [encode] at h
      rw [AllWritten] at hv
      rw [survives, AllWritten, ← Except.ok.inj h]
      exact text_number hv
    | string s =>
      rw [encode] at h
      rw [survives, AllWritten, ← Except.ok.inj h]
      exact text_string s
    | null =>
      rw [encode] at h
      rw [survives, AllWritten, ← Except.ok.inj h]
      exact text_constant (.inr (.inr ⟨rfl, rfl⟩))
    | other type address =>
      rw [encode] at h
      cases h
    | table t' =>
      rw [encode_table] at h
      cases harray : isArray H t' with
      | none =>
        rw [harray] at h
        rw [allWritten_object harray] at hv
        obtain ⟨ts, hts, rfl⟩ := map_eq_ok h
        obtain ⟨rfl, hall⟩ := mapM_eq_ok hts
        have htext : ∀ p ∈ encodablePairs t',
            okText (encodePair H p) = memberText (keyText H p.1) (okText (encode H p.2)) :=
          fun p hp => (encodePair_eq_ok (hall p hp)).1
        rw [survives_object harray, allWritten_object harray, List.map_congr_left htext]
        apply text_object
        intro p hp
        exact ih _ (Table.sizeOf_lt_of_mem (List.mem_of_mem_filter hp))
          (encodePair_eq_ok (hall p hp)).2 (hv p hp).2 rfl
      | some index =>
        cases index with
        | infinity =>
          rw [harray] at h
          cases h
        | natural m =>
          rw [harray] at h
          rw [allWritten_array harray] at hv
          obtain ⟨ts, hts, rfl⟩ := map_eq_ok h
          obtain ⟨rfl, hall⟩ := mapM_eq_ok hts
          rw [survives_array harray, allWritten_array harray]
          simp only [← List.mem_range]
          apply text_array
          intro i hi
          exact ih _ (Table.sizeOf_get_lt t' _) (hall i hi) (hv i (List.mem_range.1 hi)) rfl

/-- What `decode` returns on a text that is read as one value. -/
theorem Text.decode_eq_ok_iff (hH : H.Lawful) {t : Str} {v : Value ρ} {clean : Prop}
    (ht : Text H t v clean) {fuel : ℕ} (hfuel : 2 * t.length + 1 ≤ fuel) {v' : Value ρ} {q : ℕ} :
    decode H fuel t 1 = .ok (v', q) ↔ clean ∧ v' = v ∧ q = t.length + 1 := by
  have hreads : ∀ r, Reads H t (.value v') r ↔ clean ∧ v' = v ∧ r = [] := by
    intro r
    have hreads := ht.reads [] (by simp [Stops]) v' r
    rwa [List.append_nil] at hreads
  have hpos : 0 < t.length := by
    obtain ⟨c, u, hcu, -⟩ := ht.begins
    rw [hcu]
    exact Nat.succ_pos _
  rw [Json.decode_eq_ok_iff hH hfuel, hreads]
  constructor
  · rintro ⟨hlt, hle, hclean, hv', hend⟩
    have hlen := length_textAt (s := t) hlt.le
    rw [hend, List.length_nil] at hlen
    exact ⟨hclean, hv', by omega⟩
  · rintro ⟨hclean, hv', rfl⟩
    exact ⟨by omega, le_rfl, hclean, hv', List.drop_length⟩

/-- **What is read back.** If every number that is written is legible, `decode` returns on what
`encode` has written exactly if no string that is written has a carriage return, and then it returns
what is left of the value and the end of the text. -/
theorem decode_encode_iff (hH : H.Lawful) {v : Value ρ} {t : Str} (h : encode H v = .ok t)
    (hv : NumbersLegible H v) {fuel : ℕ} (hfuel : 2 * t.length + 1 ≤ fuel) {v' : Value ρ} {q : ℕ} :
    decode H fuel t 1 = .ok (v', q) ↔
      NoReturns H v ∧ v' = survives H v ∧ q = t.length + 1 :=
  (text_encode h hv).decode_eq_ok_iff hH hfuel

/-- An array of a string, of `null` and of a number. -/
def mixedArray : Value Empty :=
  .table [(.index 1, .string [97, 34]), (.index 2, .null), (.index 3, .number (.natural 7))]

theorem numbersLegible_mixedArray : NumbersLegible naturalHost mixedArray := by
  have harray : isArray naturalHost [(.index 1, .string [97, 34]), (.index 2, .null),
      (.index 3, .number (.natural 7))] = some (.natural 3) := rfl
  refine (allWritten_array harray).2 fun i hi => ?_
  obtain rfl | rfl | rfl : i = 0 ∨ i = 1 ∨ i = 2 := by omega
  · show AllWritten _ _ _ (.string [97, 34])
    rw [AllWritten]
    trivial
  · show AllWritten _ _ _ .null
    rw [AllWritten]
    trivial
  · show AllWritten _ _ _ (.number (.natural 7))
    rw [AllWritten]
    exact ⟨by decide, by decide +kernel, _, rfl⟩

theorem encode_mixedArray : encode naturalHost mixedArray =
    .ok (Str.ascii "[\"a\\\"\",null,7]") := by
  have harray : isArray naturalHost [(.index 1, .string [97, 34]), (.index 2, .null),
      (.index 3, .number (.natural 7))] = some (.natural 3) := rfl
  have helements : (List.range 3).mapM (fun i => encode naturalHost (Table.get
      [(.index 1, .string [97, 34]), (.index 2, .null), (.index 3, .number (.natural 7))]
      (.index (i + 1)))) =
      .ok [Str.ascii "\"a\\\"\"", Str.ascii "null", Str.ascii "7"] := by
    show (do
      let a ← encode naturalHost (.string [97, 34])
      let b ← encode naturalHost .null
      let c ← encode naturalHost (.number (.natural 7))
      return [a, b, c]) = _
    rw [encode, encode, encode]
    rfl
  rw [mixedArray, encode_table, harray]
  show Except.map _ _ = _
  rw [helements]
  rfl

/-- What is read back of the array, which has lost an element. -/
theorem decode_encode_iff_mixedArray :
    decode naturalHost 40 (Str.ascii "[\"a\\\"\",null,7]") 1 = .ok (.table (Table.sequence
      [.string [97, 34], .number (.natural 7)]), 15) ↔ NoReturns naturalHost mixedArray ∧
        .table (Table.sequence [.string [97, 34], .number (.natural 7)]) =
          survives naturalHost mixedArray ∧ 15 = 14 + 1 :=
  decode_encode_iff naturalHost_lawful encode_mixedArray numbersLegible_mixedArray (by decide)

end Jord.Json
