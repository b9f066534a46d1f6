import Jord.Foundations.Results
import Jord.Json.Literals

/-!
# What is decoded

A grammar for the texts that `decode` accepts, without positions and without fuel: `Reads` relates a
text to what it begins with and to what is left of it. It is more than JSON in some places: a comma
may be missing between elements, or come before the first; comments are skipped; sums of numbers and
strings in single quotes are values; numbers can be keys. It is less in others: a value `null`
leaves no trace in an array or an object.

`decode_sound`: what `decode` returns is what the grammar says.
-/

namespace Jord.Json

variable {ρ : Type}

/-! ## The grammar -/

/-- What a text is read as: a value, the elements of an array behind the bracket, or the members of
an object behind the brace. -/
inductive Item (ρ : Type)
  | value (v : Value ρ)
  | elements (vs : List (Value ρ))
  | members (ms : Table ρ)

/-- The text behind the blanks in front of it. -/
def afterBlanks (t : Str) : Str := t.dropWhile isWhitespace

/-- The text behind a comma and the blanks around it. -/
def afterComma (t : Str) : Str :=
  match afterBlanks t with
  | [] => []
  | c :: t' => if c = 44 then afterBlanks t' else c :: t'

/-- What an element adds to an array. -/
def kept (v : Value ρ) : List (Value ρ) := if v.isNil then [] else [v]

theorem forall_ne_nil_append_kept {vs : List (Value ρ)} (hvs : ∀ w ∈ vs, w ≠ .nil) (v : Value ρ) :
    ∀ w ∈ vs ++ kept v, w ≠ .nil := by
  intro w hw
  rcases List.mem_append.1 hw with hw | hw
  · exact hvs w hw
  · unfold kept at hw
    split_ifs at hw with hnil
    · cases hw
    · obtain rfl := List.mem_singleton.1 hw
      rwa [Value.isNil_iff] at hnil

/-- The key that a decoded value is. -/
def keyOf : Value ρ → Option (Key ρ)
  | .string s => some (.string s)
  | .number .nan => none
  | .number n => some (.number n)
  | _ => none

/-- The table after the members are assigned one after the other. -/
def assignAll [DecidableEq ρ] (t : Table ρ) (ms : Table ρ) : Table ρ :=
  ms.foldl (fun t m => Table.assign t m.1 m.2) t

variable [DecidableEq ρ]

/-- **The grammar.** -/
inductive Reads (H : Host ρ) : Str → Item ρ → Str → Prop
  | blank {c : UInt8} {t : Str} {v : Value ρ} {r : Str} (hc : isWhitespace c)
      (h : Reads H t (.value v) r) : Reads H (c :: t) (.value v) r
  | comment {t : Str} {n : ℕ} {v : Value ρ} {r : Str} (hn : findCommentEnd t = some n)
      (h : Reads H (t.drop (n + 2)) (.value v) r) : Reads H (47 :: 42 :: t) (.value v) r
  | number {c : UInt8} {t : Str} {v : Value ρ} (hc : isNumberChar c)
      (hv : H.loadstring (returnText ++ c :: t.takeWhile isNumberChar) = .returns v) :
      Reads H (c :: t) (.value v) (t.dropWhile isNumberChar)
  | string {q : UInt8} {t v r : Str} (hq : isQuote q) (hv : LuaLiteral.read q t = some (v, r)) :
      Reads H (q :: t) (.value (.string v)) r
  | true (r : Str) : Reads H (Str.ascii "true" ++ r) (.value (.boolean true)) r
  | false (r : Str) : Reads H (Str.ascii "false" ++ r) (.value (.boolean false)) r
  | null (r : Str) : Reads H (Str.ascii "null" ++ r) (.value .nil) r
  | array {t : Str} {vs : List (Value ρ)} {r : Str} (h : Reads H t (.elements vs) r) :
      Reads H (91 :: t) (.value (.table (Table.sequence vs))) r
  | object {t : Str} {ms : Table ρ} {r : Str} (h : Reads H t (.members ms) r) :
      Reads H (123 :: t) (.value (.table (assignAll [] ms))) r
  | arrayEnd {t r : Str} (h : afterBlanks t = 93 :: r) : Reads H t (.elements []) r
  | element {t t' : Str} {v : Value ρ} {vs : List (Value ρ)} {r : Str}
      (hend : (afterBlanks t).head? ≠ some 93) (hv : Reads H (afterComma t) (.value v) t')
      (h : Reads H t' (.elements vs) r) : Reads H t (.elements (kept v ++ vs)) r
  | objectEnd {t r : Str} (h : afterBlanks t = 125 :: r) : Reads H t (.members []) r
  | member {t t₁ t₂ t₃ : Str} {k v : Value ρ} {key : Key ρ} {ms : Table ρ} {r : Str}
      (hend : (afterBlanks t).head? ≠ some 125) (hk : Reads H (afterComma t) (.value k) t₁)
      (hkey : keyOf k = some key) (hcolon : afterBlanks t₁ = 58 :: t₂)
      (hv : Reads H t₂ (.value v) t₃) (h : Reads H t₃ (.members ms) r) :
      Reads H t (.members ((key, v) :: ms)) r

theorem reads_of_afterBlanks {H : Host ρ} {t : Str} {v : Value ρ} {r : Str}
    (h : Reads H (afterBlanks t) (.value v) r) : Reads H t (.value v) r := by
  induction t with
  | nil => exact h
  | cons c t ih =>
    unfold afterBlanks at h
    rw [List.dropWhile_cons] at h
    split at h
    · next hc => exact .blank hc (ih h)
    · exact h

/-! ## Positions -/

/-- The position lies in the text, or right behind it. -/
structure In (s : Str) (p : ℕ) : Prop where
  pos : 1 ≤ p
  le : p ≤ s.length + 1

section Positions

variable {s : Str} {p : ℕ}

theorem In.length (h : In s p) : (textAt s p).length = s.length + 1 - p := length_textAt h.pos

/-- A text at a position, cut behind some characters. -/
theorem In.add (h : In s p) {n : ℕ} (hn : n ≤ (textAt s p).length) :
    In s (p + n) ∧ textAt s (p + n) = (textAt s p).drop n := by
  rw [h.length] at hn
  have hle := h.le
  exact ⟨⟨h.pos.trans (Nat.le_add_right _ _), by omega⟩, textAt_add h.pos n⟩

theorem In.succ (h : In s p) {c : UInt8} {t : Str} (ht : textAt s p = c :: t) :
    In s (p + 1) ∧ textAt s (p + 1) = t := by
  obtain ⟨hin, htext⟩ := h.add (n := 1) (by rw [ht]; exact Nat.le_add_left 1 _)
  refine ⟨hin, ?_⟩
  rw [htext, ht]
  rfl

/-- A position is inside exactly if the text is not at its end. -/
theorem In.inside_iff (h : In s p) : p ≤ s.length ↔ textAt s p ≠ [] := by
  have hlen := h.length
  rw [← List.length_pos_iff, hlen]
  omega

theorem drop_takeWhile (f : UInt8 → Bool) (t : Str) :
    t.drop (t.takeWhile f).length = t.dropWhile f := by
  have h := @List.drop_left _ (t.takeWhile f) (t.dropWhile f)
  rwa [List.takeWhile_append_dropWhile] at h

theorem In.scanWhitespace (h : In s p) : In s (scanWhitespace s p) ∧ p ≤ Json.scanWhitespace s p ∧
    textAt s (Json.scanWhitespace s p) = afterBlanks (textAt s p) := by
  obtain ⟨hin, htext⟩ := h.add (List.takeWhile_prefix isWhitespace).length_le
  refine ⟨hin, Nat.le_add_right _ _, ?_⟩
  exact htext.trans (drop_takeWhile isWhitespace _)

theorem In.skipComma (h : In s p) {t : Str} (ht : textAt s p = afterBlanks t) :
    In s (skipComma s p) ∧ p ≤ Json.skipComma s p ∧
      textAt s (Json.skipComma s p) = afterComma t := by
  unfold Json.skipComma charAt afterComma
  rw [ht]
  cases hb : afterBlanks t with
  | nil => exact ⟨h, le_rfl, ht.trans hb⟩
  | cons c t' =>
    obtain ⟨hin, htext⟩ := h.succ (ht.trans hb)
    by_cases hc : c = 44
    · obtain ⟨hin', hle, htext'⟩ := hin.scanWhitespace
      simp only [hc, List.head?_cons, if_true]
      exact ⟨hin', by omega, by rw [htext', htext]⟩
    · simp only [List.head?_cons, Option.some.injEq, hc, if_false]
      exact ⟨h, le_rfl, ht.trans hb⟩

end Positions

/-! ## Soundness -/

theorem luaAssert_eq_ok_iff {condition : Bool} {message : Str} {u : Unit} :
    luaAssert condition message = .ok u ↔ condition = true := by
  cases condition
  · exact ⟨by rintro ⟨⟩, by rintro ⟨⟩⟩
  · exact ⟨fun _ => rfl, fun _ => rfl⟩

theorem assertInside_eq_ok_iff {s : Str} {p : ℕ} {message : Str} {u : Unit} :
    assertInside s p message = .ok u ↔ p ≤ s.length := by
  rw [assertInside, luaAssert_eq_ok_iff, decide_eq_true_eq]

/-- The text at a position at which there is a character. -/
theorem In.exists_cons {s : Str} {p : ℕ} (h : In s p) (hle : p ≤ s.length) :
    ∃ c, charAt s p = some c ∧ textAt s p = c :: textAt s (p + 1) := by
  obtain ⟨c, t, ht⟩ := List.exists_cons_of_ne_nil (h.inside_iff.1 hle)
  have hc : charAt s p = some c := by rw [charAt, ht, List.head?_cons]
  exact ⟨c, hc, textAt_eq_cons h.pos hc⟩

/-- The scan at `p` has read the text up to the position `q`. -/
structure Scans (s : Str) (p q : ℕ) : Prop where
  lt : p < q
  inside : In s q

theorem slice_number {s : Str} {p : ℕ} {c : UInt8} {t : Str} (ht : textAt s p = c :: t) :
    slice s p (p + 1 + (t.takeWhile isNumberChar).length) = c :: t.takeWhile isNumberChar := by
  rw [slice, ht, show p + 1 + (t.takeWhile isNumberChar).length - p =
    (t.takeWhile isNumberChar).length + 1 by omega, List.take_succ_cons,
    ← List.prefix_iff_eq_take.1 (List.takeWhile_prefix isNumberChar)]

theorem scanNumber_sound {H : Host ρ} {s : Str} {p q : ℕ} {c : UInt8} {v : Value ρ} (hp : In s p)
    (hc : charAt s p = some c) (hnumber : isNumberChar c) (h : scanNumber H s p = .ok (v, q)) :
    Reads H (textAt s p) (.value v) (textAt s q) ∧ Scans s p q := by
  have ht := textAt_eq_cons hp.pos hc
  obtain ⟨hin, -⟩ := hp.succ ht
  set t := textAt s (p + 1) with htdef
  obtain ⟨hin', htext⟩ := hin.add (List.takeWhile_prefix (l := t) isNumberChar).length_le
  unfold scanNumber at h
  simp only [← htdef, slice_number ht] at h
  cases hload : H.loadstring (returnText ++ c :: t.takeWhile isNumberChar) with
  | syntaxError =>
    rw [hload] at h
    cases h
  | raises e =>
    rw [hload] at h
    cases h
  | returns w =>
    rw [hload] at h
    simp only [Loaded.value, Except.map, Except.ok.injEq, Prod.mk.injEq] at h
    obtain ⟨rfl, rfl⟩ := h
    refine ⟨?_, by omega, hin'⟩
    rw [ht, htext, drop_takeWhile]
    exact .number hnumber hload

theorem exists_append_of_prefix {t a : Str} (h : a <+: t) : t = a ++ t.drop a.length := by
  obtain ⟨r, rfl⟩ := h
  rw [List.drop_left]

theorem scanConstant_sound {H : Host ρ} {s : Str} {p q : ℕ} {v : Value ρ} (hp : In s p)
    (h : scanConstant s p = .ok (v, q)) :
    Reads H (textAt s p) (.value v) (textAt s q) ∧ Scans s p q := by
  have hprefix : ∀ {a : Str} {w : Value ρ} {n : ℕ}, (∀ r, Reads H (a ++ r) (.value w) r) →
      a.length = n → 0 < n → a <+: textAt s p →
        Reads H (textAt s p) (.value w) (textAt s (p + n)) ∧ Scans s p (p + n) := by
    rintro a w n hreads rfl hpos ha
    obtain ⟨hin, htext⟩ := hp.add ha.length_le
    have h := hreads ((textAt s p).drop a.length)
    rw [← exists_append_of_prefix ha, ← htext] at h
    exact ⟨h, by omega, hin⟩
  unfold scanConstant at h
  simp only at h
  split_ifs at h with htrue hfalse hnull
  · obtain ⟨rfl, rfl⟩ := Prod.mk.inj (Except.ok.inj h)
    exact hprefix .true rfl (by decide) htrue
  · obtain ⟨rfl, rfl⟩ := Prod.mk.inj (Except.ok.inj h)
    exact hprefix .false rfl (by decide) hfalse
  · obtain ⟨rfl, rfl⟩ := Prod.mk.inj (Except.ok.inj h)
    exact hprefix .null rfl (by decide) hnull

/-- A comment ends in the text. -/
theorem findCommentEnd_le {t : Str} {n : ℕ} (h : findCommentEnd t = some n) :
    n + 2 ≤ t.length := by
  induction t generalizing n with
  | nil => cases h
  | cons c t ih =>
    rw [findCommentEnd] at h
    split_ifs at h with hc
    · obtain rfl := Option.some.inj h
      rw [Bool.and_eq_true, decide_eq_true_eq, decide_eq_true_eq] at hc
      cases t with
      | nil => cases hc.2
      | cons c' t => simp
    · obtain ⟨k, hk, rfl⟩ := Option.map_eq_some_iff.1 h
      have := ih hk
      rw [List.length_cons]
      omega

/-- What `decode`, and the loops of `decode_scanArray` and `decode_scanObject`, return is what the
grammar says. -/
structure Sound (H : Host ρ) (fuel : ℕ) : Prop where
  decode : ∀ {s p v q}, In s p → decode H fuel s p = .ok (v, q) →
    Reads H (textAt s p) (.value v) (textAt s q) ∧ Scans s p q
  array : ∀ {s p vs v q}, In s p → (∀ w ∈ vs, w ≠ .nil) →
    scanArray H fuel s p (Table.sequence vs) = .ok (v, q) → ∃ ws,
      v = .table (Table.sequence (vs ++ ws)) ∧ Reads H (textAt s p) (.elements ws) (textAt s q) ∧
        Scans s p q
  object : ∀ {s p t v q}, In s p → scanObject H fuel s p t = .ok (v, q) → ∃ ms,
    v = .table (assignAll t ms) ∧ Reads H (textAt s p) (.members ms) (textAt s q) ∧ Scans s p q

theorem decode_sound_step {H : Host ρ} (hH : H.Lawful) {fuel : ℕ} (ih : Sound H fuel) {s : Str}
    {p q : ℕ} {v : Value ρ} (hp : In s p) (h : decode H (fuel + 1) s p = .ok (v, q)) :
    Reads H (textAt s p) (.value v) (textAt s q) ∧ Scans s p q := by
  obtain ⟨hin, hle, htext⟩ := hp.scanWhitespace
  set p' := scanWhitespace s p with hp'
  -- it is enough to read the text behind the blanks
  suffices hafter : Reads H (textAt s p') (.value v) (textAt s q) ∧ Scans s p' q by
    obtain ⟨hreads, hlt, hq⟩ := hafter
    exact ⟨reads_of_afterBlanks (htext ▸ hreads), by omega, hq⟩
  rw [decode] at h
  obtain ⟨u, hinside, h⟩ := bind_eq_ok_iff.1 h
  rw [assertInside_eq_ok_iff] at hinside
  obtain ⟨c, hc, ht⟩ := hin.exists_cons hinside
  obtain ⟨hin', -⟩ := hin.succ ht
  simp only [← hp', hc] at h
  split_ifs at h with hobject harray hnumber hquote hcomment
  · obtain ⟨ms, rfl, hreads, hlt, hq⟩ := ih.object hin' h
    rw [ht, hobject]
    exact ⟨.object hreads, by omega, hq⟩
  · obtain ⟨ws, rfl, hreads, hlt, hq⟩ := ih.array hin' (List.forall_mem_nil (· ≠ Value.nil)) h
    rw [ht, harray]
    exact ⟨.array hreads, by omega, hq⟩
  · exact scanNumber_sound hin hc hnumber h
  · obtain ⟨hlt, hq, w, rfl, hread⟩ := (scanString_eq_ok_iff hH hquote hin.pos hc).1 h
    rw [ht]
    exact ⟨.string hquote hread, hlt, hin.pos.trans hlt.le, hq⟩
  · rw [Bool.and_eq_true, decide_eq_true_eq, decide_eq_true_eq] at hcomment
    obtain ⟨e, he, h⟩ := bind_eq_ok_iff.1 h
    have ht' := textAt_eq_cons hin'.pos hcomment.2
    unfold scanComment at he
    cases hn : findCommentEnd (textAt s (p' + 2)) with
    | none => simp [hn] at he
    | some n =>
      simp only [hn, Except.ok.injEq] at he
      obtain ⟨hin₂, -⟩ := hin'.succ ht'
      obtain ⟨hin₃, htext₃⟩ := hin₂.add (findCommentEnd_le hn)
      obtain rfl : p' + 1 + 1 + (n + 2) = e := by omega
      obtain ⟨hreads, hlt, hq⟩ := ih.decode hin₃ h
      rw [htext₃] at hreads
      rw [ht, ht', hcomment.1]
      exact ⟨.comment hn hreads, by omega, hq⟩
  · exact scanConstant_sound hin h

theorem scanArray_sound_step {H : Host ρ} (hH : H.Lawful) {fuel : ℕ} (ih : Sound H fuel) {s : Str}
    {p q : ℕ} {vs : List (Value ρ)} {v : Value ρ} (hp : In s p) (hvs : ∀ w ∈ vs, w ≠ .nil)
    (h : scanArray H (fuel + 1) s p (Table.sequence vs) = .ok (v, q)) :
    ∃ ws, v = .table (Table.sequence (vs ++ ws)) ∧
      Reads H (textAt s p) (.elements ws) (textAt s q) ∧ Scans s p q := by
  obtain ⟨hin, hle, htext⟩ := hp.scanWhitespace
  set p' := scanWhitespace s p with hp'
  rw [scanArray] at h
  obtain ⟨u, hinside, h⟩ := bind_eq_ok_iff.1 h
  rw [assertInside_eq_ok_iff] at hinside
  obtain ⟨c, hc, ht⟩ := hin.exists_cons hinside
  obtain ⟨hin', -⟩ := hin.succ ht
  simp only [← hp', hc] at h
  split_ifs at h with hend
  · obtain ⟨rfl, rfl⟩ := Prod.mk.inj (Except.ok.inj h)
    obtain rfl : c = 93 := Option.some.inj hend
    exact ⟨[], by rw [List.append_nil], .arrayEnd (htext.symm.trans ht), by omega, hin'⟩
  · obtain ⟨hin₁, hle₁, htext₁⟩ := hin.skipComma htext
    obtain ⟨u, -, h⟩ := bind_eq_ok_iff.1 h
    obtain ⟨⟨w, p₂⟩, hw, h⟩ := bind_eq_ok_iff.1 h
    obtain ⟨hreads, hlt₂, hin₂⟩ := ih.decode hin₁ hw
    dsimp only at h
    rw [tableInsert_sequence hH hvs] at h
    obtain ⟨ws, rfl, hrest, hlt, hq⟩ := ih.array hin₂ (forall_ne_nil_append_kept hvs w) h
    rw [htext₁] at hreads
    refine ⟨kept w ++ ws, by rw [List.append_assoc], .element ?_ hreads hrest, by omega, hq⟩
    rw [← htext, ht]
    exact hend

theorem setKey_eq_ok_iff {t t' : Table ρ} {k v : Value ρ} :
    setKey t k v = .ok t' ↔ ∃ key, keyOf k = some key ∧ t' = t.assign key v := by
  have hok : ∀ key : Key ρ, (Except.ok (t.assign key v) : Except Error (Table ρ)) = .ok t' ↔
      ∃ key', some key = some key' ∧ t' = t.assign key' v := by
    intro key
    constructor
    · exact fun h => ⟨key, rfl, (Except.ok.inj h).symm⟩
    · rintro ⟨key', hkey, rfl⟩
      rw [Option.some.inj hkey]
  have herror : ∀ e : Error, (Except.error e : Except Error (Table ρ)) = .ok t' ↔
      ∃ key, none = some key ∧ t' = t.assign key v := by
    intro e
    constructor
    · rintro ⟨⟩
    · rintro ⟨key, ⟨⟩, -⟩
  cases k with
  | string s => exact hok (.string s)
  | number n =>
    cases n with
    | nan => exact herror .nanIndex
    | natural n => exact hok (.number (.natural n))
    | infinity => exact hok (.number .infinity)
    | other r => exact hok (.number (.other r))
  | _ => exact herror .concatenate

theorem scanObject_sound_step {H : Host ρ} {fuel : ℕ} (ih : Sound H fuel) {s : Str} {p q : ℕ}
    {t : Table ρ} {v : Value ρ} (hp : In s p)
    (h : scanObject H (fuel + 1) s p t = .ok (v, q)) :
    ∃ ms, v = .table (assignAll t ms) ∧
      Reads H (textAt s p) (.members ms) (textAt s q) ∧ Scans s p q := by
  obtain ⟨hin, hle, htext⟩ := hp.scanWhitespace
  set p' := scanWhitespace s p with hp'
  rw [scanObject] at h
  obtain ⟨u, hinside, h⟩ := bind_eq_ok_iff.1 h
  rw [assertInside_eq_ok_iff] at hinside
  obtain ⟨c, hc, ht⟩ := hin.exists_cons hinside
  obtain ⟨hin', -⟩ := hin.succ ht
  simp only [← hp', hc] at h
  split_ifs at h with hend
  · obtain ⟨rfl, rfl⟩ := Prod.mk.inj (Except.ok.inj h)
    obtain rfl : c = 125 := Option.some.inj hend
    exact ⟨[], rfl, .objectEnd (htext.symm.trans ht), by omega, hin'⟩
  · obtain ⟨hin₁, hle₁, htext₁⟩ := hin.skipComma htext
    obtain ⟨u, -, h⟩ := bind_eq_ok_iff.1 h
    obtain ⟨⟨k, p₂⟩, hk, h⟩ := bind_eq_ok_iff.1 h
    obtain ⟨hreads, hlt₂, hin₂⟩ := ih.decode hin₁ hk
    obtain ⟨keyText, -, h⟩ := bind_eq_ok_iff.1 h
    obtain ⟨u, -, h⟩ := bind_eq_ok_iff.1 h
    obtain ⟨hin₃, hle₃, htext₃⟩ := hin₂.scanWhitespace
    obtain ⟨u, hinside₃, h⟩ := bind_eq_ok_iff.1 h
    rw [assertInside_eq_ok_iff] at hinside₃
    obtain ⟨c₃, hc₃, ht₃⟩ := hin₃.exists_cons hinside₃
    obtain ⟨hin₄, -⟩ := hin₃.succ ht₃
    obtain ⟨u, hcolon, h⟩ := bind_eq_ok_iff.1 h
    rw [luaAssert_eq_ok_iff, decide_eq_true_eq] at hcolon
    obtain rfl : c₃ = 58 := Option.some.inj (hc₃.symm.trans hcolon)
    obtain ⟨u, -, h⟩ := bind_eq_ok_iff.1 h
    obtain ⟨⟨w, p₅⟩, hw, h⟩ := bind_eq_ok_iff.1 h
    obtain ⟨hin₅, hle₅, htext₅⟩ := hin₄.scanWhitespace
    obtain ⟨hvalue, hlt₆, hin₆⟩ := ih.decode hin₅ hw
    obtain ⟨t', hset, h⟩ := bind_eq_ok_iff.1 h
    obtain ⟨key, hkey, rfl⟩ := setKey_eq_ok_iff.1 hset
    obtain ⟨ms, rfl, hrest, hlt, hq⟩ := ih.object hin₆ h
    rw [htext₁] at hreads
    rw [htext₅] at hvalue
    refine ⟨(key, w) :: ms, rfl, .member ?_ hreads hkey (htext₃.symm.trans ht₃)
      (reads_of_afterBlanks hvalue) hrest, by omega, hq⟩
    rw [← htext, ht]
    exact hend

/-- **Soundness.** What is decoded is what the grammar says. -/
theorem decode_sound {H : Host ρ} (hH : H.Lawful) (fuel : ℕ) : Sound H fuel := by
  induction fuel with
  | zero =>
    constructor
    · intro s p v q _ h
      rw [decode] at h
      cases h
    · intro s p vs v q _ _ h
      rw [scanArray] at h
      cases h
    · intro s p t v q _ h
      rw [scanObject] at h
      cases h
  | succ fuel ih =>
    exact ⟨decode_sound_step hH ih, scanArray_sound_step hH ih, scanObject_sound_step ih⟩

end Jord.Json
