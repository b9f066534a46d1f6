import Jord.Json.Grammar

/-!
# All that is decoded

`decode` returns whatever the grammar says that a text is read as (`decode_complete`), and it comes
to an end on every text (`decode_ends`): with `2 * n + 1` levels of recursion where `n` characters
are left. So it accepts a text exactly if the grammar does, and otherwise raises an error
(`decode_iff`).
-/

namespace Jord.Json

variable {ρ : Type} [DecidableEq ρ] {H : Host ρ}

/-! ## Completeness -/

/-- The run on the text at `p` returns what the text is read as, and the position behind. -/
def Returns (H : Host ρ) (s : Str) (p fuel : ℕ) (r : Str) : Item ρ → Prop
  | .value v => 2 * (textAt s p).length + 1 ≤ fuel →
    ∃ q, decode H fuel s p = .ok (v, q) ∧ Scans s p q ∧ textAt s q = r
  | .elements ws => 2 * (textAt s p).length + 2 ≤ fuel → ∀ vs : List (Value ρ),
    (∀ w ∈ vs, w ≠ .nil) → ∃ q, scanArray H fuel s p (Table.sequence vs) =
      .ok (.table (Table.sequence (vs ++ ws)), q) ∧ Scans s p q ∧ textAt s q = r
  | .members ms => 2 * (textAt s p).length + 2 ≤ fuel → ∀ t : Table ρ,
    ∃ q, scanObject H fuel s p t = .ok (.table (assignAll t ms), q) ∧ Scans s p q ∧ textAt s q = r

theorem assertInside_of_cons {s : Str} {p : ℕ} (hp : In s p) {c : UInt8} {t : Str}
    (ht : textAt s p = c :: t) (message : Str) : assertInside s p message = .ok () := by
  rw [assertInside_eq_ok_iff, hp.inside_iff, ht]
  exact List.cons_ne_nil c t

theorem charAt_of_cons {s : Str} {p : ℕ} {c : UInt8} {t : Str} (ht : textAt s p = c :: t) :
    charAt s p = some c := by
  rw [charAt, ht, List.head?_cons]

/-- What `decode` does at a character that is no blank. -/
theorem decode_succ {s : Str} {p fuel : ℕ} (hp : In s p) {c : UInt8} {t : Str}
    (ht : textAt s p = c :: t) (hc : isWhitespace c = false) : decode H (fuel + 1) s p =
      if c = 123 then scanObject H fuel s (p + 1) []
      else if c = 91 then scanArray H fuel s (p + 1) []
      else if isNumberChar c then scanNumber H s p
      else if isQuote c then scanString H s p c
      else if c = 47 && charAt s (p + 1) = some 42 then
        (scanComment s p >>= decode H fuel s)
      else scanConstant s p := by
  have hskip : scanWhitespace s p = p := by
    rw [scanWhitespace, ht, List.takeWhile_cons_of_neg (by simp [hc])]
    rfl
  rw [decode, hskip, assertInside_of_cons hp ht, charAt_of_cons ht]
  rfl

/-- Blanks are skipped. -/
theorem decode_blank {s : Str} {p fuel : ℕ} (hp : In s p) {c : UInt8} {t : Str}
    (ht : textAt s p = c :: t) (hc : isWhitespace c) :
    decode H fuel s p = decode H fuel s (p + 1) := by
  cases fuel with
  | zero => rw [decode, decode]
  | succ fuel =>
    have hskip : scanWhitespace s p = scanWhitespace s (p + 1) := by
      rw [scanWhitespace, scanWhitespace, (hp.succ ht).2, ht, List.takeWhile_cons_of_pos hc,
        List.length_cons]
      omega
    rw [decode, hskip, ← decode]

omit [DecidableEq ρ] in
theorem scanNumber_of_reads {s : Str} {p : ℕ} (hp : In s p) {c : UInt8} {t : Str}
    (ht : textAt s p = c :: t) {v : Value ρ}
    (hv : H.loadstring (returnText ++ c :: t.takeWhile isNumberChar) = .returns v) :
    scanNumber H s p = .ok (v, p + 1 + (t.takeWhile isNumberChar).length) := by
  unfold scanNumber
  simp only [(hp.succ ht).2, slice_number ht, hv]
  rfl

omit [DecidableEq ρ] in
/-- A constant is found where its name is. -/
theorem scanConstant_of_reads {s : Str} {p : ℕ} (hp : In s p) {a r : Str}
    (ht : textAt s p = a ++ r) {v : Value ρ}
    (ha : a = Str.ascii "true" ∧ v = .boolean true ∨ a = Str.ascii "false" ∧ v = .boolean false ∨
      a = Str.ascii "null" ∧ v = .nil) :
    scanConstant s p = .ok (v, p + a.length) ∧ Scans s p (p + a.length) ∧
      textAt s (p + a.length) = r := by
  obtain ⟨hin, htext⟩ := hp.add (n := a.length) (by rw [ht, List.length_append]; omega)
  have hr : textAt s (p + a.length) = r := by rw [htext, ht, List.drop_left]
  have hlt : p < p + a.length := by
    obtain ⟨rfl, -⟩ | ⟨rfl, -⟩ | ⟨rfl, -⟩ := ha <;> exact Nat.lt_add_of_pos_right (by decide)
  refine ⟨?_, ⟨hlt, hin⟩, hr⟩
  unfold scanConstant
  simp only [ht]
  obtain ⟨rfl, rfl⟩ | ⟨rfl, rfl⟩ | ⟨rfl, rfl⟩ := ha
  · rw [if_pos (List.prefix_append _ _)]
    rfl
  · rw [if_neg (by simp [Str.ascii]), if_pos (List.prefix_append _ _)]
    rfl
  · rw [if_neg (by simp [Str.ascii]), if_neg (by simp [Str.ascii]),
      if_pos (List.prefix_append _ _)]
    rfl

/-- A text with a value in front is read like the constant whose name it begins with. -/
theorem decode_constant {s : Str} {p fuel : ℕ} (hp : In s p) {a r : Str}
    (ht : textAt s p = a ++ r) {v : Value ρ}
    (ha : a = Str.ascii "true" ∧ v = .boolean true ∨ a = Str.ascii "false" ∧ v = .boolean false ∨
      a = Str.ascii "null" ∧ v = .nil) :
    ∃ q, decode H (fuel + 1) s p = .ok (v, q) ∧ Scans s p q ∧ textAt s q = r := by
  obtain ⟨hscan, hq⟩ := scanConstant_of_reads hp ht ha
  refine ⟨p + a.length, ?_, hq⟩
  rw [← hscan]
  obtain ⟨rfl, -⟩ | ⟨rfl, -⟩ | ⟨rfl, -⟩ := ha <;> exact decode_succ hp ht (by decide)

/-- Nothing is read where there is nothing. -/
theorem ne_nil_of_reads {t : Str} {v : Value ρ} {r : Str} (h : Reads H t (.value v) r) :
    t ≠ [] := by
  rintro rfl
  cases h

theorem scanComment_of_find {s : Str} {p n : ℕ} {t : Str} (hp : In s (p + 2))
    (ht : textAt s (p + 2) = t) (hn : findCommentEnd t = some n) :
    scanComment s p = .ok (p + 2 + n + 2) ∧ In s (p + 2 + n + 2) ∧
      textAt s (p + 2 + n + 2) = t.drop (n + 2) := by
  obtain ⟨hin, htext⟩ := hp.add (n := n + 2) (by rw [ht]; exact findCommentEnd_le hn)
  rw [← Nat.add_assoc] at hin htext
  rw [ht] at htext
  unfold scanComment
  rw [ht, hn]
  exact ⟨rfl, hin, htext⟩

theorem isWhitespace_of_isNumberChar {c : UInt8} (hc : isNumberChar c) :
    isWhitespace c = false := by
  unfold isNumberChar at hc
  unfold isWhitespace
  simp only [Bool.or_eq_true, Bool.and_eq_true, decide_eq_true_eq, Bool.or_eq_false_iff,
    decide_eq_false_iff_not] at hc ⊢
  refine ⟨⟨⟨?_, ?_⟩, ?_⟩, ?_⟩ <;>
  · rintro rfl
    exact absurd hc (by decide)

theorem of_isQuote {q : UInt8} (hq : isQuote q) :
    isWhitespace q = false ∧ q ≠ 123 ∧ q ≠ 91 ∧ isNumberChar q = false := by
  unfold isQuote at hq
  rw [Bool.or_eq_true, decide_eq_true_eq, decide_eq_true_eq] at hq
  obtain rfl | rfl := hq <;> decide

/-- The bracket or the comma in front of an element. -/
theorem scanArray_succ {s : Str} {p fuel : ℕ} (hp : In s p) {c : UInt8} {t : Str}
    (ht : afterBlanks (textAt s p) = c :: t) (array : Table ρ) :
    scanArray H (fuel + 1) s p array =
      if c = 93 then .ok (.table array, scanWhitespace s p + 1)
      else
        assertInside s (skipComma s (scanWhitespace s p))
          (Str.ascii "JSON String ended unexpectedly scanning array.") >>= fun _ =>
        decode H fuel s (skipComma s (scanWhitespace s p)) >>= fun r =>
        scanArray H fuel s r.2 (tableInsert H array r.1) := by
  obtain ⟨hin, -, htext⟩ := hp.scanWhitespace
  have ht' := htext.trans ht
  rw [scanArray, assertInside_of_cons hin ht', charAt_of_cons ht']
  by_cases hc : c = 93
  · rw [if_pos hc]
    simp only [hc]
    rfl
  · rw [if_neg hc]
    simp only [Option.some.injEq, hc, if_false]
    rfl

/-- The text behind a comma is not empty if it is read as a value. -/
theorem exists_cons_of_reads {t : Str} {v : Value ρ} {r : Str} (h : Reads H t (.value v) r) :
    ∃ c t', t = c :: t' := List.exists_cons_of_ne_nil (ne_nil_of_reads h)

/-- Behind the blanks of a text there is something, if behind the comma there is. -/
theorem exists_afterBlanks {t : Str} {v : Value ρ} {r : Str}
    (h : Reads H (afterComma t) (.value v) r) : ∃ c t', afterBlanks t = c :: t' := by
  unfold afterComma at h
  cases ht : afterBlanks t with
  | nil =>
    rw [ht] at h
    exact absurd rfl (ne_nil_of_reads h)
  | cons c t' => exact ⟨c, t', rfl⟩

theorem length_afterComma_le (t : Str) : (afterComma t).length ≤ t.length := by
  have hblanks : ∀ t : Str, (afterBlanks t).length ≤ t.length := fun t =>
    (List.dropWhile_suffix isWhitespace).length_le
  unfold afterComma
  split
  · exact Nat.zero_le _
  · next c t' ht =>
    have hle := hblanks t
    rw [ht, List.length_cons] at hle
    split_ifs
    · exact (hblanks t').trans (by omega)
    · rw [List.length_cons]
      exact hle

/-- An element of an array is decoded, and then the others. -/
theorem returns_element (hH : H.Lawful) {s : Str} {p fuel : ℕ} {v : Value ρ} {t' : Str}
    {ws : List (Value ρ)} {r : Str} (hp : In s p)
    (hend : (afterBlanks (textAt s p)).head? ≠ some 93)
    (hv : Reads H (afterComma (textAt s p)) (.value v) t')
    (ihv : ∀ p' fuel, In s p' → textAt s p' = afterComma (textAt s p) →
      Returns H s p' fuel t' (.value v))
    (ih : ∀ p' fuel, In s p' → textAt s p' = t' → Returns H s p' fuel r (.elements ws)) :
    Returns H s p fuel r (.elements (kept v ++ ws)) := by
  intro hfuel vs hvs
  obtain ⟨fuel, rfl⟩ : ∃ n, fuel = n + 1 := ⟨fuel - 1, by omega⟩
  obtain ⟨c, t, ht⟩ := exists_afterBlanks hv
  obtain ⟨hin, hle, htext⟩ := hp.scanWhitespace
  obtain ⟨hin₁, hle₁, htext₁⟩ := hin.skipComma htext
  obtain ⟨c₁, t₁, ht₁⟩ := exists_cons_of_reads hv
  have hlen := length_afterComma_le (textAt s p)
  obtain ⟨p₂, hdecode, ⟨hlt₂, hin₂⟩, htext₂⟩ :=
    ihv _ fuel hin₁ htext₁ (by rw [htext₁]; omega)
  have hshort : (textAt s p₂).length < (textAt s p).length := by
    have := hin₂.le
    rw [hin₂.length, hp.length]
    omega
  obtain ⟨q, hrest, ⟨hlt, hq⟩, hr⟩ := ih p₂ fuel hin₂ htext₂ (by omega) _
    (forall_ne_nil_append_kept hvs v)
  refine ⟨q, ?_, ⟨by omega, hq⟩, hr⟩
  have hc : c ≠ 93 := by
    rintro rfl
    exact hend (by rw [ht]; rfl)
  rw [scanArray_succ hp ht, if_neg hc, assertInside_of_cons hin₁ (htext₁.trans ht₁), hdecode,
    ← List.append_assoc]
  change scanArray H fuel s p₂ (tableInsert H (Table.sequence vs) v) = _
  rw [tableInsert_sequence hH hvs]
  exact hrest

omit [DecidableEq ρ] in
theorem concatenated_of_keyOf {k : Value ρ} {key : Key ρ} (h : keyOf k = some key) :
    ∃ text, concatenated H k = .ok text := by
  cases k with
  | string k => exact ⟨k, rfl⟩
  | number n => exact ⟨H.tostring n, rfl⟩
  | _ => cases h

/-- A value is decoded only where there is more than blanks. -/
theorem inside_of_decode {s : Str} {p fuel : ℕ} {x : Value ρ × ℕ} (h : decode H fuel s p = .ok x)
    (message : Str) : assertInside s (scanWhitespace s p) message = .ok () := by
  cases fuel with
  | zero =>
    rw [decode] at h
    cases h
  | succ fuel =>
    rw [decode] at h
    obtain ⟨u, hinside, -⟩ := bind_eq_ok_iff.1 h
    exact assertInside_eq_ok_iff.2 (assertInside_eq_ok_iff.1 hinside)

theorem takeWhile_afterBlanks (t : Str) : (afterBlanks t).takeWhile isWhitespace = [] := by
  unfold afterBlanks
  induction t with
  | nil => rfl
  | cons c t ih =>
    rw [List.dropWhile_cons]
    split
    · exact ih
    · next hc => exact List.takeWhile_cons_of_neg hc

/-- Blanks that have been skipped are not there to be skipped again. -/
theorem decode_scanWhitespace {s : Str} {p fuel : ℕ} (hp : In s p) :
    decode H fuel s (scanWhitespace s p) = decode H fuel s p := by
  obtain ⟨hin, -, htext⟩ := hp.scanWhitespace
  have hskip : scanWhitespace s (scanWhitespace s p) = scanWhitespace s p := by
    rw [scanWhitespace, htext, takeWhile_afterBlanks]
    rfl
  cases fuel with
  | zero => rw [decode, decode]
  | succ fuel => rw [decode, hskip, ← decode]

/-- A member of an object is decoded, and then the others. -/
theorem returns_member {s : Str} {p fuel : ℕ} {k v : Value ρ} {key : Key ρ} {t₁ t₂ t₃ : Str}
    {ms : Table ρ} {r : Str} (hp : In s p)
    (hend : (afterBlanks (textAt s p)).head? ≠ some 125)
    (hk : Reads H (afterComma (textAt s p)) (.value k) t₁) (hkey : keyOf k = some key)
    (hcolon : afterBlanks t₁ = 58 :: t₂)
    (ihk : ∀ p' fuel, In s p' → textAt s p' = afterComma (textAt s p) →
      Returns H s p' fuel t₁ (.value k))
    (ihv : ∀ p' fuel, In s p' → textAt s p' = t₂ → Returns H s p' fuel t₃ (.value v))
    (ih : ∀ p' fuel, In s p' → textAt s p' = t₃ → Returns H s p' fuel r (.members ms)) :
    Returns H s p fuel r (.members ((key, v) :: ms)) := by
  intro hfuel t
  obtain ⟨fuel, rfl⟩ : ∃ n, fuel = n + 1 := ⟨fuel - 1, by omega⟩
  obtain ⟨c, u, ht⟩ := exists_afterBlanks hk
  obtain ⟨hin, hle, htext⟩ := hp.scanWhitespace
  obtain ⟨hin₁, hle₁, htext₁⟩ := hin.skipComma htext
  obtain ⟨c₁, u₁, ht₁⟩ := exists_cons_of_reads hk
  have hlen := length_afterComma_le (textAt s p)
  -- the key
  obtain ⟨p₂, hdecode, ⟨hlt₂, hin₂⟩, htext₂⟩ :=
    ihk _ fuel hin₁ htext₁ (by rw [htext₁]; omega)
  obtain ⟨keyText, hkeyText⟩ := concatenated_of_keyOf (H := H) hkey
  obtain ⟨hin₃, hle₃, htext₃⟩ := hin₂.scanWhitespace
  rw [htext₂, hcolon] at htext₃
  obtain ⟨hin₄, htext₄⟩ := hin₃.succ htext₃
  have hshort : ∀ {p'}, In s p' → p < p' → (textAt s p').length < (textAt s p).length := by
    intro p' hin' hlt'
    have := hin'.le
    rw [hin'.length, hp.length]
    omega
  -- the value
  obtain ⟨p₅, hdecode₅, ⟨hlt₅, hin₅⟩, htext₅⟩ := ihv _ fuel hin₄ htext₄
    (by have := hshort hin₄ (by omega); omega)
  obtain ⟨q, hrest, ⟨hlt, hq⟩, hr⟩ := ih p₅ fuel hin₅ htext₅
    (by have := hshort hin₅ (by omega); omega) (t.assign key v)
  refine ⟨q, ?_, ⟨by omega, hq⟩, hr⟩
  have hc : c ≠ 125 := by
    rintro rfl
    exact hend (by rw [ht]; rfl)
  have hinside₂ : assertInside s p₂ (noValue keyText) = .ok () := by
    have := hin₃.inside_iff.2 (by rw [htext₃]; exact List.cons_ne_nil _ _)
    exact assertInside_eq_ok_iff.2 (by omega)
  rw [scanObject, assertInside_of_cons hin (htext.trans ht), charAt_of_cons (htext.trans ht)]
  simp only [bind, Except.bind, Option.some.injEq, hc, if_false,
    assertInside_of_cons hin₁ (htext₁.trans ht₁), hdecode, hkeyText, hinside₂,
    assertInside_of_cons hin₃ htext₃, charAt_of_cons htext₃, luaAssert, decide_true, if_true,
    inside_of_decode hdecode₅, decode_scanWhitespace hin₄, hdecode₅,
    setKey_eq_ok_iff.2 ⟨key, hkey, rfl⟩]
  exact hrest

/-- **Completeness.** What the grammar says is what is decoded. -/
theorem decode_complete (hH : H.Lawful) {t : Str} {item : Item ρ} {r : Str} (h : Reads H t item r) :
    ∀ s p fuel, In s p → textAt s p = t → Returns H s p fuel r item := by
  induction h with
  | @blank c t v r hc _ ih =>
    intro s p fuel hp ht hfuel
    obtain ⟨hin, htext⟩ := hp.succ ht
    have hlen : (textAt s p).length = (textAt s (p + 1)).length + 1 := by
      rw [ht, htext, List.length_cons]
    obtain ⟨q, hdecode, ⟨hlt, hq⟩, hr⟩ := ih s (p + 1) fuel hin htext (by omega)
    exact ⟨q, by rw [decode_blank hp ht hc, hdecode], ⟨by omega, hq⟩, hr⟩
  | @comment t n v r hn _ ih =>
    intro s p fuel hp ht hfuel
    obtain ⟨fuel, rfl⟩ : ∃ n, fuel = n + 1 := ⟨fuel - 1, by omega⟩
    obtain ⟨hin₁, htext₁⟩ := hp.succ ht
    obtain ⟨hin₂, htext₂⟩ := hin₁.succ htext₁
    obtain ⟨hscan, hin₃, htext₃⟩ := scanComment_of_find hin₂ htext₂ hn
    have hlen : (textAt s (p + 2 + n + 2)).length + 1 ≤ (textAt s p).length := by
      have := hin₃.le
      rw [hin₃.length, hp.length]
      omega
    obtain ⟨q, hdecode, ⟨hlt, hq⟩, hr⟩ := ih s _ fuel hin₃ htext₃ (by omega)
    refine ⟨q, ?_, ⟨by omega, hq⟩, hr⟩
    rw [decode_succ hp ht (by decide), charAt_of_cons htext₁, hscan]
    exact hdecode
  | @number c t v hc hv =>
    intro s p fuel hp ht hfuel
    obtain ⟨fuel, rfl⟩ : ∃ n, fuel = n + 1 := ⟨fuel - 1, by omega⟩
    obtain ⟨hin₁, htext₁⟩ := hp.succ ht
    obtain ⟨hin, htext⟩ := hin₁.add (n := (t.takeWhile isNumberChar).length)
      (by rw [htext₁]; exact (List.takeWhile_prefix _).length_le)
    refine ⟨_, ?_, ⟨by omega, hin⟩, by rw [htext, htext₁, drop_takeWhile]⟩
    have h123 : c ≠ 123 := by
      rintro rfl
      exact absurd hc (by decide)
    have h91 : c ≠ 91 := by
      rintro rfl
      exact absurd hc (by decide)
    rw [decode_succ hp ht (isWhitespace_of_isNumberChar hc), if_neg h123, if_neg h91, if_pos hc]
    exact scanNumber_of_reads hp ht hv
  | @string q t v r hq hv =>
    intro s p fuel hp ht hfuel
    obtain ⟨fuel, rfl⟩ : ∃ n, fuel = n + 1 := ⟨fuel - 1, by omega⟩
    obtain ⟨hin₁, htext₁⟩ := hp.succ ht
    obtain ⟨hblank, h123, h91, hnumber⟩ := of_isQuote hq
    -- the literal ends where the text behind it begins
    obtain ⟨n, -, hdrop, hn⟩ := scanDelimiter_of_readFrom hq hv
    obtain ⟨hin, htext⟩ := hin₁.add (n := n) (by rwa [htext₁])
    have hr : textAt s (p + 1 + n) = r := by rw [htext, htext₁, hdrop]
    refine ⟨p + 1 + n, ?_, ⟨by omega, hin⟩, hr⟩
    rw [decode_succ hp ht hblank, if_neg h123, if_neg h91, if_neg (by simp [hnumber]), if_pos hq]
    exact (scanString_eq_ok_iff hH hq hp.pos (charAt_of_cons ht)).2
      ⟨by omega, hin.le, v, rfl, by rw [htext₁, hr]; exact hv⟩
  | true r =>
    intro s p fuel hp ht hfuel
    obtain ⟨fuel, rfl⟩ : ∃ n, fuel = n + 1 := ⟨fuel - 1, by omega⟩
    exact decode_constant hp ht (.inl ⟨rfl, rfl⟩)
  | false r =>
    intro s p fuel hp ht hfuel
    obtain ⟨fuel, rfl⟩ : ∃ n, fuel = n + 1 := ⟨fuel - 1, by omega⟩
    exact decode_constant hp ht (.inr (.inl ⟨rfl, rfl⟩))
  | null r =>
    intro s p fuel hp ht hfuel
    obtain ⟨fuel, rfl⟩ : ∃ n, fuel = n + 1 := ⟨fuel - 1, by omega⟩
    exact decode_constant hp ht (.inr (.inr ⟨rfl, rfl⟩))
  | @array t vs r _ ih =>
    intro s p fuel hp ht hfuel
    obtain ⟨fuel, rfl⟩ : ∃ n, fuel = n + 1 := ⟨fuel - 1, by omega⟩
    obtain ⟨hin, htext⟩ := hp.succ ht
    rw [ht, List.length_cons] at hfuel
    obtain ⟨q, hscan, ⟨hlt, hq⟩, hr⟩ :=
      ih s (p + 1) fuel hin htext (by rw [htext]; omega) [] (by simp)
    refine ⟨q, ?_, ⟨by omega, hq⟩, hr⟩
    rw [decode_succ hp ht (by decide)]
    exact hscan
  | @object t ms r _ ih =>
    intro s p fuel hp ht hfuel
    obtain ⟨fuel, rfl⟩ : ∃ n, fuel = n + 1 := ⟨fuel - 1, by omega⟩
    obtain ⟨hin, htext⟩ := hp.succ ht
    rw [ht, List.length_cons] at hfuel
    obtain ⟨q, hscan, ⟨hlt, hq⟩, hr⟩ := ih s (p + 1) fuel hin htext (by rw [htext]; omega) []
    refine ⟨q, ?_, ⟨by omega, hq⟩, hr⟩
    rw [decode_succ hp ht (by decide)]
    exact hscan
  | @arrayEnd t r h =>
    intro s p fuel hp ht hfuel vs _
    obtain ⟨fuel, rfl⟩ : ∃ n, fuel = n + 1 := ⟨fuel - 1, by omega⟩
    obtain ⟨hin, hle, htext⟩ := hp.scanWhitespace
    obtain ⟨hin', htext'⟩ := hin.succ (htext.trans (ht ▸ h))
    refine ⟨_, ?_, ⟨by omega, hin'⟩, htext'⟩
    rw [scanArray_succ hp (ht ▸ h), if_pos rfl, List.append_nil]
  | @element t t' v vs r hend hv _ ihv ih =>
    intro s p fuel hp ht
    subst ht
    exact returns_element hH hp hend hv (fun p' fuel => ihv s p' fuel) fun p' fuel => ih s p' fuel
  | @objectEnd t r h =>
    intro s p fuel hp ht hfuel u
    obtain ⟨fuel, rfl⟩ : ∃ n, fuel = n + 1 := ⟨fuel - 1, by omega⟩
    obtain ⟨hin, hle, htext⟩ := hp.scanWhitespace
    have htext := htext.trans (ht ▸ h)
    obtain ⟨hin', htext'⟩ := hin.succ htext
    refine ⟨_, ?_, ⟨by omega, hin'⟩, htext'⟩
    rw [scanObject, assertInside_of_cons hin htext, charAt_of_cons htext]
    rfl
  | @member t t₁ t₂ t₃ k v key ms r hend hk hkey hcolon _ _ ihk ihv ih =>
    intro s p fuel hp ht
    subst ht
    exact returns_member hp hend hk hkey hcolon (fun p' fuel => ihk s p' fuel)
      (fun p' fuel => ihv s p' fuel) fun p' fuel => ih s p' fuel

/-! ## Termination -/

/-- The computation comes to an end. -/
def Ends {α : Type} (x : Except Error α) : Prop := x ≠ .error .unfinished

theorem Ends.bind {α β : Type} {x : Except Error α} {f : α → Except Error β} (hx : Ends x)
    (hf : ∀ a, x = .ok a → Ends (f a)) : Ends (x >>= f) := by
  cases x with
  | error e => exact fun h => hx (congrArg Except.error (Except.error.inj h))
  | ok a => exact hf a rfl

theorem ends_luaAssert (condition : Bool) (message : Str) : Ends (luaAssert condition message) := by
  cases condition
  · rintro ⟨⟩
  · rintro ⟨⟩

omit [DecidableEq ρ] in
theorem ends_value {message : Str} (l : Loaded ρ) (q : ℕ) :
    Ends ((l.value message).map fun v => (v, q)) := by
  cases l <;> rintro ⟨⟩

omit [DecidableEq ρ] in
theorem ends_scanConstant (s : Str) (p : ℕ) :
    Ends (scanConstant s p : Except Error (Value ρ × ℕ)) := by
  unfold scanConstant
  dsimp only
  split_ifs <;> rintro ⟨⟩

omit [DecidableEq ρ] in
theorem ends_scanString (s : Str) (p : ℕ) (q : UInt8) : Ends (scanString H s p q) := by
  unfold scanString
  split
  · rintro ⟨⟩
  · exact ends_value _ _

omit [DecidableEq ρ] in
theorem ends_concatenated (k : Value ρ) : Ends (concatenated H k) := by
  cases k <;> rintro ⟨⟩

theorem ends_setKey (t : Table ρ) (k v : Value ρ) : Ends (setKey t k v) := by
  unfold setKey
  split <;> rintro ⟨⟩

theorem ends_scanComment (s : Str) (p : ℕ) : Ends (scanComment s p) := by
  unfold scanComment
  split <;> rintro ⟨⟩

/-- Runs with enough fuel for the text that is left come to an end. -/
structure AllEnd (H : Host ρ) (fuel : ℕ) : Prop where
  decode : ∀ {s p}, In s p → 2 * (textAt s p).length + 1 ≤ fuel → Ends (decode H fuel s p)
  array : ∀ {s p vs}, In s p → (∀ w ∈ vs, w ≠ .nil) → 2 * (textAt s p).length + 2 ≤ fuel →
    Ends (scanArray H fuel s p (Table.sequence vs))
  object : ∀ {s p t}, In s p → 2 * (textAt s p).length + 2 ≤ fuel → Ends (scanObject H fuel s p t)

/-- A later position leaves less text. -/
theorem length_textAt_lt {s : Str} {p q : ℕ} (hp : In s p) (h : Scans s p q) :
    (textAt s q).length < (textAt s p).length := by
  have := h.inside.le
  have := h.lt
  rw [h.inside.length, hp.length]
  omega

theorem decode_ends_step {fuel : ℕ} (ih : AllEnd H fuel) {s : Str} {p : ℕ} (hp : In s p)
    (hfuel : 2 * (textAt s p).length + 1 ≤ fuel + 1) : Ends (decode H (fuel + 1) s p) := by
  obtain ⟨hin, hle, htext⟩ := hp.scanWhitespace
  set p' := scanWhitespace s p with hp'
  rw [decode]
  refine (ends_luaAssert _ _).bind fun u hinside => ?_
  obtain ⟨c, hc, ht⟩ := hin.exists_cons (assertInside_eq_ok_iff.1 hinside)
  obtain ⟨hin', -⟩ := hin.succ ht
  have hlen : ∀ {q}, In s q → p' < q → 2 * (textAt s q).length + 2 ≤ fuel := by
    intro q hq hlt
    have := length_textAt_lt hp ⟨hle.trans_lt hlt, hq⟩
    omega
  simp only [← hp', hc]
  split_ifs with hobject harray hnumber hquote hcomment
  · exact ih.object hin' (hlen hin' (Nat.lt_succ_self p'))
  · exact ih.array hin' (List.forall_mem_nil (· ≠ Value.nil)) (hlen hin' (Nat.lt_succ_self p'))
  · exact ends_value _ _
  · exact ends_scanString _ _ _
  · refine (ends_scanComment _ _).bind fun e he => ?_
    rw [Bool.and_eq_true, decide_eq_true_eq, decide_eq_true_eq] at hcomment
    obtain ⟨hin₂, htext₂⟩ := hin'.succ (textAt_eq_cons hin'.pos hcomment.2)
    cases hn : findCommentEnd (textAt s (p' + 2)) with
    | none =>
      unfold scanComment at he
      simp [hn] at he
    | some n =>
      obtain ⟨hscan, hin₃, -⟩ := scanComment_of_find hin₂ rfl hn
      obtain rfl := Except.ok.inj (hscan.symm.trans he)
      exact ih.decode hin₃ (by have := hlen hin₃ (by omega); omega)
  · exact ends_scanConstant _ _

theorem scanArray_ends_step (hH : H.Lawful) {fuel : ℕ} (ih : AllEnd H fuel) {s : Str} {p : ℕ}
    {vs : List (Value ρ)} (hp : In s p) (hvs : ∀ w ∈ vs, w ≠ .nil)
    (hfuel : 2 * (textAt s p).length + 2 ≤ fuel + 1) :
    Ends (scanArray H (fuel + 1) s p (Table.sequence vs)) := by
  obtain ⟨hin, hle, htext⟩ := hp.scanWhitespace
  rw [scanArray]
  refine (ends_luaAssert _ _).bind fun u hinside => ?_
  split_ifs
  · rintro ⟨⟩
  · refine (ends_luaAssert _ _).bind fun u hinside => ?_
    obtain ⟨hin₁, hle₁, htext₁⟩ := hin.skipComma htext
    have hlen := length_afterComma_le (textAt s p)
    rw [← htext₁] at hlen
    refine (ih.decode hin₁ (by omega)).bind ?_
    rintro ⟨w, p₂⟩ hw
    obtain ⟨-, hscans⟩ := (decode_sound hH fuel).decode hin₁ hw
    have hshort := length_textAt_lt hin₁ hscans
    change Ends (scanArray H fuel s p₂ (tableInsert H (Table.sequence vs) w))
    rw [tableInsert_sequence hH hvs]
    exact ih.array hscans.inside (forall_ne_nil_append_kept hvs w) (by omega)

theorem scanObject_ends_step (hH : H.Lawful) {fuel : ℕ} (ih : AllEnd H fuel) {s : Str} {p : ℕ}
    {t : Table ρ} (hp : In s p) (hfuel : 2 * (textAt s p).length + 2 ≤ fuel + 1) :
    Ends (scanObject H (fuel + 1) s p t) := by
  obtain ⟨hin, hle, htext⟩ := hp.scanWhitespace
  rw [scanObject]
  refine (ends_luaAssert _ _).bind fun u hinside => ?_
  split_ifs
  · rintro ⟨⟩
  · refine (ends_luaAssert _ _).bind fun u hinside => ?_
    obtain ⟨hin₁, hle₁, htext₁⟩ := hin.skipComma htext
    have hlen := length_afterComma_le (textAt s p)
    rw [← htext₁] at hlen
    refine (ih.decode hin₁ (by omega)).bind ?_
    rintro ⟨k, p₂⟩ hk
    obtain ⟨-, hscans⟩ := (decode_sound hH fuel).decode hin₁ hk
    have hshort := length_textAt_lt hin₁ hscans
    refine (ends_concatenated k).bind fun keyText _ => (ends_luaAssert _ _).bind fun u _ =>
      (ends_luaAssert _ _).bind fun u hinside₃ => (ends_luaAssert _ _).bind fun u _ =>
      (ends_luaAssert _ _).bind fun u _ => ?_
    obtain ⟨hin₃, hle₃, htext₃⟩ := hscans.inside.scanWhitespace
    obtain ⟨c, hc, ht⟩ := hin₃.exists_cons (assertInside_eq_ok_iff.1 hinside₃)
    obtain ⟨hin₄, hle₄, htext₄⟩ := (hin₃.succ ht).1.scanWhitespace
    have hshort₄ := length_textAt_lt hscans.inside (q := _) ⟨by omega, hin₄⟩
    refine (ih.decode hin₄ (by omega)).bind ?_
    rintro ⟨v, p₅⟩ hv
    obtain ⟨-, hscans₅⟩ := (decode_sound hH fuel).decode hin₄ hv
    have hshort₅ := length_textAt_lt hin₄ hscans₅
    exact (ends_setKey t k v).bind fun t' _ => ih.object hscans₅.inside (by omega)

/-- **Termination.** With two levels of recursion for each character that is left, and one more,
`decode` comes to an end. -/
theorem decode_ends (hH : H.Lawful) (fuel : ℕ) : AllEnd H fuel := by
  induction fuel with
  | zero =>
    constructor
    · intro s p _ hfuel
      omega
    · intro s p vs _ _ hfuel
      omega
    · intro s p t _ hfuel
      omega
  | succ fuel ih =>
    exact ⟨decode_ends_step ih, scanArray_ends_step hH ih, scanObject_ends_step hH ih⟩

/-- What `decode` returns, from the first position on. -/
theorem decode_eq_ok_iff (hH : H.Lawful) {s : Str} {fuel : ℕ} (hfuel : 2 * s.length + 1 ≤ fuel)
    {v : Value ρ} {q : ℕ} : decode H fuel s 1 = .ok (v, q) ↔
      1 < q ∧ q ≤ s.length + 1 ∧ Reads H s (.value v) (textAt s q) := by
  have hp : In s 1 := ⟨le_rfl, Nat.le_add_left 1 _⟩
  constructor
  · intro h
    obtain ⟨hreads, hlt, hq⟩ := (decode_sound hH fuel).decode hp h
    exact ⟨hlt, hq.le, hreads⟩
  · rintro ⟨hlt, hle, hreads⟩
    obtain ⟨q', hdecode, ⟨hlt', hq'⟩, hr⟩ := decode_complete hH hreads s 1 fuel hp rfl hfuel
    rw [hdecode, pos_inj hq'.pos hq'.le hlt.le hle hr]

/-- **What `decode` accepts.** On every text it comes to an end, and it returns a value and a
position exactly if the grammar reads the text as the value, up to the position. The limit of the
interpreter on nested calls, which brackets nested deeply enough exceed, is not a part of this. -/
theorem decode_iff (hH : H.Lawful) (s : Str) {fuel : ℕ} (hfuel : 2 * s.length + 1 ≤ fuel) :
    decode H fuel s 1 ≠ .error .unfinished ∧ ∀ v q, decode H fuel s 1 = .ok (v, q) ↔
      1 < q ∧ q ≤ s.length + 1 ∧ Reads H s (.value v) (textAt s q) :=
  ⟨(decode_ends hH fuel).decode ⟨le_rfl, Nat.le_add_left 1 _⟩ hfuel,
    fun _ _ => decode_eq_ok_iff hH hfuel⟩

/-- An array without commas, with a hole and a string in single quotes. -/
theorem decode_iff_quoted :
    decode naturalHost 30 (Str.ascii "[null'a'7]") 1 ≠ .error .unfinished ∧ ∀ v q,
      decode naturalHost 30 (Str.ascii "[null'a'7]") 1 = .ok (v, q) ↔ 1 < q ∧ q ≤ 11 ∧
        Reads naturalHost (Str.ascii "[null'a'7]") (.value v) (textAt (Str.ascii "[null'a'7]") q) :=
  decode_iff naturalHost_lawful (Str.ascii "[null'a'7]") (by decide)

example : decode naturalHost 30 (Str.ascii "[null'a'7]") 1 =
    .ok (.table [(.index 1, .string (Str.ascii "a")), (.index 2, .number (.natural 7))], 11) := rfl

end Jord.Json
