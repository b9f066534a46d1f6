import Jord.Json.Decode

/-!
# Where a string ends

`decode_scanString` looks for the end of a string with a flag for backslashes, and has the text up
to there evaluated as Lua. The lexer of Lua comes to its end at the same place: the text between is
one string literal, or it is no literal at all (`scanDelimiter_of_readFrom`, `read_take`). Nothing
in a text is ever run as code but such literals and what consists of characters of numbers.
-/

namespace Jord.LuaLiteral

variable {del : UInt8} {s t v r : Str} {m : Mode} {out : Str}

/-- What is behind the closing quote does not matter. -/
theorem readFrom_append (h : readFrom del m out s = some (v, r)) (t : Str) :
    readFrom del m out (s ++ t) = some (v, r ++ t) := by
  induction s generalizing m out with
  | nil => cases h
  | cons c s ih =>
    rw [List.cons_append, readFrom]
    rw [readFrom] at h
    cases hstep : step del out c m with
    | more m' out' =>
      rw [hstep] at h
      exact ih h
    | closed v' =>
      rw [hstep] at h
      simp only [Option.some.injEq, Prod.mk.injEq] at h
      obtain ⟨rfl, rfl⟩ := h
      rfl
    | failed =>
      rw [hstep] at h
      cases h

/-- A literal ends with the text it is read from, if what is behind it is taken away. -/
theorem exists_readFrom_nil (h : readFrom del m out s = some (v, r)) :
    ∃ body, s = body ++ r ∧ readFrom del m out body = some (v, []) := by
  induction s generalizing m out with
  | nil => cases h
  | cons c s ih =>
    rw [readFrom] at h
    cases hstep : step del out c m with
    | more m' out' =>
      rw [hstep] at h
      obtain ⟨body, rfl, hbody⟩ := ih h
      exact ⟨c :: body, rfl, by rw [readFrom, hstep]; exact hbody⟩
    | closed v' =>
      rw [hstep] at h
      simp only [Option.some.injEq, Prod.mk.injEq] at h
      obtain ⟨rfl, rfl⟩ := h
      exact ⟨[c], rfl, by rw [readFrom, hstep]⟩
    | failed =>
      rw [hstep] at h
      cases h

end Jord.LuaLiteral

namespace Jord.Json

open LuaLiteral

/-! ## Two ways to the end of a string -/

/-- The flag of `decode_scanString` when the lexer is in the mode. -/
def escaped (m : Mode) : Bool := m = .escape

section Step

variable {q : UInt8} (hq : isQuote q)

include hq

theorem ne_backslash_of_isQuote : q ≠ backslash := by
  rintro rfl
  exact absurd hq (by decide)

theorem isNewline_of_isQuote : isNewline q = false := by
  unfold isQuote at hq
  rw [Bool.or_eq_true, decide_eq_true_eq, decide_eq_true_eq] at hq
  obtain rfl | rfl := hq <;> decide

theorem isDigit_of_isQuote : isDigit q = false := by
  unfold isQuote at hq
  rw [Bool.or_eq_true, decide_eq_true_eq, decide_eq_true_eq] at hq
  obtain rfl | rfl := hq <;> decide

omit hq in
/-- A character that is neither a backslash nor the delimiter. -/
theorem scanDelimiter_cons {c : UInt8} (hbackslash : c ≠ backslash) (hc : c ≠ q) (s : Str) :
    scanDelimiter q false (c :: s) = (scanDelimiter q false s).map (· + 1) := by
  rw [scanDelimiter, if_neg hbackslash, if_neg hc]

/-- The scan does with a character what the lexer does: it closes the string, or goes on. -/
structure Follows (q : UInt8) (e : Bool) (c : UInt8) (s : Str) (o : Outcome) : Prop where
  closed : ∀ v, o = .closed v → scanDelimiter q e (c :: s) = some 1
  more : ∀ m out, o = .more m out →
    scanDelimiter q e (c :: s) = (scanDelimiter q (escaped m) s).map (· + 1)

theorem follows_plainStep (out : Str) (c : UInt8) (s : Str) :
    Follows q false c s (plainStep q out c) := by
  unfold plainStep
  split_ifs with hc hn hb
  · refine ⟨fun v _ => ?_, by rintro m out' ⟨⟩⟩
    rw [hc, scanDelimiter, if_neg (ne_backslash_of_isQuote hq), if_pos rfl]
  · exact ⟨by rintro v ⟨⟩, by rintro m out' ⟨⟩⟩
  · refine ⟨by rintro v ⟨⟩, fun m out' h => ?_⟩
    obtain ⟨rfl, rfl⟩ := Outcome.more.inj h
    rw [scanDelimiter, if_pos hb]
    rfl
  · refine ⟨by rintro v ⟨⟩, fun m out' h => ?_⟩
    obtain ⟨rfl, rfl⟩ := Outcome.more.inj h
    exact scanDelimiter_cons hb hc s

/-- **The scan follows the lexer**, whatever it is in the middle of. -/
theorem follows_step (m : Mode) (out : Str) (c : UInt8) (s : Str) :
    Follows q (escaped m) c s (step q out c m) := by
  -- a line end or a digit is passed over by both
  have hpass : ∀ m out', escaped m = false → c ≠ backslash → c ≠ q →
      Follows q false c s (.more m out') := by
    intro m out' hm hb hc
    refine ⟨by rintro v ⟨⟩, fun m' out'' h => ?_⟩
    obtain ⟨rfl, rfl⟩ := Outcome.more.inj h
    rw [hm]
    exact scanDelimiter_cons hb hc s
  cases m with
  | plain => exact follows_plainStep hq out c s
  | escape =>
    have hescape : ∀ m out', escaped m = false → Follows q true c s (.more m out') := by
      intro m out' hm
      refine ⟨by rintro v ⟨⟩, fun m' out'' h => ?_⟩
      obtain ⟨rfl, rfl⟩ := Outcome.more.inj h
      rw [hm]
      rfl
    unfold step
    split_ifs
    · exact hescape _ _ rfl
    · exact hescape _ _ rfl
    · exact hescape _ _ rfl
  | newline first =>
    rw [step_newline]
    split_ifs with hc
    · rw [Bool.and_eq_true] at hc
      apply hpass _ _ rfl
      · rintro rfl
        exact absurd hc.1 (by decide)
      · rintro rfl
        exact absurd hc.1 (by simp [isNewline_of_isQuote hq])
    · exact follows_plainStep hq out c s
  | digits n count =>
    rw [step_digits]
    split_ifs with hc hn
    · rw [Bool.and_eq_true] at hc
      apply hpass _ _ rfl
      · rintro rfl
        exact absurd hc.1 (by decide)
      · rintro rfl
        exact absurd hc.1 (by simp [isDigit_of_isQuote hq])
    · exact ⟨by rintro v ⟨⟩, by rintro m out' ⟨⟩⟩
    · exact follows_plainStep hq _ c s

/-- **The two ends agree**: where the lexer closes a literal, the scan does. -/
theorem scanDelimiter_of_readFrom {m : Mode} {out s v r : Str}
    (h : readFrom q m out s = some (v, r)) :
    ∃ n, scanDelimiter q (escaped m) s = some n ∧ s.drop n = r ∧ n ≤ s.length := by
  induction s generalizing m out with
  | nil => cases h
  | cons c s ih =>
    have hfollows := follows_step hq m out c s
    rw [readFrom] at h
    cases hstep : step q out c m with
    | more m' out' =>
      rw [hstep] at h
      obtain ⟨n, hn, hdrop, hle⟩ := ih h
      refine ⟨n + 1, ?_, hdrop, Nat.succ_le_succ hle⟩
      rw [hfollows.more m' out' hstep, hn]
      rfl
    | closed v' =>
      rw [hstep] at h
      simp only [Option.some.injEq, Prod.mk.injEq] at h
      obtain ⟨rfl, rfl⟩ := h
      exact ⟨1, hfollows.closed _ hstep, rfl, Nat.le_add_left 1 _⟩
    | failed =>
      rw [hstep] at h
      cases h

omit hq in
/-- The scan does not look behind the end it finds. -/
theorem scanDelimiter_take {e : Bool} {s : Str} {n : ℕ} (h : scanDelimiter q e s = some n) :
    scanDelimiter q e (s.take n) = some n ∧ 1 ≤ n ∧ n ≤ s.length := by
  induction s generalizing e n with
  | nil => cases e <;> cases h
  | cons c s ih =>
    have hrec : ∀ e', (scanDelimiter q e' s).map (· + 1) = some n →
        ∃ k, n = k + 1 ∧ scanDelimiter q e' (s.take k) = some k ∧ k ≤ s.length := by
      intro e' h'
      obtain ⟨k, hk, rfl⟩ := Option.map_eq_some_iff.1 h'
      obtain ⟨htake, -, hle⟩ := ih hk
      exact ⟨k, rfl, htake, hle⟩
    cases e with
    | true =>
      obtain ⟨k, rfl, htake, hle⟩ := hrec false h
      refine ⟨?_, Nat.le_add_left 1 k, Nat.succ_le_succ hle⟩
      rw [List.take_succ_cons, scanDelimiter, htake]
      rfl
    | false =>
      rw [scanDelimiter] at h
      split_ifs at h with hb hc
      · obtain ⟨k, rfl, htake, hle⟩ := hrec true h
        refine ⟨?_, Nat.le_add_left 1 k, Nat.succ_le_succ hle⟩
        rw [List.take_succ_cons, scanDelimiter, if_pos hb, htake]
        rfl
      · obtain rfl := Option.some.inj h
        refine ⟨?_, le_rfl, Nat.le_add_left 1 _⟩
        rw [List.take_succ_cons, scanDelimiter, if_neg hb, if_pos hc]
      · obtain ⟨k, rfl, htake, hle⟩ := hrec false h
        refine ⟨?_, Nat.le_add_left 1 k, Nat.succ_le_succ hle⟩
        rw [List.take_succ_cons, scanDelimiter, if_neg hb, if_neg hc, htake]
        rfl

/-- **The text that is evaluated is one literal**, or none: if the lexer closes a literal in it, it
has come to the end. -/
theorem read_take {s : Str} {n : ℕ} (h : scanDelimiter q false s = some n) :
    read q (s.take n) = none ∨ ∃ v, read q (s.take n) = some (v, []) := by
  obtain ⟨htake, -, hle⟩ := scanDelimiter_take h
  cases hread : read q (s.take n) with
  | none => exact .inl rfl
  | some p =>
    obtain ⟨v, r⟩ := p
    obtain ⟨k, hk, hdrop, -⟩ := scanDelimiter_of_readFrom hq hread
    obtain rfl : n = k := Option.some.inj (htake.symm.trans hk)
    rw [List.drop_take_self] at hdrop
    exact .inr ⟨v, by rw [← hdrop]⟩

end Step

/-- **What `decode_scanString` reads**: the string literal at the position, and nothing else. -/
theorem scanString_eq_ok_iff {ρ : Type} [DecidableEq ρ] {H : Host ρ} (hH : H.Lawful) {s : Str}
    {startPos endPos : ℕ} {q : UInt8} {v : Value ρ} (hq : isQuote q) (hpos : 1 ≤ startPos)
    (hchar : charAt s startPos = some q) : scanString H s startPos q = .ok (v, endPos) ↔
      startPos < endPos ∧ endPos ≤ s.length + 1 ∧ ∃ w, v = .string w ∧
        read q (textAt s (startPos + 1)) = some (w, textAt s endPos) := by
  have hlen := length_textAt (s := s) (Nat.le_add_left 1 startPos)
  -- the chunk is the quote with the text up to the end that the scan finds
  have hslice : ∀ n, slice s startPos (startPos + 1 + n) =
      q :: (textAt s (startPos + 1)).take n := by
    intro n
    rw [slice, textAt_eq_cons hpos hchar, show startPos + 1 + n - startPos = n + 1 by omega,
      List.take_succ_cons]
  unfold scanString
  constructor
  · intro h
    cases hscan : scanDelimiter q false (textAt s (startPos + 1)) with
    | none => simp [hscan] at h
    | some n =>
      obtain ⟨-, hn, hle⟩ := scanDelimiter_take hscan
      simp only [hscan, hslice] at h
      rcases read_take hq hscan with hread | ⟨w, hread⟩
      · rw [hH.broken q _ hq hread] at h
        cases h
      · rw [hH.literal q _ w hq hread] at h
        simp only [Loaded.value, Except.map, Except.ok.injEq, Prod.mk.injEq] at h
        obtain ⟨rfl, rfl⟩ := h
        refine ⟨by omega, by omega, w, rfl, ?_⟩
        have hall := readFrom_append hread ((textAt s (startPos + 1)).drop n)
        rw [List.take_append_drop, List.nil_append] at hall
        rw [textAt_add (Nat.le_add_left 1 startPos)]
        exact hall
  · rintro ⟨hlt, hle, w, rfl, hread⟩
    obtain ⟨n, hscan, hdrop, hn⟩ := scanDelimiter_of_readFrom hq hread
    obtain ⟨body, hbody, hnil⟩ := exists_readFrom_nil hread
    obtain rfl : endPos = startPos + 1 + n := by
      apply pos_inj (by omega) hle (by omega) (by omega)
      rw [← hdrop, textAt_add (Nat.le_add_left 1 startPos)]
    have htake : (textAt s (startPos + 1)).take n = body := by
      have hsplit : (textAt s (startPos + 1)).take n ++ (textAt s (startPos + 1)).drop n =
          body ++ (textAt s (startPos + 1)).drop n := by
        rw [List.take_append_drop, hdrop]
        exact hbody
      exact List.append_cancel_right hsplit
    change scanDelimiter q false (textAt s (startPos + 1)) = some n at hscan
    simp only [hscan, hslice, htake, hH.literal q body w hq hnil]
    rfl

end Jord.Json
