import Jord.Json.Complete

/-!
# What is evaluated

`decode` hands parts of a text over to `loadstring`. Whatever the text is, the chunk is one of two
kinds (`Evaluated`): a run of characters of numbers, or something that is no chunk at all unless it
is a single string literal. The result does not depend on what `loadstring` makes of any other chunk
(`decode_evaluates`).
-/

namespace Jord.Json

variable {ρ : Type}

/-- **The chunks that `decode` evaluates**: a nonempty run of characters of numbers is returned, or
what a quote begins; if that has a literal in front, it has nothing behind it. -/
inductive Evaluated : Str → Prop
  | number {c : UInt8} {t : Str} (hc : isNumberChar c) (ht : ∀ d ∈ t, isNumberChar d) :
      Evaluated (returnText ++ c :: t)
  | string {q : UInt8} {t : Str} (hq : isQuote q)
      (ht : ∀ v r, LuaLiteral.read q t = some (v, r) → r = []) : Evaluated (returnText ++ q :: t)

theorem Evaluated.exists_first {chunk : Str} (h : Evaluated chunk) :
    ∃ c t, chunk = returnText ++ c :: t ∧ (isNumberChar c || isQuote c) := by
  cases h with
  | number hc _ => exact ⟨_, _, rfl, by rw [hc, Bool.true_or]⟩
  | string hq _ => exact ⟨_, _, rfl, by rw [hq, Bool.or_true]⟩

/-- `H'` does with these chunks, with numbers and with arrays what `H` does. -/
structure Agrees (H H' : Host ρ) : Prop where
  tostring : H'.tostring = H.tostring
  getn : H'.getn = H.getn
  loadstring : ∀ chunk, Evaluated chunk → H'.loadstring chunk = H.loadstring chunk

variable {H H' : Host ρ}

theorem Agrees.scanNumber (h : Agrees H H') {s : Str} {p : ℕ} (hp : In s p) {c : UInt8}
    (hc : charAt s p = some c) (hnumber : isNumberChar c) :
    scanNumber H' s p = scanNumber H s p := by
  have ht := textAt_eq_cons hp.pos hc
  have hchunk : Evaluated (returnText ++ c :: (textAt s (p + 1)).takeWhile isNumberChar) :=
    .number hnumber fun _ hd => List.mem_takeWhile_imp hd
  unfold Json.scanNumber
  simp only [slice_number ht, h.loadstring _ hchunk]

theorem Agrees.scanString (h : Agrees H H') {s : Str} {p : ℕ} (hp : In s p) {q : UInt8}
    (hc : charAt s p = some q) (hq : isQuote q) : scanString H' s p q = scanString H s p q := by
  unfold Json.scanString
  cases hscan : scanDelimiter q false (textAt s (p + 1)) with
  | none => rfl
  | some n =>
    have hslice : slice s p (p + 1 + n) = q :: (textAt s (p + 1)).take n := by
      rw [slice, textAt_eq_cons hp.pos hc, show p + 1 + n - p = n + 1 by omega,
        List.take_succ_cons]
    have hchunk : Evaluated (returnText ++ q :: (textAt s (p + 1)).take n) := by
      apply Evaluated.string hq
      intro v r hread
      rcases read_take hq hscan with hnone | ⟨w, hsome⟩
      · rw [hnone] at hread
        cases hread
      · rw [hsome] at hread
        exact (Prod.mk.inj (Option.some.inj hread)).2.symm
    simp only [hslice, h.loadstring _ hchunk]

theorem Agrees.concatenated (h : Agrees H H') (k : Value ρ) :
    concatenated H' k = concatenated H k := by
  cases k with
  | number n => exact congrArg (fun f => Except.ok (f n)) h.tostring
  | _ => rfl

variable [DecidableEq ρ]

theorem Agrees.tableInsert (h : Agrees H H') (t : Table ρ) (v : Value ρ) :
    tableInsert H' t v = tableInsert H t v := by
  rw [Json.tableInsert, Json.tableInsert, h.getn]

/-- `decode`, and the loops of `decode_scanArray` and `decode_scanObject`, do the same with both. -/
structure Same (H H' : Host ρ) (fuel : ℕ) : Prop where
  decode : ∀ {s p}, In s p → decode H' fuel s p = decode H fuel s p
  array : ∀ {s p} (t), In s p → scanArray H' fuel s p t = scanArray H fuel s p t
  object : ∀ {s p} (t), In s p → scanObject H' fuel s p t = scanObject H fuel s p t

theorem same_decode_step (h : Agrees H H') {fuel : ℕ} (ih : Same H H' fuel) {s : Str} {p : ℕ}
    (hp : In s p) : decode H' (fuel + 1) s p = decode H (fuel + 1) s p := by
  obtain ⟨hin, -, -⟩ := hp.scanWhitespace
  set p' := scanWhitespace s p with hp'
  rw [decode, decode, ← hp']
  refine bind_congr_ok fun u hinside => ?_
  obtain ⟨c, hc, htext⟩ := hin.exists_cons (assertInside_eq_ok_iff.1 hinside)
  have hsucc := (hin.succ htext).1
  rw [hc]
  dsimp only
  split_ifs with hbrace hbracket hnumber hquote hcomment
  · exact ih.object [] hsucc
  · exact ih.array [] hsucc
  · exact h.scanNumber hin hc hnumber
  · exact h.scanString hin hc hquote
  · refine bind_congr_ok fun e he => ?_
    rw [Bool.and_eq_true, decide_eq_true_eq, decide_eq_true_eq] at hcomment
    obtain ⟨hin₂, -⟩ := hsucc.succ (textAt_eq_cons hsucc.pos hcomment.2)
    cases hn : findCommentEnd (textAt s (p' + 2)) with
    | none =>
      unfold scanComment at he
      simp [hn] at he
    | some n =>
      obtain ⟨hscan, hin₃, -⟩ := scanComment_of_find hin₂ rfl hn
      obtain rfl := Except.ok.inj (hscan.symm.trans he)
      exact ih.decode hin₃
  · rfl

theorem same_array_step (hH : H.Lawful) (h : Agrees H H') {fuel : ℕ} (ih : Same H H' fuel) {s : Str}
    {p : ℕ} (t : Table ρ) (hp : In s p) :
    scanArray H' (fuel + 1) s p t = scanArray H (fuel + 1) s p t := by
  obtain ⟨hin, -, htext⟩ := hp.scanWhitespace
  obtain ⟨hin₁, -, -⟩ := hin.skipComma htext
  rw [scanArray, scanArray]
  refine bind_congr_ok fun u _ => ?_
  dsimp only
  split_ifs
  · rfl
  · refine bind_congr_ok fun u _ => ?_
    rw [ih.decode hin₁]
    refine bind_congr_ok ?_
    rintro ⟨v, p₂⟩ hv
    obtain ⟨-, hscans⟩ := (decode_sound hH fuel).decode hin₁ hv
    dsimp only
    rw [h.tableInsert]
    exact ih.array _ hscans.inside

theorem same_object_step (hH : H.Lawful) (h : Agrees H H') {fuel : ℕ} (ih : Same H H' fuel)
    {s : Str} {p : ℕ} (t : Table ρ) (hp : In s p) :
    scanObject H' (fuel + 1) s p t = scanObject H (fuel + 1) s p t := by
  obtain ⟨hin, -, htext⟩ := hp.scanWhitespace
  obtain ⟨hin₁, -, -⟩ := hin.skipComma htext
  rw [scanObject, scanObject]
  refine bind_congr_ok fun u _ => ?_
  dsimp only
  split_ifs
  · rfl
  · refine bind_congr_ok fun u _ => ?_
    rw [ih.decode hin₁]
    refine bind_congr_ok ?_
    rintro ⟨k, p₂⟩ hk
    obtain ⟨-, hscans⟩ := (decode_sound hH fuel).decode hin₁ hk
    dsimp only
    rw [h.concatenated]
    refine bind_congr_ok fun keyText _ => bind_congr_ok fun u _ => bind_congr_ok fun u hinside =>
      bind_congr_ok fun u _ => bind_congr_ok fun u _ => ?_
    obtain ⟨hin₃, -, -⟩ := hscans.inside.scanWhitespace
    obtain ⟨c, -, ht⟩ := hin₃.exists_cons (assertInside_eq_ok_iff.1 hinside)
    obtain ⟨hin₄, -, -⟩ := (hin₃.succ ht).1.scanWhitespace
    rw [ih.decode hin₄]
    refine bind_congr_ok ?_
    rintro ⟨v, p₅⟩ hv
    obtain ⟨-, hscans₅⟩ := (decode_sound hH fuel).decode hin₄ hv
    exact bind_congr_ok fun t' _ => ih.object t' hscans₅.inside

/-- The induction on the recursion. -/
theorem same_of_agrees (hH : H.Lawful) (h : Agrees H H') (fuel : ℕ) : Same H H' fuel := by
  induction fuel with
  | zero => exact ⟨fun _ => by rw [decode, decode], fun _ _ => by rw [scanArray, scanArray],
      fun _ _ => by rw [scanObject, scanObject]⟩
  | succ fuel ih =>
    exact ⟨same_decode_step h ih, same_array_step hH h ih, same_object_step hH h ih⟩

/-- **No other chunk matters.** Whatever the text is, the result of `decode` is the same for all
that `loadstring` may do with chunks that are neither a run of characters of numbers nor a string
literal by itself. -/
theorem decode_evaluates (hH : H.Lawful) (h : Agrees H H') (s : Str) (fuel : ℕ) :
    decode H' fuel s 1 = decode H fuel s 1 :=
  (same_of_agrees hH h fuel).decode ⟨le_rfl, Nat.le_add_left 1 _⟩

/-- A host that fails on a chunk with a call. -/
def trappedHost : Host Empty :=
  { naturalHost with
    loadstring := fun chunk =>
      if chunk = Str.ascii "return os.exit()" then .raises (Str.ascii "exit")
      else naturalHost.loadstring chunk }

theorem agrees_trappedHost : Agrees naturalHost trappedHost := by
  refine ⟨rfl, rfl, fun chunk hchunk => if_neg ?_⟩
  rintro rfl
  obtain ⟨c, t, heq, hc⟩ := hchunk.exists_first
  have hcancel : Str.ascii "os.exit()" = c :: t :=
    List.append_cancel_left (show returnText ++ Str.ascii "os.exit()" = _ from heq)
  rw [← (List.cons.inj hcancel).1] at hc
  exact absurd hc (by decide)

theorem decode_evaluates_trapped :
    decode trappedHost 30 (Str.ascii "['a'os.exit()]") 1 =
      decode naturalHost 30 (Str.ascii "['a'os.exit()]") 1 :=
  decode_evaluates naturalHost_lawful agrees_trappedHost _ 30

end Jord.Json
