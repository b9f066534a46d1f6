import Jord.Foundations.CppLexer
import Mathlib.Data.List.Induction
import Mathlib.Data.Nat.Basic

/-!
# Literals and identifiers of C++ source text

What a decimal number, a word and a list of characters between quotes are read as.

* A decimal number is read as its value (`reads_decimal`), and a word as an identifier
  (`reads_word`).
* Characters without quotes, backslashes and line ends (`Plain`) are read as themselves
  (`reads_plain`, `Plain.splice`, `Plain.unescape`).
* Any others are not: whatever token their quotes end up in has a value different from them
  (`scanString_cases`, `length_unescape`, `getLast?_unescape`).
-/

namespace Jord.Cpp

/-! ## Numbers -/

theorem decimal_ne_nil (n : ℕ) : Str.decimal n ≠ [] := by
  rw [Str.decimal, ne_eq, List.map_eq_nil_iff]
  exact Nat.toDigits_ne_nil

theorem isDigit_ofNat {d : ℕ} (hd : d < 10) :
    isDigit (UInt8.ofNat (Nat.digitChar d).toNat) = true ∧
      (Nat.digitChar d).toNat % 256 - 48 = d := by
  have : ∀ d : Fin 10, isDigit (UInt8.ofNat (Nat.digitChar d).toNat) = true ∧
      (Nat.digitChar d).toNat % 256 - 48 = d := by decide
  exact this ⟨d, hd⟩

theorem startStep_digit {c : UInt8} (hc : isDigit c) (out : List Token) :
    startStep out c = (.int (c.toNat - 48), out) := by
  have hblank : isBlank c = false := by
    simp only [isDigit, isBlank, Bool.and_eq_true, decide_eq_true_eq, UInt8.le_iff_toNat_le] at hc ⊢
    simp only [Bool.or_eq_false_iff, Bool.and_eq_false_iff, decide_eq_false_iff_not,
      ← UInt8.toNat_inj]
    simp at hc ⊢
    omega
  simp [startStep, hc, hblank]

/-- **A decimal number is read as its value.** -/
theorem reads_decimal (n : ℕ) : Reads .start (Str.decimal n) (.int n) [] := by
  induction n using Nat.strongRecOn with
  | ind n ih =>
    by_cases hn : n < 10
    · intro out
      obtain ⟨hdigit, hval⟩ := isDigit_ofNat hn
      have hdec : Str.decimal n = [UInt8.ofNat (Nat.digitChar n).toNat] := by
        rw [Str.decimal, Nat.toDigits_of_lt_base hn]
        rfl
      rw [hdec]
      simp [scan, step, startStep_digit hdigit, hval]
    · have hn' := not_lt.1 hn
      obtain ⟨hdigit, hval⟩ := isDigit_ofNat (Nat.mod_lt n (by decide : 0 < 10))
      have hdec : Str.decimal n =
          Str.decimal (n / 10) ++ [UInt8.ofNat (Nat.digitChar (n % 10)).toNat] := by
        rw [Str.decimal, Nat.toDigits_of_base_le (by decide) hn', List.map_append]
        rfl
      have hpos : n / 10 ≠ 0 := by omega
      rw [hdec, ← List.append_nil ([] : List Token)]
      refine (ih (n / 10) (by omega)).append fun out => ?_
      have hsum : 10 * (n / 10) + n % 10 = n := Nat.div_add_mod n 10
      simp [scan, step, hdigit, hpos, hval, hsum]

/-! ## Identifiers -/

/-- Characters that an identifier can begin with. -/
def Word (s : Str) : Prop := (∀ c ∈ s, isWord c) ∧ ∀ c ∈ s.head?, isDigit c = false

theorem isBlank_of_isWord {c : UInt8} (hc : isWord c) : isBlank c = false := by
  simp only [isWord, isDigit, Bool.or_eq_true, Bool.and_eq_true, decide_eq_true_eq,
    UInt8.le_iff_toNat_le, ← UInt8.toNat_inj] at hc
  simp only [isBlank, Bool.or_eq_false_iff, Bool.and_eq_false_iff, decide_eq_false_iff_not,
    UInt8.le_iff_toNat_le, ← UInt8.toNat_inj]
  simp at hc ⊢
  omega

theorem Word.append {s t : Str} (hs : Word s) (ht : ∀ c ∈ t, isWord c)
    (hhead : ∀ c ∈ t.head?, isDigit c = false) : Word (s ++ t) := by
  refine ⟨fun c hc => ?_, fun c hc => ?_⟩
  · rcases List.mem_append.1 hc with hc | hc
    · exact hs.1 c hc
    · exact ht c hc
  · rw [List.head?_append, Option.mem_def, Option.or_eq_some_iff] at hc
    rcases hc with hc | ⟨-, hc⟩
    · exact hs.2 c hc
    · exact hhead c hc

theorem reads_letters {t : Str} (ht : ∀ c ∈ t, isWord c) (s : Str) :
    Reads (.ident s) t (.ident (s ++ t)) [] := by
  induction t generalizing s with
  | nil => simpa using Reads.nil _
  | cons c t ih =>
    obtain ⟨hc, ht⟩ := List.forall_mem_cons.1 ht
    have hone : Reads (.ident s) [c] (.ident (s ++ [c])) [] := fun out => by simp [scan, step, hc]
    have := hone.append (ih ht (s ++ [c]))
    rwa [List.append_assoc] at this

/-- **A word is read as an identifier.** -/
theorem reads_word {s : Str} (hs : Word s) (hne : s ≠ []) : Reads .start s (.ident s) [] := by
  obtain ⟨c, t, rfl⟩ := List.exists_cons_of_ne_nil hne
  obtain ⟨hc, ht⟩ := List.forall_mem_cons.1 hs.1
  have hone : Reads .start [c] (.ident [c]) [] := fun out => by
    simp [scan, step, startStep, isBlank_of_isWord hc, hs.2 c rfl, hc]
  exact hone.append (reads_letters ht [c])

theorem Word.backslash_notMem {s : Str} (hs : Word s) : backslash ∉ s := fun h =>
  absurd (hs.1 _ h) (by decide)

/-! ## Characters between quotes -/

/-- Characters that stand for themselves between quotes. -/
def Plain (s : Str) : Prop := ∀ c ∈ s, c ≠ quote ∧ c ≠ backslash ∧ c ≠ newline

theorem plain_of_all {s : Str} (h : s.all fun c => c != quote && c != backslash && c != newline) :
    Plain s := by
  intro c hc
  simpa [and_assoc] using List.all_eq_true.1 h c hc

theorem Plain.append {s t : Str} (hs : Plain s) (ht : Plain t) : Plain (s ++ t) := by
  intro c hc
  rcases List.mem_append.1 hc with hc | hc
  · exact hs c hc
  · exact ht c hc

theorem plain_decimal (n : ℕ) : Plain (Str.decimal n) := by
  intro b hb
  obtain ⟨c, hc, rfl⟩ := List.mem_map.1 hb
  have hdigit := Nat.isDigit_of_mem_toDigits (by decide) (by decide) hc
  simp only [Char.isDigit, Bool.and_eq_true, decide_eq_true_eq, ge_iff_le] at hdigit
  have hlo : 48 ≤ c.toNat := hdigit.1
  have hhi : c.toNat ≤ 57 := hdigit.2
  have hmod : c.toNat % 256 = c.toNat := Nat.mod_eq_of_lt (by omega)
  refine ⟨?_, ?_, ?_⟩ <;> rw [ne_eq, ← UInt8.toNat_inj] <;>
    simp [hmod, quote, backslash, newline] <;> omega

theorem reads_plain {s : Str} (hs : Plain s) (r : Str) : Reads (.str r) s (.str (r ++ s)) [] := by
  induction s generalizing r with
  | nil => simpa using Reads.nil _
  | cons c s ih =>
    obtain ⟨⟨hq, hb, hn⟩, hs⟩ := List.forall_mem_cons.1 hs
    have hone : Reads (.str r) [c] (.str (r ++ [c])) [] := fun out => by
      simp [scan, step, hq, hb, hn]
    have := hone.append (ih hs (r ++ [c]))
    rwa [List.append_assoc] at this

/-- **The ways to read a text behind an opening quote**: to a closing quote in the text, to an
error, or to the end of the text, which is then inside of the literal. -/
theorem scanString_cases (s : Str) (out : List Token) :
    (∃ a b, s = a ++ quote :: b ∧
      scan (.str [], out) (a ++ [quote]) = some (.start, .str a :: out)) ∨
    scan (.str [], out) s = none ∨
    (scan (.str [], out) s = some (.str s, out) ∧ (backslash ∉ s → Plain s)) ∨
    ∃ a, s = a ++ [backslash] ∧ scan (.str [], out) s = some (.escape a, out) := by
  induction s using List.reverseRecOn with
  | nil => exact .inr (.inr (.inl ⟨rfl, fun _ c hc => by cases hc⟩))
  | append_singleton s c ih =>
    have hlast : ∀ st, scan st (s ++ [c]) = (scan st s).bind fun st' => step st' c := fun st => by
      rw [scan_append]
      simp [scan]
    rcases ih with ⟨a, b, rfl, ha⟩ | hnone | ⟨hstr, hplain⟩ | ⟨a, rfl, hesc⟩
    · exact .inl ⟨a, b ++ [c], by simp, ha⟩
    · exact .inr (.inl (by rw [hlast, hnone]; rfl))
    · rw [hlast, hstr, Option.bind_some, step]
      by_cases hq : c = quote
      · subst hq
        refine .inl ⟨s, [], rfl, ?_⟩
        rw [hlast, hstr]
        simp [step]
      · by_cases hb : c = backslash
        · subst hb
          exact .inr (.inr (.inr ⟨s, rfl, by simp [hq]⟩))
        · by_cases hn : c = newline
          · exact .inr (.inl (by rw [if_neg hq, if_neg hb, if_pos hn]))
          · refine .inr (.inr (.inl ⟨by simp [hq, hb, hn], fun hs x hx => ?_⟩))
            rcases List.mem_append.1 hx with hx | hx
            · exact hplain (fun hmem => hs (List.mem_append_left _ hmem)) x hx
            · exact List.mem_singleton.1 hx ▸ ⟨hq, hb, hn⟩
    · rw [hlast, hesc, Option.bind_some, step]
      by_cases hn : c = newline
      · exact .inr (.inl (by simp [hn]))
      · exact .inr (.inr (.inl ⟨by simp [hn], fun hs => absurd (by simp) hs⟩))

/-- A comment goes on to the end of the line. -/
theorem reads_comment {s : Str} (hs : newline ∉ s) : Reads .comment s .comment [] := by
  induction s with
  | nil => exact .nil _
  | cons c s ih =>
    have hc : c ≠ newline := fun h => hs (h ▸ List.mem_cons_self)
    have hone : Reads .comment [c] .comment [] := fun out => by simp [scan, step, hc]
    exact hone.append (ih fun h => hs (List.mem_cons_of_mem _ h))

/-! ## Line splices -/

theorem splice_of_notMem {s : Str} (hs : backslash ∉ s) : splice s = s := by
  fun_induction splice s with
  | case1 => rfl
  | case2 => rfl
  | case3 c d s hcd ih => exact absurd (hcd.1 ▸ List.mem_cons_self) hs
  | case4 c d s hcd ih => rw [ih fun h => hs (List.mem_cons_of_mem _ h)]

/-- Texts are spliced one by one where the second does not begin with a line end. -/
theorem splice_append {s t : Str} (ht : t.head? ≠ some newline) :
    splice (s ++ t) = splice s ++ splice t := by
  fun_induction splice s with
  | case1 => rfl
  | case2 c =>
    cases t with
    | nil => rfl
    | cons d t =>
      have : ¬ (c = backslash ∧ d = newline) := fun h => ht (by simp [h.2])
      simp [splice, this]
  | case3 c d s hcd ih => simpa [splice, hcd] using ih
  | case4 c d s hcd ih => simpa [splice, hcd] using ih

/-- Texts are spliced one by one where the first does not end with a backslash. -/
theorem splice_append_of_getLast? {s t : Str} (hs : s.getLast? ≠ some backslash) :
    splice (s ++ t) = splice s ++ splice t := by
  fun_induction splice s with
  | case1 => rfl
  | case2 c =>
    cases t with
    | nil => rfl
    | cons d t =>
      have : ¬ (c = backslash ∧ d = newline) := fun h => hs (by simp [h.1])
      simp [splice, this]
  | case3 c d s hcd ih =>
    cases s with
    | nil => simp [splice, hcd]
    | cons e s => simpa [splice, hcd] using ih (by simpa using hs)
  | case4 c d s hcd ih => simpa [splice, hcd] using ih (by simpa using hs)

theorem mem_of_mem_splice {s : Str} {c : UInt8} (hc : c ∈ splice s) : c ∈ s := by
  fun_induction splice s with
  | case1 => exact hc
  | case2 => exact hc
  | case3 _ _ _ _ ih => exact List.mem_cons_of_mem _ (List.mem_cons_of_mem _ (ih hc))
  | case4 _ _ _ _ ih =>
    rcases List.mem_cons.1 hc with rfl | hc
    · exact List.mem_cons_self
    · exact List.mem_cons_of_mem _ (ih hc)

theorem length_splice_le (s : Str) : (splice s).length ≤ s.length := by
  fun_induction splice s with
  | case1 => exact le_rfl
  | case2 => exact le_rfl
  | case3 c d s _ ih => exact Nat.le_trans ih (by simp only [List.length_cons]; omega)
  | case4 c d s _ ih => exact Nat.succ_le_succ ih

/-- A splice takes characters out. -/
theorem splice_eq_or_length_lt (s : Str) : splice s = s ∨ (splice s).length < s.length := by
  fun_induction splice s with
  | case1 => exact .inl rfl
  | case2 => exact .inl rfl
  | case3 c d s _ ih =>
    have := length_splice_le s
    simp only [List.length_cons]
    omega
  | case4 c d s _ ih =>
    rcases ih with ih | ih
    · exact .inl (by rw [ih])
    · exact .inr (Nat.succ_lt_succ ih)

/-! ## Escape sequences -/

/-- The characters written so far are no more than those read, and fewer if there was a backslash.
-/
def Bounded : EscapeMode × Str → Str → Prop
  | (.plain, out), raw => out.length ≤ raw.length ∧ (backslash ∈ raw → out.length < raw.length)
  | (.escape, out), raw => out.length + 1 ≤ raw.length
  | (.octal _ _, out), raw => out.length + 2 ≤ raw.length
  | (.hex _ _, out), raw => out.length + 2 ≤ raw.length

theorem bounded_plainStep {out raw : Str} (h : out.length + 1 ≤ raw.length) (c : UInt8) :
    Bounded (plainStep out c) (raw ++ [c]) := by
  rw [plainStep]
  split <;> simp [Bounded] <;> omega

theorem Bounded.step {st st' : EscapeMode × Str} {raw : Str} {c : UInt8} (hb : Bounded st raw)
    (h : escapeStep st c = some st') : Bounded st' (raw ++ [c]) := by
  obtain ⟨_ | _ | ⟨n, count⟩ | ⟨n, count⟩, out⟩ := st
  · obtain rfl := Option.some.inj h
    obtain ⟨hle, hlt⟩ := hb
    rw [plainStep]
    split
    · simpa [Bounded] using hle
    · next hc =>
      simp only [Bounded, List.length_append, List.length_singleton, List.mem_append,
        List.mem_singleton, Ne.symm hc, or_false]
      exact ⟨by omega, fun hmem => by have := hlt hmem; omega⟩
  · simp only [Bounded] at hb
    simp only [escapeStep] at h
    split_ifs at h <;> obtain rfl := Option.some.inj h <;> simp [Bounded] <;> omega
  · simp only [Bounded] at hb
    simp only [escapeStep] at h
    split_ifs at h <;> obtain rfl := Option.some.inj h
    · simp only [Bounded, List.length_append, List.length_singleton]
      omega
    · exact bounded_plainStep (by simp only [List.length_append, List.length_singleton]; omega) c
  · simp only [Bounded] at hb
    simp only [escapeStep] at h
    split at h
    · obtain rfl := Option.some.inj h
      simp only [Bounded, List.length_append, List.length_singleton]
      omega
    · split_ifs at h
      obtain rfl := Option.some.inj h
      exact bounded_plainStep (by simp only [List.length_append, List.length_singleton]; omega) c

theorem bounded_of_run {raw : Str} {st : EscapeMode × Str}
    (h : raw.foldlM escapeStep (.plain, []) = some st) : Bounded st raw := by
  induction raw using List.reverseRecOn generalizing st with
  | nil =>
    obtain rfl := Option.some.inj h
    simp [Bounded]
  | append_singleton raw c ih =>
    rw [List.foldlM_append] at h
    obtain ⟨st₁, hraw, h⟩ := Option.bind_eq_some_iff.1 h
    rw [List.foldlM_cons] at h
    obtain ⟨st₂, hstep, h⟩ := Option.bind_eq_some_iff.1 h
    obtain rfl := Option.some.inj h
    exact (ih hraw).step hstep

/-- **A value is not longer than the characters between the quotes**, and it is shorter if there is
a backslash among them. -/
theorem length_unescape {raw v : Str} (h : unescape raw = some v) :
    v.length ≤ raw.length ∧ (backslash ∈ raw → v.length < raw.length) := by
  obtain ⟨st, hst, hv⟩ := Option.bind_eq_some_iff.1 h
  have hb := bounded_of_run hst
  obtain ⟨_ | _ | ⟨n, count⟩ | ⟨n, count⟩, out⟩ := st
  · obtain rfl := Option.some.inj hv
    exact hb
  · cases hv
  · obtain rfl := Option.some.inj hv
    simp only [Bounded] at hb
    simp only [List.length_append, List.length_singleton]
    exact ⟨by omega, fun _ => by omega⟩
  · simp only at hv
    split_ifs at hv
    obtain rfl := Option.some.inj hv
    simp only [Bounded] at hb
    simp only [List.length_append, List.length_singleton]
    exact ⟨by omega, fun _ => by omega⟩

/-- A blank at the end is never part of an escape sequence. -/
theorem getLast?_unescape {raw v : Str} (h : unescape (raw ++ [32]) = some v) :
    v.getLast? = some 32 := by
  obtain ⟨st, hst, hv⟩ := Option.bind_eq_some_iff.1 h
  rw [List.foldlM_append] at hst
  obtain ⟨⟨mode, out⟩, -, hst⟩ := Option.bind_eq_some_iff.1 hst
  rw [List.foldlM_cons] at hst
  obtain ⟨st', hstep, hst⟩ := Option.bind_eq_some_iff.1 hst
  obtain rfl := Option.some.inj hst
  have hplain : ∀ out, plainStep out 32 = (.plain, out ++ [32]) := fun out => rfl
  have hend : ∃ out', st' = (.plain, out' ++ [32]) := by
    cases mode with
    | plain => exact ⟨out, (Option.some.inj hstep).symm⟩
    | escape => exact ⟨out, (Option.some.inj hstep).symm⟩
    | octal n count => exact ⟨_, (Option.some.inj hstep).symm⟩
    | hex n count =>
      have hhex : hexDigit 32 = none := rfl
      simp only [escapeStep, hhex, hplain] at hstep
      split_ifs at hstep
      exact ⟨_, (Option.some.inj hstep).symm⟩
  obtain ⟨out', rfl⟩ := hend
  obtain rfl := Option.some.inj hv
  exact List.getLast?_concat ..

/-- Without a backslash the value is what is written. -/
theorem unescape_of_notMem {s : Str} (hs : backslash ∉ s) : unescape s = some s := by
  have hrun : ∀ out, s.foldlM escapeStep (.plain, out) = some (.plain, out ++ s) := by
    induction s with
    | nil => simp
    | cons c s ih =>
      intro out
      have hc : c ≠ backslash := fun h => hs (h ▸ List.mem_cons_self)
      have := ih (fun h => hs (List.mem_cons_of_mem _ h)) (out ++ [c])
      simpa [escapeStep, plainStep, hc] using this
  rw [unescape, hrun]
  rfl

/-! ## Literals that do not mean what is between the quotes -/

theorem Plain.unescape {s : Str} (hs : Plain s) : unescape s = some s :=
  unescape_of_notMem fun h => (hs _ h).2.1 rfl

theorem Plain.getLast?_ne {s : Str} (hs : Plain s) : s.getLast? ≠ some backslash := fun h =>
  (hs _ (List.mem_of_getLast? h)).2.1 rfl

theorem Plain.splice {s : Str} (hs : Plain s) : splice s = s :=
  splice_of_notMem fun h => (hs _ h).2.1 rfl

/-- A text in which a literal that is still open cannot end but behind a blank: before the next
quote there is a line end, or the quote comes behind a blank. -/
def Shuts (t : Str) : Prop :=
  (∃ a b, t = a ++ newline :: b ∧ Plain a) ∨ ∃ a b, t = a ++ 32 :: quote :: b ∧ Plain a

/-- A literal that is open at a text that shuts it fails or gets a value that ends with a blank. -/
theorem Shuts.reads {t r : Str} {m : Mode} {toks : List Token} (ht : Shuts t)
    (h : Reads (.str r) t m toks) : ∃ a toks', toks = .str (a ++ [32]) :: toks' := by
  rcases ht with ⟨a, b, rfl, ha⟩ | ⟨a, b, rfl, ha⟩
  · obtain ⟨m', toks₁, toks₂, h₁, h₂, rfl⟩ := h.split
    obtain ⟨rfl, rfl⟩ := (reads_plain ha r).unique h₁
    have hfail := reads_iff.1 h₂
    rw [← List.singleton_append, scan_append] at hfail
    have : scan (.str (r ++ a), []) [newline] = none := rfl
    simp [this] at hfail
  · obtain ⟨m', toks₁, toks₂, h₁, h₂, rfl⟩ := h.split
    obtain ⟨rfl, rfl⟩ := (reads_plain ha r).unique h₁
    have hclose : Reads (.str (r ++ a)) [32, quote] .start [.str (r ++ a ++ [32])] := fun out => rfl
    have h₂' : Reads _ ([32, quote] ++ b) m toks₂ := h₂
    obtain ⟨m'', toks₃, toks₄, h₃, -, rfl⟩ := h₂'.split
    obtain ⟨-, rfl⟩ := hclose.unique h₃
    exact ⟨r ++ a, toks₄, rfl⟩

/-- **Characters that do not stand for themselves are not read as themselves**, whatever token the
quotes around them end up in. -/
theorem evaluate_ne_of_not_plain {s t : Str} {m : Mode} {toks : List Token} (hs : ¬ Plain s)
    (ht : Shuts t) (h : Reads (.str []) (Cpp.splice s ++ quote :: t) m toks) :
    ∃ tok toks', toks = tok :: toks' ∧ tok.evaluate ≠ some (.str s) := by
  have hlen := length_splice_le s
  have hvalue : ∀ raw, (∀ v, Cpp.unescape raw = some v → v ≠ s) →
      (Token.str raw).evaluate ≠ some (.str s) := by
    intro raw hraw heval
    obtain ⟨v, hv, heq⟩ := Option.map_eq_some_iff.1 heval
    exact hraw v hv (Token.str.inj heq)
  obtain ⟨m', toks₁, toks₂, h₁, h₂, rfl⟩ := h.split
  rcases scanString_cases (Cpp.splice s) [] with
    ⟨a, b, hsplit, ha⟩ | hnone | ⟨hstr, hplain⟩ | ⟨a, hsplit, hesc⟩
  · -- the literal ends inside of the characters, so its value is shorter
    rw [hsplit, List.append_cons] at h₁
    obtain ⟨m₁, toks₃, toks₄, h₃, -, rfl⟩ := h₁.split
    have hone : toks₃ = [.str a] := by
      have := (reads_iff.1 h₃).symm.trans ha
      simpa using (Prod.mk.inj (Option.some.inj this)).2
    refine ⟨.str a, toks₄ ++ toks₂, by rw [hone]; rfl, hvalue a fun v hv heq => ?_⟩
    have := (length_unescape hv).1
    have hlt := congrArg List.length hsplit
    simp only [List.length_append, List.length_cons] at hlt
    rw [heq] at this
    omega
  · rw [reads_iff, hnone] at h₁
    cases h₁
  · -- the literal ends at its quote, and a backslash or a splice has made it shorter
    obtain ⟨rfl, rfl⟩ : m' = .str (Cpp.splice s) ∧ toks₁ = [] := by
      have := (reads_iff.1 h₁).symm.trans hstr
      simpa using Prod.mk.inj (Option.some.inj this)
    have hclose : Reads (.str (Cpp.splice s)) [quote] .start [.str (Cpp.splice s)] := fun out => rfl
    obtain ⟨m'', toks₃, toks₄, h₃, -, rfl⟩ :=
      (show Reads _ ([quote] ++ t) m toks₂ from h₂).split
    obtain ⟨-, rfl⟩ := hclose.unique h₃
    refine ⟨_, toks₄, rfl, hvalue _ fun v hv heq => ?_⟩
    obtain ⟨hle, hlt⟩ := length_unescape hv
    by_cases hb : backslash ∈ Cpp.splice s
    · have := hlt hb
      rw [heq] at this
      omega
    · rcases splice_eq_or_length_lt s with hsame | hshort
      · exact hs (hsame ▸ hplain hb)
      · rw [heq] at hle
        omega
  · -- the closing quote is taken into the literal, which then ends with a blank
    obtain ⟨rfl, rfl⟩ : m' = .escape a ∧ toks₁ = [] := by
      have := (reads_iff.1 h₁).symm.trans hesc
      simpa using Prod.mk.inj (Option.some.inj this)
    have htake : Reads (.escape a) [quote] (.str (a ++ [backslash, quote])) [] := fun out => rfl
    obtain ⟨m'', toks₃, toks₄, h₃, h₄, rfl⟩ :=
      (show Reads _ ([quote] ++ t) m toks₂ from h₂).split
    obtain ⟨rfl, rfl⟩ := htake.unique h₃
    obtain ⟨r, toks', rfl⟩ := ht.reads h₄
    refine ⟨_, toks', rfl, hvalue _ fun v hv heq => ?_⟩
    obtain ⟨s', rfl⟩ : ∃ s', s = s' ++ [32] := by
      rw [← List.getLast?_eq_some_iff, ← heq]
      exact getLast?_unescape hv
    rw [splice_append (by decide)] at hsplit
    have := (List.append_inj' hsplit rfl).2
    exact absurd this (by decide)

end Jord.Cpp
