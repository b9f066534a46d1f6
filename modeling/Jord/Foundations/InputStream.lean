import Mathlib.Algebra.Group.Nat.Defs
import Mathlib.Data.List.Basic

/-!
# Input streams

A stream of the C library over a file that can be read without errors: the bytes of the file, a
position, and the two indicators. The functions are those of the C standard for reading bytes, and
say what is returned and what the stream is afterwards.

* `fread_eq` and `fgets_cases` say what `fread` and `fgets` return, in terms of the bytes that are
  `rest`; `Advances` says how far a stream has moved on.
* `line` is the next line, without the newline that ends it.
-/

namespace Jord

/-- A stream. The indicator of the end of the file is only set at the end. -/
structure InputStream where
  content : List UInt8
  position : ℕ
  eof : Bool
  error : Bool
  atEnd : eof = true → content.length ≤ position
  fits : content.length < 2 ^ 64

/-- A file that has just been opened. -/
def InputStream.ofContent (content : List UInt8) (h : content.length < 2 ^ 64) : InputStream :=
  ⟨content, 0, false, false, fun h => (by cases h), h⟩

/-- The bytes up to the first newline. -/
def line (bs : List UInt8) : List UInt8 := bs.takeWhile (· != 10)

/-- The bytes up to the first newline, including it, but no more than `n`. -/
def lineChunk : ℕ → List UInt8 → List UInt8
  | 0, _ => []
  | _, [] => []
  | n + 1, b :: bs => if b = 10 then [b] else b :: lineChunk n bs

namespace InputStream

variable (F : InputStream)

/-- The bytes that have not been read. -/
def rest : List UInt8 := F.content.drop F.position

/-- The stream `n` bytes further on. -/
def skip (n : ℕ) : InputStream :=
  { F with
    position := F.position + n
    atEnd := fun h => Nat.le_trans (F.atEnd h) (Nat.le_add_right _ _) }

/-- The stream at the end, where a function has tried to read more. -/
def toEnd : InputStream :=
  { F with
    position := max F.position F.content.length
    eof := true
    atEnd := fun _ => Nat.le_max_right _ _ }

/-- `clearerr` -/
def clearerr : InputStream := { F with eof := false, error := false, atEnd := fun h => by cases h }

/-- `fread` of `n` bytes. -/
def fread (n : ℕ) : List UInt8 × InputStream :=
  if n ≤ F.rest.length then (F.rest.take n, F.skip n) else (F.rest, F.toEnd)

/-- `fgets` into a buffer of `n` bytes; `none` is `NULL`. -/
def fgets (n : ℕ) : Option (List UInt8) × InputStream :=
  if F.rest = [] then
    (none, F.toEnd)
  else
    let chunk := lineChunk (n - 1) F.rest
    if chunk.length < n - 1 ∧ chunk.getLast? ≠ some 10 then
      (some chunk, F.toEnd)
    else
      (some chunk, F.skip chunk.length)

/-- `getc`; `none` is `EOF`. -/
def getc : Option UInt8 × InputStream :=
  match F.rest with
  | [] => (none, F.toEnd)
  | b :: _ => (some b, F.skip 1)

/-! ## What is left to read -/

variable {F} {F' F'' : InputStream} {m n : ℕ}

@[simp] theorem rest_skip : (F.skip n).rest = F.rest.drop n := by
  rw [rest, rest, List.drop_drop]
  rfl

@[simp] theorem rest_toEnd : F.toEnd.rest = [] :=
  List.drop_eq_nil_of_le (Nat.le_max_right _ _)

theorem length_rest : F.rest.length = F.content.length - F.position := List.length_drop

theorem length_rest_lt : F.rest.length < 2 ^ 64 := by
  have := F.fits
  rw [length_rest]
  omega

/-- The stream is `n` bytes further on in the same file. -/
structure Advances (F F' : InputStream) (n : ℕ) : Prop where
  content : F'.content = F.content
  position : F'.position = F.position + n

namespace Advances

theorem refl (F : InputStream) : F.Advances F 0 := ⟨rfl, rfl⟩

theorem trans (h : F.Advances F' m) (h' : F'.Advances F'' n) : F.Advances F'' (m + n) :=
  ⟨h'.content.trans h.content, by rw [h'.position, h.position, Nat.add_assoc]⟩

theorem rest (h : F.Advances F' n) : F'.rest = F.rest.drop n := by
  rw [InputStream.rest, InputStream.rest, h.content, h.position, List.drop_drop]

end Advances

theorem advances_skip (F : InputStream) (n : ℕ) : F.Advances (F.skip n) n := ⟨rfl, rfl⟩

theorem advances_clearerr (F : InputStream) : F.Advances F.clearerr 0 := ⟨rfl, rfl⟩

theorem advances_toEnd (F : InputStream) : F.Advances F.toEnd F.rest.length := by
  refine ⟨rfl, ?_⟩
  change max F.position F.content.length = _
  rw [length_rest]
  omega

/-- `fread` returns what is there. -/
theorem fread_eq : (F.fread n).1 = F.rest.take n ∧
    F.Advances (F.fread n).2 (min n F.rest.length) := by
  unfold fread
  split
  · next h => exact ⟨rfl, by rw [Nat.min_eq_left h]; exact advances_skip F n⟩
  · next h =>
    have hle : F.rest.length ≤ n := by omega
    rw [List.take_of_length_le hle, Nat.min_eq_right hle]
    exact ⟨rfl, advances_toEnd F⟩

theorem fread_error : (F.fread n).2.error = F.error := by
  unfold fread
  split <;> rfl

theorem fgets_error : (F.fgets n).2.error = F.error := by
  unfold fgets
  split
  · rfl
  · dsimp only
    split <;> rfl

theorem getc_error : F.getc.2.error = F.error := by
  unfold getc
  split <;> rfl

/-- A character can only be read where the indicator of the end of the file is not set. -/
theorem getc_eq_some {b : UInt8} (h : F.getc.1 = some b) :
    F.getc.2 = F.skip 1 ∧ F.eof = false ∧ F.rest ≠ [] := by
  unfold getc at h ⊢
  split at h
  · cases h
  · next c cs hrest =>
    have hne : F.rest ≠ [] := by simp [hrest]
    rw [hrest]
    refine ⟨rfl, ?_, List.cons_ne_nil _ _⟩
    by_contra heof
    exact hne (List.drop_eq_nil_of_le (F.atEnd (Bool.not_eq_false _ ▸ heof)))

/-- There is no character at the end. -/
theorem getc_eq_none : F.getc.1 = none ↔ F.rest = [] := by
  unfold getc
  cases F.rest <;> simp

end InputStream

/-! ## Lines -/

theorem line_cons {b : UInt8} (hb : b ≠ 10) (bs : List UInt8) : line (b :: bs) = b :: line bs := by
  simp [line, hb]

/-- A line and what comes after it: nothing, or a newline and the rest. -/
theorem line_cases (bs : List UInt8) :
    (10 ∈ bs ∧ ∃ tail, bs = line bs ++ 10 :: tail) ∨ 10 ∉ bs ∧ line bs = bs := by
  induction bs with
  | nil => exact .inr ⟨List.not_mem_nil, rfl⟩
  | cons b bs ih =>
    by_cases hb : b = 10
    · subst hb
      exact .inl ⟨List.mem_cons_self, bs, rfl⟩
    · rw [line_cons hb]
      rcases ih with ⟨hmem, tail, htail⟩ | ⟨hmem, hline⟩
      · exact .inl ⟨List.mem_cons_of_mem _ hmem, tail, congrArg (b :: ·) htail⟩
      · refine .inr ⟨?_, congrArg (b :: ·) hline⟩
        rw [List.mem_cons, not_or]
        exact ⟨Ne.symm hb, hmem⟩

/-- A chunk ends the line, or the line goes on after it. -/
theorem lineChunk_cases (n : ℕ) (bs : List UInt8) :
    (lineChunk n bs = line bs ++ [10] ∧ ∃ tail, bs = line bs ++ 10 :: tail) ∨
      10 ∉ lineChunk n bs ∧ line bs = lineChunk n bs ++ line (bs.drop (lineChunk n bs).length) ∧
        bs = lineChunk n bs ++ bs.drop (lineChunk n bs).length ∧
        ((lineChunk n bs).length = n ∨ bs.drop (lineChunk n bs).length = []) := by
  induction n generalizing bs with
  | zero => exact .inr ⟨List.not_mem_nil, rfl, rfl, .inl rfl⟩
  | succ n ih =>
    cases bs with
    | nil => exact .inr ⟨List.not_mem_nil, rfl, rfl, .inr rfl⟩
    | cons b bs =>
      by_cases hb : b = 10
      · subst hb
        exact .inl ⟨rfl, bs, rfl⟩
      · rw [lineChunk, if_neg hb, line_cons hb]
        rcases ih bs with ⟨hchunk, tail, htail⟩ | ⟨hmem, hline, hsplit, hlen⟩
        · exact .inl ⟨congrArg (b :: ·) hchunk, tail, congrArg (b :: ·) htail⟩
        · refine .inr ⟨?_, congrArg (b :: ·) hline, congrArg (b :: ·) hsplit, ?_⟩
          · rw [List.mem_cons, not_or]
            exact ⟨Ne.symm hb, hmem⟩
          · exact hlen.imp (congrArg (· + 1)) id

theorem lineChunk_ne_nil {n : ℕ} {bs : List UInt8} (hn : 0 < n) (hbs : bs ≠ []) :
    lineChunk n bs ≠ [] := by
  cases n with
  | zero => exact absurd hn (Nat.lt_irrefl 0)
  | succ n =>
    cases bs with
    | nil => exact absurd rfl hbs
    | cons b bs =>
      rw [lineChunk]
      split <;> exact List.cons_ne_nil _ _

namespace InputStream

variable {F : InputStream} {n : ℕ}

/-- **What `fgets` returns**: nothing at the end of the file; the rest of the line with its newline;
or a part of the line, after which the line goes on. -/
theorem fgets_cases (hn : 2 ≤ n) :
    (F.rest = [] ∧ (F.fgets n).1 = none ∧ F.Advances (F.fgets n).2 0) ∨
    (∃ tail, F.rest = line F.rest ++ 10 :: tail ∧ (F.fgets n).1 = some (line F.rest ++ [10]) ∧
      F.Advances (F.fgets n).2 ((line F.rest).length + 1)) ∨
    ∃ chunk, chunk ≠ [] ∧ 10 ∉ chunk ∧ (F.fgets n).1 = some chunk ∧
      F.rest = chunk ++ (F.fgets n).2.rest ∧ line F.rest = chunk ++ line (F.fgets n).2.rest ∧
      F.Advances (F.fgets n).2 chunk.length := by
  unfold fgets
  split
  · next h =>
    refine .inl ⟨h, rfl, ?_⟩
    have hend := advances_toEnd F
    rwa [h] at hend
  · next h =>
    have hne := lineChunk_ne_nil (n := n - 1) (by omega) h
    rcases lineChunk_cases (n - 1) F.rest with ⟨hchunk, tail, htail⟩ | ⟨hmem, hline, hsplit, hlen⟩
    · refine .inr (.inl ⟨tail, htail, ?_⟩)
      have hlast : (lineChunk (n - 1) F.rest).getLast? = some 10 := by
        rw [hchunk]
        simp
      rw [if_neg (fun h => h.2 hlast), hchunk]
      refine ⟨rfl, ?_⟩
      have hlength : (line F.rest).length + 1 = (line F.rest ++ [10]).length := by simp
      rw [hlength]
      exact advances_skip F _
    · refine .inr (.inr ⟨_, hne, hmem, ?_⟩)
      have hlast : (lineChunk (n - 1) F.rest).getLast? ≠ some 10 := fun h =>
        hmem (List.mem_of_getLast? h)
      dsimp only
      by_cases hshort : (lineChunk (n - 1) F.rest).length < n - 1
      · rw [if_pos ⟨hshort, hlast⟩]
        have hdrop := hlen.resolve_left (by omega)
        rw [hdrop, List.append_nil] at hsplit
        refine ⟨rfl, ?_, ?_, ?_⟩
        · rw [rest_toEnd, List.append_nil, ← hsplit]
        · rw [rest_toEnd, ← hdrop, ← hline]
        · rw [← hsplit]
          exact advances_toEnd F
      · rw [if_neg (fun h => hshort h.1)]
        refine ⟨rfl, ?_, ?_, advances_skip F _⟩
        · rw [rest_skip, ← hsplit]
        · rw [rest_skip, ← hline]

end InputStream

end Jord
