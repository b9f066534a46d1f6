import Mathlib.Data.Int.Notation
import Mathlib.Data.List.TakeWhile
import Mathlib.Tactic.Common

/-!
# Byte strings

A `std::string` is a list of bytes; `ascii` reads a literal, `decimal` and `signed` write numbers,
`split` and `join` take a string apart at slashes and put it together.
-/

namespace Jord

/-- A `std::string`: a finite sequence of bytes, NUL allowed. -/
abbrev Str := List UInt8

namespace Str

/-- The bytes of an ASCII literal. -/
def ascii (s : String) : Str := s.toList.map fun c => UInt8.ofNat c.toNat

/-- An unsigned integer as an output stream writes it. -/
def decimal (n : ℕ) : Str := (Nat.toDigits 10 n).map fun c => UInt8.ofNat c.toNat

/-- A signed integer as an output stream writes it. -/
def signed (i : ℤ) : Str := (if i < 0 then [45] else []) ++ decimal i.natAbs

/-- `'/'` -/
def slash : UInt8 := 47

/-- The tokens of a string between slashes, empty ones kept. -/
def split (s : Str) : List Str := s.splitOn slash

/-- The tokens put together again with a slash between two of them. -/
def join (ts : List Str) : Str := [slash].intercalate ts

/-! ## C strings -/

/-- A string up to its first NUL has none. -/
theorem zero_notMem_takeWhile (s : Str) : 0 ∉ s.takeWhile (· != 0) := by
  intro h
  have := List.mem_takeWhile_imp h
  simp at this

theorem takeWhile_of_zero_notMem {s : Str} (h : 0 ∉ s) : s.takeWhile (· != 0) = s := by
  apply List.takeWhile_eq_self_iff.2
  intro b hb
  simp only [bne_iff_ne, ne_eq]
  rintro rfl
  exact h hb

/-! ## Tokens -/

theorem split_ne_nil (s : Str) : split s ≠ [] := List.splitOn_ne_nil _ _

/-- Tokens have no slash. -/
theorem slash_notMem_of_mem_split {s t : Str} (ht : t ∈ split s) : slash ∉ t := by
  induction s generalizing t with
  | nil =>
    obtain rfl : t = [] := by simpa [split] using ht
    exact List.not_mem_nil
  | cons c s ih =>
    rw [split, List.splitOn_cons_eq_if_modifyHead] at ht
    split at ht
    · rcases List.mem_cons.1 ht with rfl | ht
      · exact List.not_mem_nil
      · exact ih ht
    · next hc =>
      obtain ⟨t₀, ts, hs⟩ := List.exists_cons_of_ne_nil (split_ne_nil s)
      change split s = t₀ :: ts at hs
      rw [← split, hs, List.modifyHead_cons] at ht
      rcases List.mem_cons.1 ht with rfl | ht
      · have := ih (hs ▸ List.mem_cons_self)
        simp only [List.mem_cons, this, or_false]
        rintro rfl
        simp at hc
      · exact ih (hs ▸ List.mem_cons_of_mem _ ht)

theorem join_split (s : Str) : join (split s) = s := List.intercalate_splitOn _

theorem split_join {ts : List Str} (hne : ts ≠ []) (hts : ∀ t ∈ ts, slash ∉ t) :
    split (join ts) = ts :=
  List.splitOn_intercalate _ hts hne

theorem split_append {s : Str} (hs : slash ∉ s) (u : Str) :
    split (s ++ slash :: u) = s :: split u :=
  List.splitOn_append_cons_self_of_not_mem hs u

/-- Tokens with nothing between them are one token. -/
theorem split_flatten {ts : List Str} (hts : ∀ t ∈ ts, slash ∉ t) :
    split ts.flatten = [ts.flatten] := by
  apply List.splitOn_eq_singleton
  rw [List.mem_flatten]
  rintro ⟨t, ht, hmem⟩
  exact hts t ht hmem

theorem join_cons (t : Str) {ts : List Str} (hne : ts ≠ []) :
    join (t :: ts) = t ++ slash :: join ts := by
  simp [join, List.intercalate_cons_of_ne_nil hne]

theorem getLast?_join_concat (ts : List Str) {t : Str} (ht : t ≠ []) :
    (join (ts ++ [t])).getLast? = t.getLast? := by
  induction ts with
  | nil => simp [join]
  | cons u ts ih =>
    have hlast : t.getLast? = some (t.getLast ht) := List.getLast?_eq_some_getLast ht
    rw [List.cons_append, join_cons u (by simp), List.getLast?_append, List.getLast?_cons, ih,
      hlast]
    rfl

/-- A token that starts with a slash becomes an empty token that others follow. -/
theorem split_join_of_slash {ts : List Str} (hts : ∀ t ∈ ts, slash ∉ t) (u : Str)
    (us : List Str) : ∃ rest ≠ [], split (join (ts ++ (slash :: u) :: us)) = ts ++ [] :: rest := by
  induction ts with
  | nil =>
    rcases us with _ | ⟨u', us⟩
    · exact ⟨split u, split_ne_nil u, by simpa [join] using split_append (List.not_mem_nil) u⟩
    · refine ⟨split (u ++ slash :: join (u' :: us)), split_ne_nil _, ?_⟩
      rw [List.nil_append, List.nil_append, join_cons _ (List.cons_ne_nil _ _), List.cons_append]
      exact split_append (s := []) List.not_mem_nil _
  | cons t ts ih =>
    obtain ⟨rest, hne, hrest⟩ := ih fun t' ht' => hts t' (List.mem_cons_of_mem _ ht')
    refine ⟨rest, hne, ?_⟩
    rw [List.cons_append, join_cons _ (by simp), split_append (hts t List.mem_cons_self), hrest]
    rfl

end Str

/-- A separator stands behind each part but the last one. -/
theorem intercalate_concat {α : Type*} (s : α) (xs : List (List α)) (x : List α) :
    [s].intercalate (xs ++ [x]) = xs.flatMap (· ++ [s]) ++ x := by
  induction xs with
  | nil => simp
  | cons y xs ih =>
    rw [List.cons_append, List.intercalate_cons_of_ne_nil (by simp), ih]
    simp

end Jord
