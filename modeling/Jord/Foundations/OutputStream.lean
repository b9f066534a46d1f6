import Mathlib.Data.Int.Notation
import Mathlib.Data.List.Basic
import Mathlib.Tactic.Common

/-!
# Output streams

A stream of the C library over a file that is written to: the bytes of the file and a position. A
write overwrites what is at the position, or is put behind the end if the stream was opened for
appending; a gap behind the end is filled with zeros. Writing in parts is the same as writing all at
once (`write_append`), and what is written for appending comes after what there is
(`write_of_append`).
-/

namespace Jord

/-- A stream; `append` says that every write goes to the end of the file. -/
structure OutputStream where
  content : List UInt8
  position : ℕ
  append : Bool

/-- The bytes `cs` with `bs` from the position `n` on. -/
def overwrite (n : ℕ) (bs cs : List UInt8) : List UInt8 :=
  (cs ++ List.replicate (n - cs.length) 0).take n ++ bs ++ cs.drop (n + bs.length)

theorem length_take_padded (n : ℕ) (cs : List UInt8) :
    ((cs ++ List.replicate (n - cs.length) 0).take n).length = n := by
  rw [List.length_take, List.length_append, List.length_replicate]
  omega

/-- What has just been written is gone on with. -/
theorem overwrite_overwrite (n : ℕ) (xs ys cs : List UInt8) :
    overwrite (n + xs.length) ys (overwrite n xs cs) = overwrite n (xs ++ ys) cs := by
  set front := (cs ++ List.replicate (n - cs.length) 0).take n with hfront
  have hsum : (front ++ xs).length = n + xs.length := by
    rw [List.length_append, length_take_padded]
  have htake : ∀ zs : List UInt8, (front ++ xs ++ zs).take (n + xs.length) = front ++ xs := by
    intro zs
    rw [← hsum, List.take_left]
  have hdrop : (front ++ xs ++ cs.drop (n + xs.length)).drop (n + xs.length + ys.length) =
      cs.drop (n + (xs ++ ys).length) := by
    rw [← List.drop_drop, ← hsum, List.drop_left, hsum, List.drop_drop, List.length_append,
      Nat.add_assoc]
  change List.take _ (front ++ xs ++ cs.drop (n + xs.length) ++ _) ++ ys ++
    List.drop _ (front ++ xs ++ cs.drop (n + xs.length)) = front ++ (xs ++ ys) ++ _
  rw [List.append_assoc (front ++ xs) (cs.drop _), htake, hdrop, List.append_assoc front]

theorem overwrite_length (xs cs : List UInt8) : overwrite cs.length xs cs = cs ++ xs := by
  unfold overwrite
  rw [Nat.sub_self, List.replicate_zero, List.append_nil, List.take_length,
    List.drop_eq_nil_of_le (Nat.le_add_right _ _), List.append_nil]

namespace OutputStream

variable (F : OutputStream)

/-- A file that has just been created. -/
def empty : OutputStream := ⟨[], 0, false⟩

/-- Where the next write goes. -/
def start : ℕ := if F.append then F.content.length else F.position

/-- The stream after some bytes have been written. -/
def write (bs : List UInt8) : OutputStream :=
  if bs = [] then F
  else { F with content := overwrite F.start bs F.content, position := F.start + bs.length }

/-- The stream at another position, which must not be negative. -/
def moveTo (p : ℤ) : Option OutputStream :=
  if 0 ≤ p then some { F with position := p.toNat } else none

@[simp] theorem write_nil : F.write [] = F := if_pos rfl

variable {F}

theorem write_of_ne_nil {bs : List UInt8} (h : bs ≠ []) : F.write bs =
    { F with content := overwrite F.start bs F.content, position := F.start + bs.length } :=
  if_neg h

/-- A write that follows one goes where it has ended. -/
theorem start_write {xs : List UInt8} (h : xs ≠ []) :
    (F.write xs).start = F.start + xs.length := by
  rw [write_of_ne_nil h, start]
  cases happend : F.append with
  | false => rfl
  | true =>
    have hstart : F.start = F.content.length := if_pos happend
    rw [if_pos rfl, hstart, overwrite_length, List.length_append]

/-- **Writing in parts.** -/
theorem write_append (xs ys : List UInt8) : (F.write xs).write ys = F.write (xs ++ ys) := by
  by_cases hxs : xs = []
  · rw [hxs, write_nil, List.nil_append]
  · by_cases hys : ys = []
    · rw [hys, write_nil, List.append_nil]
    · have hne : xs ++ ys ≠ [] := by simp [hxs]
      rw [write_of_ne_nil hys, start_write hxs, write_of_ne_nil hxs, write_of_ne_nil hne]
      simp only [overwrite_overwrite, List.length_append, Nat.add_assoc]

/-- A stream that appends puts what is written behind the end, wherever it is. -/
theorem write_of_append (h : F.append = true) (bs : List UInt8) :
    (F.write bs).content = F.content ++ bs ∧ (F.write bs).append = true := by
  by_cases hbs : bs = []
  · rw [hbs, write_nil, List.append_nil]
    exact ⟨rfl, h⟩
  · have hstart : F.start = F.content.length := if_pos h
    rw [write_of_ne_nil hbs, hstart, overwrite_length]
    exact ⟨rfl, h⟩

/-- Only the position changes. -/
theorem moveTo_getD (p : ℤ) : ((F.moveTo p).getD F).content = F.content ∧
    ((F.moveTo p).getD F).append = F.append := by
  unfold moveTo
  split <;> exact ⟨rfl, rfl⟩

end OutputStream

end Jord
