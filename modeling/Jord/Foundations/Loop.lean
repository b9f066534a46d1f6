import Mathlib.Logic.Function.Iterate
import Mathlib.Tactic.Common

/-!
# Loops with explicit fuel

The common core of the loops of the development: a round takes a state either to the next
state or to the value the loop ends with.

* `run step n s` runs at most `n` rounds from `s`; `none` is running out of fuel.
* `Rounds step n s s'` says that `n` rounds lead from `s` to `s'` without ending the loop. A run
  is computed by composing its rounds (`Rounds.trans`) and ending it with `Rounds.run`.
* More fuel never changes the value (`run_mono`), so a value found with some fuel is the value
  of the loop; what every round preserves holds where the loop ends (`run_invariant`).
-/

namespace Jord.Loop

variable {σ β : Type*}

/-- Run `step` from a state for at most the given number of rounds. -/
def run (step : σ → σ ⊕ β) : ℕ → σ → Option β
  | 0, _ => none
  | n + 1, s =>
    match step s with
    | .inl s' => run step n s'
    | .inr b => some b

variable {step : σ → σ ⊕ β}

theorem run_inl {s s' : σ} (h : step s = .inl s') (n : ℕ) :
    run step (n + 1) s = run step n s' := by
  simp only [run, h]

theorem run_inr {s : σ} {b : β} (h : step s = .inr b) (n : ℕ) :
    run step (n + 1) s = some b := by
  simp only [run, h]

/-- More fuel does not change the value. -/
theorem run_mono {m n : ℕ} {s : σ} {b : β} (h : run step m s = some b) (hmn : m ≤ n) :
    run step n s = some b := by
  induction m generalizing n s with
  | zero => simp [run] at h
  | succ m ih =>
    obtain ⟨n, rfl⟩ : ∃ k, n = k + 1 := ⟨n - 1, by omega⟩
    cases hs : step s with
    | inl s' =>
      rw [run_inl hs] at h ⊢
      exact ih h (by omega)
    | inr b' =>
      rw [run_inr hs] at h ⊢
      exact h

/-- What every round preserves holds in the state in which the loop ends. -/
theorem run_invariant {I : σ → Prop} (hstep : ∀ s s', I s → step s = .inl s' → I s') {n : ℕ} {s : σ}
    {b : β} (hs : I s) (h : run step n s = some b) : ∃ s', I s' ∧ step s' = .inr b := by
  induction n generalizing s with
  | zero => cases h
  | succ n ih =>
    cases hr : step s with
    | inl s' =>
      rw [run_inl hr] at h
      exact ih (hstep s s' hs hr) h
    | inr b' =>
      rw [run_inr hr] at h
      obtain rfl := Option.some.inj h
      exact ⟨s, hs, hr⟩

/-- **A loop driven by a list.** At the head of the loop, `Head as` says that the elements `as` are
still to come; each round takes one of them off or ends the loop. -/
theorem run_list {α : Type*} (Head : List α → σ → Prop) (exec : List α → σ → β)
    (hnil : ∀ s, Head [] s → step s = .inr (exec [] s))
    (hcons : ∀ a as s, Head (a :: as) s → step s = .inr (exec (a :: as) s) ∨
      ∃ s', step s = .inl s' ∧ Head as s' ∧ exec as s' = exec (a :: as) s)
    {as : List α} {s : σ} (h : Head as s) {n : ℕ} (hn : as.length < n) :
    run step n s = some (exec as s) := by
  induction as generalizing n s with
  | nil =>
    obtain ⟨n, rfl⟩ : ∃ k, n = k + 1 := ⟨n - 1, by omega⟩
    exact run_inr (hnil s h) n
  | cons a as ih =>
    obtain ⟨n, rfl⟩ : ∃ k, n = k + 1 := ⟨n - 1, by omega⟩
    rw [List.length_cons] at hn
    rcases hcons a as s h with hend | ⟨s', hround, hhead, hexec⟩
    · exact run_inr hend n
    · rw [run_inl hround, ih hhead (by omega), hexec]

/-- `n` rounds lead from `s` to `s'`, none of them ending the loop. -/
inductive Rounds (step : σ → σ ⊕ β) : ℕ → σ → σ → Prop
  | refl (s : σ) : Rounds step 0 s s
  | next {n : ℕ} {s s' s'' : σ} (h : step s = .inl s') (hr : Rounds step n s' s'') :
      Rounds step (n + 1) s s''

namespace Rounds

theorem trans {m n : ℕ} {s s' s'' : σ} (h : Rounds step m s s') (h' : Rounds step n s' s'') :
    Rounds step (m + n) s s'' := by
  induction h with
  | refl s => simpa using h'
  | next hs _ ih =>
    rw [Nat.add_right_comm]
    exact .next hs (ih h')

/-- What every round preserves holds after any number of rounds. -/
theorem invariant {I : σ → Prop} (hstep : ∀ s s', I s → step s = .inl s' → I s') {n : ℕ} {s s' : σ}
    (h : Rounds step n s s') (hs : I s) : I s' := by
  induction h with
  | refl s => exact hs
  | next hr _ ih => exact ih (hstep _ _ hs hr)

/-- A run that starts with `n` rounds continues from where they lead. -/
theorem run {n : ℕ} {s s' : σ} (h : Rounds step n s s') (m : ℕ) :
    Loop.run step (n + m) s = Loop.run step m s' := by
  induction h with
  | refl s => rw [Nat.zero_add]
  | next hs _ ih => rw [Nat.add_right_comm, run_inl hs, ih]

end Rounds

end Jord.Loop
