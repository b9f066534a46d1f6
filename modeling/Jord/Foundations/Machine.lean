import Mathlib.Tactic.Common

/-!
# Machines and their runs

A machine takes a state and an event to the next state, or ends in a fault. A run is a list of
events; what is said of it is said of the states it goes through.

* `Along R s es`: each event of `es` satisfies `R` in the state before it.
* `Throughout P s es`: each state that the events `es` lead to satisfies `P`.
* `EachStep R s es`: each step satisfies `R`, which may also look at the events that follow.
* `Reachable s₀ s`: enabled events lead from `s₀` to `s`.
* `throughout_of_invariant` is the induction principle for safety, and `along_iff` the one for
  conditions that are exact: if in the states that satisfy `P` the condition `R` says precisely
  that the next step is fine and leads to `P` again, then a run is fine exactly when all its steps
  meet `R`.
-/

namespace Jord

/-- A machine with states `σ`, events `ε` and faults `φ`. -/
structure Machine (σ ε φ : Type*) where
  /-- The event can happen in the state. -/
  enabled : σ → ε → Prop
  step : σ → ε → Except φ σ

namespace Machine

variable {σ ε φ : Type*} (M : Machine σ ε φ)

/-- Each event satisfies `R` in the state before it. -/
def Along (R : σ → ε → Prop) : σ → List ε → Prop
  | _, [] => True
  | s, e :: es => R s e ∧ ∀ s', M.step s e = .ok s' → Along R s' es

/-- Each state that the events lead to satisfies `P`. -/
def Throughout (P : σ → Prop) : σ → List ε → Prop
  | s, [] => P s
  | s, e :: es => P s ∧ ∀ s', M.step s e = .ok s' → Throughout P s' es

/-- Each step that is done satisfies `R`, the last argument of which is what follows. -/
def EachStep (R : σ → ε → σ → List ε → Prop) : σ → List ε → Prop
  | _, [] => True
  | s, e :: es => ∀ s', M.step s e = .ok s' → R s e s' es ∧ EachStep R s' es

/-- The state after an event; a fault leaves the state as it is. -/
def next (s : σ) (e : ε) : σ := (M.step s e).toOption.getD s

/-- The states that enabled events lead to. -/
inductive Reachable (s₀ : σ) : σ → Prop
  | start : Reachable s₀ s₀
  | step {s s' : σ} {e : ε} (h : Reachable s₀ s) (he : M.enabled s e) (hs : M.step s e = .ok s') :
      Reachable s₀ s'

variable {M} {P Q I : σ → Prop} {R G E : σ → ε → Prop} {s : σ} {es : List ε}

/-- What every enabled event preserves holds in every state reached. -/
theorem Reachable.invariant {s₀ : σ} (h₀ : I s₀)
    (hstep : ∀ s e s', I s → M.enabled s e → M.step s e = .ok s' → I s')
    (h : M.Reachable s₀ s) : I s := by
  induction h with
  | start => exact h₀
  | step _ he hs ih => exact hstep _ _ _ ih he hs

theorem Throughout.head (h : M.Throughout P s es) : P s := by
  cases es with
  | nil => exact h
  | cons => exact h.1

theorem Throughout.mono (h : ∀ s, P s → Q s) (hP : M.Throughout P s es) : M.Throughout Q s es := by
  induction es generalizing s with
  | nil => exact h s hP
  | cons e es ih => exact ⟨h s hP.1, fun s' hs => ih (hP.2 s' hs)⟩

theorem Throughout.and (hP : M.Throughout P s es) (hQ : M.Throughout Q s es) :
    M.Throughout (fun s => P s ∧ Q s) s es := by
  induction es generalizing s with
  | nil => exact ⟨hP, hQ⟩
  | cons e es ih => exact ⟨⟨hP.1, hQ.1⟩, fun s' hs => ih (hP.2 s' hs) (hQ.2 s' hs)⟩

theorem Along.cons {t : σ} {e : ε} (hR : R s e) (hs : M.step s e = .ok t)
    (h : M.Along R t es) : M.Along R s (e :: es) :=
  ⟨hR, fun _ ht => Except.ok.inj (hs.symm.trans ht) ▸ h⟩

/-- After a fault there is nothing left to say. -/
theorem Along.fault {e : ε} {f : φ} (hR : R s e) (hs : M.step s e = .error f) :
    M.Along R s (e :: es) :=
  ⟨hR, fun _ ht => by cases hs.symm.trans ht⟩

theorem Along.tail {t : σ} {e : ε} (h : M.Along R s (e :: es)) (hs : M.step s e = .ok t) :
    M.Along R t es :=
  h.2 t hs

theorem along_true (s : σ) (es : List ε) : M.Along (fun _ _ => True) s es := by
  induction es generalizing s with
  | nil => trivial
  | cons e es ih => exact ⟨trivial, fun s' _ => ih s'⟩

theorem Along.and (hR : M.Along R s es) (hE : M.Along E s es) :
    M.Along (fun s e => R s e ∧ E s e) s es := by
  induction es generalizing s with
  | nil => trivial
  | cons e es ih => exact ⟨⟨hR.1, hE.1⟩, fun s' hs => ih (hR.2 s' hs) (hE.2 s' hs)⟩

/-- Conditions on steps that are equivalent in the states of a run are equivalent for the run. -/
theorem eachStep_congr {S T : σ → ε → σ → List ε → Prop}
    (h : ∀ s e s' es, I s → E s e → M.step s e = .ok s' → (S s e s' es ↔ T s e s' es))
    (hI : M.Throughout I s es) (hE : M.Along E s es) : M.EachStep S s es ↔ M.EachStep T s es := by
  induction es generalizing s with
  | nil => exact Iff.rfl
  | cons e es ih =>
    exact forall₂_congr fun s' hs =>
      and_congr (h s e s' es hI.1 hE.1 hs) (ih (hI.2 s' hs) (hE.2 s' hs))

/-- What every event preserves holds throughout a run. -/
theorem throughout_of_invariant (hstep : ∀ s e s', I s → R s e → M.step s e = .ok s' → I s')
    (hs : I s) (h : M.Along R s es) : M.Throughout I s es := by
  induction es generalizing s with
  | nil => exact hs
  | cons e es ih => exact ⟨hs, fun s' he => ih (hstep s e s' hs h.1 he) (h.2 s' he)⟩

/-- A condition that is exact for a step that can be done. -/
theorem exact_of_ok {s' : σ} {e : ε} {A B : Prop} (hs : M.step s e = .ok s') (hB : B)
    (hA : A ↔ P s') : A ↔ B ∧ ∀ t, M.step s e = .ok t → P t :=
  ⟨fun h => ⟨hB, fun _ ht => Except.ok.inj (hs.symm.trans ht) ▸ hA.1 h⟩,
    fun h => hA.2 (h.2 s' hs)⟩

/-- A condition that is exact for a step that ends in a fault. -/
theorem exact_of_error {e : ε} {f : φ} {A B : Prop} (hs : M.step s e = .error f) (hA : A ↔ B) :
    A ↔ B ∧ ∀ t, M.step s e = .ok t → P t :=
  ⟨fun h => ⟨hA.1 h, fun _ ht => by cases hs.symm.trans ht⟩, fun h => hA.2 h.1⟩

/-- The same, with an invariant that is kept. -/
theorem exact_inv_of_ok {s' : σ} {e : ε} {A B : Prop} (hs : M.step s e = .ok s') (hB : B)
    (hA : A ↔ P s') (hI : P s' → I s') : (A ↔ B ∧ ∀ t, M.step s e = .ok t → P t) ∧
      ∀ t, M.step s e = .ok t → P t → I t :=
  ⟨exact_of_ok hs hB hA, fun _ ht => Except.ok.inj (hs.symm.trans ht) ▸ hI⟩

theorem exact_inv_of_error {e : ε} {f : φ} {A B : Prop} (hs : M.step s e = .error f)
    (hA : A ↔ B) : (A ↔ B ∧ ∀ t, M.step s e = .ok t → P t) ∧
      ∀ t, M.step s e = .ok t → P t → I t :=
  ⟨exact_of_error hs hA, fun _ ht => by cases hs.symm.trans ht⟩

/-- **A condition that is exact for one step is exact for runs.** -/
theorem along_iff
    (hinv : ∀ s e s', I s → P s → E s e → M.step s e = .ok s' → P s' → I s')
    (hstep : ∀ s e, I s → P s → E s e →
      (R s e ↔ G s e ∧ ∀ s', M.step s e = .ok s' → P s'))
    (hI : I s) (hP : P s) (hen : M.Along E s es) :
    M.Along R s es ↔ M.Along G s es ∧ M.Throughout P s es := by
  induction es generalizing s with
  | nil => exact ⟨fun _ => ⟨trivial, hP⟩, fun _ => trivial⟩
  | cons e es ih =>
    constructor
    · rintro ⟨hR, hrest⟩
      obtain ⟨hG, hnext⟩ := (hstep s e hI hP hen.1).1 hR
      have hboth := fun s' hs => (ih (hinv s e s' hI hP hen.1 hs (hnext s' hs)) (hnext s' hs)
        (hen.2 s' hs)).1 (hrest s' hs)
      exact ⟨⟨hG, fun s' hs => (hboth s' hs).1⟩, hP, fun s' hs => (hboth s' hs).2⟩
    · rintro ⟨⟨hG, hGs⟩, -, hPs⟩
      have hnext := fun s' hs => (hPs s' hs).head
      exact ⟨(hstep s e hI hP hen.1).2 ⟨hG, hnext⟩, fun s' hs =>
        (ih (hinv s e s' hI hP hen.1 hs (hnext s' hs)) (hnext s' hs) (hen.2 s' hs)).2
          ⟨hGs s' hs, hPs s' hs⟩⟩

end Machine

end Jord
