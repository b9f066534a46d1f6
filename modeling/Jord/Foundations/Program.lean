import Mathlib.Tactic.Common

/-!
# Programs with a state and errors

A program is an `EStateM`: it takes a state to a value or an error, and to a new state in either
case.

* `bind_of_ok`, `bind_of_error` and `bind_eq_ok` run a sequence of two programs.
* `Calm π E t m Q` says that from a state with view `t`, a program `m` leaves the view `π` of the
  state as it is, returns only values in `Q` and raises only errors in `E`. The rules follow the
  constructs of a program.
-/

namespace Jord.Program

variable {ε σ τ α β : Type}

/-! ## Sequences -/

theorem bind_of_ok {m : EStateM ε σ α} {k : α → EStateM ε σ β} {s s' : σ} {a : α}
    (h : m s = .ok a s') : (m >>= k) s = k a s' := by
  change EStateM.bind m k s = _
  rw [EStateM.bind, h]

theorem bind_of_error {m : EStateM ε σ α} {k : α → EStateM ε σ β} {s s' : σ} {e : ε}
    (h : m s = .error e s') : (m >>= k) s = .error e s' := by
  change EStateM.bind m k s = _
  rw [EStateM.bind, h]

theorem bind_congr_left {m m' : EStateM ε σ α} {k : α → EStateM ε σ β} {s : σ} (h : m s = m' s) :
    (m >>= k) s = (m' >>= k) s := by
  change EStateM.bind m k s = EStateM.bind m' k s
  rw [EStateM.bind, EStateM.bind, h]

/-- A sequence that returns is a first half that returns, followed by a second one. -/
theorem bind_eq_ok {m : EStateM ε σ α} {k : α → EStateM ε σ β} {s s'' : σ} {b : β} :
    (m >>= k) s = .ok b s'' ↔ ∃ a s', m s = .ok a s' ∧ k a s' = .ok b s'' := by
  cases h : m s with
  | ok a s' => simp [bind_of_ok h]
  | error e s' => simp [bind_of_error h]

@[simp] theorem pure_apply (a : α) (s : σ) : (pure a : EStateM ε σ α) s = .ok a s := rfl

@[simp] theorem throw_apply (e : ε) (s : σ) : (throw e : EStateM ε σ α) s = .error e s := rfl

@[simp] theorem get_apply (s : σ) : (get : EStateM ε σ σ) s = .ok s s := rfl

/-! ## Programs that leave a view of the state alone -/

/-- From a state with view `t`, the program `m` ends with view `t`, returns only values in `Q` and
raises only errors in `E`. -/
def Calm (π : σ → τ) (E : ε → Prop) (t : τ) (m : EStateM ε σ α) (Q : α → Prop) : Prop :=
  ∀ s, π s = t →
    match m s with
    | .ok a s' => π s' = t ∧ Q a
    | .error e s' => π s' = t ∧ E e

namespace Calm

variable {π : σ → τ} {E : ε → Prop} {t : τ} {Q : α → Prop} {R : β → Prop}

theorem of_ok {m : EStateM ε σ α}
    (h : ∀ s, π s = t → ∃ a s', m s = .ok a s' ∧ π s' = π s ∧ Q a) : Calm π E t m Q := by
  intro s hs
  obtain ⟨a, s', hm, hs', ha⟩ := h s hs
  rw [hm]
  exact ⟨hs'.trans hs, ha⟩

theorem pure {a : α} (ha : Q a) : Calm π E t (pure a : EStateM ε σ α) Q := fun _ hs => ⟨hs, ha⟩

theorem throw {e : ε} (he : E e) : Calm π E t (throw e : EStateM ε σ α) Q := fun _ hs => ⟨hs, he⟩

theorem bind {m : EStateM ε σ α} {k : α → EStateM ε σ β} (hm : Calm π E t m Q)
    (hk : ∀ a, Q a → Calm π E t (k a) R) : Calm π E t (m >>= k) R := by
  intro s hs
  have h := hm s hs
  cases hr : m s with
  | ok a s' =>
    rw [hr] at h
    rw [bind_of_ok hr]
    exact hk a h.2 s' h.1
  | error e s' =>
    rw [hr] at h
    rw [bind_of_error hr]
    exact h

theorem discard {m : EStateM ε σ α} (hm : Calm π E t m Q) :
    Calm π E t (discard m) fun _ => True := by
  intro s hs
  have h := hm s hs
  have hdiscard : Functor.discard m s = EStateM.map (fun _ => PUnit.unit) m s := rfl
  rw [hdiscard, EStateM.map]
  cases hr : m s with
  | ok a s' =>
    rw [hr] at h
    exact ⟨h.1, trivial⟩
  | error e s' =>
    rw [hr] at h
    exact h

theorem ok {m : EStateM ε σ α} {s s' : σ} {a : α} (h : Calm π E (π s) m Q) (hm : m s = .ok a s') :
    π s' = π s ∧ Q a := by
  simpa [hm] using h s rfl

theorem error {m : EStateM ε σ α} {s s' : σ} {e : ε} (h : Calm π E (π s) m Q)
    (hm : m s = .error e s') : π s' = π s ∧ E e := by
  simpa [hm] using h s rfl

end Calm

end Jord.Program
