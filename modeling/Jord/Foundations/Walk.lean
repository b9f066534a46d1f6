import Mathlib.Data.Finset.Card

/-!
# Walks along labelled edges

A node has at most one edge for each label: `next a k` is where the edge `k` of `a` leads. `walk`
follows a list of labels, and `Visits` says where walks lead.

* `Visits.mem`: a set that is closed under edges is not left.
* `Rooted`: no edge leads to the root and at most one to any other node visited. Then a node is
  reached by one walk only (`Rooted.walk_inj`), nothing leads back (`Rooted.not_visits`), and a walk
  has fewer steps than there are nodes (`Rooted.length_lt_card`).
* `Visits.of_agree`, `Visits.of_agree_off`: where walks still lead when some edges change.
-/

namespace Jord

variable {ν κ : Type*} {next next' : ν → κ → Option ν} {a b c d root : ν} {k : κ} {p q : List κ}

/-- Follow a list of labels from a node. -/
def walk (next : ν → κ → Option ν) (a : ν) : List κ → Option ν
  | [] => some a
  | k :: ks => (next a k).bind fun b => walk next b ks

/-- Some walk leads from one node to the other. -/
def Visits (next : ν → κ → Option ν) (a b : ν) : Prop := ∃ p, walk next a p = some b

theorem walk_append (p q : List κ) :
    walk next a (p ++ q) = (walk next a p).bind fun b => walk next b q := by
  induction p generalizing a with
  | nil => rfl
  | cons k p ih => simp [walk, ih, Option.bind_assoc]

theorem walk_concat (p : List κ) (k : κ) :
    walk next a (p ++ [k]) = (walk next a p).bind fun b => next b k := by
  simp [walk_append, walk, Option.bind_fun_some]

namespace Visits

theorem refl (next : ν → κ → Option ν) (a : ν) : Visits next a a := ⟨[], rfl⟩

theorem edge (h : Visits next a b) (hc : next b k = some c) : Visits next a c := by
  obtain ⟨p, hp⟩ := h
  exact ⟨p ++ [k], by rw [walk_concat, hp, Option.bind_some, hc]⟩

theorem trans (h : Visits next a b) (h' : Visits next b c) : Visits next a c := by
  obtain ⟨p, hp⟩ := h
  obtain ⟨q, hq⟩ := h'
  exact ⟨p ++ q, by rw [walk_append, hp, Option.bind_some, hq]⟩

/-- A set that is closed under edges is not left. -/
theorem mem {S : ν → Prop} (ha : S a) (hS : ∀ b k c, S b → next b k = some c → S c)
    (h : Visits next a b) : S b := by
  obtain ⟨p, hp⟩ := h
  induction p generalizing a with
  | nil => exact Option.some.inj hp ▸ ha
  | cons k p ih =>
    obtain ⟨c, hc, hp⟩ := Option.bind_eq_some_iff.1 hp
    exact ih (hS a k c ha hc) hp

/-- The first step of a walk. -/
theorem head_iff : Visits next a b ↔ b = a ∨ ∃ k c, next a k = some c ∧ Visits next c b := by
  constructor
  · rintro ⟨p, hp⟩
    cases p with
    | nil => exact .inl (Option.some.inj hp).symm
    | cons k p =>
      obtain ⟨c, hc, hp⟩ := Option.bind_eq_some_iff.1 hp
      exact .inr ⟨k, c, hc, p, hp⟩
  · rintro (rfl | ⟨k, c, hc, h⟩)
    · exact refl _ _
    · exact ((refl next a).edge hc).trans h

/-- The last step of a walk. -/
theorem last (h : Visits next a b) (hne : b ≠ a) : ∃ c k, Visits next a c ∧ next c k = some b := by
  obtain ⟨p, hp⟩ := h
  rcases List.eq_nil_or_concat p with rfl | ⟨q, k, rfl⟩
  · exact absurd (Option.some.inj hp).symm hne
  · rw [List.concat_eq_append, walk_concat] at hp
    obtain ⟨c, hq, hc⟩ := Option.bind_eq_some_iff.1 hp
    exact ⟨c, k, ⟨q, hq⟩, hc⟩

end Visits

/-! ## Edges that agree -/

namespace Visits

/-- Edges that change at nodes that are not visited. -/
theorem of_agree (h : ∀ c, Visits next a c → next' c = next c) (hb : Visits next a b) :
    Visits next' a b := by
  suffices hboth : Visits next a b ∧ Visits next' a b from hboth.2
  apply hb.mem (S := fun b => Visits next a b ∧ Visits next' a b) ⟨refl _ _, refl _ _⟩
  intro b k c hvisits hc
  exact ⟨hvisits.1.edge hc, hvisits.2.edge (by rw [h b hvisits.1, hc])⟩

/-- Edges that change at the node where a walk ends: it ends there the first time it comes by. -/
theorem of_agree_off (h : ∀ c, c ≠ d → next' c = next c) (hd : Visits next a d) :
    Visits next' a d := by
  obtain ⟨p, hp⟩ := hd
  induction p generalizing a with
  | nil => exact Option.some.inj hp ▸ refl _ _
  | cons k p ih =>
    by_cases hne : a = d
    · exact hne ▸ refl _ _
    · obtain ⟨c, hc, hp⟩ := Option.bind_eq_some_iff.1 hp
      exact ((refl next' a).edge ((congrFun (h a hne) k).trans hc)).trans (ih hp)

end Visits

/-! ## Trees -/

/-- The nodes visited from the root form a tree: no edge leads to the root, and at most one to any
other node. -/
structure Rooted (next : ν → κ → Option ν) (root : ν) : Prop where
  start : ∀ {a k}, Visits next root a → next a k ≠ some root
  unique : ∀ {a b k l c}, Visits next root a → Visits next root b → next a k = some c →
    next b l = some c → a = b ∧ k = l

namespace Rooted

/-- **A node is reached by one walk only.** -/
theorem walk_inj (h : Rooted next root) (hp : walk next root p = some a)
    (hq : walk next root q = some a) : p = q := by
  induction p using List.reverseRecOn generalizing a q with
  | nil =>
    obtain rfl := Option.some.inj hp
    rcases List.eq_nil_or_concat q with rfl | ⟨q, k, rfl⟩
    · rfl
    · rw [List.concat_eq_append, walk_concat] at hq
      obtain ⟨b, hb, hk⟩ := Option.bind_eq_some_iff.1 hq
      exact absurd hk (h.start ⟨q, hb⟩)
  | append_singleton p k ih =>
    rw [walk_concat] at hp
    obtain ⟨b, hb, hk⟩ := Option.bind_eq_some_iff.1 hp
    rcases List.eq_nil_or_concat q with rfl | ⟨q, l, rfl⟩
    · obtain rfl := Option.some.inj hq
      exact absurd hk (h.start ⟨p, hb⟩)
    · rw [List.concat_eq_append, walk_concat] at hq
      obtain ⟨b', hb', hl⟩ := Option.bind_eq_some_iff.1 hq
      obtain ⟨rfl, rfl⟩ := h.unique ⟨p, hb⟩ ⟨q, hb'⟩ hk hl
      rw [List.concat_eq_append, ih hb hb']

/-- Nothing leads back from a child. -/
theorem not_visits (h : Rooted next root) (hd : Visits next root d) (hc : next d k = some c) :
    ¬Visits next c d := by
  rintro ⟨q, hq⟩
  obtain ⟨p, hp⟩ := hd
  have hcycle : walk next root (p ++ k :: q) = some d := by
    rw [walk_append, hp, Option.bind_some, walk, hc, Option.bind_some, hq]
  have := congrArg List.length (h.walk_inj hp hcycle)
  simp at this

/-- **A walk has fewer steps than there are nodes.** -/
theorem length_lt_card (h : Rooted next root) {s : Finset ν} (hs : ∀ b, Visits next root b → b ∈ s)
    (hp : walk next root p = some a) : p.length < s.card := by
  -- the nodes on the way are different from each other
  let node : ℕ → ν := fun i => (walk next root (p.take i)).getD root
  have hnode : ∀ i, walk next root (p.take i) = some (node i) := by
    intro i
    rw [← List.take_append_drop i p, walk_append] at hp
    obtain ⟨b, hb, -⟩ := Option.bind_eq_some_iff.1 hp
    simp only [node, hb, Option.getD_some]
  have hcard : (Finset.range (p.length + 1)).card ≤ s.card := by
    apply Finset.card_le_card_of_injOn node
    · intro i _
      exact hs _ ⟨_, hnode i⟩
    · intro i hi j hj hij
      have htake := h.walk_inj (hnode i) (hij ▸ hnode j)
      have := congrArg List.length htake
      simp only [Finset.coe_range, Set.mem_Iio] at hi hj
      rw [List.length_take, List.length_take] at this
      omega
  rwa [Finset.card_range] at hcard

end Rooted

end Jord
