import Mathlib.Tactic.Common

/-!
# Reachability in an object graph

Objects refer to objects; what can be reached from a set of roots along references is `Reach`. A
set that contains the roots and is closed under references contains everything reachable
(`Reach.least`), and a graph with fewer roots and references reaches less (`Reach.mono`).
-/

namespace Jord

variable {α : Type*}

/-- What can be reached from `roots` along `refs`. -/
inductive Reach (roots : α → Prop) (refs : α → α → Prop) : α → Prop
  | root {x : α} (h : roots x) : Reach roots refs x
  | ref {x y : α} (h : Reach roots refs x) (hxy : refs x y) : Reach roots refs y

namespace Reach

variable {roots roots' : α → Prop} {refs refs' : α → α → Prop} {x : α}

/-- The reachable objects are the least set that contains the roots and is closed. -/
theorem least {S : α → Prop} (hroot : ∀ x, roots x → S x) (hclosed : ∀ x y, S x → refs x y → S y)
    (h : Reach roots refs x) : S x := by
  induction h with
  | root h => exact hroot _ h
  | ref _ hxy ih => exact hclosed _ _ ih hxy

/-- Fewer roots and references reach less. -/
theorem mono (hroot : ∀ x, roots x → roots' x) (hrefs : ∀ x y, refs x y → refs' x y)
    (h : Reach roots refs x) : Reach roots' refs' x :=
  h.least (fun x hx => .root (hroot x hx)) fun _ _ hx hxy => .ref hx (hrefs _ _ hxy)

end Reach

end Jord
