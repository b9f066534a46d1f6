import Jord.Rc.Node

/-!
# Lookup in directories

* `find` and `findRecursive` are `Directory::find`; `resolve` follows a list of names from a node,
  and `findRecursive` is `resolve` on the tokens of the string (`findRecursive_eq`).
* `Heap.Ok` is the invariant of a heap built by constructors alone: what a directory stores under a
  name is a younger node with that name, that parent and the same owner. Under it a node is reached
  by one path only (`Ok.resolve_inj`).
* `store h d` is the tree below a directory as a map from paths to entries. A constructor changes it
  in one place (`store_attached`).
-/

namespace Jord.Rc.Heap

/-! ## Directory::find -/

/-- `Directory::find` with `recursive == false` -/
def find (h : Heap) (d : NodeId) (name : Str) : Option NodeId := h.child d name

/-- The loop of `Directory::find` over all tokens but the last: the directory it ends in. -/
def findLoop (h : Heap) (current : NodeId) : List Str → Option NodeId
  | [] => some current
  | token :: tokens =>
    match h.child current token with
    | none => none
    | some c => if h.isDirectory c then findLoop h c tokens else none

/-- `Directory::find` with `recursive == true` -/
def findRecursive (h : Heap) (d : NodeId) (name : Str) : Option NodeId :=
  let tokens := Str.split name
  match findLoop h d tokens.dropLast with
  | none => none
  | some current => h.child current (tokens.getLastD [])

/-- The order in which the table of each directory is enumerated. -/
abbrev Order := NodeId → List NodeId → List NodeId

/-- `Directory::getChildren`: the nodes satisfying the predicate, a directory before its own
children. The fuel bounds the depth of the recursion. -/
def getChildren (order : Order) (h : Heap) (pred : NodeId → Bool) (recursive : Bool) :
    ℕ → NodeId → List NodeId
  | 0, _ => []
  | fuel + 1, d => (order d (h.children d)).flatMap fun c =>
    (if pred c then [c] else []) ++
      if recursive && h.isDirectory c then getChildren order h pred recursive fuel c else []

/-! ## Paths -/

/-- Follow a list of names from a node. -/
def resolve (h : Heap) (d : NodeId) : List Str → Option NodeId
  | [] => some d
  | k :: ks => (h.child d k).bind fun c => resolve h c ks

/-- The tree below a node, from paths to entries. -/
def store (h : Heap) (d : NodeId) : PathStore Str Extent := fun p => (h.resolve d p).bind h.entryOf

@[simp] theorem resolve_nil (h : Heap) (d : NodeId) : h.resolve d [] = some d := rfl

theorem resolve_cons (h : Heap) (d : NodeId) (k : Str) (ks : List Str) :
    h.resolve d (k :: ks) = (h.child d k).bind fun c => h.resolve c ks := rfl

theorem resolve_append (h : Heap) (d : NodeId) (p q : List Str) :
    h.resolve d (p ++ q) = (h.resolve d p).bind fun c => h.resolve c q := by
  induction p generalizing d with
  | nil => rfl
  | cons k p ih => simp [resolve_cons, ih, Option.bind_assoc]

theorem resolve_concat (h : Heap) (d : NodeId) (p : List Str) (k : Str) :
    h.resolve d (p ++ [k]) = (h.resolve d p).bind fun c => h.child c k := by
  simp [resolve_append, resolve_cons, Option.bind_fun_some]

theorem isDirectory_of_child {h : Heap} {d : NodeId} {k : Str} {c : NodeId}
    (hc : h.child d k = some c) : h.isDirectory d := by
  cases hd : h[d]? with
  | none => simp [child, lookup, hd] at hc
  | some x =>
    obtain ⟨_, _, _, l | _⟩ := x
    · simp [isDirectory, entryOf, hd, NodeData.entry]
    · simp [child, lookup, hd, NodeData.lookup] at hc

theorem mem_children {h : Heap} {d c : NodeId} : c ∈ h.children d ↔ ∃ k, h.child d k = some c := by
  simp only [children, List.mem_map, Sigma.exists, exists_eq_right]
  exact exists_congr fun k => (AList.mem_lookup_iff (s := h.lookup d)).symm

theorem isDirectory_iff {h : Heap} {d : NodeId} :
    h.isDirectory d ↔ h.entryOf d = some .directory := by
  simp [isDirectory]

theorem store_isTree (h : Heap) (d : NodeId) : (h.store d).IsTree := by
  intro p q hq hne
  obtain ⟨k, q, rfl⟩ := List.exists_cons_of_ne_nil hq
  simp only [store, resolve_append, resolve_cons] at hne ⊢
  cases hp : h.resolve d p with
  | none => simp [hp] at hne
  | some c =>
    cases hc : h.child c k with
    | none => simp [hp, hc] at hne
    | some _ => simpa [isDirectory] using isDirectory_of_child hc

theorem findLoop_concat (h : Heap) (d : NodeId) (p : List Str) (k : Str) :
    ((h.findLoop d p).bind fun c => h.child c k) = h.resolve d (p ++ [k]) := by
  induction p generalizing d with
  | nil => simp [findLoop, resolve_cons, Option.bind_fun_some]
  | cons t p ih =>
    simp only [findLoop, List.cons_append, resolve_cons]
    cases ht : h.child d t with
    | none => rfl
    | some c =>
      by_cases hc : h.isDirectory c
      · simp [hc, ih]
      · -- a file has no table, so the walk fails one step later
        have : ∀ k', h.child c k' = none := fun k' =>
          Option.eq_none_iff_forall_ne_some.2 fun c' h' => hc (isDirectory_of_child h')
        cases p <;> simp [hc, resolve_cons, this]

/-- `Directory::find` follows the tokens of the string. -/
theorem findRecursive_eq (h : Heap) (d : NodeId) (name : Str) :
    h.findRecursive d name = h.resolve d (Str.split name) := by
  obtain ⟨p, k, hp⟩ : ∃ p k, Str.split name = p ++ [k] :=
    ⟨_, _, (List.dropLast_append_getLast (Str.split_ne_nil name)).symm⟩
  rw [findRecursive, hp, List.dropLast_concat, List.getLastD_concat, ← findLoop_concat]
  cases h.findLoop d p <;> rfl

theorem store_eq_some {h : Heap} {d : NodeId} {p : List Str} {x : Entry} :
    h.store d p = some x ↔ ∃ n, h.resolve d p = some n ∧ h.entryOf n = some x :=
  Option.bind_eq_some_iff

/-! ## Heaps built by constructors -/

/-- What a directory stores under a name is a younger node with that name, whose parent is the
directory and whose owner is that of the directory. -/
structure Ok (h : Heap) : Prop where
  lt : ∀ {d : ℕ} {k : Str} {c : ℕ}, h.child d k = some c → d < c
  lt_length : ∀ {d : ℕ} {k : Str} {c : ℕ}, h.child d k = some c → c < h.length
  name : ∀ {d k c}, h.child d k = some c → h.name? c = some k
  parent : ∀ {d k c}, h.child d k = some c → h.parent? c = some d
  owner : ∀ {d k c}, h.child d k = some c → h.owner? c = h.owner? d

theorem ok_nil : Ok [] := by
  constructor <;> simp [child, lookup]

theorem Ok.attached {h h' : Heap} {p : NodeId} {name : Str} {data : NodeData} (hok : Ok h)
    (hp : h.isDirectory p) (hd : data.lookup = ∅) (ha : Attached h p name data h') : Ok h' := by
  have key : ∀ {d k c}, h'.child d k = some c →
      (d = p ∧ k = name ∧ c = h.length) ∨ (d ≠ h.length ∧ h.child d k = some c) := by
    intro d k c hc
    rw [ha.child hp hd] at hc
    split at hc
    · next he => exact .inl ⟨he.1, he.2, (Option.some.inj hc).symm⟩
    · split at hc
      · cases hc
      · next hne => exact .inr ⟨hne, hc⟩
  have hlt : ∀ {d k c}, h.child d k = some c → c ≠ h.length := fun hc =>
    Nat.ne_of_lt (hok.lt_length hc)
  constructor
  · intro d k c hc
    rcases key hc with ⟨rfl, -, rfl⟩ | ⟨-, hc⟩
    · exact ha.lt
    · exact hok.lt hc
  · intro d k c hc
    rw [ha.length]
    rcases key hc with ⟨-, -, rfl⟩ | ⟨-, hc⟩
    · exact Nat.lt_succ_self _
    · exact (hok.lt_length hc).trans (Nat.lt_succ_self _)
  · intro d k c hc
    rw [ha.name?]
    rcases key hc with ⟨-, rfl, rfl⟩ | ⟨-, hc⟩
    · simp
    · simp [hlt hc, hok.name hc]
  · intro d k c hc
    rw [ha.parent?]
    rcases key hc with ⟨rfl, -, rfl⟩ | ⟨-, hc⟩
    · simp
    · simp [hlt hc, hok.parent hc]
  · intro d k c hc
    rw [ha.owner?, ha.owner?]
    rcases key hc with ⟨rfl, -, rfl⟩ | ⟨hne, hc⟩
    · simp [ha.ne_length]
    · simp [hlt hc, hne, hok.owner hc]

namespace Ok

variable {h : Heap} (hok : Ok h)

include hok

theorem le_resolve {d n : ℕ} {p : List Str} (hp : h.resolve d p = some n) : d ≤ n := by
  induction p generalizing d with
  | nil => simp_all
  | cons k p ih =>
    obtain ⟨c, hc, hp⟩ := Option.bind_eq_some_iff.1 hp
    exact (hok.lt hc).le.trans (ih hp)

theorem lt_resolve {d n : ℕ} {p : List Str} (hne : p ≠ [])
    (hp : h.resolve d p = some n) : d < n := by
  obtain ⟨k, p, rfl⟩ := List.exists_cons_of_ne_nil hne
  obtain ⟨c, hc, hp⟩ := Option.bind_eq_some_iff.1 hp
  exact (hok.lt hc).trans_le (hok.le_resolve hp)

theorem resolve_lt_length {d n : ℕ} {p : List Str} (hd : d < h.length)
    (hp : h.resolve d p = some n) : n < h.length := by
  induction p generalizing d with
  | nil => simp_all
  | cons k p ih =>
    obtain ⟨c, hc, hp⟩ := Option.bind_eq_some_iff.1 hp
    exact ih (hok.lt_length hc) hp

/-- **A node is reached by one path only.** -/
theorem resolve_inj {d n : NodeId} {p q : List Str} (hp : h.resolve d p = some n)
    (hq : h.resolve d q = some n) : p = q := by
  induction p using List.reverseRecOn generalizing n q with
  | nil =>
    by_contra hne
    have := hok.lt_resolve (Ne.symm hne) hq
    simp_all
  | append_singleton p k ih =>
    rcases List.eq_nil_or_concat q with rfl | ⟨q, k', rfl⟩
    · have := hok.lt_resolve (by simp) hp
      simp_all
    · rw [resolve_concat] at hp
      rw [List.concat_eq_append, resolve_concat] at hq
      obtain ⟨e, hpe, hc⟩ := Option.bind_eq_some_iff.1 hp
      obtain ⟨e', hqe, hc'⟩ := Option.bind_eq_some_iff.1 hq
      -- the parent and the name of the last node are the last step of both paths
      obtain rfl : e = e' := Option.some.inj ((hok.parent hc).symm.trans (hok.parent hc'))
      obtain rfl : k = k' := Option.some.inj ((hok.name hc).symm.trans (hok.name hc'))
      rw [List.concat_eq_append, ih hpe hqe]

/-- All nodes below a node have its owner. -/
theorem owner_resolve {d n : NodeId} {p : List Str} (hp : h.resolve d p = some n) :
    h.owner? n = h.owner? d := by
  induction p generalizing d with
  | nil => simp_all
  | cons k p ih =>
    obtain ⟨c, hc, hp⟩ := Option.bind_eq_some_iff.1 hp
    rw [ih hp, hok.owner hc]

end Ok

/-! ## A constructor changes the tree in one place -/

section Attach

variable {h h' : Heap} {p : NodeId} {name : Str} {data : NodeData} (hok : Ok h)
  (hp : h.isDirectory p) (hd : data.lookup = ∅) (ha : Attached h p name data h')

include hp hd ha

theorem resolve_new (q : List Str) :
    h'.resolve h.length q = if q = [] then some h.length else none := by
  cases q with
  | nil => rfl
  | cons k q => simp [resolve_cons, ha.child hp hd, ha.ne_length.symm]

/-- Paths from a node that does not lead to the directory are as before. -/
theorem resolve_frame {c : NodeId} (hc : c < h.length) (hfar : ∀ r, h.resolve c r ≠ some p)
    (q : List Str) (hok : Ok h) : h'.resolve c q = h.resolve c q := by
  induction q generalizing c with
  | nil => rfl
  | cons k q ih =>
    have hcp : c ≠ p := fun he => hfar [] (by simp [he])
    have hchild : h'.child c k = h.child c k := by
      simp [ha.child hp hd, hcp, Nat.ne_of_lt hc]
    simp only [resolve_cons, hchild]
    cases hk : h.child c k with
    | none => rfl
    | some e =>
      refine ih (hok.lt_length hk) fun r hr => hfar (k :: r) ?_
      simp [resolve_cons, hk, hr]

include hok

/-- **What paths lead to after a construction**: the new node at its own path, nothing below it, and
the old nodes elsewhere. -/
theorem resolve_attached {d : NodeId} {pp : List Str} (hpp : h.resolve d pp = some p)
    (q : List Str) :
    h'.resolve d q = if q = pp ++ [name] then some h.length
      else if pp ++ [name] <+: q then none else h.resolve d q := by
  induction q generalizing d pp with
  | nil => simp
  | cons k q ih =>
    rw [resolve_cons, resolve_cons, ha.child hp hd]
    rcases pp with _ | ⟨k₀, pp⟩
    · obtain rfl : d = p := by simpa using hpp
      by_cases hk : k = name
      · subst hk
        by_cases hq : q = [] <;> simp [resolve_new hp hd ha, hq]
      · -- another child of the same directory
        simp only [hk, and_false, if_false, ha.ne_length, List.nil_append, List.cons.injEq,
          false_and, List.cons_prefix_cons, Ne.symm hk]
        cases hc : h.child d k with
        | none => rfl
        | some c =>
          refine resolve_frame hp hd ha (hok.lt_length hc) (fun r hr => ?_) q hok
          exact absurd (hok.lt hc) (not_lt.2 (hok.le_resolve hr))
    · have hdp : d ≠ p := (hok.lt_resolve (List.cons_ne_nil _ _) hpp).ne
      have hdl : d ≠ h.length :=
        ((hok.lt_resolve (List.cons_ne_nil _ _) hpp).trans ha.lt).ne
      simp only [hdp, false_and, if_false, hdl]
      rw [resolve_cons] at hpp
      obtain ⟨c₀, hc₀, hpc⟩ := Option.bind_eq_some_iff.1 hpp
      by_cases hk : k = k₀
      · subst hk
        simp [hc₀, ih hpc]
      · -- a sibling of the way to the directory
        simp only [List.cons_append, List.cons.injEq, hk, false_and, if_false,
          List.cons_prefix_cons, Ne.symm hk]
        cases hc : h.child d k with
        | none => rfl
        | some c =>
          refine resolve_frame hp hd ha (hok.lt_length hc) (fun r hr => ?_) q hok
          have := hok.resolve_inj (d := d) (p := k :: r) (q := k₀ :: pp)
            (by simpa [resolve_cons, hc] using hr) (by simpa [resolve_cons, hc₀] using hpp)
          exact hk (List.cons.inj this).1

/-- The tree below `d` after a construction. -/
theorem store_attached {d : NodeId} {pp : List Str} (hdlt : d < h.length)
    (hpp : h.resolve d pp = some p) :
    h'.store d = (h.store d).place (pp ++ [name]) data.entry := by
  funext q
  simp only [store, PathStore.place, resolve_attached hok hp hd ha hpp]
  split
  · simp [ha.entryOf]
  · split
    · rfl
    · cases hq : h.resolve d q with
      | none => rfl
      | some n =>
        have := hok.resolve_lt_length hdlt hq
        simp [ha.entryOf, this.ne]

end Attach

end Jord.Rc.Heap
