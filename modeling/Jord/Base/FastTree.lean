import Jord.Base.DeepCopy
import Jord.Base.FastDump

/-!
# What the fast mode writes

The expression that is written in the fast mode makes a tree (`Unfolds`): every path of fields leads
to what it leads to in the original, but to a table of its own, so that tables that are reached
twice are made twice; and no table has a metatable.
-/

namespace Jord.Base

open LuaChunk (Literal Expr Fields)

/-! ## Trees -/

section Trees

variable {α : Type}

/-- The same value, but perhaps with another address. -/
inductive Alike : Ref α → Ref α → Prop
  | atom (x : α) : Alike (.atom x) (.atom x)
  | table (a b : ℕ) : Alike (.table a) (.table b)

variable [DecidableEq α]

/-- **A value as a tree**: what is read by a path of fields from `r'` in `G'` is what is read from
`r` in `H`, and the tables that it leads to are new ones without metatables, another one for each
path. -/
structure Unfolds (H G G' : Heap α) (r r' : Ref α) : Prop where
  old : G <+: G'
  same : ∀ ks, Option.Rel Alike (H.follow r ks) (G'.follow r' ks)
  fresh : ∀ {ks b}, G'.follow r' ks = some (.table b) →
    G.length ≤ b ∧ ∃ o, G'[b]? = some o ∧ o.metatable = none
  apart : ∀ {ks ks' b}, G'.follow r' ks = some (.table b) → G'.follow r' ks' = some (.table b) →
    ks = ks'

variable {H G G' G₁ G₂ : Heap α} {r r' x : Ref α}

/-- Tables that are added behind the ones that are reached are not read. -/
theorem follow_of_starts (hG : G <+: G')
    (h : ∀ ks b, G.follow x ks = some (.table b) → b < G.length) (ks : List α) :
    G'.follow x ks = G.follow x ks := by
  obtain ⟨t, rfl⟩ := hG
  induction ks generalizing x with
  | nil => rfl
  | cons k ks ih =>
    have hfield : (G ++ t).field x (.atom k) = G.field x (.atom k) := by
      cases x with
      | atom y => rfl
      | table a =>
        simp only [Heap.field, Ref.address?, Option.bind_eq_bind, Option.bind_some]
        rw [List.getElem?_append_left (h [] a rfl)]
    rw [Heap.follow, Heap.follow, hfield]
    cases hv : G.field x (.atom k) with
    | none => rfl
    | some v =>
      refine ih fun ks b hb => h (k :: ks) b ?_
      rw [Heap.follow, hv]
      exact hb

theorem Unfolds.lt (h : Unfolds H G G' r r') (ks : List α) (b : ℕ)
    (hb : G'.follow r' ks = some (.table b)) : b < G'.length := by
  obtain ⟨-, o, ho, -⟩ := h.fresh hb
  exact (List.getElem?_eq_some_iff.1 ho).1

theorem Unfolds.later (h : Unfolds H G G₁ r r') (hG : G₁ <+: G₂) : Unfolds H G G₂ r r' := by
  have hfollow := follow_of_starts hG h.lt
  refine ⟨h.old.trans hG, fun ks => ?_, fun {ks b} hb => ?_, fun {ks ks' b} hb hb' => ?_⟩
  · rw [hfollow]
    exact h.same ks
  · rw [hfollow] at hb
    obtain ⟨hle, o, ho, hm⟩ := h.fresh hb
    refine ⟨hle, o, ?_, hm⟩
    obtain ⟨t, rfl⟩ := hG
    rw [List.getElem?_append_left (h.lt ks b hb), ho]
  · rw [hfollow] at hb hb'
    exact h.apart hb hb'

variable (H) in
/-- The values of fields as trees, which are made one after the other. -/
inductive FieldsUnfold : Heap α → Heap α → List (Ref α × Ref α) → List (α × Value α) → Prop
  | nil (G : Heap α) : FieldsUnfold G G [] []
  | cons {G G₁ G₂ : Heap α} {k : α} {v x : Ref α} {pairs : List (Ref α × Ref α)}
      {fields : List (α × Value α)} (h : Unfolds H G G₁ v x)
      (hs : FieldsUnfold G₁ G₂ pairs fields) :
      FieldsUnfold G G₂ ((.atom k, v) :: pairs) ((k, some x) :: fields)

variable {pairs : List (Ref α × Ref α)} {fields : List (α × Value α)} {k k' : α}

/-- The table that is made of fields. -/
def objectOf (fields : List (α × Value α)) : Object α := ⟨fields.filterMap pairOf, none⟩

theorem rawget_cons (k k' : α) (v : Ref α) (ps : List (Ref α × Ref α)) (m : Option ℕ) :
    (Object.mk ((.atom k, v) :: ps) m).rawget (.atom k') =
      if k = k' then some v else (Object.mk ps m).rawget (.atom k') := by
  by_cases hk : k = k' <;> simp [Object.rawget, hk]

theorem rawget_objectOf_cons (k k' : α) (x : Ref α) (fields : List (α × Value α)) :
    (objectOf ((k, some x) :: fields)).rawget (.atom k') =
      if k = k' then some x else (objectOf fields).rawget (.atom k') :=
  rawget_cons k k' x _ none

namespace FieldsUnfold

theorem old (h : FieldsUnfold H G G' pairs fields) : G <+: G' := by
  induction h with
  | nil => exact List.prefix_rfl
  | cons h _ ih => exact h.old.trans ih

/-- A field that one has the other one has. -/
theorem rawget (h : FieldsUnfold H G G' pairs fields) (m : Option ℕ) (k : α) :
    Option.Rel (fun v x => ∀ ks, Option.Rel Alike (H.follow v ks) (G'.follow x ks))
      ((Object.mk pairs m).rawget (.atom k)) ((objectOf fields).rawget (.atom k)) := by
  induction h with
  | nil => exact .none
  | @cons _ _ _ k' _ _ _ _ h hs ih =>
    rw [rawget_cons, rawget_objectOf_cons]
    by_cases hk : k' = k
    · rw [if_pos hk, if_pos hk]
      exact .some (h.later hs.old).same
    · rw [if_neg hk, if_neg hk]
      exact ih

theorem fresh (h : FieldsUnfold H G G' pairs fields) {ks : List α} {b : ℕ}
    (hx : (objectOf fields).rawget (.atom k) = some x) (hb : G'.follow x ks = some (.table b)) :
    G.length ≤ b ∧ ∃ o, G'[b]? = some o ∧ o.metatable = none := by
  induction h with
  | nil => cases hx
  | @cons _ _ _ k' _ _ _ _ h hs ih =>
    rw [rawget_objectOf_cons] at hx
    by_cases hk : k' = k
    · rw [if_pos hk] at hx
      obtain rfl := Option.some.inj hx
      exact (h.later hs.old).fresh hb
    · rw [if_neg hk] at hx
      obtain ⟨hle, ho⟩ := ih hx hb
      exact ⟨h.old.length_le.trans hle, ho⟩

/-- The tables of two fields are different. -/
theorem apart (h : FieldsUnfold H G G' pairs fields) {x' : Ref α} {ks ks' : List α} {b : ℕ}
    (hx : (objectOf fields).rawget (.atom k) = some x)
    (hx' : (objectOf fields).rawget (.atom k') = some x')
    (hb : G'.follow x ks = some (.table b)) (hb' : G'.follow x' ks' = some (.table b)) :
    k = k' ∧ ks = ks' := by
  induction h with
  | nil => cases hx
  | @cons _ G₁ G₂ c _ y _ fields h hs ih =>
    rw [rawget_objectOf_cons] at hx hx'
    -- what the first field leads to is there before the others are made
    have hfirst : ∀ {z ks ks' k}, G₂.follow y ks = some (.table b) →
        (objectOf fields).rawget (.atom k) = some z → G₂.follow z ks' ≠ some (.table b) := by
      intro z ks ks' k hy hz hzb
      rw [follow_of_starts hs.old h.lt] at hy
      exact absurd (h.lt ks b hy) (not_lt.2 (hs.fresh hz hzb).1)
    by_cases hk : c = k
    · rw [if_pos hk] at hx
      obtain rfl := Option.some.inj hx
      by_cases hk' : c = k'
      · rw [if_pos hk'] at hx'
        obtain rfl := Option.some.inj hx'
        exact ⟨hk.symm.trans hk', (h.later hs.old).apart hb hb'⟩
      · rw [if_neg hk'] at hx'
        exact absurd hb' (hfirst hb hx')
    · rw [if_neg hk] at hx
      by_cases hk' : c = k'
      · rw [if_pos hk'] at hx'
        obtain rfl := Option.some.inj hx'
        exact absurd hb (hfirst hb' hx)
      · rw [if_neg hk'] at hx'
        exact ih hx hx' hb hb'

/-- **A table constructor makes a tree** if its fields do. -/
theorem table {a : ℕ} {o : Object α} (ho : H[a]? = some o)
    (h : FieldsUnfold H G G' o.pairs fields) :
    Unfolds H G (G' ++ [objectOf fields]) (.table a) (.table G'.length) := by
  have hself : (G' ++ [objectOf fields])[G'.length]? = some (objectOf fields) := by simp
  have hbelow : ∀ {k x}, (objectOf fields).rawget (.atom k) = some x → ∀ ks,
      (G' ++ [objectOf fields]).follow x ks = G'.follow x ks := fun hx =>
    follow_of_starts (List.prefix_append ..) fun ks b hb => by
      obtain ⟨-, o, ho, -⟩ := h.fresh hx hb
      exact (List.getElem?_eq_some_iff.1 ho).1
  have hstep : ∀ k ks, (G' ++ [objectOf fields]).follow (.table G'.length) (k :: ks) =
      ((objectOf fields).rawget (.atom k)).bind fun x => G'.follow x ks := by
    intro k ks
    simp only [Heap.follow, Heap.field, Ref.address?, Option.bind_eq_bind, Option.bind_some, hself]
    cases hx : (objectOf fields).rawget (.atom k) with
    | none => rfl
    | some x => exact hbelow hx ks
  have hstep' : ∀ k ks, H.follow (.table a) (k :: ks) =
      (o.rawget (.atom k)).bind fun v => H.follow v ks := by
    intro k ks
    simp only [Heap.follow, Heap.field, Ref.address?, Option.bind_eq_bind, Option.bind_some, ho]
  refine ⟨h.old.trans (List.prefix_append ..), fun ks => ?_, fun {ks b} hb => ?_,
    fun {ks ks' b} hb hb' => ?_⟩
  · cases ks with
    | nil => exact .some (.table a G'.length)
    | cons k ks =>
      rw [hstep, hstep']
      have hfield := h.rawget o.metatable k
      generalize o.rawget (.atom k) = v, (objectOf fields).rawget (.atom k) = x at hfield ⊢
      cases hfield with
      | none => exact .none
      | some hrel => exact hrel ks
  · cases ks with
    | nil =>
      obtain rfl := Ref.table.inj (Option.some.inj hb)
      exact ⟨h.old.length_le, _, hself, rfl⟩
    | cons k ks =>
      rw [hstep] at hb
      obtain ⟨x, hx, hb⟩ := Option.bind_eq_some_iff.1 hb
      obtain ⟨hle, ob, hob, hm⟩ := h.fresh hx hb
      refine ⟨hle, ob, ?_, hm⟩
      rw [List.getElem?_append_left (List.getElem?_eq_some_iff.1 hob).1, hob]
  · -- the table itself is made after the ones in its fields
    have hlast : ∀ {k ks}, (G' ++ [objectOf fields]).follow (.table G'.length) (k :: ks) ≠
        some (.table G'.length) := by
      intro k ks hb
      rw [hstep] at hb
      obtain ⟨x, hx, hb⟩ := Option.bind_eq_some_iff.1 hb
      obtain ⟨-, ob, hob, -⟩ := h.fresh hx hb
      exact absurd (List.getElem?_eq_some_iff.1 hob).1 (lt_irrefl _)
    cases ks with
    | nil =>
      obtain rfl := Ref.table.inj (Option.some.inj hb)
      cases ks' with
      | nil => rfl
      | cons k' ks' => exact absurd hb' hlast
    | cons k ks =>
      cases ks' with
      | nil =>
        obtain rfl := Ref.table.inj (Option.some.inj hb')
        exact absurd hb hlast
      | cons k' ks' =>
        rw [hstep] at hb hb'
        obtain ⟨x, hx, hb⟩ := Option.bind_eq_some_iff.1 hb
        obtain ⟨x', hx', hb'⟩ := Option.bind_eq_some_iff.1 hb'
        obtain ⟨rfl, rfl⟩ := h.apart hx hx' hb hb'
        rfl

end FieldsUnfold

end Trees

/-! ## Running the expression -/

section Evaluation

variable {α : Type} [DecidableEq α] {C : Constants α} {H : Heap α} {literal : α → Option Literal}

theorem unfolds_treeFields (hlit : ∀ {x l}, literal x = some l → C.value l = x)
    {tree : Ref α → Option Expr}
    (htree : ∀ {r e}, tree r = some e → ∀ G, ∃ G' x, evalExpr C e G = some (G', some x) ∧
      Unfolds H G G' r x)
    {pairs : List (Ref α × Ref α)} {i : ℕ} {fs : Fields}
    (h : treeFields literal C.position tree pairs i = some fs) (G : Heap α) :
    ∃ G' fields, evalFields C fs i G = some (G', fields) ∧ FieldsUnfold H G G' pairs fields ∧
      (fields.map fun f => .atom f.1) = pairs.map Prod.fst := by
  induction pairs generalizing i fs G with
  | nil =>
    obtain rfl := Option.some.inj h
    exact ⟨G, [], rfl, .nil G, rfl⟩
  | cons p pairs ih =>
    obtain ⟨k | b, value⟩ := p
    · obtain ⟨l, hl, h⟩ := Option.bind_eq_some_iff.1 h
      obtain ⟨e, he, h⟩ := Option.bind_eq_some_iff.1 h
      obtain ⟨fs₁, hrest, h⟩ := Option.bind_eq_some_iff.1 h
      obtain rfl := Option.some.inj h
      obtain ⟨G₁, x, heval, hunfolds⟩ := htree he G
      obtain ⟨G₂, fields, hfields, hunfolds', hkeys⟩ := ih hrest G₁
      refine ⟨G₂, (k, some x) :: fields, ?_, .cons hunfolds hunfolds', ?_⟩
      · rw [evalFields_cons, heval]
        by_cases hk : k = C.position i
        · rw [if_pos hk] at hfields ⊢
          simp [hfields, Constants.keyValue, hk]
        · rw [if_neg hk] at hfields ⊢
          simp [hfields, Constants.keyValue, hlit hl]
      · rw [List.map_cons, List.map_cons, hkeys]
    · cases h

/-- **The expression makes a tree.** The induction is on the depth of the recursion. -/
theorem unfolds_treeExpr (hlit : ∀ {x l}, literal x = some l → C.value l = x) (hH : H.Wf)
    (fuel : ℕ) {r : Ref α} {e : Expr} (h : treeExpr literal C.position H fuel r = some e)
    (G : Heap α) : ∃ G' x, evalExpr C e G = some (G', some x) ∧ Unfolds H G G' r x := by
  have hatom : ∀ {x e} (fuel : ℕ) (G : Heap α),
      treeExpr literal C.position H fuel (.atom x) = some e →
      ∃ G' y, evalExpr C e G = some (G', some y) ∧ Unfolds H G G' (.atom x) y := by
    intro x e fuel G h
    rw [treeExpr_atom] at h
    obtain ⟨l, hl, rfl⟩ := Option.map_eq_some_iff.1 h
    refine ⟨G, .atom x, by rw [evalExpr, hlit hl], List.prefix_rfl, fun ks => ?_, ?_, ?_⟩
    · cases ks with
      | nil => exact .some (.atom x)
      | cons k ks => exact .none
    · rintro (_ | ⟨k, ks⟩) b ⟨⟩
    · rintro (_ | ⟨k, ks⟩) ks' b ⟨⟩
  induction fuel generalizing r e G with
  | zero =>
    cases r with
    | atom x => exact hatom 0 G h
    | table a => cases h
  | succ fuel ih =>
    cases r with
    | atom x => exact hatom _ G h
    | table a =>
      obtain ⟨o, fs, ho, hfs, rfl⟩ := treeExpr_succ_eq_some _ _ h
      obtain ⟨G', fields, hfields, hunfolds, hkeys⟩ :=
        unfolds_treeFields hlit (fun h G => ih h G) hfs G
      have hnodup : (fields.map Prod.fst).Nodup := by
        have hatoms : ((fields.map Prod.fst).map Ref.atom).Nodup := by
          rw [List.map_map]
          exact hkeys ▸ hH.keys o (List.mem_of_getElem? ho)
        exact hatoms.of_map _
      refine ⟨_, _, ?_, hunfolds.table ho⟩
      rw [evalExpr_table, hfields, Option.bind_some, if_pos hnodup]
      rfl

end Evaluation

end Jord.Base
