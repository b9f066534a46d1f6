import Jord.Base.Plan
import Mathlib.Data.Set.Function
import Mathlib.Order.Interval.Set.LinearOrder

/-!
# The constructors of a plan

What the expression of a plan makes: for each table that the walk has come to for the first time a
new one, which has all entries but the ones that are left empty (`Filled`), and which the table in
front of it in its path holds (`Linked`). So a table that is reached twice, or by itself, is made
once.
-/

namespace Jord.Base

open LuaChunk (Literal Expr Fields Path Stmt Chunk)

variable {α : Type}

/-- The table that an entry for the metatable has. -/
def metaOf : Option (Ref α) × Ref α → Option ℕ
  | (none, r) => r.address?
  | (some _, _) => none

/-- The pair of an entry, with other addresses for values. -/
def pairAt (L : ℕ → ℕ) (e : Option (Ref α) × Ref α) : Option (Ref α × Ref α) :=
  e.1.map fun k => (k, e.2.map L)

/-- A table with the given entries. -/
def realize (L : ℕ → ℕ) (es : List (Option (Ref α) × Ref α)) : Object α :=
  ⟨es.filterMap (pairAt L), (es.filterMap metaOf).head?.map L⟩

/-- The entry has a table for which `p` holds, if it has a table. -/
def EntryAll (p : ℕ → Prop) (es : List (Option (Ref α) × Ref α)) : Prop :=
  ∀ {k b}, (k, .table b) ∈ es → p b

variable {L L' : ℕ → ℕ} {es es' : List (Option (Ref α) × Ref α)}

theorem pairAt_congr {e : Option (Ref α) × Ref α} (h : ∀ b, e.2 = .table b → L' b = L b) :
    pairAt L' e = pairAt L e := by
  obtain ⟨k, x | b⟩ := e
  · rfl
  · simp [pairAt, Ref.map, h b rfl]

theorem realize_congr (h : EntryAll (fun b => L' b = L b) es) : realize L' es = realize L es := by
  have hpairs : es.filterMap (pairAt L') = es.filterMap (pairAt L) := by
    apply List.filterMap_congr
    rintro ⟨k, r⟩ hmem
    exact pairAt_congr fun b hb => h (k := k) (by rwa [← show r = .table b from hb])
  have hmeta : (es.filterMap metaOf).head?.map L' = (es.filterMap metaOf).head?.map L := by
    cases hhead : (es.filterMap metaOf).head? with
    | none => rfl
    | some b =>
      obtain ⟨⟨_ | k, x | c⟩, hmem, heq⟩ :=
        List.mem_filterMap.1 (List.mem_of_mem_head? (Option.mem_def.2 hhead))
      · cases heq
      · obtain rfl := Option.some.inj heq
        simp [h hmem]
      · cases heq
      · cases heq
  rw [realize, realize, hpairs, hmeta]

variable {s s' s₁ s₂ : PlanState} {G G' : Heap α}

/-- The tables that the walk comes to between `s` and `s'`. -/
def new (s s' : PlanState) : Set ℕ := { a | s.defined a = none ∧ s'.defined a ≠ none }

variable (C : Constants α) (H : Heap α)

/-- The key of an entry. -/
def entryKey (key : Option Literal) : Option (Ref α) := key.map fun l => .atom (C.value l)

/-- The table `a` of `H` has been made at `L a`, less the entries that are left empty. -/
def Filled (s : PlanState) (L : ℕ → ℕ) (G : Heap α) (a : ℕ) : Prop :=
  ∃ o done, H[a]? = some o ∧ (done ++ pending C s.late a).Perm (entries o) ∧
    G[L a]? = some (realize L done) ∧ EntryAll (fun b => s.defined b ≠ none) done

/-- The table at `x` has the table at `y` under the key. -/
def Holds (G : Heap α) (x : ℕ) (key : Option Literal) (y : ℕ) : Prop :=
  ∃ o, G[x]? = some o ∧ match key with
    | some l => (.atom (C.value l), .table y) ∈ o.pairs
    | none => o.metatable = some y

/-- The table `a` has an entry with the table `b`. -/
def Leads (a b : ℕ) : Prop := ∃ o, H[a]? = some o ∧ ∃ k, (k, .table b) ∈ entries o

/-- The table `a` has been made at `L a`, and is held there by the table in front of it in its
path. -/
def Linked (s : PlanState) (L : ℕ → ℕ) (G : Heap α) (a : ℕ) : Prop :=
  ∃ b key p, s.defined b = some p ∧ s.defined a = some (step p key) ∧ Leads H b a ∧
    Holds C G (L b) key (L a)

/-- The new tables between `s` and `s'` have been made at the addresses from `lo` to `hi`. Those in
`T` are held from outside. -/
structure Stores (s s' : PlanState) (T : ℕ → Prop) (lo hi : ℕ) (G : Heap α) (L L' : ℕ → ℕ) :
    Prop where
  agree : ∀ a ∉ new s s', L' a = L a
  bijOn : Set.BijOn L' (new s s') (Set.Ico lo hi)
  filled : ∀ a ∈ new s s', Filled C H s' L' G a
  linked : ∀ a ∈ new s s', T a ∨ Linked C H s' L' G a

variable {C H}

theorem bijOn_union {N N' : Set ℕ} {a b c : ℕ} (hab : a ≤ b) (hbc : b ≤ c)
    (h : Set.BijOn L N (Set.Ico a b)) (h' : Set.BijOn L N' (Set.Ico b c)) :
    Set.BijOn L (N ∪ N') (Set.Ico a c) := by
  rw [← Set.Ico_union_Ico_eq_Ico hab hbc]
  refine h.union h' ?_
  rintro x (hx | hx) y (hy | hy) heq
  · exact h.injOn hx hy heq
  · have h₁ := (h.mapsTo hx).2
    have h₂ := (h'.mapsTo hy).1
    omega
  · have h₁ := (h'.mapsTo hx).1
    have h₂ := (h.mapsTo hy).2
    omega
  · exact h'.injOn hx hy heq

/-! ## Later on -/

variable {own : List (Place × ℕ)}

/-- The table is one that the walk has left behind. -/
theorem Filled.later {a : ℕ} (h : Filled C H s L G a) (hw : Walks C s s' own)
    (ha : s.defined a ≠ none) (hown : pending C own a = [])
    (hL : ∀ b, s.defined b ≠ none → L' b = L b) (hG : G'[L a]? = G[L a]?) :
    Filled C H s' L' G' a := by
  obtain ⟨o, done, ho, hperm, hobj, hdone⟩ := h
  refine ⟨o, done, ho, ?_, ?_, fun hmem => hw.defined_ne_none (hdone hmem)⟩
  · rwa [hw.pending ha, hown, List.append_nil]
  · rw [hL a ha, hG, hobj, realize_congr fun hmem => hL _ (hdone hmem)]

/-- What a table has it has later as well. -/
def Extends (G G' : Heap α) : Prop :=
  ∀ {x : ℕ} {o : Object α}, G[x]? = some o → ∃ o' : Object α, G'[x]? = some o' ∧
    o.pairs ⊆ o'.pairs ∧ ∀ m, o.metatable = some m → o'.metatable = some m

theorem Extends.trans {G'' : Heap α} (h : Extends G G') (h' : Extends G' G'') :
    Extends G G'' := by
  intro x o ho
  obtain ⟨o', ho', hpairs, hmeta⟩ := h ho
  obtain ⟨o'', ho'', hpairs', hmeta'⟩ := h' ho'
  exact ⟨o'', ho'', List.Subset.trans hpairs hpairs', fun m hm => hmeta' m (hmeta m hm)⟩

theorem extends_of_starts (h : G <+: G') : Extends G G' := by
  intro x o ho
  obtain ⟨t, rfl⟩ := h
  refine ⟨o, ?_, List.Subset.refl _, fun _ => id⟩
  rw [List.getElem?_append_left (List.getElem?_eq_some_iff.1 ho).1, ho]

theorem Holds.mono {x y : ℕ} {key : Option Literal} (h : Holds C G x key y) (hG : Extends G G') :
    Holds C G' x key y := by
  obtain ⟨o, ho, hkey⟩ := h
  obtain ⟨o', ho', hpairs, hmeta⟩ := hG ho
  refine ⟨o', ho', ?_⟩
  cases key with
  | none => exact hmeta y hkey
  | some l => exact hpairs hkey

theorem Linked.later {a : ℕ} (h : Linked C H s L G a) (hw : Walks C s s' own)
    (hL : ∀ b, s.defined b ≠ none → L' b = L b) (hG : Extends G G') :
    Linked C H s' L' G' a := by
  obtain ⟨b, key, p, hb, ha, hleads, hholds⟩ := h
  refine ⟨b, key, p, hw.grows hb, hw.grows ha, hleads, ?_⟩
  rw [hL a (ha ▸ Option.some_ne_none _), hL b (hb ▸ Option.some_ne_none _)]
  exact hholds.mono hG

/-- Tables that have been made while the walk goes on elsewhere. -/
theorem Stores.later {T : ℕ → Prop} {lo hi : ℕ} {L₁ L₂ : ℕ → ℕ}
    (h : Stores C H s s₁ T lo hi G L L₁) (hw : Walks C s₁ s₂ own)
    (hown : ∀ a ∈ new s s₁, pending C own a = []) (hL : ∀ b ∉ new s₁ s₂, L₂ b = L₁ b)
    (hG : ∀ x, lo ≤ x → x < hi → G'[x]? = G[x]?) (hext : Extends G G') :
    Set.BijOn L₂ (new s s₁) (Set.Ico lo hi) ∧ (∀ a ∈ new s s₁, Filled C H s₂ L₂ G' a) ∧
      ∀ a ∈ new s s₁, T a ∨ Linked C H s₂ L₂ G' a := by
  have hL' : ∀ b, s₁.defined b ≠ none → L₂ b = L₁ b := fun b hb => hL b fun hnew => hb hnew.1
  refine ⟨h.bijOn.congr fun a ha => (hL' a ha.2).symm, fun a ha => ?_, fun a ha => ?_⟩
  · obtain ⟨hlo, hhi⟩ := h.bijOn.mapsTo ha
    exact (h.filled a ha).later hw ha.2 (hown a ha) hL' (hG _ hlo hhi)
  · exact (h.linked a ha).imp_right fun hlink => hlink.later hw hL' hext

theorem new_trans (hw : Walks C s s₁ own) {own' : List (Place × ℕ)} (hw' : Walks C s₁ s₂ own') :
    new s s₂ = new s s₁ ∪ new s₁ s₂ := by
  ext a
  constructor
  · rintro ⟨hnone, hne⟩
    by_cases ha : s₁.defined a = none
    · exact .inr ⟨ha, hne⟩
    · exact .inl ⟨hnone, ha⟩
  · rintro (⟨hnone, hne⟩ | ⟨hnone, hne⟩)
    · exact ⟨hnone, hw'.defined_ne_none hne⟩
    · refine ⟨?_, hne⟩
      by_contra ha
      exact hw.defined_ne_none ha hnone

variable {T T₁ T₂ : ℕ → Prop} {own₁ own₂ : List (Place × ℕ)} {lo mid hi : ℕ} {G₁ G₂ : Heap α}
  {L₁ L₂ : ℕ → ℕ}

/-- One part after the other. -/
theorem Stores.trans (h₁ : Stores C H s s₁ T₁ lo mid G₁ L L₁)
    (h₂ : Stores C H s₁ s₂ T₂ mid hi G₂ L₁ L₂) (hw₁ : Walks C s s₁ own₁) (hw₂ : Walks C s₁ s₂ own₂)
    (hown : ∀ a ∈ new s s₁, pending C own₂ a = []) (hlo : lo ≤ mid) (hhi : mid ≤ hi)
    (hmid : G₁.length = mid) (hG : G₁ <+: G₂) (hT₁ : ∀ a, T₁ a → T a) (hT₂ : ∀ a, T₂ a → T a) :
    Stores C H s s₂ T lo hi G₂ L L₂ := by
  have hnew : new s s₂ = new s s₁ ∪ new s₁ s₂ := new_trans hw₁ hw₂
  have hsame : ∀ x, lo ≤ x → x < mid → G₂[x]? = G₁[x]? := by
    obtain ⟨t, rfl⟩ := hG
    intro x _ hx
    exact List.getElem?_append_left (hmid ▸ hx)
  obtain ⟨hbij, hfilled, hlinked⟩ := h₁.later hw₂ hown h₂.agree hsame (extends_of_starts hG)
  refine ⟨fun a ha => ?_, hnew ▸ bijOn_union hlo hhi hbij h₂.bijOn, ?_, ?_⟩
  · rw [hnew, Set.mem_union, not_or] at ha
    rw [h₂.agree a ha.2, h₁.agree a ha.1]
  · rw [hnew]
    rintro a (ha | ha)
    · exact hfilled a ha
    · exact h₂.filled a ha
  · rw [hnew]
    rintro a (ha | ha)
    · exact (hlinked a ha).imp_left (hT₁ a)
    · exact (h₂.linked a ha).imp_left (hT₂ a)

/-! ## The specification of a call -/

theorem new_of_eq (h : s'.defined = s.defined) : new s s' = ∅ := by
  ext a
  simp [new, h]

/-- No table has been come to. -/
theorem Stores.of_eq (h : s'.defined = s.defined) (T : ℕ → Prop) (G : Heap α) (L : ℕ → ℕ) :
    Stores C H s s' T G.length G.length G L L := by
  constructor
  · exact fun _ _ => rfl
  · rw [new_of_eq h, Set.Ico_self]
    exact Set.bijOn_empty L
  · rw [new_of_eq h]
    rintro a ⟨⟩
  · rw [new_of_eq h]
    rintro a ⟨⟩

/-- The tables of entries at the path `p`, each with its own path. -/
def Tops (C : Constants α) (s : PlanState) (p : Path) (done : List (Option (Ref α) × Ref α))
    (a : ℕ) : Prop :=
  ∃ key, (entryKey C key, .table a) ∈ done ∧ s.defined a = some (step p key)

variable [DecidableEq α]

/-- A part of a plan for the entries `es` of the table `a` at the path `p`: the entries `done` are
made, and the others are left empty. `run` is the evaluation of the part, and `R` says how its
result contains the entries. -/
def Contributes {β : Type} (C : Constants α) (H : Heap α) (run : Heap α → Option (Heap α × β))
    (R : (ℕ → ℕ) → List (Option (Ref α) × Ref α) → β → Prop) (s s' : PlanState) (a : ℕ) (p : Path)
    (es : List (Option (Ref α) × Ref α)) : Prop :=
  ∃ own done, Walks C s s' own ∧ (∀ x ∈ own, ∃ key b, x = (.slot a key, b)) ∧
    (done ++ pending C own a).Perm es ∧ EntryAll (fun b => s'.defined b ≠ none) done ∧
    ∀ G, ∃ G' x, run G = some (G', x) ∧ G <+: G' ∧ ∀ L, ∃ L', R L' done x ∧
      Stores C H s s' (Tops C s' p done) G.length G'.length G' L L'

/-- The value of the only entry. -/
def OneValue (L : ℕ → ℕ) (done : List (Option (Ref α) × Ref α)) (x : Value α) : Prop :=
  x.toList = done.map fun e => e.2.map L

/-- The pairs of the entries. -/
def ManyFields (ks : List (Ref α)) (L : ℕ → ℕ) (done : List (Option (Ref α) × Ref α))
    (fields : List (α × Value α)) : Prop :=
  fields.map (fun f => .atom f.1) = ks ∧ fields.filterMap pairOf = done.filterMap (pairAt L)

/-- The expression for a value that is not left empty: what the walk has come to is new, and the
value is made with it. -/
structure Made (C : Constants α) (H : Heap α) (s s' : PlanState) (p : Path) (r : Ref α) (e : Expr) :
    Prop where
  walks : Walks C s s' []
  path : ∀ {a}, r = .table a → s.defined a = none ∧ s'.defined a = some p
  eval : ∀ G, ∃ G' x, evalExpr C e G = some (G', some x) ∧ G <+: G' ∧ ∀ L, ∃ L', x = r.map L' ∧
    Stores C H s s' (fun a => r = .table a) G.length G'.length G' L L'

/-- What a call for a value at a place does. -/
def Plans (v : Str) (C : Constants α) (H : Heap α)
    (plan : PlanState → Place → Ref α → Option (PlanState × Expr)) : Prop :=
  ∀ {s place r s' e}, place.Open s → s.Wf → plan s place r = some (s', e) →
    Made C H s s' (place.path v s) r e ∨
      ∃ a, r = .table a ∧ s.defined a ≠ none ∧ s' = s.leave place a ∧ e = .nil

variable {v : Str} {plan : PlanState → Place → Ref α → Option (PlanState × Expr)}

/-- The call for an entry of a table. -/
theorem Plans.contributes (hplan : Plans v C H plan) {a : ℕ} {p : Path}
    (hp : s.defined a = some p) (hs : s.Wf) {key : Option Literal} {r : Ref α} {e : Expr}
    (h : plan s (.slot a key) r = some (s', e)) :
    Contributes C H (evalExpr C e) OneValue s s' a p [(entryKey C key, r)] := by
  have hopen : (Place.slot a key).Open s := Option.ne_none_iff_exists'.2 ⟨p, hp⟩
  rcases hplan hopen hs h with hmade | ⟨b, rfl, hb, rfl, rfl⟩
  · refine ⟨[], [(entryKey C key, r)], hmade.walks, by simp, by simp [pending], ?_, fun G => ?_⟩
    · intro k b hmem
      rw [List.mem_singleton, Prod.mk.injEq] at hmem
      rw [(hmade.path hmem.2.symm).2]
      exact Option.some_ne_none _
    · obtain ⟨G', x, heval, hstart, hL⟩ := hmade.eval G
      refine ⟨G', some x, heval, hstart, fun L => ?_⟩
      obtain ⟨L', rfl, hstores⟩ := hL L
      refine ⟨L', rfl, hstores.agree, hstores.bijOn, hstores.filled, fun c hc => ?_⟩
      refine (hstores.linked c hc).imp_left ?_
      rintro rfl
      refine ⟨key, List.mem_singleton_self _, ?_⟩
      rw [(hmade.path rfl).2, Place.path, PlanState.path, hp, Option.getD_some]
  · refine ⟨[(.slot a key, b)], [], .leave hopen hb, by simp, ?_, by rintro _ _ ⟨⟩, fun G => ?_⟩
    · simp [pending, entryAt, entryKey]
    · have hleave : (s.leave (.slot a key) b).defined = s.defined := rfl
      exact ⟨G, none, rfl, List.prefix_rfl, fun L => ⟨L, rfl, .of_eq hleave _ G L⟩⟩

/-- The entries of a table for some of its keys. -/
def fieldsOf (o : Object α) (ks : List (Ref α)) : List (Option (Ref α) × Ref α) :=
  ks.filterMap fun k => (o.rawget k).map fun r => (some k, r)

variable {literal : α → Option Literal}

omit [DecidableEq α] in
/-- Places of `a` are none of another table. -/
theorem pending_eq_nil_of_own {a c : ℕ} (hown : ∀ x ∈ own, ∃ key b, x = (Place.slot a key, b))
    (hc : c ≠ a) : pending C own c = [] := by
  rw [pending, List.filterMap_eq_nil_iff]
  intro x hx
  obtain ⟨key, b, rfl⟩ := hown x hx
  exact if_neg (Ne.symm hc)

omit [DecidableEq α] in
theorem Tops.mono {p : Path} {done done' : List (Option (Ref α) × Ref α)} {c : ℕ}
    (h : Tops C s p done c) (hdone : done ⊆ done')
    (hgrows : ∀ {a q}, s.defined a = some q → s'.defined a = some q) : Tops C s' p done' c := by
  obtain ⟨key, hmem, hc⟩ := h
  exact ⟨key, hdone hmem, hgrows hc⟩

omit [DecidableEq α] in
/-- The pair of a field is the one of its entry. -/
theorem OneValue.pairOf {done : List (Option (Ref α) × Ref α)} {x : Value α} {k : α}
    (h : OneValue L done x) (hk : ∀ e ∈ done, e.1 = some (.atom k)) :
    (pairOf (k, x)).toList = done.filterMap (pairAt L) := by
  have hpair : ∀ e ∈ done, pairAt L e = some (.atom k, e.2.map L) := by
    intro e he
    rw [pairAt, hk e he]
    rfl
  rw [List.filterMap_congr hpair, Base.pairOf, Option.toList_map, h, List.map_map,
    List.filterMap_eq_map']
  rfl

omit [DecidableEq α] in
theorem perm_append_append (es₁ es₂ es₃ es₄ : List (Option (Ref α) × Ref α)) :
    (es₁ ++ es₂ ++ (es₃ ++ es₄)).Perm (es₁ ++ es₃ ++ (es₂ ++ es₄)) := by
  rw [List.append_assoc, List.append_assoc]
  apply List.Perm.append_left
  rw [← List.append_assoc, ← List.append_assoc]
  exact List.perm_append_comm.append_right es₄

/-- The loop over the keys of a table. -/
theorem Plans.fields (hplan : Plans v C H plan) (hlit : ∀ {x l}, literal x = some l → C.value l = x)
    {a : ℕ} {p : Path} {o : Object α} {ks : List (Ref α)} {i : ℕ} {fs : Fields}
    (hp : s.defined a = some p) (hs : s.Wf)
    (h : planFields literal C.position plan a o ks i s = some (s', fs)) :
    Contributes C H (evalFields C fs i) (ManyFields ks) s s' a p (fieldsOf o ks) := by
  induction ks generalizing s i fs with
  | nil =>
    obtain ⟨rfl, rfl⟩ := Prod.mk.inj (Option.some.inj h)
    refine ⟨[], [], .refl C s, by simp, .refl _, by rintro _ _ ⟨⟩, fun G => ?_⟩
    exact ⟨G, [], rfl, List.prefix_rfl, fun L => ⟨L, ⟨rfl, rfl⟩, .of_eq rfl _ G L⟩⟩
  | cons k ks ih =>
    cases k with
    | table b => cases h
    | atom k =>
      obtain ⟨l, hl, h⟩ := Option.bind_eq_some_iff.1 h
      obtain ⟨value, hvalue, h⟩ := Option.bind_eq_some_iff.1 h
      obtain ⟨⟨s₁, e⟩, he, h⟩ := Option.bind_eq_some_iff.1 h
      obtain ⟨⟨s₂, fs₂⟩, hfs, h⟩ := Option.bind_eq_some_iff.1 h
      obtain ⟨rfl, rfl⟩ := Prod.mk.inj (Option.some.inj h)
      obtain ⟨own₁, done₁, hw₁, hown₁, hperm₁, hdone₁, heval₁⟩ := hplan.contributes hp hs he
      obtain ⟨own₂, done₂, hw₂, hown₂, hperm₂, hdone₂, heval₂⟩ :=
        ih (hw₁.grows hp) (hw₁.wf hs) hfs
      have hkey : entryKey C (some l) = some (.atom k) := congrArg (some ∘ Ref.atom) (hlit hl)
      have hfields : fieldsOf o (.atom k :: ks) = [(some (.atom k), value)] ++ fieldsOf o ks := by
        simp [fieldsOf, hvalue]
      refine ⟨own₁ ++ own₂, done₁ ++ done₂, hw₁.trans hw₂, ?_, ?_, ?_, fun G => ?_⟩
      · exact fun x hx => (List.mem_append.1 hx).elim (hown₁ x) (hown₂ x)
      · rw [hfields, pending_append, ← hkey]
        exact (perm_append_append ..).trans (hperm₁.append hperm₂)
      · intro k' b hmem
        rcases List.mem_append.1 hmem with hmem | hmem
        · exact hw₂.defined_ne_none (hdone₁ hmem)
        · exact hdone₂ hmem
      · obtain ⟨G₁, x, hx, hstart₁, hL₁⟩ := heval₁ G
        obtain ⟨G₂, fields, hfields, hstart₂, hL₂⟩ := heval₂ G₁
        refine ⟨G₂, (k, x) :: fields, ?_, hstart₁.trans hstart₂, fun L => ?_⟩
        · rw [evalFields_cons, hx]
          by_cases hk : k = C.position i
          · rw [if_pos hk] at hfields ⊢
            simp [hfields, Constants.keyValue, hk]
          · rw [if_neg hk] at hfields ⊢
            simp [hfields, Constants.keyValue, hlit hl]
        · obtain ⟨L₁, hvalue₁, hstores₁⟩ := hL₁ L
          obtain ⟨L₂, ⟨hkeys, hpairs⟩, hstores₂⟩ := hL₂ L₁
          have hsame : done₁.filterMap (pairAt L₂) = done₁.filterMap (pairAt L₁) := by
            apply List.filterMap_congr
            rintro ⟨k', r⟩ hmem
            apply pairAt_congr
            rintro b rfl
            exact hstores₂.agree b fun hb => hdone₁ hmem hb.1
          have hpair : (pairOf (k, x)).toList = done₁.filterMap (pairAt L₁) := by
            apply hvalue₁.pairOf
            intro e' he'
            rw [← hkey, List.mem_singleton.1 (hperm₁.subset (List.mem_append_left _ he'))]
          refine ⟨L₂, ⟨?_, ?_⟩, ?_⟩
          · rw [List.map_cons, hkeys]
          · rw [List.filterMap_append, hsame, ← hpair, ← hpairs]
            cases x <;> rfl
          · refine hstores₁.trans hstores₂ hw₁ hw₂ (fun c hc => ?_) hstart₁.length_le
              hstart₂.length_le rfl hstart₂ ?_ ?_
            · apply pending_eq_nil_of_own hown₂
              rintro rfl
              cases hp.symm.trans hc.1
            · exact fun c hc => hc.mono (List.subset_append_left ..) hw₂.grows
            · exact fun c hc => hc.mono (List.subset_append_right ..) id

/-- An expression for a metatable, if there is one. -/
def evalMetatable (C : Constants α) : Option Expr → Heap α → Option (Heap α × Value α)
  | none, G => some (G, none)
  | some e, G => evalExpr C e G

/-- The metatable of a table. -/
theorem Plans.metatable (hplan : Plans v C H plan) {a : ℕ} {p : Path} {metatable : Option ℕ}
    {m : Option Expr} (hp : s.defined a = some p) (hs : s.Wf)
    (h : planMetatable plan a metatable s = some (s', m)) :
    Contributes C H (evalMetatable C m) OneValue s s' a p
      (metatable.toList.map fun m => (none, .table m)) := by
  cases metatable with
  | none =>
    obtain ⟨rfl, rfl⟩ := Prod.mk.inj (Option.some.inj h)
    refine ⟨[], [], .refl C s, by simp, .refl _, by rintro _ _ ⟨⟩, fun G => ?_⟩
    exact ⟨G, none, rfl, List.prefix_rfl, fun L => ⟨L, rfl, .of_eq rfl _ G L⟩⟩
  | some m =>
    obtain ⟨⟨s₁, e⟩, he, heq⟩ := Option.map_eq_some_iff.1 h
    obtain ⟨rfl, rfl⟩ := Prod.mk.inj heq
    exact hplan.contributes hp hs he

omit [DecidableEq α] in
theorem modify_self_of_metatable {a : ℕ} {o : Object α} (ho : G[a]? = some o)
    (hm : o.metatable = none) : (G.modify a fun o => { o with metatable := none }) = G := by
  apply List.ext_getElem?
  intro x
  rw [List.getElem?_modify]
  split_ifs with hx
  · subst hx
    obtain ⟨ps, m⟩ := o
    obtain rfl : m = none := hm
    simp [ho]
  · simp

/-- A constructor makes the table, and sets its metatable at last. -/
theorem evalExpr_construct {fs : Fields} {m : Option Expr} {fields : List (α × Value α)}
    {x : Value α} (hfields : evalFields C fs 1 G = some (G₁, fields))
    (hnodup : (fields.map Prod.fst).Nodup)
    (hm : evalMetatable C m (G₁ ++ [⟨fields.filterMap pairOf, none⟩]) = some (G₂, x))
    (hstart : G₁ ++ [⟨fields.filterMap pairOf, none⟩] <+: G₂) (hx : ∀ y, x ≠ some (.atom y)) :
    evalExpr C (construct fs m) G = some
      (G₂.modify G₁.length fun o => { o with metatable := x.bind Ref.address? },
        some (.table G₁.length)) := by
  have htable : evalExpr C (.table fs) G =
      some (G₁ ++ [⟨fields.filterMap pairOf, none⟩], some (.table G₁.length)) := by
    rw [evalExpr_table, hfields, Option.bind_some, if_pos hnodup]
  have hself : (G₁ ++ [⟨fields.filterMap pairOf, none⟩])[G₁.length]? =
      some (⟨fields.filterMap pairOf, none⟩ : Object α) := by simp
  have hself₂ : G₂[G₁.length]? = some (⟨fields.filterMap pairOf, none⟩ : Object α) := by
    obtain ⟨t, rfl⟩ := hstart
    rw [List.getElem?_append_left (by simp), hself]
  cases m with
  | none =>
    obtain ⟨rfl, rfl⟩ := Prod.mk.inj (Option.some.inj hm)
    rw [construct, htable, Option.bind_none, modify_self_of_metatable hself rfl]
  | some e =>
    have hfree : G₂.metafield G₁.length (C.field "__metatable") = none := by
      simp [Heap.metafield, hself₂]
    rw [evalMetatable] at hm
    rw [construct, evalExpr_setmetatable, htable, Option.bind_some, hm, Option.bind_some,
      Heap.setmetatable_of_free hfree hx, Option.bind_some]

/-! ## A table that is come to for the first time -/

omit [DecidableEq α] in
theorem OneValue.address {done : List (Option (Ref α) × Ref α)} {x : Value α}
    (h : OneValue L done x) (hdone : ∀ e ∈ done, ∃ b, e = (none, .table b)) :
    x.bind Ref.address? = (done.filterMap metaOf).head?.map L ∧ ∀ y, x ≠ some (.atom y) := by
  cases x with
  | none =>
    obtain rfl : done = [] := List.map_eq_nil_iff.1 h.symm
    exact ⟨rfl, by simp⟩
  | some r =>
    obtain ⟨e, rfl, rfl⟩ := List.map_eq_singleton_iff.1 h.symm
    obtain ⟨b, rfl⟩ := hdone e (List.mem_singleton_self e)
    exact ⟨rfl, by simp [Ref.map]⟩

omit [DecidableEq α] in
theorem realize_append (h : ∀ e ∈ es, e.1 = none) (h' : ∀ e ∈ es', e.1 ≠ none) :
    realize L (es ++ es') = ⟨es'.filterMap (pairAt L), (es.filterMap metaOf).head?.map L⟩ := by
  have hpairs : es.filterMap (pairAt L) = [] := by
    rw [List.filterMap_eq_nil_iff]
    intro e he
    rw [pairAt, h e he]
    rfl
  have hmeta : es'.filterMap metaOf = [] := by
    rw [List.filterMap_eq_nil_iff]
    rintro ⟨_ | k, r⟩ he
    · exact absurd rfl (h' _ he)
    · rfl
  rw [realize, List.filterMap_append, List.filterMap_append, hpairs, hmeta, List.nil_append,
    List.append_nil]

omit [DecidableEq α] in
theorem filterMap_metaOf_entries (o : Object α) :
    (entries o).filterMap metaOf = o.metatable.toList := by
  rw [entries, List.filterMap_append]
  cases o.metatable <;> simp [metaOf, Function.comp_def, Ref.address?]

omit [DecidableEq α] in
/-- A table that has been made holds its entries. -/
theorem holds_realize {es' : List (Option (Ref α) × Ref α)} {o : Object α} {key : Option Literal}
    {c x : ℕ} (hmem : (entryKey C key, .table c) ∈ es) (hperm : (es ++ es').Perm (entries o))
    (hobj : G[x]? = some (realize L es)) : Holds C G x key (L c) := by
  refine ⟨_, hobj, ?_⟩
  cases key with
  | some l => exact List.mem_filterMap.2 ⟨_, hmem, rfl⟩
  | none =>
    have hc : c ∈ es.filterMap metaOf := List.mem_filterMap.2 ⟨_, hmem, rfl⟩
    have hone : (es.filterMap metaOf ++ es'.filterMap metaOf).Perm o.metatable.toList := by
      rw [← List.filterMap_append, ← filterMap_metaOf_entries]
      exact hperm.filterMap metaOf
    have hhead : es.filterMap metaOf = [c] := by
      have hlen := hone.length_eq
      rw [List.length_append] at hlen
      obtain ⟨d, hd⟩ := List.length_eq_one_iff.1 (Nat.le_antisymm
        (show (es.filterMap metaOf).length ≤ 1 by
          have : o.metatable.toList.length ≤ 1 := by cases o.metatable <;> simp
          omega) (List.length_pos_of_mem hc))
      rw [hd] at hc ⊢
      rw [List.mem_singleton.1 hc]
    change ((es.filterMap metaOf).head?).map L = some (L c)
    rw [hhead]
    rfl

/-- The entries of a table for all of its keys. -/
theorem fieldsOf_perm {o : Object α} {ks : List (Ref α)} (hnodup : (o.pairs.map Prod.fst).Nodup)
    (hks : ks.Perm (o.pairs.map Prod.fst)) :
    (fieldsOf o ks).Perm (o.pairs.map fun p => (some p.1, p.2)) := by
  refine (hks.filterMap _).trans (.of_eq ?_)
  rw [List.filterMap_map, ← List.filterMap_eq_map']
  apply List.filterMap_congr
  intro p hp
  simp [Object.rawget_of_mem hnodup hp]

omit [DecidableEq α] in
theorem prefix_modify {a : ℕ} (h : G <+: G') (ha : G.length ≤ a) (f : Object α → Object α) :
    G <+: G'.modify a f := by
  rw [List.prefix_iff_getElem?] at h ⊢
  intro x hx
  have hne : a ≠ x := by omega
  rw [List.getElem?_modify, h x hx]
  simp [hne]

end Jord.Base
