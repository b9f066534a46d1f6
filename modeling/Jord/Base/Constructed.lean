import Jord.Base.Construct

/-!
# What a plan constructs

Every call of the walk makes the tables that it comes to for the first time (`plans_planValue`).
-/

namespace Jord.Base

open LuaChunk (Literal Expr Fields Path Stmt Chunk)

variable {α : Type} [DecidableEq α] {C : Constants α} {H : Heap α} {v : Str}
  {literal : α → Option Literal} {keys : Object α → List (Ref α)}
  {s s' s₁ s₂ : PlanState} {own own' : List (Place × ℕ)}

omit [DecidableEq α] in
/-- Places of new tables do not count. -/
theorem Walks.forget (h : Walks C s s' own)
    (hown : ∀ a, s.defined a ≠ none → Base.pending C own a = []) :
    Walks C s s' [] :=
  ⟨h.grows, h.wf, fun {a} ha => by rw [h.pending ha, hown a ha]; rfl⟩

theorem new_enter {a : ℕ} (ha : s.defined a = none) (p : Path) : new s (s.enter a p) = {a} := by
  ext c
  rw [Set.mem_singleton_iff]
  constructor
  · rintro ⟨hnone, hne⟩
    by_contra hc
    rw [s.defined_enter_of_ne p hc] at hne
    exact hne hnone
  · rintro rfl
    refine ⟨ha, ?_⟩
    rw [s.defined_enter_self]
    exact Option.some_ne_none p

theorem bijOn_singleton_Ico {L : ℕ → ℕ} {a x : ℕ} (h : L a = x) :
    Set.BijOn L {a} (Set.Ico x (x + 1)) := by
  have hx : Set.Ico x (x + 1) = {x} := by
    ext y
    rw [Set.mem_Ico, Set.mem_singleton_iff]
    omega
  rw [hx]
  exact Set.bijOn_singleton.2 h

section Assembly

variable {L L₀ L₁ L₂ : ℕ → ℕ} {G G₁ G₂ G₃ : Heap α} {a : ℕ} {p : Path} {o : Object α}
  {done₁ done₂ : List (Option (Ref α) × Ref α)} {own₁ own₂ : List (Place × ℕ)}

omit [DecidableEq α] in
/-- The table at `x` gets its metatable. -/
theorem extends_of_metatable {x : ℕ} {ps : List (Ref α × Ref α)} {m : Option ℕ}
    (hsame : ∀ y, y ≠ x → G₃[y]? = G₂[y]?) (hx : G₂[x]? = some ⟨ps, none⟩)
    (hx' : G₃[x]? = some ⟨ps, m⟩) : Extends G₂ G₃ := by
  intro y o ho
  by_cases hy : y = x
  · subst hy
    obtain rfl := Option.some.inj (hx.symm.trans ho)
    exact ⟨_, hx', List.Subset.refl _, by rintro _ ⟨⟩⟩
  · exact ⟨o, (hsame y hy).trans ho, List.Subset.refl _, fun _ => id⟩

omit [DecidableEq α] in
/-- The tables that are held by `a`. -/
theorem linked_of_tops {done : List (Option (Ref α) × Ref α)} {c : ℕ} (ho : H[a]? = some o)
    (ha : s.defined a = some p) {es : List (Option (Ref α) × Ref α)}
    (hentries : (done ++ es).Perm (entries o)) (hobj : G₃[L a]? = some (realize L done))
    (hc : Tops C s p done c) : Linked C H s L G₃ c := by
  obtain ⟨key, hmem, hdef⟩ := hc
  refine ⟨a, key, p, ha, hdef, ⟨o, ho, _, hentries.subset (List.mem_append_left _ hmem)⟩, ?_⟩
  exact holds_realize hmem hentries hobj

omit [DecidableEq α] in
/-- **A table with all that is made inside of it**: `G₁` are the tables after its fields, with which
it is made at the address `G₁.length`, `G₂` are the ones after its metatable, and in `G₃` the
metatable is set. -/
theorem Stores.table (ho : H[a]? = some o) (ha : s.defined a = none)
    (hw₁ : Walks C (s.enter a p) s₁ own₁) (hw₂ : Walks C s₁ s₂ own₂)
    (hown₂ : ∀ c, c ≠ a → pending C own₂ c = [])
    (hstores₁ : Stores C H (s.enter a p) s₁ (Tops C s₁ p done₁) (G₁.length + 1) G₂.length G₂
      (Function.update L a G₁.length) L₁)
    (hstores₂ : Stores C H s₁ s₂ (Tops C s₂ p done₂) G.length G₁.length G₁ L₁ L₂)
    (hdone : EntryAll (fun b => s₂.defined b ≠ none) (done₁ ++ done₂))
    (hentries : (done₁ ++ done₂ ++ pending C s₂.late a).Perm (entries o))
    (hle : G.length ≤ G₁.length) (hlt : G₁.length < G₂.length) (hstart : G₁ <+: G₂)
    (hsame : ∀ x, x ≠ G₁.length → G₃[x]? = G₂[x]?) (hext : Extends G₂ G₃)
    (hlen : G₃.length = G₂.length) (hobj : G₃[G₁.length]? = some (realize L₂ (done₁ ++ done₂))) :
    L₂ a = G₁.length ∧
      Stores C H s s₂ (fun c => (.table a : Ref α) = .table c) G.length G₃.length G₃ L L₂ := by
  have hw₀ : Walks C s (s.enter a p) [] := .enter ha p
  have hp₀ : (s.enter a p).defined a = some p := s.defined_enter_self a p
  have hp₂ : s₂.defined a = some p := hw₂.grows (hw₁.grows hp₀)
  have hnew : new s s₂ = {a} ∪ (new (s.enter a p) s₁ ∪ new s₁ s₂) := by
    rw [new_trans hw₀ (hw₁.trans hw₂), new_enter ha, new_trans hw₁ hw₂]
  have ha₁ : a ∉ new (s.enter a p) s₁ := by
    rintro ⟨hnone, -⟩
    cases hp₀.symm.trans hnone
  have ha₂ : a ∉ new s₁ s₂ := by
    rintro ⟨hnone, -⟩
    cases (hw₁.grows hp₀).symm.trans hnone
  have haddress : L₂ a = G₁.length := by
    rw [hstores₂.agree a ha₂, hstores₁.agree a ha₁, Function.update_self]
  -- the tables that the metatable is made of, and the ones in the fields
  obtain ⟨hbij₁, hfilled₁, hlinked₁⟩ := hstores₁.later hw₂
    (fun c hc => hown₂ c fun h => ha₁ (h ▸ hc)) hstores₂.agree
    (fun x hx _ => hsame x (by omega)) hext
  obtain ⟨hbij₂, hfilled₂, hlinked₂⟩ := hstores₂.later (.refl C s₂)
    (fun _ _ => rfl) (fun _ _ => rfl)
    (fun x _ hx => by
      obtain ⟨t, rfl⟩ := hstart
      rw [hsame x hx.ne, List.getElem?_append_left hx])
    (Extends.trans (extends_of_starts hstart) hext)
  have hlink : ∀ c, Tops C s₂ p (done₁ ++ done₂) c → Linked C H s₂ L₂ G₃ c := fun c hc =>
    linked_of_tops ho hp₂ hentries (haddress ▸ hobj) hc
  refine ⟨haddress, fun c hc => ?_, ?_, ?_, ?_⟩
  · rw [hnew, Set.mem_union, Set.mem_union, Set.mem_singleton_iff, not_or, not_or] at hc
    rw [hstores₂.agree c hc.2.2, hstores₁.agree c hc.2.1, Function.update_of_ne hc.1]
  · rw [hnew, hlen, Set.union_comm (new _ _), ← Set.union_assoc, Set.union_comm {a}]
    exact bijOn_union (hle.trans (Nat.le_succ _)) hlt
      (bijOn_union hle (Nat.le_succ _) hbij₂ (bijOn_singleton_Ico haddress)) hbij₁
  · rw [hnew]
    rintro c (rfl | hc | hc)
    · exact ⟨o, done₁ ++ done₂, ho, hentries, haddress ▸ hobj, hdone⟩
    · exact hfilled₁ c hc
    · exact hfilled₂ c hc
  · rw [hnew]
    rintro c (rfl | hc | hc)
    · exact .inl rfl
    · exact .inr ((hlinked₁ c hc).elim
        (fun h => hlink c (h.mono (List.subset_append_left ..) hw₂.grows)) id)
    · exact .inr ((hlinked₂ c hc).elim
        (fun h => hlink c (h.mono (List.subset_append_right ..) id)) id)

end Assembly

/-- **A table that is come to for the first time**: a place for it is kept, its metatable and its
fields are planned, and the constructor makes it with what is not left empty. -/
theorem Plans.made {plan : PlanState → Place → Ref α → Option (PlanState × Expr)}
    (hplan : Plans v C H plan) (hlit : ∀ {x l}, literal x = some l → C.value l = x)
    (hH : ∀ o ∈ H, (o.pairs.map Prod.fst).Nodup ∧ (keys o).Perm (o.pairs.map Prod.fst))
    {a : ℕ} {p : Path} {o : Object α} {m : Option Expr} {fs : Fields} (ho : H[a]? = some o)
    (ha : s.defined a = none) (hs : s.Wf)
    (hm : planMetatable plan a o.metatable (s.enter a p) = some (s₁, m))
    (hfs : planFields literal C.position plan a o (keys o) 1 s₁ = some (s₂, fs)) :
    Made C H s s₂ p (.table a) (construct fs m) := by
  obtain ⟨hnodup, hkeys⟩ := hH o (List.mem_of_getElem? ho)
  have hw₀ : Walks C s (s.enter a p) [] := .enter ha p
  have hp₀ : (s.enter a p).defined a = some p := s.defined_enter_self a p
  obtain ⟨own₁, done₁, hw₁, hown₁, hperm₁, hdone₁, heval₁⟩ :=
    hplan.metatable hp₀ (hw₀.wf hs) hm
  obtain ⟨own₂, done₂, hw₂, hown₂, hperm₂, hdone₂, heval₂⟩ :=
    hplan.fields hlit (hw₁.grows hp₀) (hw₁.wf (hw₀.wf hs)) hfs
  have hp₂ : s₂.defined a = some p := hw₂.grows (hw₁.grows hp₀)
  -- what is left empty are places of this table, and of ones that are come to inside of it
  have hother : ∀ c, c ≠ a → pending C own₁ c = [] ∧ pending C own₂ c = [] := fun c hc =>
    ⟨pending_eq_nil_of_own hown₁ hc, pending_eq_nil_of_own hown₂ hc⟩
  have hw : Walks C s s₂ [] := by
    refine ((hw₀.trans hw₁).trans hw₂).forget fun c hc => ?_
    have hne : c ≠ a := by
      rintro rfl
      exact hc ha
    rw [pending_append, List.nil_append, (hother c hne).1, (hother c hne).2, List.append_nil]
  have hentries : (done₁ ++ done₂ ++ pending C s₂.late a).Perm (entries o) := by
    have hlate : pending C s₂.late a = pending C own₁ a ++ pending C own₂ a := by
      rw [hw₂.pending (Option.ne_none_iff_exists'.2 ⟨p, hw₁.grows hp₀⟩),
        hw₁.pending (Option.ne_none_iff_exists'.2 ⟨p, hp₀⟩)]
      change pending C s.late a ++ _ ++ _ = _
      rw [hs.pending_eq_nil C ha, List.nil_append]
    rw [hlate]
    exact (perm_append_append ..).trans
      (hperm₁.append (hperm₂.trans (fieldsOf_perm hnodup hkeys)))
  have hmeta : ∀ e ∈ done₁, ∃ b, e = (none, .table b) := by
    intro e he
    obtain ⟨b, -, rfl⟩ := List.mem_map.1 (hperm₁.subset (List.mem_append_left _ he))
    exact ⟨b, rfl⟩
  have hfield : ∀ e ∈ done₂, e.1 ≠ none := by
    intro e he
    obtain ⟨k, -, hk⟩ := List.mem_filterMap.1 (hperm₂.subset (List.mem_append_left _ he))
    obtain ⟨r, -, rfl⟩ := Option.map_eq_some_iff.1 hk
    exact Option.some_ne_none k
  have hdone : EntryAll (fun b => s₂.defined b ≠ none) (done₁ ++ done₂) := fun hmem =>
    (List.mem_append.1 hmem).elim (fun h => hw₂.defined_ne_none (hdone₁ h)) fun h => hdone₂ h
  refine ⟨hw, fun h => Ref.table.inj h ▸ ⟨ha, hp₂⟩, fun G => ?_⟩
  obtain ⟨G₁, fields, hfields, hstart₁, hL₂⟩ := heval₂ G
  obtain ⟨G₂, x, hx, hstart₂, hL₁⟩ := heval₁ (G₁ ++ [⟨fields.filterMap pairOf, none⟩])
  have hkeysNodup : (fields.map Prod.fst).Nodup := by
    obtain ⟨_, ⟨hks, -⟩, -⟩ := hL₂ id
    have hatoms : ((fields.map Prod.fst).map Ref.atom).Nodup := by
      rw [List.map_map]
      exact hks ▸ hkeys.nodup_iff.2 hnodup
    exact hatoms.of_map _
  have hatom : ∀ y, x ≠ some (.atom y) := by
    obtain ⟨_, hvalue, -⟩ := hL₁ id
    exact (hvalue.address hmeta).2
  refine ⟨_, _, evalExpr_construct hfields hkeysNodup hx hstart₂ hatom, ?_, fun L => ?_⟩
  · exact prefix_modify (hstart₁.trans ((List.prefix_append ..).trans hstart₂))
      hstart₁.length_le _
  · obtain ⟨L₁, hvalue, hstores₁⟩ := hL₁ (Function.update L a G₁.length)
    obtain ⟨L₂, ⟨-, hpairs⟩, hstores₂⟩ := hL₂ L₁
    have hself : G₂[G₁.length]? = some (⟨fields.filterMap pairOf, none⟩ : Object α) := by
      obtain ⟨t, rfl⟩ := hstart₂
      rw [List.getElem?_append_left (by simp), List.getElem?_append_right le_rfl, Nat.sub_self]
      rfl
    have hrealize : realize L₂ (done₁ ++ done₂) =
        ⟨fields.filterMap pairOf, x.bind Ref.address?⟩ := by
      have hnone : ∀ e ∈ done₁, e.1 = none := by
        intro e he
        obtain ⟨b, rfl⟩ := hmeta e he
        rfl
      have hsame : realize L₂ done₁ = realize L₁ done₁ :=
        realize_congr fun hmem => hstores₂.agree _ fun hb => hdone₁ hmem hb.1
      rw [realize_append hnone hfield, ← hpairs, (hvalue.address hmeta).1]
      exact congrArg (Object.mk _) (congrArg Object.metatable hsame)
    obtain ⟨hself₃, hsame₃⟩ : (G₂.modify G₁.length fun o =>
        { o with metatable := x.bind Ref.address? })[G₁.length]? =
          some (realize L₂ (done₁ ++ done₂)) ∧
        ∀ y, y ≠ G₁.length → (G₂.modify G₁.length fun o =>
          { o with metatable := x.bind Ref.address? })[y]? = G₂[y]? := by
      constructor
      · rw [List.getElem?_modify, hself, hrealize]
        simp
      · intro y hy
        rw [List.getElem?_modify]
        simp [Ne.symm hy]
    obtain ⟨haddress, hstores⟩ := Stores.table ho ha hw₁ hw₂ (fun c hc => (hother c hc).2)
      (by simpa using hstores₁) hstores₂ hdone hentries hstart₁.length_le
      (List.getElem?_eq_some_iff.1 hself).1 ((List.prefix_append ..).trans hstart₂) hsame₃
      (extends_of_metatable hsame₃ hself (hrealize ▸ hself₃)) (List.length_modify ..) hself₃
    exact ⟨L₂, by rw [Ref.map, haddress], hstores⟩

/-- **Every call of the walk** makes what it comes to. The induction is on the depth of the
recursion. -/
theorem plans_planValue (hlit : ∀ {x l}, literal x = some l → C.value l = x)
    (hH : ∀ o ∈ H, (o.pairs.map Prod.fst).Nodup ∧ (keys o).Perm (o.pairs.map Prod.fst))
    (fuel : ℕ) : Plans v C H (planValue v literal C.position keys H fuel) := by
  have hatom : ∀ {s place x s' e} (fuel : ℕ),
      planValue v literal C.position keys H fuel s place (.atom x) = some (s', e) →
      Made C H s s' (place.path v s) (.atom x) e := by
    intro s place x s' e fuel h
    rw [planValue_atom] at h
    obtain ⟨l, hl, heq⟩ := Option.map_eq_some_iff.1 h
    obtain ⟨rfl, rfl⟩ := Prod.mk.inj heq
    refine ⟨.refl C s, by rintro a ⟨⟩, fun G => ⟨G, .atom x, ?_, List.prefix_rfl, fun L => ?_⟩⟩
    · rw [evalExpr, hlit hl]
    · exact ⟨L, rfl, .of_eq rfl _ G L⟩
  induction fuel with
  | zero =>
    intro s place r s' e _ _ h
    cases r with
    | atom x => exact .inl (hatom 0 h)
    | table a =>
      by_cases ha : s.defined a = none
      · rw [planValue_zero place ha] at h
        cases h
      · rw [planValue_of_defined 0 place ha] at h
        obtain ⟨rfl, rfl⟩ := Prod.mk.inj (Option.some.inj h)
        exact .inr ⟨a, rfl, ha, rfl, rfl⟩
  | succ fuel ih =>
    intro s place r s' e _ hs h
    cases r with
    | atom x => exact .inl (hatom _ h)
    | table a =>
      by_cases ha : s.defined a = none
      · rw [planValue_succ fuel place ha] at h
        obtain ⟨o, ho, h⟩ := Option.bind_eq_some_iff.1 h
        obtain ⟨⟨s₁, m⟩, hm, h⟩ := Option.bind_eq_some_iff.1 h
        obtain ⟨⟨s₂, fs⟩, hfs, h⟩ := Option.bind_eq_some_iff.1 h
        obtain ⟨rfl, rfl⟩ := Prod.mk.inj (Option.some.inj h)
        exact .inl (ih.made hlit hH ho ha hs hm hfs)
      · rw [planValue_of_defined _ place ha] at h
        obtain ⟨rfl, rfl⟩ := Prod.mk.inj (Option.some.inj h)
        exact .inr ⟨a, rfl, ha, rfl, rfl⟩

end Jord.Base
