import Jord.Base.Copy
import Jord.Foundations.Results
import Mathlib.Data.Finset.Card
import Mathlib.Order.Interval.Finset.Nat

/-!
# A run of the copy

What a call of `_copy` preserves, whatever refers to what: the tables that there were are as they
were, and `lookup_table` relates those that have been reached one to one to the new ones (`Inv`). A
copy that has been begun outside of the call is not touched by it, and one that is begun inside is
done at its end (`Progress`). So a table that reaches itself is copied as well.

* `copy_ok` is about calls that return, and `copy_error` about calls that fail: with a level of
  recursion for each table, only on a metatable that cannot be set.
-/

namespace Jord.Base

variable {α : Type} [DecidableEq α] {metatableField : α} {H : Heap α}

/-! ## The state of a copy -/

/-- What holds between two calls: the tables of `H` are as they were, and `lookup_table` relates
them one to one to the new ones. -/
structure Inv (H : Heap α) (s : CopyState α) : Prop where
  old : ∀ a < H.length, s.heap[a]? = H[a]?
  le : H.length ≤ s.heap.length
  range : ∀ {a b}, s.lookupTable a = some b →
    a < H.length ∧ H.length ≤ b ∧ b < s.heap.length
  injective : ∀ {a a' b}, s.lookupTable a = some b → s.lookupTable a' = some b → a = a'
  onto : ∀ b, H.length ≤ b → b < s.heap.length → ∃ a, s.lookupTable a = some b

omit [DecidableEq α] in
theorem inv_initial (H : Heap α) : Inv H ⟨H, fun _ => none⟩ := by
  constructor
  · exact fun _ _ => rfl
  · exact le_rfl
  · rintro a b ⟨⟩
  · rintro a a' b ⟨⟩
  · intro b hle hlt
    exact absurd hlt (Nat.not_lt.2 hle)

/-- The value is copied as another one. -/
inductive Image (lookupTable : ℕ → Option ℕ) : Ref α → Ref α → Prop
  | atom (a : α) : Image lookupTable (.atom a) (.atom a)
  | table {a b : ℕ} (h : lookupTable a = some b) : Image lookupTable (.table a) (.table b)

/-- The pair is copied as another one. -/
def ImagePair (lookupTable : ℕ → Option ℕ) (p p' : Ref α × Ref α) : Prop :=
  Image lookupTable p.1 p'.1 ∧ Image lookupTable p.2 p'.2

/-- The table at `b` is the copy of the one at `a`. -/
def Done (metatableField : α) (H : Heap α) (s : CopyState α) (a b : ℕ) : Prop :=
  H.Settable metatableField a ∧ ∃ o ps, H[a]? = some o ∧
    List.Forall₂ (ImagePair s.lookupTable) o.pairs ps ∧
    s.heap[b]? = some ⟨ps, (H.getmetatable metatableField a).bind Ref.address?⟩

/-- The table for lookup has become larger. -/
def Grows (l l' : ℕ → Option ℕ) : Prop := ∀ {a b}, l a = some b → l' a = some b

section Images

variable {l l' : ℕ → Option ℕ}

omit [DecidableEq α] in
theorem Image.mono (h : Grows l l') {r r' : Ref α} (hr : Image l r r') : Image l' r r' := by
  cases hr with
  | atom a => exact .atom a
  | table hb => exact .table (h hb)

omit [DecidableEq α] in
theorem forall₂_imagePair_mono (h : Grows l l') {ps ps' : List (Ref α × Ref α)}
    (hps : List.Forall₂ (ImagePair l) ps ps') : List.Forall₂ (ImagePair l') ps ps' :=
  hps.imp fun _ _ hp => ⟨hp.1.mono h, hp.2.mono h⟩

omit [DecidableEq α] in
theorem exists_of_mem_copied {ps ps' : List (Ref α × Ref α)}
    (h : List.Forall₂ (ImagePair l) ps ps') {p' : Ref α × Ref α} (hp' : p' ∈ ps') :
    ∃ p ∈ ps, ImagePair l p p' := by
  induction h with
  | nil => cases hp'
  | cons hp _ ih =>
    rcases List.mem_cons.1 hp' with rfl | hp'
    · exact ⟨_, List.mem_cons_self, hp⟩
    · obtain ⟨p, hmem, hp⟩ := ih hp'
      exact ⟨p, List.mem_cons_of_mem _ hmem, hp⟩

omit [DecidableEq α] in
/-- Different values are copied as different values. -/
theorem Inv.image_injective {s : CopyState α} (hs : Inv H s) {r₁ r₂ r : Ref α}
    (h₁ : Image s.lookupTable r₁ r) (h₂ : Image s.lookupTable r₂ r) : r₁ = r₂ := by
  cases h₁ with
  | atom a =>
    cases h₂
    rfl
  | table hb =>
    cases h₂ with
    | table hb' => rw [hs.injective hb hb']

theorem Done.mono {s s' : CopyState α} (hl : Grows s.lookupTable s'.lookupTable) {a b : ℕ}
    (hb : s'.heap[b]? = s.heap[b]?) (h : Done metatableField H s a b) :
    Done metatableField H s' a b := by
  obtain ⟨hset, o, ps, ho, hps, hnew⟩ := h
  exact ⟨hset, o, ps, ho, forall₂_imagePair_mono hl hps, hb.trans hnew⟩

end Images

/-! ## One step after the other -/

/-- From `s` to `s'` no table has been changed but the one at `b` and new ones, and the copies that
have been begun are done, each of a table with the property `R`. -/
structure Progress (metatableField : α) (H : Heap α) (R : ℕ → Prop) (b : ℕ) (s s' : CopyState α) :
    Prop where
  inv : Inv H s'
  grows : Grows s.lookupTable s'.lookupTable
  le : s.heap.length ≤ s'.heap.length
  frame : ∀ c < s.heap.length, c ≠ b → s'.heap[c]? = s.heap[c]?
  new : ∀ {a c}, s'.lookupTable a = some c → s.lookupTable a = some c ∨
    R a ∧ Done metatableField H s' a c

section Steps

variable {R R' : ℕ → Prop} {b : ℕ} {s s' s'' : CopyState α}

theorem Progress.refl (hs : Inv H s) : Progress metatableField H R b s s :=
  ⟨hs, id, le_rfl, fun _ _ _ => rfl, .inl⟩

theorem Progress.mono (h : Progress metatableField H R b s s') (hR : ∀ a, R a → R' a) :
    Progress metatableField H R' b s s' :=
  ⟨h.inv, h.grows, h.le, h.frame, fun ha => (h.new ha).imp_right (And.imp_left (hR _))⟩

/-- A step that changes new tables only leaves every table alone that there is. -/
theorem Progress.outside (h : Progress metatableField H R b s s') (hb : s.heap.length ≤ b) (c : ℕ) :
    Progress metatableField H R c s s' :=
  ⟨h.inv, h.grows, h.le, fun d hd _ => h.frame d hd (by omega), h.new⟩

theorem Progress.trans (hs : Inv H s) (hle : H.length ≤ b) (hlt : b < s.heap.length)
    (h : Progress metatableField H R b s s') (h' : Progress metatableField H R b s' s'') :
    Progress metatableField H R b s s'' := by
  refine ⟨h'.inv, fun ha => h'.grows (h.grows ha), h.le.trans h'.le, fun c hc hne => ?_,
    fun {a c} hac => ?_⟩
  · rw [h'.frame c (hc.trans_le h.le) hne, h.frame c hc hne]
  · rcases h'.new hac with hac' | hnew
    · rcases h.new hac' with hac'' | ⟨hR, hdone⟩
      · exact .inl hac''
      · -- the table at `b` has been begun before
        by_cases hc : c = b
        · obtain ⟨a', ha'⟩ := hs.onto b hle hlt
          rw [hc] at hac'
          rw [h.inv.injective hac' (h.grows ha'), hc]
          exact .inl ha'
        · exact .inr ⟨hR, hdone.mono h'.grows (h'.frame c (h.inv.range hac').2.2 hc)⟩
    · exact .inr hnew

omit [DecidableEq α] in
theorem getElem?_modify (f : Object α → Object α) (c : ℕ) :
    (s.modify b f).heap[c]? = if b = c then s.heap[c]?.map f else s.heap[c]? := by
  rw [CopyState.modify, List.getElem?_modify]
  split_ifs <;> simp

/-- Changing the table at `b`. -/
theorem Progress.modify (hs : Inv H s) (hle : H.length ≤ b) (f : Object α → Object α) :
    Progress metatableField H R b s (s.modify b f) := by
  have hlen : (s.modify b f).heap.length = s.heap.length := List.length_modify ..
  constructor
  · constructor
    · intro a ha
      rw [getElem?_modify, if_neg (by omega), hs.old a ha]
    · exact hs.le.trans hlen.ge
    · intro a c hac
      rw [hlen]
      exact hs.range hac
    · exact hs.injective
    · intro c hc hlt
      exact hs.onto c hc (hlen ▸ hlt)
  · exact id
  · exact hlen.ge
  · intro c _ hne
    rw [getElem?_modify, if_neg (Ne.symm hne)]
  · exact .inl

omit [DecidableEq α] in
/-- A copy is begun. -/
theorem Inv.enter (hs : Inv H s) {a : ℕ} (ha : a < H.length) (hnone : s.lookupTable a = none) :
    Inv H (s.enter a) ∧ Grows s.lookupTable (s.enter a).lookupTable ∧
      (s.enter a).heap.length = s.heap.length + 1 := by
  have hself := s.lookupTable_enter_self a
  have hother : ∀ {a'}, a' ≠ a → (s.enter a).lookupTable a' = s.lookupTable a' :=
    s.lookupTable_enter_of_ne
  have hlen : (s.enter a).heap.length = s.heap.length + 1 := List.length_append
  have hle := hs.le
  refine ⟨⟨?_, ?_, ?_, ?_, ?_⟩, ?_, hlen⟩
  · intro c hc
    rw [CopyState.enter, List.getElem?_append_left (by omega), hs.old c hc]
  · omega
  · intro c d hcd
    by_cases hc : c = a
    · rw [hc, hself, Option.some.injEq] at hcd
      omega
    · rw [hother hc] at hcd
      have := hs.range hcd
      omega
  · intro c c' d hcd hcd'
    by_cases hc : c = a <;> by_cases hc' : c' = a
    · rw [hc, hc']
    · rw [hc, hself, Option.some.injEq] at hcd
      rw [hother hc'] at hcd'
      have := hs.range hcd'
      omega
    · rw [hc', hself, Option.some.injEq] at hcd'
      rw [hother hc] at hcd
      have := hs.range hcd
      omega
    · rw [hother hc] at hcd
      rw [hother hc'] at hcd'
      exact hs.injective hcd hcd'
  · intro d hd hlt
    by_cases hnew : d = s.heap.length
    · exact ⟨a, hnew ▸ hself⟩
    · obtain ⟨c, hc⟩ := hs.onto d hd (by omega)
      refine ⟨c, (hother ?_).trans hc⟩
      rintro rfl
      cases hnone.symm.trans hc
  · intro c d hcd
    rw [hother, hcd]
    rintro rfl
    cases hnone.symm.trans hcd

end Steps

/-! ## The calls -/

/-- What a call of `_copy` that returns has done. -/
def Copies (metatableField : α) (H : Heap α)
    (f : CopyState α → Ref α → Except CopyError (CopyState α × Ref α)) : Prop :=
  ∀ {s r s' r'}, Inv H s → r.Inside H.length → f s r = .ok (s', r') →
    Progress metatableField H (H.Reaches r) s.heap.length s s' ∧ Image s'.lookupTable r r'

/-- **The loop**: the pairs that are left are copied behind those that have been. -/
theorem copyPairs_ok {f : CopyState α → Ref α → Except CopyError (CopyState α × Ref α)}
    (hf : Copies metatableField H f) {R : ℕ → Prop} {b : ℕ} (hb : H.length ≤ b)
    {rest : List (Ref α × Ref α)}
    (hinside : ∀ p ∈ rest, p.1.Inside H.length ∧ p.2.Inside H.length)
    (hR : ∀ p ∈ rest, ∀ a, H.Reaches p.1 a ∨ H.Reaches p.2 a → R a)
    {pre ps : List (Ref α × Ref α)} (hkeys : ((pre ++ rest).map Prod.fst).Nodup)
    {s s' : CopyState α} (hs : Inv H s) (hps : List.Forall₂ (ImagePair s.lookupTable) pre ps)
    (hnew : s.heap[b]? = some ⟨ps, none⟩) (h : copyPairs f b rest s = .ok s') :
    Progress metatableField H R b s s' ∧ ∃ ps', s'.heap[b]? = some ⟨ps', none⟩ ∧
      List.Forall₂ (ImagePair s'.lookupTable) (pre ++ rest) ps' := by
  induction rest generalizing pre ps s with
  | nil =>
    obtain rfl := Except.ok.inj h
    rw [List.append_nil]
    exact ⟨.refl hs, ps, hnew, hps⟩
  | cons p rest ih =>
    obtain ⟨index, value⟩ := p
    obtain ⟨hin, hinside⟩ := List.forall_mem_cons.1 hinside
    obtain ⟨hRp, hR⟩ := List.forall_mem_cons.1 hR
    have hlt : b < s.heap.length := (List.getElem?_eq_some_iff.1 hnew).1
    -- the key and the value are copied
    obtain ⟨⟨s₁, index'⟩, h₁, h⟩ := bind_eq_ok_iff.1 h
    obtain ⟨⟨s₂, value'⟩, h₂, h⟩ := bind_eq_ok_iff.1 h
    obtain ⟨hp₁, hindex⟩ := hf hs hin.1 h₁
    obtain ⟨hp₂, hvalue⟩ := hf hp₁.inv hin.2 h₂
    have hlt₁ := hlt.trans_le hp₁.le
    have hnew₂ : s₂.heap[b]? = some ⟨ps, none⟩ := by
      rw [hp₂.frame b hlt₁ hlt₁.ne, hp₁.frame b hlt hlt.ne, hnew]
    have hpair : ImagePair s₂.lookupTable (index, value) (index', value') :=
      ⟨hindex.mono hp₂.grows, hvalue⟩
    have hps₂ := forall₂_imagePair_mono (fun ha => hp₂.grows (hp₁.grows ha)) hps
    -- the key is a new one, since its original is
    have hfresh : index' ∉ ps.map Prod.fst := by
      intro hmem
      obtain ⟨p', hp', rfl⟩ := List.mem_map.1 hmem
      obtain ⟨q, hq, himage⟩ := exists_of_mem_copied hps₂ hp'
      have heq := hp₂.inv.image_injective himage.1 hpair.1
      rw [List.map_append, List.map_cons] at hkeys
      exact (List.nodup_append.1 hkeys).2.2 q.1 (List.mem_map_of_mem hq) index
        List.mem_cons_self heq
    have hset : (s₂.modify b fun o => o.rawset index' value').heap[b]? =
        some ⟨ps ++ [(index', value')], none⟩ := by
      rw [getElem?_modify, if_pos rfl, hnew₂, Option.map_some, Object.rawset_of_notMem hfresh]
    have hmodify : Progress metatableField H R b s₂
        (s₂.modify b fun o => o.rawset index' value') := .modify hp₂.inv hb _
    have hstep : Progress metatableField H R b s (s₂.modify b fun o => o.rawset index' value') := by
      have hfirst := ((hp₁.outside le_rfl b).mono fun a ha => hRp a (.inl ha)).trans hs hb hlt
        ((hp₂.outside le_rfl b).mono fun a ha => hRp a (.inr ha))
      exact hfirst.trans hs hb hlt hmodify
    rw [show pre ++ (index, value) :: rest = (pre ++ [(index, value)]) ++ rest by simp] at hkeys ⊢
    obtain ⟨hrest, hend⟩ := ih hinside hR hkeys hstep.inv
      (List.rel_append hps₂ (.cons hpair .nil)) hset h
    exact ⟨hstep.trans hs hb hlt hrest, hend⟩

omit [DecidableEq α] in
/-- The pairs of a table whose copy is begun. -/
theorem Inv.pairs_enter {s : CopyState α} (hs : Inv H s) {a : ℕ} {o : Object α}
    (ho : H[a]? = some o) : ((s.heap[a]?).map Object.pairs).getD [] = o.pairs := by
  rw [hs.old a (List.getElem?_eq_some_iff.1 ho).1, ho]
  rfl

/-- The metatable of a table of `H` is what it was. -/
theorem Inv.getmetatable_eq (hH : H.Wf) {s : CopyState α} (hs : Inv H s) {a : ℕ}
    (ha : a < H.length) :
    s.heap.getmetatable metatableField a = H.getmetatable metatableField a := by
  unfold Heap.getmetatable
  rw [hs.old a ha]
  cases ho : H[a]? with
  | none => rfl
  | some o =>
    cases hm : o.metatable with
    | none => simp [hm]
    | some m =>
      have hlt := hH.metatable o (List.mem_of_getElem? ho) m hm
      simp [hm, hs.old m hlt]

omit [DecidableEq α] in
/-- `setmetatable` sets what `getmetatable` returned. -/
theorem setmetatable_eq_ok {s s' : CopyState α} {b : ℕ} {m : Option (Ref α)}
    (h : s.setmetatable b m = .ok s') : (∀ x, m ≠ some (.atom x)) ∧
      s' = s.modify b fun o => { o with metatable := m.bind Ref.address? } := by
  cases m with
  | none =>
    obtain rfl := Except.ok.inj h
    exact ⟨by rintro x ⟨⟩, rfl⟩
  | some r =>
    cases r with
    | atom x => cases h
    | table m =>
      obtain rfl := Except.ok.inj h
      exact ⟨by rintro x ⟨⟩, rfl⟩

/-- The loop over the pairs of a table that has not been copied before. -/
theorem copyPairs_enter (hH : H.Wf)
    {f : CopyState α → Ref α → Except CopyError (CopyState α × Ref α)}
    (hf : Copies metatableField H f) {s s₁ : CopyState α} (hs : Inv H s) {a : ℕ} {o : Object α}
    (ho : H[a]? = some o) (hnone : s.lookupTable a = none)
    (h : copyPairs f s.heap.length o.pairs (s.enter a) = .ok s₁) :
    Progress metatableField H (H.Reaches (.table a)) s.heap.length (s.enter a) s₁ ∧
      ∃ ps, s₁.heap[s.heap.length]? = some ⟨ps, none⟩ ∧
        List.Forall₂ (ImagePair s₁.lookupTable) o.pairs ps := by
  have hmem : o ∈ H := List.mem_of_getElem? ho
  obtain ⟨henter, -, -⟩ := hs.enter (List.getElem?_eq_some_iff.1 ho).1 hnone
  have hnew : (s.enter a).heap[s.heap.length]? = some ⟨[], none⟩ := by
    rw [CopyState.enter, List.getElem?_append_right le_rfl, Nat.sub_self]
    rfl
  have hkeys : (([] ++ o.pairs).map Prod.fst).Nodup := hH.keys o hmem
  exact copyPairs_ok hf hs.le (hH.pairs o hmem)
    (fun p hp c hc => Heap.reaches_of_pair ho hp hc) hkeys henter .nil hnew h

/-- **A table** that has not been copied before: its pairs are copied, and then its metatable is
set. -/
theorem copyTable_ok (hH : H.Wf) {f : CopyState α → Ref α → Except CopyError (CopyState α × Ref α)}
    (hf : Copies metatableField H f) {s s₁ s₂ : CopyState α} (hs : Inv H s) {a : ℕ} {o : Object α}
    (ho : H[a]? = some o) (hnone : s.lookupTable a = none)
    (hpairs : copyPairs f s.heap.length o.pairs (s.enter a) = .ok s₁)
    (hmeta : s₁.setmetatable s.heap.length (s₁.heap.getmetatable metatableField a) = .ok s₂) :
    Progress metatableField H (H.Reaches (.table a)) s.heap.length s s₂ ∧
      s₂.lookupTable a = some s.heap.length := by
  have ha : a < H.length := (List.getElem?_eq_some_iff.1 ho).1
  obtain ⟨-, hgrows, hlen⟩ := hs.enter ha hnone
  obtain ⟨hp, ps, hps, hcopied⟩ := copyPairs_enter hH hf hs ho hnone hpairs
  rw [hp.inv.getmetatable_eq hH ha] at hmeta
  obtain ⟨hset, hs₂⟩ := setmetatable_eq_ok hmeta
  have hlast : Progress metatableField H (H.Reaches (.table a)) s.heap.length s₁ s₂ :=
    hs₂ ▸ .modify hp.inv hs.le _
  subst hs₂
  have hlook := hp.grows (s.lookupTable_enter_self a)
  refine ⟨⟨hlast.inv, fun h => hp.grows (hgrows h), ?_, fun c hc hne => ?_, fun {a' c} hac => ?_⟩,
    hlook⟩
  · have := hp.le.trans hlast.le
    omega
  · rw [hlast.frame c (by have := hp.le; omega) hne, hp.frame c (by omega) hne, CopyState.enter,
      List.getElem?_append_left hc]
  · have hac₁ : s₁.lookupTable a' = some c := hac
    by_cases hc : c = s.heap.length
    · -- the table itself
      rw [hc] at hac₁ ⊢
      obtain rfl : a' = a := hp.inv.injective hac₁ hlook
      refine .inr ⟨Heap.reaches_self H a', hset, o, ps, ho, hcopied, ?_⟩
      rw [getElem?_modify, if_pos rfl, hps, Option.map_some]
    · have hne : a' ≠ a := by
        rintro rfl
        exact hc (Option.some.inj (hac₁.symm.trans hlook))
      rcases hp.new hac₁ with hold | ⟨hR, hdone⟩
      · rw [s.lookupTable_enter_of_ne hne] at hold
        exact .inl hold
      · exact .inr ⟨hR, hdone.mono hlast.grows (hlast.frame c (hp.inv.range hac₁).2.2 hc)⟩

/-- **A call of `_copy`** that returns has copied what the value reaches and has not been copied
before. The induction is on the depth of the recursion. -/
theorem copy_ok (hH : H.Wf) (fuel : ℕ) : Copies metatableField H (copy metatableField fuel) := by
  induction fuel with
  | zero =>
    intro s r s' r' hs hr h
    cases r with
    | atom x =>
      rw [copy_atom] at h
      obtain ⟨rfl, rfl⟩ := Prod.mk.inj (Except.ok.inj h)
      exact ⟨.refl hs, .atom x⟩
    | table a =>
      cases hl : s.lookupTable a with
      | none =>
        rw [copy_zero_of_none hl] at h
        cases h
      | some b =>
        rw [copy_of_some 0 hl] at h
        obtain ⟨rfl, rfl⟩ := Prod.mk.inj (Except.ok.inj h)
        exact ⟨.refl hs, .table hl⟩
  | succ fuel ih =>
    intro s r s' r' hs hr h
    cases r with
    | atom x =>
      rw [copy_atom] at h
      obtain ⟨rfl, rfl⟩ := Prod.mk.inj (Except.ok.inj h)
      exact ⟨.refl hs, .atom x⟩
    | table a =>
      cases hl : s.lookupTable a with
      | some b =>
        rw [copy_of_some _ hl] at h
        obtain ⟨rfl, rfl⟩ := Prod.mk.inj (Except.ok.inj h)
        exact ⟨.refl hs, .table hl⟩
      | none =>
        have ho : H[a]? = some H[a] := List.getElem?_eq_getElem hr
        rw [copy_succ_of_none _ hl, hs.pairs_enter ho] at h
        obtain ⟨s₁, hpairs, h⟩ := bind_eq_ok_iff.1 h
        obtain ⟨s₂, hmeta, h⟩ := bind_eq_ok_iff.1 h
        obtain ⟨rfl, rfl⟩ := Prod.mk.inj (Except.ok.inj h)
        obtain ⟨hprogress, hlook⟩ := copyTable_ok hH ih hs ho hl hpairs hmeta
        exact ⟨hprogress, .table hlook⟩

/-! ## Failure -/

/-- The tables of `H` that have not been copied. -/
def unvisited (H : Heap α) (s : CopyState α) : ℕ :=
  ((Finset.range H.length).filter fun a => s.lookupTable a = none).card

omit [DecidableEq α] in
theorem unvisited_le {s s' : CopyState α} (h : Grows s.lookupTable s'.lookupTable) :
    unvisited H s' ≤ unvisited H s := by
  apply Finset.card_le_card
  intro a ha
  rw [Finset.mem_filter] at ha ⊢
  refine ⟨ha.1, ?_⟩
  cases hl : s.lookupTable a with
  | none => rfl
  | some b => cases ha.2.symm.trans (h hl)

omit [DecidableEq α] in
theorem unvisited_enter {s : CopyState α} (hs : Inv H s) {a : ℕ} (ha : a < H.length)
    (hnone : s.lookupTable a = none) : unvisited H (s.enter a) < unvisited H s := by
  apply Finset.card_lt_card
  refine ⟨?_, fun hsub => ?_⟩
  · intro c hc
    rw [Finset.mem_filter] at hc ⊢
    refine ⟨hc.1, ?_⟩
    cases hl : s.lookupTable c with
    | none => rfl
    | some b => cases hc.2.symm.trans ((hs.enter ha hnone).2.1 hl)
  · have hmem := hsub (Finset.mem_filter.2 ⟨Finset.mem_range.2 ha, hnone⟩)
    rw [Finset.mem_filter, s.lookupTable_enter_self] at hmem
    cases hmem.2

/-- What the error of a call says: there is a metatable that cannot be set. -/
def Blames (metatableField : α) (H : Heap α) (R : ℕ → Prop) (e : CopyError) : Prop :=
  e = .tableExpected ∧ ∃ a, R a ∧ ¬ H.Settable metatableField a

/-- The errors of calls with at most `n` tables left. -/
def Fails (metatableField : α) (H : Heap α) (n : ℕ)
    (f : CopyState α → Ref α → Except CopyError (CopyState α × Ref α)) : Prop :=
  ∀ {s r e}, Inv H s → r.Inside H.length → unvisited H s ≤ n → f s r = .error e →
    Blames metatableField H (H.Reaches r) e

theorem copyPairs_error {f : CopyState α → Ref α → Except CopyError (CopyState α × Ref α)} {n : ℕ}
    (hf : Copies metatableField H f) (hfail : Fails metatableField H n f) {b : ℕ}
    (hb : H.length ≤ b) {R : ℕ → Prop} {rest : List (Ref α × Ref α)}
    (hinside : ∀ p ∈ rest, p.1.Inside H.length ∧ p.2.Inside H.length)
    (hR : ∀ p ∈ rest, ∀ a, H.Reaches p.1 a ∨ H.Reaches p.2 a → R a) {s : CopyState α} (hs : Inv H s)
    (hn : unvisited H s ≤ n) {e : CopyError} (h : copyPairs f b rest s = .error e) :
    Blames metatableField H R e := by
  induction rest generalizing s with
  | nil => cases h
  | cons p rest ih =>
    obtain ⟨index, value⟩ := p
    obtain ⟨hin, hinside⟩ := List.forall_mem_cons.1 hinside
    obtain ⟨hRp, hR⟩ := List.forall_mem_cons.1 hR
    rcases bind_eq_error_iff.1 h with h | ⟨⟨s₁, index'⟩, h₁, h⟩
    · obtain ⟨he, a, ha, hset⟩ := hfail hs hin.1 hn h
      exact ⟨he, a, hRp a (.inl ha), hset⟩
    · obtain ⟨hp₁, -⟩ := hf hs hin.1 h₁
      have hn₁ := (unvisited_le hp₁.grows).trans hn
      rcases bind_eq_error_iff.1 h with h | ⟨⟨s₂, value'⟩, h₂, h⟩
      · obtain ⟨he, a, ha, hset⟩ := hfail hp₁.inv hin.2 hn₁ h
        exact ⟨he, a, hRp a (.inr ha), hset⟩
      · obtain ⟨hp₂, -⟩ := hf hp₁.inv hin.2 h₂
        have hmodify : Progress metatableField H R b s₂
            (s₂.modify b fun o => o.rawset index' value') := .modify hp₂.inv hb _
        exact ih hinside hR hmodify.inv ((unvisited_le hp₂.grows).trans hn₁) h

omit [DecidableEq α] in
theorem setmetatable_eq_error {s : CopyState α} {b : ℕ} {m : Option (Ref α)} {e : CopyError}
    (h : s.setmetatable b m = .error e) : e = .tableExpected ∧ ∃ x, m = some (.atom x) := by
  cases m with
  | none => cases h
  | some r =>
    cases r with
    | atom x => exact ⟨(Except.error.inj h).symm, x, rfl⟩
    | table m => cases h

/-- **A call of `_copy`** that fails, with one level of recursion for each table that has not been
copied. -/
theorem copy_error (hH : H.Wf) (fuel : ℕ) :
    Fails metatableField H fuel (copy metatableField fuel) := by
  induction fuel with
  | zero =>
    intro s r e hs hr hn h
    cases r with
    | atom x =>
      rw [copy_atom] at h
      cases h
    | table a =>
      cases hl : s.lookupTable a with
      | none =>
        have hpos : 0 < unvisited H s := Nat.zero_le _ |>.trans_lt (unvisited_enter hs hr hl)
        omega
      | some b =>
        rw [copy_of_some 0 hl] at h
        cases h
  | succ fuel ih =>
    intro s r e hs hr hn h
    cases r with
    | atom x =>
      rw [copy_atom] at h
      cases h
    | table a =>
      cases hl : s.lookupTable a with
      | some b =>
        rw [copy_of_some _ hl] at h
        cases h
      | none =>
        have ho : H[a]? = some H[a] := List.getElem?_eq_getElem hr
        have hlt := unvisited_enter hs hr hl
        obtain ⟨henter, -, -⟩ := hs.enter hr hl
        rw [copy_succ_of_none _ hl, hs.pairs_enter ho] at h
        rcases bind_eq_error_iff.1 h with h | ⟨s₁, hpairs, h⟩
        · exact copyPairs_error (copy_ok hH fuel) ih hs.le (hH.pairs _ (List.getElem_mem hr))
            (fun p hp c hc => Heap.reaches_of_pair ho hp hc) henter (by omega) h
        · obtain ⟨hp, -⟩ := copyPairs_enter hH (copy_ok hH fuel) hs ho hl hpairs
          rcases bind_eq_error_iff.1 h with h | ⟨s₂, hmeta, h⟩
          · rw [hp.inv.getmetatable_eq hH hr] at h
            obtain ⟨he, x, hx⟩ := setmetatable_eq_error h
            exact ⟨he, a, Heap.reaches_self H a, fun hset => hset x hx⟩
          · cases h

end Jord.Base
