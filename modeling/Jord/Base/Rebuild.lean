import Jord.Base.Constructed

/-!
# A planned chunk rebuilds the tables

The statements behind the constructors fill the places that have been left empty, one after the
other: every path leads to the table that it is kept for, since the constructors hold the tables
there, and since nothing that is there is changed (`Running`). What the chunk returns is the value
that it has been planned for, with other addresses (`rebuilt_of_planChunk`).
-/

namespace Jord.Base

open LuaChunk (Literal Expr Fields Path Stmt Chunk)

variable {α : Type}

/-- The table is reached from the value, by values and by metatables. -/
def Reached (H : Heap α) (r : Ref α) (a : ℕ) : Prop :=
  ∃ b, r = .table b ∧ Relation.ReflTransGen (Leads H) b a

/-- **The value again**: the value `r'` in `G'` is the value `r` in `H` with the addresses `f`, and
the tables of `G'` that are not in `G` are the ones that `r` reaches. -/
structure Rebuilt (H : Heap α) (r : Ref α) (G G' : Heap α) (r' : Ref α) (f : ℕ → ℕ) : Prop where
  old : G <+: G'
  root : r' = r.map f
  bijOn : Set.BijOn f { a | Reached H r a } (Set.Ico G.length G'.length)
  object : ∀ {a}, Reached H r a → ∃ o o', H[a]? = some o ∧ G'[f a]? = some o' ∧
    o'.metatable = o.metatable.map f ∧ o'.pairs.Perm (o.pairs.map (Prod.map id (Ref.map f)))

variable [DecidableEq α] {C : Constants α} {H : Heap α} {v : Str} {s : PlanState} {r : Ref α}
  {L : ℕ → ℕ} {G G' : Heap α}

/-! ## The entries of a table -/

omit [DecidableEq α] in
theorem entries_nodup {o : Object α} (h : (o.pairs.map Prod.fst).Nodup) :
    ((entries o).map Prod.fst).Nodup := by
  have hpairs : (o.pairs.map fun p => some p.1).Nodup := by
    have := h.map (Option.some_injective (Ref α))
    rwa [List.map_map] at this
  rw [entries, List.map_append, List.map_map, List.map_map]
  refine List.nodup_append.2 ⟨?_, hpairs, ?_⟩
  · cases o.metatable <;> simp
  · intro k hk k' hk'
    obtain ⟨m, -, rfl⟩ := List.mem_map.1 hk
    obtain ⟨p, -, rfl⟩ := List.mem_map.1 hk'
    simp

omit [DecidableEq α] in
theorem mem_keys_realize {es : List (Option (Ref α) × Ref α)} {k : Ref α} :
    k ∈ (realize L es).pairs.map Prod.fst ↔ some k ∈ es.map Prod.fst := by
  simp only [realize, List.mem_map, List.mem_filterMap, pairAt, Option.map_eq_some_iff]
  constructor
  · rintro ⟨p, ⟨e, he, k', hk', rfl⟩, rfl⟩
    exact ⟨e, he, hk'⟩
  · rintro ⟨e, he, hk⟩
    exact ⟨_, ⟨e, he, k, hk, rfl⟩, rfl⟩

omit [DecidableEq α] in
theorem nodup_keys_realize {es : List (Option (Ref α) × Ref α)} (h : (es.map Prod.fst).Nodup) :
    ((realize L es).pairs.map Prod.fst).Nodup := by
  have hkeys : (realize L es).pairs.map Prod.fst = (es.map Prod.fst).filterMap id := by
    rw [realize, List.map_filterMap, List.filterMap_map]
    apply List.filterMap_congr
    rintro ⟨_ | k, r⟩ _ <;> rfl
  rw [hkeys]
  refine h.filterMap fun k k' b hb hb' => ?_
  rw [id, Option.mem_def] at hb hb'
  rw [hb, hb']

section Entries

variable {o : Object α} {done es : List (Option (Ref α) × Ref α)}

omit [DecidableEq α] in
theorem nodup_of_perm_entries (hnodup : (o.pairs.map Prod.fst).Nodup)
    (h : (done ++ es).Perm (entries o)) : ((done ++ es).map Prod.fst).Nodup :=
  (h.map Prod.fst).nodup_iff.2 (entries_nodup hnodup)

/-- The keys of a table that has been made are keys of the original. -/
theorem rawget_realize_eq_none (h : (done ++ es).Perm (entries o)) {k : Ref α}
    (hk : o.rawget k = none) : (realize L done).rawget k = none := by
  rw [Object.rawget_eq_none_iff] at hk ⊢
  rw [mem_keys_realize]
  intro hmem
  obtain ⟨e, he, heq⟩ := List.mem_map.1 hmem
  rcases List.mem_append.1 (h.subset (List.mem_append_left es he)) with he | he
  · obtain ⟨m, -, rfl⟩ := List.mem_map.1 he
    cases heq
  · obtain ⟨p, hp, rfl⟩ := List.mem_map.1 he
    obtain rfl := Option.some.inj heq
    exact hk (List.mem_map_of_mem hp)

omit [DecidableEq α] in
/-- The metatable of a table that has been made is the one of the original. -/
theorem metatable_realize (h : (done ++ es).Perm (entries o)) {y : ℕ}
    (hy : (realize L done).metatable = some y) : ∃ m, o.metatable = some m ∧ y = L m := by
  obtain ⟨m, hm, rfl⟩ := Option.map_eq_some_iff.1 hy
  refine ⟨m, ?_, rfl⟩
  have hmem : m ∈ (entries o).filterMap metaOf := by
    obtain ⟨e, he, hmeta⟩ := List.mem_filterMap.1 (List.mem_of_mem_head? (Option.mem_def.2 hm))
    exact List.mem_filterMap.2 ⟨e, h.subset (List.mem_append_left es he), hmeta⟩
  rw [filterMap_metaOf_entries] at hmem
  simpa using hmem

omit [DecidableEq α] in
/-- More entries. -/
theorem realize_append_extends (es es' : List (Option (Ref α) × Ref α)) :
    (realize L es).pairs ⊆ (realize L (es ++ es')).pairs ∧
      ∀ m, (realize L es).metatable = some m → (realize L (es ++ es')).metatable = some m := by
  constructor
  · rw [realize, realize, List.filterMap_append]
    exact List.subset_append_left ..
  · intro m hm
    obtain ⟨b, hb, rfl⟩ := Option.map_eq_some_iff.1 hm
    simp [realize, List.filterMap_append, List.head?_append, hb]

/-- A field that is filled in. -/
theorem rawset_realize {k r : Ref α} (h : some k ∉ done.map Prod.fst) :
    (realize L done).rawset k (r.map L) = realize L (done ++ [(some k, r)]) := by
  rw [Object.rawset_of_notMem (fun hmem => h (mem_keys_realize.1 hmem))]
  simp [realize, pairAt, metaOf]

omit [DecidableEq α] in
/-- A metatable that is set. -/
theorem realize_metatable {b : ℕ} (h : none ∉ done.map Prod.fst) :
    { realize L done with metatable := some (L b) } =
      realize L (done ++ [(none, .table b)]) := by
  have hnone : done.filterMap metaOf = [] := by
    rw [List.filterMap_eq_nil_iff]
    rintro ⟨_ | k, r⟩ he
    · exact absurd (List.mem_map_of_mem he) h
    · rfl
  simp [realize, pairAt, metaOf, hnone, Ref.address?]

end Entries

omit [DecidableEq α] in
theorem modify_eq_set {x : ℕ} {o : Object α} (ho : G[x]? = some o) (f : Object α → Object α) :
    G.modify x f = G.set x (f o) := by
  apply List.ext_getElem?
  intro y
  rw [List.getElem?_modify, List.getElem?_set]
  by_cases hy : x = y
  · subst hy
    obtain ⟨hlt, rfl⟩ := List.getElem?_eq_some_iff.1 ho
    simp [hlt]
  · simp [hy]

/-! ## Tables with empty places -/

/-- The statements for the places `todo` are still to come: the table `a` has been made, less its
places among these. -/
def Waiting (C : Constants α) (H : Heap α) (L : ℕ → ℕ) (todo : List (Place × ℕ)) (G : Heap α)
    (a : ℕ) : Prop :=
  ∃ o done, H[a]? = some o ∧ (done ++ pending C todo a).Perm (entries o) ∧
    G[L a]? = some (realize L done)

/-- The tables that the walk has come to are made at different addresses, less the places `todo`,
and they are held at their paths. No metatable has a field that is in the way. -/
structure Running (C : Constants α) (H : Heap α) (v : Str) (r : Ref α) (s : PlanState) (L : ℕ → ℕ)
    (todo : List (Place × ℕ)) (G : Heap α) : Prop where
  nodup : ∀ o ∈ H, (o.pairs.map Prod.fst).Nodup
  closed : ∀ {a b}, s.defined a ≠ none → Leads H a b → s.defined b ≠ none
  plain : ∀ {a}, s.defined a ≠ none → H.metafield a (C.field "__metatable") = none ∧
    H.metafield a (C.field "__newindex") = none
  injOn : Set.InjOn L { a | s.defined a ≠ none }
  waiting : ∀ {a}, s.defined a ≠ none → Waiting C H L todo G a
  linked : ∀ {a}, s.defined a ≠ none →
    (r = .table a ∧ s.defined a = some (.var v)) ∨ Linked C H s L G a

omit [DecidableEq α] in
/-- What the walk has come to is reached. The induction is on the path. -/
theorem reached_of_linked (h : ∀ {a}, s.defined a ≠ none →
      (r = .table a ∧ s.defined a = some (.var v)) ∨ Linked C H s L G a)
    {p : Path} {a : ℕ} (hp : s.defined a = some p) : Reached H r a := by
  induction p generalizing a with
  | var w =>
    rcases h (hp ▸ Option.some_ne_none _) with ⟨hr, -⟩ | ⟨b, _ | l, q, -, ha, -⟩
    · exact ⟨a, hr, .refl⟩
    · cases hp.symm.trans ha
    · cases hp.symm.trans ha
  | field p l ih =>
    rcases h (hp ▸ Option.some_ne_none _) with ⟨hr, -⟩ | ⟨b, _ | l', q, hb, ha, hleads, -⟩
    · exact ⟨a, hr, .refl⟩
    · cases hp.symm.trans ha
    · obtain ⟨rfl, -⟩ := Path.field.inj (Option.some.inj (hp.symm.trans ha))
      obtain ⟨c, hr, hpath⟩ := ih hb
      exact ⟨c, hr, hpath.tail hleads⟩
  | metatable p ih =>
    rcases h (hp ▸ Option.some_ne_none _) with ⟨hr, -⟩ | ⟨b, _ | l', q, hb, ha, hleads, -⟩
    · exact ⟨a, hr, .refl⟩
    · obtain rfl := Path.metatable.inj (Option.some.inj (hp.symm.trans ha))
      obtain ⟨c, hr, hpath⟩ := ih hb
      exact ⟨c, hr, hpath.tail hleads⟩
    · cases hp.symm.trans ha

namespace Running

variable {todo : List (Place × ℕ)} {a b : ℕ} {key : Option Literal}

/-- A metamethod that no table has. -/
theorem metafield_eq_none (h : Running C H v r s L todo G) {k : Ref α}
    (ha : s.defined a ≠ none) (hk : H.metafield a k = none) : G.metafield (L a) k = none := by
  obtain ⟨o, done, ho, hperm, hobj⟩ := h.waiting ha
  cases hm : (realize L done).metatable with
  | none => simp [Heap.metafield, hobj, hm]
  | some y =>
    obtain ⟨m, hmeta, rfl⟩ := metatable_realize hperm hm
    have hleads : Leads H a m := ⟨o, ho, none, List.mem_append_left _ (by simp [hmeta])⟩
    obtain ⟨om, done', hom, hperm', hobj'⟩ := h.waiting (h.closed ha hleads)
    have hnone : om.rawget k = none := by
      simpa [Heap.metafield, ho, hmeta, hom] using hk
    simp [Heap.metafield, hobj, hm, hobj', rawget_realize_eq_none hperm' hnone]

/-- **A path leads to the table** that it is kept for. The induction is on the path. -/
theorem evalPath (h : Running C H v r s L todo G) {p : Path} (hp : s.defined a = some p) :
    evalPath C v (some (r.map L)) G p = some (some (.table (L a))) := by
  have hstep : ∀ {p a}, s.defined a = some p →
      (p = .var v ∧ Base.evalPath C v (some (r.map L)) G p = some (some (.table (L a)))) ∨
      ∃ b key q, s.defined b = some q ∧ p = step q key ∧ Holds C G (L b) key (L a) := by
    intro p a hp
    rcases h.linked (hp ▸ Option.some_ne_none p) with ⟨rfl, hroot⟩ | ⟨b, key, q, hb, ha, -, hholds⟩
    · obtain rfl := Option.some.inj (hp.symm.trans hroot)
      exact .inl ⟨rfl, if_pos rfl⟩
    · obtain rfl := Option.some.inj (hp.symm.trans ha)
      exact .inr ⟨b, key, q, hb, rfl, hholds⟩
  induction p generalizing a with
  | var w =>
    rcases hstep hp with ⟨-, heval⟩ | ⟨b, _ | l, q, -, hq, -⟩
    · exact heval
    · cases hq
    · cases hq
  | field p l ih =>
    obtain ⟨hvar, -⟩ | ⟨b, _ | l', q, hb, hq, o, ho, hmem⟩ := hstep hp
    · cases hvar
    · cases hq
    · obtain ⟨rfl, rfl⟩ := Path.field.inj hq
      obtain ⟨ob, done, hob, hperm, hobj⟩ := h.waiting (hb ▸ Option.some_ne_none _)
      obtain rfl := Option.some.inj (ho.symm.trans hobj)
      have hnodup := (nodup_of_perm_entries (h.nodup ob (List.mem_of_getElem? hob)) hperm)
      rw [List.map_append] at hnodup
      have hget := Object.rawget_of_mem (nodup_keys_realize hnodup.of_append_left) hmem
      simp [Base.evalPath, ih hb, Heap.index, hobj, hget]
  | metatable p ih =>
    obtain ⟨hvar, -⟩ | ⟨b, _ | l', q, hb, hq, o, ho, hmeta⟩ := hstep hp
    · cases hvar
    · obtain rfl := Path.metatable.inj hq
      obtain ⟨oa, done, -, -, hobj⟩ := h.waiting (hp ▸ Option.some_ne_none _)
      have hfree := h.metafield_eq_none (a := b) (hb ▸ Option.some_ne_none _)
        (h.plain (hb ▸ Option.some_ne_none _)).1
      simp [Base.evalPath, ih hb, Heap.metatableOf, Heap.getmetatable_of_free ho hmeta hobj hfree]
    · cases hq

/-- An entry is filled in. -/
theorem fill (h : Running C H v r s L ((.slot a key, b) :: todo) G) (ha : s.defined a ≠ none) :
    ∃ done, G[L a]? = some (realize L done) ∧ entryKey C key ∉ done.map Prod.fst ∧
      Running C H v r s L todo
        (G.set (L a) (realize L (done ++ [(entryKey C key, .table b)]))) := by
  obtain ⟨o, done, ho, hperm, hobj⟩ := h.waiting ha
  have hpending : pending C ((.slot a key, b) :: todo) a =
      (entryKey C key, .table b) :: pending C todo a := by
    simp [pending, entryAt, entryKey]
  rw [hpending] at hperm
  have hnodup := nodup_of_perm_entries (h.nodup o (List.mem_of_getElem? ho)) hperm
  have hfresh : entryKey C key ∉ done.map Prod.fst := by
    rw [List.map_append, List.map_cons] at hnodup
    intro hmem
    exact (List.nodup_append.1 hnodup).2.2 _ hmem _ List.mem_cons_self rfl
  have hlt : L a < G.length := (List.getElem?_eq_some_iff.1 hobj).1
  refine ⟨done, hobj, hfresh, h.nodup, h.closed, h.plain, h.injOn,
    fun {c} hc => ?_, fun {c} hc => ?_⟩
  · by_cases hca : c = a
    · subst hca
      refine ⟨o, done ++ [(entryKey C key, .table b)], ho, ?_, List.getElem?_set_self hlt⟩
      rwa [List.append_assoc, List.singleton_append]
    · obtain ⟨oc, done', hoc, hperm', hobj'⟩ := h.waiting hc
      have hne : L a ≠ L c := fun heq => hca (h.injOn hc ha heq.symm)
      have hsame : pending C ((.slot a key, b) :: todo) c = pending C todo c := by
        simp [pending, entryAt, Ne.symm hca]
      exact ⟨oc, done', hoc, hsame ▸ hperm', by rwa [List.getElem?_set_ne hne]⟩
  · refine (h.linked hc).imp_right fun hlink => hlink.later (.refl C s) (fun _ _ => rfl) ?_
    intro x o' ho'
    by_cases hx : L a = x
    · subst hx
      obtain rfl := Option.some.inj (hobj.symm.trans ho')
      exact ⟨_, List.getElem?_set_self hlt, realize_append_extends ..⟩
    · exact ⟨o', by rwa [List.getElem?_set_ne hx], List.Subset.refl _, fun _ => id⟩

/-- **A statement** fills the place that it is for. -/
theorem runStmt (h : Running C H v r s L ((.slot a key, b) :: todo) G) (ha : s.defined a ≠ none)
    (hb : s.defined b ≠ none) : ∃ st o, s.stmt v (.slot a key, b) = some st ∧
      Base.runStmt C v (some (r.map L)) G st = some (G.set (L a) o) ∧
      Running C H v r s L todo (G.set (L a) o) := by
  obtain ⟨done, hobj, hfresh, hrun⟩ := h.fill ha
  obtain ⟨p, hp⟩ := Option.ne_none_iff_exists'.1 ha
  obtain ⟨q, hq⟩ := Option.ne_none_iff_exists'.1 hb
  have hpa : s.path v a = p := by rw [PlanState.path, hp, Option.getD_some]
  have hqb : s.path v b = q := by rw [PlanState.path, hq, Option.getD_some]
  cases key with
  | some l =>
    refine ⟨.assign p l q, _, by rw [PlanState.stmt, hpa, hqb], ?_, hrun⟩
    have hfree := h.metafield_eq_none ha (h.plain ha).2
    have hset := rawset_realize (L := L) (r := .table b) hfresh
    simp only [Base.runStmt, h.evalPath hp, h.evalPath hq, Option.bind_eq_bind, Option.bind_some,
      Heap.newindex_of_free hfree]
    rw [modify_eq_set hobj]
    exact congrArg some (congrArg _ hset)
  | none =>
    refine ⟨.setmetatable p q, _, by rw [PlanState.stmt, hpa, hqb], ?_, hrun⟩
    have hfree := h.metafield_eq_none ha (h.plain ha).1
    simp only [Base.runStmt, h.evalPath hp, h.evalPath hq, Option.bind_eq_bind, Option.bind_some]
    rw [Heap.setmetatable_of_free hfree (by simp), modify_eq_set hobj]
    exact congrArg some (congrArg _ (realize_metatable hfresh))

theorem of_root (h : Running C H v r s L ((.root, b) :: todo) G) : Running C H v r s L todo G :=
  ⟨h.nodup, h.closed, h.plain, h.injOn, h.waiting, h.linked⟩

/-- **The statements one after the other** fill all places, and change no table but the ones that
the walk has come to. The induction is on the places that are left. -/
theorem runBody {G₀ : Heap α} (h : Running C H v r s L todo G)
    (hplaces : ∀ {a key b}, (Place.slot a key, b) ∈ todo → s.defined a ≠ none ∧ s.defined b ≠ none)
    (hstart : G₀ <+: G) (hL : ∀ {a}, s.defined a ≠ none → G₀.length ≤ L a) :
    ∃ G', runBody C v (some (r.map L)) (todo.filterMap (s.stmt v)) G = some G' ∧
      G'.length = G.length ∧ G₀ <+: G' ∧ Running C H v r s L [] G' := by
  induction todo generalizing G with
  | nil => exact ⟨G, rfl, rfl, hstart, h⟩
  | cons x todo ih =>
    have hplaces' : ∀ {a key b}, (Place.slot a key, b) ∈ todo →
        s.defined a ≠ none ∧ s.defined b ≠ none := fun hmem => hplaces (List.mem_cons_of_mem _ hmem)
    obtain ⟨_ | ⟨a, key⟩, b⟩ := x
    · exact ih h.of_root hplaces' hstart
    · obtain ⟨ha, hb⟩ := hplaces List.mem_cons_self
      obtain ⟨st, o, hst, hrun, hnext⟩ := h.runStmt ha hb
      have hset : G₀ <+: G.set (L a) o := by
        rw [List.prefix_iff_getElem?] at hstart ⊢
        intro x hx
        have hne : L a ≠ x := (hx.trans_le (hL ha)).ne'
        rw [List.getElem?_set_ne hne, hstart x hx]
      obtain ⟨G', hbody, hlen, hstart', hdone⟩ := ih hnext hplaces' hset
      refine ⟨G', ?_, hlen.trans List.length_set, hstart', hdone⟩
      rw [List.filterMap_cons_some hst, Base.runBody, hrun, Option.bind_some, hbody]

/-- **When no place is left empty** the tables are the ones that the value reaches. -/
theorem rebuilt {G₀ : Heap α} (h : Running C H v r s L [] G) (hstart : G₀ <+: G)
    (hr : ∀ a, r = .table a → s.defined a ≠ none)
    (hbij : Set.BijOn L { a | s.defined a ≠ none } (Set.Ico G₀.length G.length)) :
    Rebuilt H r G₀ G (r.map L) L := by
  have hiff : ∀ a, Reached H r a ↔ s.defined a ≠ none := by
    intro a
    constructor
    · rintro ⟨b, hb, hpath⟩
      induction hpath with
      | refl => exact hr b hb
      | tail _ hleads ih => exact h.closed ih hleads
    · intro ha
      obtain ⟨p, hp⟩ := Option.ne_none_iff_exists'.1 ha
      exact reached_of_linked h.linked hp
  refine ⟨hstart, rfl, ?_, fun {a} ha => ?_⟩
  · rwa [show { a | Reached H r a } = { a | s.defined a ≠ none } from Set.ext hiff]
  · obtain ⟨o, done, ho, hperm, hobj⟩ := h.waiting ((hiff a).1 ha)
    have hdone : done.Perm (entries o) := by simpa [pending] using hperm
    refine ⟨o, _, ho, hobj, ?_, ?_⟩
    · have hmeta := hdone.filterMap metaOf
      rw [filterMap_metaOf_entries] at hmeta
      cases hm : o.metatable with
      | none =>
        rw [hm] at hmeta
        simp [realize, hmeta.eq_nil]
      | some m =>
        rw [hm] at hmeta
        have hone : done.filterMap metaOf = [m] := List.perm_singleton.1 hmeta
        simp [realize, hone]
    · refine (hdone.filterMap (pairAt L)).trans (.of_eq ?_)
      have hnone : (o.metatable.toList.map fun m => (none, (Ref.table m : Ref α))).filterMap
          (pairAt L) = [] := by
        cases o.metatable <;> rfl
      rw [entries, List.filterMap_append, hnone, List.nil_append, List.filterMap_map,
        ← List.filterMap_eq_map']
      rfl

end Running

/-! ## The chunk -/

/-- No metatable that the value reaches has a field that is in the way of assignments, or of
`setmetatable` and `getmetatable`. -/
def Plain (C : Constants α) (H : Heap α) (r : Ref α) : Prop :=
  ∀ a, Reached H r a → H.metafield a (C.field "__metatable") = none ∧
    H.metafield a (C.field "__newindex") = none

variable {literal : α → Option Literal} {keys : Object α → List (Ref α)}

/-- **A planned chunk rebuilds the value**, on whatever heap it is run. -/
theorem rebuilt_of_planChunk (hlit : ∀ {x l}, literal x = some l → C.value l = x)
    (hH : ∀ o ∈ H, (o.pairs.map Prod.fst).Nodup ∧ (keys o).Perm (o.pairs.map Prod.fst))
    (hplain : Plain C H r) {fuel : ℕ} {c : Chunk}
    (h : planChunk v literal C.position keys H fuel r = some c) (G : Heap α) :
    ∃ G' r' f, evalChunk C c G = some (G', some r') ∧ Rebuilt H r G G' r' f := by
  obtain ⟨⟨s, e⟩, hplan, h⟩ := Option.bind_eq_some_iff.1 h
  have hopen : Place.root.Open (⟨fun _ => none, []⟩ : PlanState) := trivial
  rcases plans_planValue hlit hH fuel hopen PlanState.wf_initial hplan with hmade | ⟨a, -, hne, -⟩
  · obtain ⟨G₁, x, heval, hstart, hL⟩ := hmade.eval G
    obtain ⟨L, rfl, hstores⟩ := hL id
    have hs : s.Wf := hmade.walks.wf PlanState.wf_initial
    have hmem : ∀ {a}, a ∈ new ⟨fun _ => none, []⟩ s ↔ s.defined a ≠ none :=
      ⟨And.right, fun ha => ⟨rfl, ha⟩⟩
    have hlinked : ∀ {a}, s.defined a ≠ none →
        (r = .table a ∧ s.defined a = some (.var v)) ∨ Linked C H s L G₁ a := fun ha =>
      (hstores.linked _ (hmem.2 ha)).imp_left fun hr => ⟨hr, (hmade.path hr).2⟩
    have hclosed : ∀ {a b}, s.defined a ≠ none → Leads H a b → s.defined b ≠ none := by
      rintro a b ha ⟨o, ho, k, hk⟩
      obtain ⟨o', done, ho', hperm, -, hdone⟩ := hstores.filled a (hmem.2 ha)
      obtain rfl := Option.some.inj (ho.symm.trans ho')
      rcases List.mem_append.1 (hperm.symm.subset hk) with hk | hk
      · exact hdone hk
      · obtain ⟨⟨_ | ⟨c, key⟩, d⟩, hlate, hentry⟩ := List.mem_filterMap.1 hk
        · cases hentry
        · rw [entryAt] at hentry
          split at hentry
          · obtain ⟨-, hd⟩ := Prod.mk.inj (Option.some.inj hentry)
            exact Ref.table.inj hd ▸ hs.table hlate
          · cases hentry
    have hrun : Running C H v r s L s.late G₁ := by
      refine ⟨fun o ho => (hH o ho).1, hclosed, fun {a} ha => ?_, ?_, fun ha => ?_, hlinked⟩
      · obtain ⟨p, hp⟩ := Option.ne_none_iff_exists'.1 ha
        exact hplain a (reached_of_linked hlinked hp)
      · exact fun a ha b hb => hstores.bijOn.injOn (hmem.2 ha) (hmem.2 hb)
      · obtain ⟨o, done, ho, hperm, hobj, -⟩ := hstores.filled _ (hmem.2 ha)
        exact ⟨o, done, ho, hperm, hobj⟩
    have hr : ∀ a, r = .table a → s.defined a ≠ none := fun a ha => by
      rw [(hmade.path ha).2]
      exact Option.some_ne_none _
    have hbij : Set.BijOn L { a | s.defined a ≠ none } (Set.Ico G.length G₁.length) := by
      have hset : new ⟨fun _ => none, []⟩ s = { a | s.defined a ≠ none } :=
        Set.ext fun _ => hmem
      rw [← hset]
      exact hstores.bijOn
    dsimp only at h
    by_cases hlate : s.late = []
    · rw [if_pos hlate] at h
      obtain rfl := Option.some.inj h
      exact ⟨G₁, _, L, heval, (hlate ▸ hrun).rebuilt hstart hr hbij⟩
    · rw [if_neg hlate] at h
      obtain rfl := Option.some.inj h
      obtain ⟨G', hbody, hlen, hstart', hdone⟩ := hrun.runBody
        (fun hmem' => ⟨hs.place hmem', hs.table hmem'⟩) hstart
        (fun ha => (hbij.mapsTo ha).1)
      refine ⟨G', _, L, ?_, hdone.rebuilt hstart' hr (hlen ▸ hbij)⟩
      simp [evalChunk, heval, hbody, evalPath]
  · exact absurd rfl hne

end Jord.Base
