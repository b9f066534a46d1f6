import Jord.Base.Copied

/-!
# What a copy is

`table.copy` returns on every heap, unless a table that is reached has something other than a table
under `__metatable` in its metatable, since this cannot be set (`deepcopy_returns_iff`). What it
returns is the original with other addresses: there is one new table for each that is reached, and
no other (`deepcopy_isCopy`); only metatables are shared. So whatever is read from the copy by a
path of fields is what is read from the original, even after tables on the other side have been
written to (`deepcopy_independent`).
-/

namespace Jord.Base

variable {α : Type} [DecidableEq α] {metatableField : α} {H H' : Heap α} {r r' : Ref α}

/-! ## The copy and the original -/

/-- **A copy**: the value `r'` in `H'` is the value `r` in `H` with the addresses `f`, and the
tables of `H'` that are not in `H` are the copies. -/
structure IsCopy (metatableField : α) (H : Heap α) (r : Ref α) (H' : Heap α) (r' : Ref α)
    (f : ℕ → ℕ) : Prop where
  old : ∀ a < H.length, H'[a]? = H[a]?
  root : r' = r.map f
  injective : ∀ {a a'}, H.Reaches r a → H.Reaches r a' → f a = f a' → a = a'
  new : ∀ b, H.length ≤ b ∧ b < H'.length ↔ ∃ a, H.Reaches r a ∧ f a = b
  object : ∀ {a}, H.Reaches r a → ∃ o, H[a]? = some o ∧
    H'[f a]? = some ⟨o.mapPairs f, (H.getmetatable metatableField a).bind Ref.address?⟩

/-- The address of the copy. -/
def copyOf (l : ℕ → Option ℕ) (a : ℕ) : ℕ := (l a).getD 0

omit [DecidableEq α] in
theorem Image.eq_map {l : ℕ → Option ℕ} {x y : Ref α} (h : Image l x y) : y = x.map (copyOf l) := by
  cases h with
  | atom a => rfl
  | table hb => rw [Ref.map, copyOf, hb, Option.getD_some]

omit [DecidableEq α] in
theorem map_eq_of_copied {l : ℕ → Option ℕ} {ps ps' : List (Ref α × Ref α)}
    (h : List.Forall₂ (ImagePair l) ps ps') :
    ps' = ps.map (Prod.map (Ref.map (copyOf l)) (Ref.map (copyOf l))) := by
  induction h with
  | nil => rfl
  | @cons p p' ps ps' hp _ ih =>
    rw [List.map_cons, ← ih, Prod.map_apply', ← hp.1.eq_map, ← hp.2.eq_map]

omit [DecidableEq α] in
theorem exists_image_of_mem {l : ℕ → Option ℕ} {ps ps' : List (Ref α × Ref α)}
    (h : List.Forall₂ (ImagePair l) ps ps') {p : Ref α × Ref α} (hp : p ∈ ps) :
    ∃ k v, Image l p.1 k ∧ Image l p.2 v := by
  induction h with
  | nil => cases hp
  | cons h _ ih =>
    rcases List.mem_cons.1 hp with rfl | hp
    · exact ⟨_, _, h⟩
    · exact ih hp

/-- What is reached has been copied. -/
theorem lookupTable_of_reaches {s s' : CopyState α} (hnone : ∀ a, s.lookupTable a = none)
    {R : ℕ → Prop} {b : ℕ} (h : Progress metatableField H R b s s')
    (hr : Image s'.lookupTable r r') {a : ℕ} (ha : H.Reaches r a) :
    ∃ c, s'.lookupTable a = some c ∧ Done metatableField H s' a c := by
  have hdone : ∀ {a c}, s'.lookupTable a = some c → Done metatableField H s' a c := by
    intro a c hac
    rcases h.new hac with hold | ⟨-, hdone⟩
    · cases (hnone a).symm.trans hold
    · exact hdone
  obtain ⟨a₀, rfl, hpath⟩ := ha
  induction hpath with
  | refl =>
    cases hr with
    | table hb => exact ⟨_, hb, hdone hb⟩
  | tail _ hstep ih =>
    obtain ⟨c, -, -, o, ps, ho, hps, -⟩ := ih
    obtain ⟨o', ho', p, hp, hor⟩ := hstep
    obtain rfl := Option.some.inj (ho.symm.trans ho')
    obtain ⟨k, v, hk, hv⟩ := exists_image_of_mem hps hp
    rcases hor with hkey | hvalue
    · rw [hkey] at hk
      cases hk with
      | table hb => exact ⟨_, hb, hdone hb⟩
    · rw [hvalue] at hv
      cases hv with
      | table hb => exact ⟨_, hb, hdone hb⟩

/-- The run of `deepcopy`. -/
theorem exists_copy_of_deepcopy {fuel : ℕ} (h : deepcopy metatableField fuel H r = .ok (H', r')) :
    ∃ s', copy metatableField fuel ⟨H, fun _ => none⟩ r = .ok (s', r') ∧ s'.heap = H' := by
  unfold deepcopy at h
  cases hcopy : copy metatableField fuel ⟨H, fun _ => none⟩ r with
  | error e =>
    rw [hcopy] at h
    cases h
  | ok x =>
    rw [hcopy] at h
    obtain ⟨rfl, rfl⟩ := Prod.mk.inj (Except.ok.inj h)
    exact ⟨x.1, rfl, rfl⟩

/-- What is copied has metatables that can be set, and the result is a copy. -/
theorem isCopy_of_deepcopy (hH : H.Wf) (hr : r.Inside H.length) {fuel : ℕ}
    (h : deepcopy metatableField fuel H r = .ok (H', r')) :
    (∀ a, H.Reaches r a → H.Settable metatableField a) ∧
      ∃ f, IsCopy metatableField H r H' r' f := by
  obtain ⟨s', hcopy, rfl⟩ := exists_copy_of_deepcopy h
  obtain ⟨hp, himage⟩ := copy_ok hH fuel (inv_initial H) hr hcopy
  have hreached : ∀ {a}, H.Reaches r a →
      ∃ c, s'.lookupTable a = some c ∧ Done metatableField H s' a c :=
    lookupTable_of_reaches (fun _ => rfl) hp himage
  have hcopyOf : ∀ {a c}, s'.lookupTable a = some c → copyOf s'.lookupTable a = c := by
    intro a c hac
    rw [copyOf, hac, Option.getD_some]
  refine ⟨fun a ha => (hreached ha).choose_spec.2.1, copyOf s'.lookupTable, ?_⟩
  constructor
  · exact hp.inv.old
  · exact himage.eq_map
  · intro a a' ha ha' heq
    obtain ⟨c, hc, -⟩ := hreached ha
    obtain ⟨c', hc', -⟩ := hreached ha'
    rw [hcopyOf hc, hcopyOf hc'] at heq
    exact hp.inv.injective hc (heq ▸ hc')
  · intro b
    constructor
    · rintro ⟨hle, hlt⟩
      obtain ⟨a, ha⟩ := hp.inv.onto b hle hlt
      rcases hp.new ha with hold | ⟨hreach, -⟩
      · cases hold
      · exact ⟨a, hreach, hcopyOf ha⟩
    · rintro ⟨a, ha, rfl⟩
      obtain ⟨c, hc, -⟩ := hreached ha
      rw [hcopyOf hc]
      exact (hp.inv.range hc).2
  · intro a ha
    obtain ⟨c, hc, -, o, ps, ho, hps, hnew⟩ := hreached ha
    rw [map_eq_of_copied hps] at hnew
    exact ⟨o, ho, hcopyOf hc ▸ hnew⟩

/-- **`table.copy` fails only on metatables.** On every heap it comes to an end, with a level of
recursion for each table, and it returns exactly if `setmetatable` takes what `getmetatable` returns
for every table that is reached. The limit of the interpreter on nested calls, which a long enough
chain of tables exceeds, is not a part of this. -/
theorem deepcopy_returns_iff (hH : H.Wf) (hr : r.Inside H.length) {fuel : ℕ}
    (hfuel : H.length ≤ fuel) : deepcopy metatableField fuel H r ≠ .error .unfinished ∧
      ((∃ x, deepcopy metatableField fuel H r = .ok x) ↔
        ∀ a, H.Reaches r a → H.Settable metatableField a) := by
  have hn : unvisited H ⟨H, fun _ => none⟩ ≤ fuel := by
    refine (Finset.card_filter_le _ _).trans ?_
    rwa [Finset.card_range]
  have herror : ∀ {e}, deepcopy metatableField fuel H r = .error e →
      Blames metatableField H (H.Reaches r) e := by
    intro e he
    unfold deepcopy at he
    cases hcopy : copy metatableField fuel ⟨H, fun _ => none⟩ r with
    | ok x =>
      rw [hcopy] at he
      cases he
    | error e' =>
      rw [hcopy] at he
      obtain rfl := Except.error.inj he
      exact copy_error hH fuel (inv_initial H) hr hn hcopy
  refine ⟨fun h => ?_, fun ⟨x, hx⟩ => (isCopy_of_deepcopy hH hr hx).1, fun hset => ?_⟩
  · cases (herror h).1
  · cases h : deepcopy metatableField fuel H r with
    | ok x => exact ⟨x, rfl⟩
    | error e =>
      obtain ⟨-, a, ha, hnot⟩ := herror h
      exact absurd (hset a ha) hnot

/-- **`table.copy` copies**: one new table for each table that is reached, with the same pairs up to
the addresses, and with what `getmetatable` returns as its metatable; the tables that there were are
as they were. -/
theorem deepcopy_isCopy (hH : H.Wf) (hr : r.Inside H.length) {fuel : ℕ}
    (h : deepcopy metatableField fuel H r = .ok (H', r')) :
    ∃ f, IsCopy metatableField H r H' r' f :=
  (isCopy_of_deepcopy hH hr h).2

/-! ## Reading -/

/-- `rawget( r, k )`; `none` stands for `nil`, and for the error on a value that is no table. -/
def Heap.field (H : Heap α) (r k : Ref α) : Option (Ref α) := do
  let a ← r.address?
  let object ← H[a]?
  object.rawget k

/-- What is read by a path of fields. -/
def Heap.follow (H : Heap α) : Ref α → List α → Option (Ref α)
  | r, [] => some r
  | r, k :: ks => (H.field r (.atom k)).bind fun v => H.follow v ks

/-- A field of a table that is reached has a value that is. -/
theorem reaches_of_field {x k v : Ref α} (h : H.field x k = some v) {a : ℕ} (ha : H.Reaches v a) :
    H.Reaches x a := by
  cases x with
  | atom c => cases h
  | table c =>
    simp only [Heap.field, Ref.address?, Option.bind_eq_bind, Option.bind_some] at h
    obtain ⟨o, ho, h⟩ := Option.bind_eq_some_iff.1 h
    obtain ⟨p, hp, rfl⟩ := Option.map_eq_some_iff.1 h
    exact Heap.reaches_of_pair ho (List.mem_of_find?_eq_some hp) (.inr ha)

/-- Only tables that are reached are read. -/
theorem follow_congr (h : ∀ a, H.Reaches r a → H'[a]? = H[a]?) (ks : List α) :
    H'.follow r ks = H.follow r ks := by
  induction ks generalizing r with
  | nil => rfl
  | cons k ks ih =>
    have hfield : H'.field r (.atom k) = H.field r (.atom k) := by
      cases r with
      | atom x => rfl
      | table a =>
        simp only [Heap.field, Ref.address?, Option.bind_eq_bind, Option.bind_some]
        rw [h a (Heap.reaches_self H a)]
    rw [Heap.follow, Heap.follow, hfield]
    cases hv : H.field r (.atom k) with
    | none => rfl
    | some v => exact ih fun a ha => h a (reaches_of_field hv ha)

omit [DecidableEq α] in
theorem map_eq_atom_iff {f : ℕ → ℕ} {x : Ref α} {k : α} : x.map f = .atom k ↔ x = .atom k := by
  cases x <;> simp [Ref.map]

/-- A field of a table with other addresses. -/
theorem rawget_mapPairs (f : ℕ → ℕ) (o : Object α) (m : Option ℕ) (k : α) :
    (Object.mk (o.mapPairs f) m).rawget (.atom k) = (o.rawget (.atom k)).map (Ref.map f) := by
  unfold Object.rawget Object.mapPairs
  rw [List.find?_map, Option.map_map, Option.map_map]
  have hkey : ((fun p : Ref α × Ref α => decide (p.1 = .atom k)) ∘
      Prod.map (Ref.map f) (Ref.map f)) = fun p => decide (p.1 = .atom k) := by
    funext p
    simp [map_eq_atom_iff]
  rw [hkey]
  rfl

/-- A path of fields is followed in the copy as in the original. -/
theorem IsCopy.follow {f : ℕ → ℕ} (h : IsCopy metatableField H r H' r' f) {x : Ref α}
    (hx : ∀ a, H.Reaches x a → H.Reaches r a) (ks : List α) :
    H'.follow (x.map f) ks = (H.follow x ks).map (Ref.map f) := by
  induction ks generalizing x with
  | nil => rfl
  | cons k ks ih =>
    have hfield : H'.field (x.map f) (.atom k) = (H.field x (.atom k)).map (Ref.map f) := by
      cases x with
      | atom c => rfl
      | table a =>
        obtain ⟨o, ho, hcopy⟩ := h.object (hx a (Heap.reaches_self H a))
        simp only [Heap.field, Ref.map, Ref.address?, Option.bind_eq_bind, Option.bind_some]
        rw [ho, hcopy]
        exact rawget_mapPairs f o _ k
    rw [Heap.follow, Heap.follow, hfield]
    cases hv : H.field x (.atom k) with
    | none => rfl
    | some v => exact ih fun a ha => hx a (reaches_of_field hv ha)

/-- What the copy reaches are new tables. -/
theorem IsCopy.new_of_reaches {f : ℕ → ℕ} (h : IsCopy metatableField H r H' r' f) {b : ℕ}
    (hb : H'.Reaches r' b) : H.length ≤ b ∧ b < H'.length := by
  rw [h.new]
  obtain ⟨b₀, hroot, hpath⟩ := hb
  rw [h.root] at hroot
  induction hpath with
  | refl =>
    cases r with
    | atom x => cases hroot
    | table a => exact ⟨a, Heap.reaches_self H a, Ref.table.inj hroot⟩
  | @tail b c _ hstep ih =>
    obtain ⟨a, ha, rfl⟩ := ih
    obtain ⟨o, ho, hcopy⟩ := h.object ha
    obtain ⟨o', ho', p', hp', hor⟩ := hstep
    obtain rfl := Option.some.inj (hcopy.symm.trans ho')
    obtain ⟨p, hp, rfl⟩ := List.mem_map.1 hp'
    have hmap : ∀ {x : Ref α}, x.map f = .table c → ∃ d, x = .table d ∧ f d = c := by
      intro x hx
      cases x with
      | atom y => cases hx
      | table d => exact ⟨d, rfl, Ref.table.inj hx⟩
    obtain ⟨a₀, hr, hpath⟩ := ha
    rcases hor with hkey | hvalue
    · obtain ⟨d, hd, rfl⟩ := hmap hkey
      exact ⟨d, ⟨a₀, hr, hpath.tail ⟨o, ho, p, hp, .inl hd⟩⟩, rfl⟩
    · obtain ⟨d, hd, rfl⟩ := hmap hvalue
      exact ⟨d, ⟨a₀, hr, hpath.tail ⟨o, ho, p, hp, .inr hd⟩⟩, rfl⟩

/-- **The copy and the original are independent.** By every path of fields whose keys are no tables
the copy is read as the original was, as long as no new table has been written to, whatever has
become of the original; and the original is read as before, as long as none of its tables has been
written to, whatever has become of the copy. -/
theorem deepcopy_independent (hH : H.Wf) (hr : r.Inside H.length) {fuel : ℕ}
    (h : deepcopy metatableField fuel H r = .ok (H', r')) : ∃ f : ℕ → ℕ, ∀ (J : Heap α) ks,
      ((∀ b, H.length ≤ b → b < H'.length → J[b]? = H'[b]?) →
        J.follow r' ks = (H.follow r ks).map (Ref.map f)) ∧
      ((∀ a < H.length, J[a]? = H'[a]?) → J.follow r ks = H.follow r ks) := by
  obtain ⟨f, hf⟩ := (isCopy_of_deepcopy hH hr h).2
  refine ⟨f, fun J ks => ⟨fun hJ => ?_, fun hJ => ?_⟩⟩
  · rw [follow_congr (fun b hb => hJ b (hf.new_of_reaches hb).1 (hf.new_of_reaches hb).2), hf.root]
    exact hf.follow (fun _ => id) ks
  · apply follow_congr
    intro a ha
    have hlt := hH.lt_of_reaches hr ha
    rw [hJ a hlt, hf.old a hlt]

/-! ## A table that has itself as a value -/

/-- `t.self = t`, `t[t] = 5` and a metatable -/
def cyclic : Heap ℕ := [⟨[(.atom 1, .table 0), (.table 0, .atom 5)], some 1⟩, ⟨[], none⟩]

/-- The table with its copy. -/
def cyclicTwice : Heap ℕ := cyclic ++ [⟨[(.atom 1, .table 2), (.table 2, .atom 5)], some 1⟩]

theorem cyclic_wf : cyclic.Wf := by
  constructor
  · intro o ho p hp
    rcases List.mem_cons.1 ho with rfl | ho
    · rcases List.mem_cons.1 hp with rfl | hp
      · exact ⟨trivial, Nat.zero_lt_two⟩
      · obtain rfl := List.mem_singleton.1 hp
        exact ⟨Nat.zero_lt_two, trivial⟩
    · obtain rfl := List.mem_singleton.1 ho
      cases hp
  · decide
  · decide

theorem inside_cyclic : (Ref.table 0 : Ref ℕ).Inside cyclic.length := Nat.zero_lt_two

theorem deepcopy_cyclic : deepcopy 0 2 cyclic (.table 0) = .ok (cyclicTwice, .table 2) := rfl

theorem deepcopy_returns_iff_cyclic : deepcopy 0 2 cyclic (.table 0) ≠ .error .unfinished ∧
    ((∃ x, deepcopy 0 2 cyclic (.table 0) = .ok x) ↔
      ∀ a, cyclic.Reaches (.table 0) a → cyclic.Settable 0 a) :=
  deepcopy_returns_iff cyclic_wf inside_cyclic le_rfl

theorem deepcopy_isCopy_cyclic : ∃ f, IsCopy 0 cyclic (.table 0) cyclicTwice (.table 2) f :=
  deepcopy_isCopy cyclic_wf inside_cyclic deepcopy_cyclic

theorem deepcopy_independent_cyclic : ∃ f : ℕ → ℕ, ∀ (J : Heap ℕ) ks,
    ((∀ b, cyclic.length ≤ b → b < cyclicTwice.length → J[b]? = cyclicTwice[b]?) →
      J.follow (.table 2) ks = (cyclic.follow (.table 0) ks).map (Ref.map f)) ∧
    ((∀ a < cyclic.length, J[a]? = cyclicTwice[a]?) →
      J.follow (.table 0) ks = cyclic.follow (.table 0) ks) :=
  deepcopy_independent cyclic_wf inside_cyclic deepcopy_cyclic

end Jord.Base
