import Jord.Json.RoundTrip

/-!
# What comes back unchanged

The values that are the same after they are encoded and decoded (`Plain`): arrays without holes of
such values, and tables with strings as keys that are not taken for arrays, none of them with a
`null`.
-/

namespace Jord.Json

variable {ρ : Type} [DecidableEq ρ] {H : Host ρ}

/-- **A value that comes back unchanged**: `null` is none, although it is written. -/
inductive Plain (H : Host ρ) : Value ρ → Prop
  | nil : Plain H .nil
  | boolean (b : Bool) : Plain H (.boolean b)
  | string (s : Str) : Plain H (.string s)
  | number {n : Number ρ} (hn : reread H n = .number n) : Plain H (.number n)
  | array {vs : List (Value ρ)} (hvs : ∀ v ∈ vs, Plain H v) (hnil : ∀ v ∈ vs, v ≠ .nil) :
      Plain H (.table (Table.sequence vs))
  | object {t : Table ρ} (harray : isArray H t = none) (hkeys : ∀ p ∈ t, ∃ s, p.1 = .string s)
      (hdistinct : (t.map Prod.fst).Nodup) (hvalues : ∀ p ∈ t, Plain H p.2)
      (hnil : ∀ p ∈ t, p.2 ≠ .nil) : Plain H (.table t)

/-! ## Arrays -/

omit [DecidableEq ρ] in
theorem Key.index?_index {n : ℕ} (hn : 1 ≤ n) :
    (Key.index n : Key ρ).index? = some (.natural n) := if_pos hn

/-- The elements from an index on. -/
theorem isArrayLoop_sequenceFrom (t : Table ρ) (vs : List (Value ρ)) (m : ℕ) :
    isArrayLoop H t (Table.sequenceFrom (m + 1) vs) (.natural m) =
      if ∀ v ∈ vs, isEncodable v then some (.natural (m + vs.length)) else none := by
  induction vs generalizing m with
  | nil => simp [Table.sequenceFrom, isArrayLoop]
  | cons v vs ih =>
    have hmax : (Index.natural m).max (.natural (m + 1)) = .natural (m + 1) :=
      congrArg Index.natural (Nat.max_eq_right (Nat.le_succ m))
    rw [Table.sequenceFrom, isArrayLoop, Key.index?_index (Nat.le_add_left 1 m)]
    by_cases hv : isEncodable v
    · simp [hv, hmax, ih, Nat.add_assoc, Nat.add_comm 1]
    · simp [hv]

/-- A sequence is an array if its elements can be encoded. -/
theorem isArray_sequence (vs : List (Value ρ)) : isArray H (Table.sequence vs) =
    if ∀ v ∈ vs, isEncodable v then some (.natural vs.length) else none := by
  have h := isArrayLoop_sequenceFrom (H := H) (Table.sequence vs) vs 0
  simp only [Nat.zero_add] at h
  exact h

omit [DecidableEq ρ] in
theorem map_snd_sequenceFrom (n : ℕ) (vs : List (Value ρ)) :
    (Table.sequenceFrom n vs).map Prod.snd = vs := by
  induction vs generalizing n with
  | nil => rfl
  | cons v vs ih => rw [Table.sequenceFrom, List.map_cons, ih]

omit [DecidableEq ρ] in
theorem map_snd_sequence (vs : List (Value ρ)) : (Table.sequence vs).map Prod.snd = vs :=
  map_snd_sequenceFrom 1 vs

omit [DecidableEq ρ] in
theorem sequence_injective {vs ws : List (Value ρ)} (h : Table.sequence vs = Table.sequence ws) :
    vs = ws := by
  rw [← map_snd_sequence vs, h, map_snd_sequence]

theorem get_sequence_map (vs : List (Value ρ)) :
    (List.range vs.length).map (fun i => Table.get (Table.sequence vs) (.index (i + 1))) = vs := by
  apply List.ext_getElem
  · simp
  · intro i hi hi'
    simp [Table.get_sequence vs (Nat.le_add_left 1 i), hi']

/-- What is left of an array without holes. -/
theorem survives_sequence {vs : List (Value ρ)} (hvs : ∀ v ∈ vs, isEncodable v) :
    survives H (.table (Table.sequence vs)) =
      .table (Table.sequence (vs.flatMap fun v => kept (survives H v))) := by
  have hmap := congrArg (List.flatMap fun v => kept (survives H v)) (get_sequence_map vs)
  rw [List.flatMap_map] at hmap
  rw [survives_array ((isArray_sequence vs).trans (if_pos hvs)), hmap]

omit [DecidableEq ρ] in
theorem length_flatMap_kept_le (f : Value ρ → Value ρ) (vs : List (Value ρ)) :
    (vs.flatMap fun v => kept (f v)).length ≤ vs.length := by
  induction vs with
  | nil => exact le_rfl
  | cons v vs ih =>
    rw [List.flatMap_cons, List.length_append, List.length_cons]
    have hkept : (kept (f v)).length ≤ 1 := by
      unfold kept
      split_ifs <;> simp
    omega

omit [DecidableEq ρ] in
/-- A list that keeps its elements. -/
theorem flatMap_kept_eq_self_iff (f : Value ρ → Value ρ) (vs : List (Value ρ)) :
    (vs.flatMap fun v => kept (f v)) = vs ↔ ∀ v ∈ vs, f v = v ∧ v ≠ .nil := by
  induction vs with
  | nil => simp
  | cons v vs ih =>
    rw [List.flatMap_cons, List.forall_mem_cons, ← ih]
    unfold kept
    split_ifs with hnil
    · rw [Value.isNil_iff] at hnil
      constructor
      · intro h
        have hlen := congrArg List.length h
        have hle := length_flatMap_kept_le f vs
        rw [List.nil_append, List.length_cons] at hlen
        unfold kept at hle
        omega
      · rintro ⟨⟨hv, hne⟩, -⟩
        exact absurd (hv.symm.trans hnil) hne
    · rw [Value.isNil_iff] at hnil
      rw [List.singleton_append, List.cons.injEq]
      constructor
      · rintro ⟨hv, h⟩
        exact ⟨⟨hv, hv ▸ hnil⟩, h⟩
      · rintro ⟨⟨hv, -⟩, h⟩
        exact ⟨hv, h⟩

/-! ## Objects -/

/-- The keys of a table. -/
abbrev Table.keys (t : Table ρ) : List (Key ρ) := t.map Prod.fst

/-- A pair assigned to a table either is put behind it or does not make it longer. -/
theorem assign_cases (t : Table ρ) (k : Key ρ) (v : Value ρ) :
    (k ∉ Table.keys t ∧ v ≠ .nil ∧ Table.assign t k v = t ++ [(k, v)]) ∨
      ((k ∈ Table.keys t ∨ v = .nil) ∧ (Table.assign t k v).length ≤ t.length) := by
  unfold Table.assign
  split_ifs with hnil hany
  · right
    rw [Value.isNil_iff] at hnil
    exact ⟨.inr hnil, List.length_filter_le _ _⟩
  · right
    obtain ⟨p, hp, hk⟩ := List.any_eq_true.1 hany
    rw [decide_eq_true_eq] at hk
    exact ⟨.inl (List.mem_map.2 ⟨p, hp, hk⟩), (List.length_map _).le⟩
  · left
    rw [Value.isNil_iff] at hnil
    refine ⟨fun hk => hany ?_, hnil, rfl⟩
    obtain ⟨p, hp, hk⟩ := List.mem_map.1 hk
    exact List.any_eq_true.2 ⟨p, hp, decide_eq_true hk⟩

theorem length_assignAll_le (t ms : Table ρ) :
    (assignAll t ms).length ≤ t.length + ms.length := by
  induction ms generalizing t with
  | nil => exact le_rfl
  | cons m ms ih =>
    have hle := ih (Table.assign t m.1 m.2)
    change (assignAll (Table.assign t m.1 m.2) ms).length ≤ _
    rw [List.length_cons]
    obtain ⟨-, -, happend⟩ | ⟨-, hlen⟩ := assign_cases t m.1 m.2
    · rw [happend, List.length_append, List.length_singleton] at hle
      rw [happend]
      omega
    · omega

/-- The members are all there, one behind the other, exactly if their keys are new and distinct and
their values are not `nil`; otherwise the table is shorter. -/
theorem length_assignAll_eq_iff (t ms : Table ρ) :
    ((assignAll t ms).length = t.length + ms.length ↔
      (Table.keys ms).Nodup ∧ (∀ k ∈ Table.keys ms, k ∉ Table.keys t) ∧ ∀ m ∈ ms, m.2 ≠ .nil) ∧
      ((assignAll t ms).length = t.length + ms.length → assignAll t ms = t ++ ms) := by
  induction ms generalizing t with
  | nil => simp [assignAll]
  | cons m ms ih =>
    change ((assignAll (Table.assign t m.1 m.2) ms).length = _ ↔ _) ∧
      ((assignAll (Table.assign t m.1 m.2) ms).length = _ →
        assignAll (Table.assign t m.1 m.2) ms = _)
    rw [List.length_cons]
    obtain ⟨hk, hv, happend⟩ | ⟨hor, hlen⟩ := assign_cases t m.1 m.2
    · have hlen : (t ++ [m]).length + ms.length = t.length + (ms.length + 1) := by
        rw [List.length_append, List.length_singleton]
        omega
      obtain ⟨hiff, heq⟩ := ih (t ++ [m])
      rw [hlen] at hiff heq
      rw [happend]
      constructor
      · rw [hiff]
        simp only [Table.keys, List.map_cons, List.nodup_cons, List.map_append, List.mem_append,
          List.map_nil, List.mem_singleton, List.forall_mem_cons, not_or]
        constructor
        · rintro ⟨hdistinct, hnew, hvalues⟩
          exact ⟨⟨fun h => (hnew _ h).2 rfl, hdistinct⟩, ⟨hk, fun k h => (hnew k h).1⟩, hv,
            hvalues⟩
        · rintro ⟨⟨hm, hdistinct⟩, ⟨-, hnew⟩, -, hvalues⟩
          exact ⟨hdistinct, fun k h => ⟨hnew k h, fun heq => hm (heq ▸ h)⟩, hvalues⟩
      · intro h
        rw [heq h, List.append_assoc]
        rfl
    · have hle := length_assignAll_le (Table.assign t m.1 m.2) ms
      have hne : (assignAll (Table.assign t m.1 m.2) ms).length ≠ t.length + (ms.length + 1) := by
        omega
      refine ⟨iff_of_false hne ?_, fun h => absurd h hne⟩
      rintro ⟨-, hnew, hvalues⟩
      rcases hor with hk | hv
      · exact hnew m.1 List.mem_cons_self hk
      · exact hvalues m List.mem_cons_self hv

/-- Members with distinct keys and values that are not `nil`. -/
theorem assignAll_nil_eq_self_iff (ms : Table ρ) :
    assignAll [] ms = ms ↔ (Table.keys ms).Nodup ∧ ∀ m ∈ ms, m.2 ≠ .nil := by
  obtain ⟨hiff, heq⟩ := length_assignAll_eq_iff [] ms
  rw [List.length_nil, Nat.zero_add] at hiff heq
  constructor
  · intro h
    obtain ⟨hdistinct, -, hvalues⟩ := hiff.1 (congrArg List.length h)
    exact ⟨hdistinct, hvalues⟩
  · rintro ⟨hdistinct, hvalues⟩
    exact heq (hiff.2 ⟨hdistinct, by simp, hvalues⟩)

/-- A table that is written as an object and comes back unchanged. -/
theorem survives_object_eq_self_iff {t : Table ρ} (h : isArray H t = none) :
    survives H (.table t) = .table t ↔ (∀ p ∈ t, survivingPair H p = p) ∧
      (∀ p ∈ t, isEncodableKey p.1 && isEncodable p.2) ∧ (Table.keys t).Nodup ∧
      ∀ p ∈ t, p.2 ≠ .nil := by
  rw [survives_object h, Value.table.injEq]
  constructor
  · intro ht
    -- nothing is filtered out, replaced or removed, since the table would be shorter
    have hfilter := List.length_filter_le (fun p => isEncodableKey p.1 && isEncodable p.2) t
    have hassign := length_assignAll_le [] ((encodablePairs t).map (survivingPair H))
    rw [ht, List.length_map, List.length_nil, Nat.zero_add] at hassign
    have hall : encodablePairs t = t :=
      List.length_filter_eq_length_iff.1 (le_antisymm hfilter hassign) |> List.filter_eq_self.2
    rw [hall] at ht
    have hself : t.map (survivingPair H) = t := by
      obtain ⟨-, heq⟩ := length_assignAll_eq_iff [] (t.map (survivingPair H))
      rw [ht, List.length_map, List.length_nil, Nat.zero_add] at heq
      exact (heq rfl).symm
    rw [hself, assignAll_nil_eq_self_iff] at ht
    exact ⟨List.map_inj_left.1 (hself.trans (List.map_id t).symm), List.filter_eq_self.1 hall, ht⟩
  · rintro ⟨hself, hall, ht⟩
    have hfilter : encodablePairs t = t := List.filter_eq_self.2 hall
    rw [hfilter, List.map_congr_left hself, List.map_id']
    exact (assignAll_nil_eq_self_iff t).2 ht

/-! ## All values -/

omit [DecidableEq ρ] in
theorem isEncodableKey_string {k : Key ρ} (hk : ∃ s, k = .string s) : isEncodableKey k := by
  obtain ⟨s, rfl⟩ := hk
  rfl

theorem Plain.isEncodable {v : Value ρ} (h : Plain H v) : isEncodable v := by
  cases h <;> rfl

theorem survives_of_plain {v : Value ρ} (h : Plain H v) : survives H v = v := by
  induction h with
  | nil => rw [survives]
  | boolean b => rw [survives]
  | string s => rw [survives]
  | number hn => rw [survives, hn]
  | array hvs hnil ih =>
    rw [survives_sequence fun v hv => (hvs v hv).isEncodable,
      (flatMap_kept_eq_self_iff _ _).2 fun v hv => ⟨ih v hv, hnil v hv⟩]
  | object harray hkeys hdistinct hvalues hnil ih =>
    refine (survives_object_eq_self_iff harray).2 ⟨fun p hp => ?_, fun p hp => ?_, hdistinct, hnil⟩
    · obtain ⟨s, hs⟩ := hkeys p hp
      rw [survivingPair, hs, ih p hp]
      exact congrArg (·, p.2) hs.symm
    · rw [isEncodableKey_string (hkeys p hp), (hvalues p hp).isEncodable]
      rfl

theorem plain_of_survives {v : Value ρ} (h : survives H v = v) : Plain H v := by
  induction hsize : sizeOf v using Nat.strong_induction_on generalizing v with
  | _ n ih =>
    subst hsize
    cases v with
    | nil => exact .nil
    | boolean b => exact .boolean b
    | string s => exact .string s
    | number n =>
      rw [survives] at h
      exact .number h
    | null =>
      rw [survives] at h
      cases h
    | other type address =>
      rw [survives] at h
      cases h
    | table t =>
      cases harray : isArray H t with
      | none =>
        obtain ⟨hself, -, hdistinct, hnil⟩ := (survives_object_eq_self_iff harray).1 h
        refine .object harray (fun p hp => ⟨_, (congrArg Prod.fst (hself p hp)).symm⟩) hdistinct
          (fun p hp => ?_) hnil
        exact ih _ (Table.sizeOf_lt_of_mem hp) (congrArg Prod.snd (hself p hp)) rfl
      | some index =>
        cases index with
        | infinity =>
          rw [survives, harray] at h
          cases h
        | natural m =>
          -- the table is a sequence, since the one that is left of it is
          have hseq := h
          rw [survives_array harray, Value.table.injEq] at hseq
          generalize (List.range m).flatMap _ = vs at hseq
          subst hseq
          have hvs : ∀ v ∈ vs, isEncodable v := by
            by_contra hvs
            rw [isArray_sequence, if_neg hvs] at harray
            cases harray
          rw [survives_sequence hvs, Value.table.injEq] at h
          have hself := (flatMap_kept_eq_self_iff _ _).1 (sequence_injective h)
          refine .array (fun v hv => ?_) fun v hv => (hself v hv).2
          rw [← map_snd_sequence vs] at hv
          obtain ⟨p, hp, rfl⟩ := List.mem_map.1 hv
          rw [map_snd_sequence] at hv
          exact ih _ (Table.sizeOf_lt_of_mem hp) (hself _ hv).1 rfl

/-- **The values that come back unchanged**: if every number that is written is legible, `decode`
returns the value itself on what `encode` has made of it exactly if the value is plain and no string
in it has a carriage return. -/
theorem decode_encode_eq_self_iff (hH : H.Lawful) {v : Value ρ} {t : Str} (h : encode H v = .ok t)
    (hv : NumbersLegible H v) {fuel : ℕ} (hfuel : 2 * t.length + 1 ≤ fuel) :
    decode H fuel t 1 = .ok (v, t.length + 1) ↔ NoReturns H v ∧ Plain H v := by
  rw [(text_encode h hv).decode_eq_ok_iff hH hfuel]
  constructor
  · rintro ⟨hclean, hv', -⟩
    exact ⟨hclean, plain_of_survives hv'.symm⟩
  · rintro ⟨hclean, hplain⟩
    exact ⟨hclean, (survives_of_plain hplain).symm, rfl⟩

/-- The array with a `null` does not come back. -/
theorem decode_encode_eq_self_iff_mixedArray :
    decode naturalHost 40 (Str.ascii "[\"a\\\"\",null,7]") 1 = .ok (mixedArray, 14 + 1) ↔
      NoReturns naturalHost mixedArray ∧ Plain naturalHost mixedArray :=
  decode_encode_eq_self_iff naturalHost_lawful encode_mixedArray numbersLegible_mixedArray
    (by decide)

end Jord.Json
