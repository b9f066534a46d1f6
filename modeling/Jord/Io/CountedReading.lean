import Jord.Io.Reading

/-!
# Reads of counted bytes

Calls of `read` with one count after the other, and `*a` at the end, return the bytes of the file
one after the other (`counted_partition`).
-/

namespace Jord.Io

open Program

variable {ν Os : Type} {C : Platform ν Os} {w w' : World ν Os} {a f : ℕ} {s : Stream}
  {v : LuaValue ν} {args : List (LuaValue ν)} {file : Os → InputStream} {k : ν}

/-- The value for a count of `n`, where `rest` is what is left. -/
def countedValue (n : ℕ) (rest : Str) : LuaValue ν :=
  if rest = [] then .nil else .string (rest.take n)

/-- The bytes of a value: `nil` has none. -/
def LuaValue.bytes : LuaValue ν → Str
  | .string s => s
  | _ => []

/-- One call of `read` after the other. -/
def readEach (C : Platform ν Os) (a : ℕ) : List (LuaValue ν) → Eval ν Os (List (LuaValue ν))
  | [] => return []
  | v :: args => do
    let values ← LuaFileAdapter.read C a [v]
    return values ++ (← readEach C a args)

theorem bytes_countedValue (n : ℕ) (rest : Str) :
    (countedValue n rest : LuaValue ν).bytes = rest.take n := by
  unfold countedValue
  split
  · next h => rw [h, List.take_nil]; rfl
  · rfl

/-- A format that comes to an end is what `read` returns. -/
theorem read_of_format {r : Bool × LuaValue ν} (hr : Reads C s file) (h : Opened w a f s)
    (hv : IsFormat C v) (hformat : LuaFileAdapter.readFormat C f 1 v w = .ok r w') :
    LuaFileAdapter.read C a [v] w = .ok [if r.1 then r.2 else .nil] w' := by
  rw [LuaFileAdapter.read_single hr.noErrors h hv]
  exact bind_of_ok hformat

/-- **One count**: as many bytes as there are, at most the number asked for, or `nil` at the end. -/
theorem read_count (hr : Reads C s file) (hb : 1 ≤ C.bufferSize) (h : Opened w a f s)
    (hrounds : (file w.os).rest.length < C.rounds) (hv : LuaValue.toNumber C v = some k) :
    ∃ w', LuaFileAdapter.read C a [v] w = .ok [countedValue (C.toSize k) (file w.os).rest] w' ∧
      w'.heap = w.heap ∧
      (file w.os).Advances (file w'.os) (min (C.toSize k) (file w.os).rest.length) := by
  have hformat : IsFormat C v := .inl ⟨k, hv⟩
  by_cases hsize : C.toSize k = 0
  · obtain ⟨w', hprobe, hheap, hadv⟩ := LuaBoostFile.isEOF_reads hr h.streams
    have hround : LuaFileAdapter.readFormat C f 1 v w =
        .ok (if (file w.os).rest = [] then (false, .nil) else (true, .string [])) w' := by
      rw [LuaFileAdapter.readFormat, hv]
      dsimp only
      rw [if_pos hsize, bind_of_ok hprobe]
      by_cases hrest : (file w.os).rest = [] <;> simp [hrest]
    rw [read_of_format hr h hformat hround, countedValue, hsize, Nat.zero_min]
    refine ⟨w', ?_, hheap, hadv⟩
    by_cases hrest : (file w.os).rest = []
    · rw [if_pos hrest, if_pos hrest]
      rfl
    · rw [if_neg hrest, if_neg hrest]
      rfl
  · obtain ⟨w', hread, hheap, hadv⟩ :=
      LuaBoostFile.read_apply hr hb h.streams hrounds (C.toSize k)
    refine ⟨w', ?_, hheap, hadv⟩
    have hround : LuaFileAdapter.readFormat C f 1 v w =
        .ok (decide (0 < ((file w.os).rest.take (C.toSize k)).length),
          if 0 < ((file w.os).rest.take (C.toSize k)).length then
            .string ((file w.os).rest.take (C.toSize k)) else .nil) w' := by
      rw [LuaFileAdapter.readFormat, hv]
      dsimp only
      rw [if_neg hsize, bind_of_ok hread]
      simp
    rw [read_of_format hr h hformat hround, countedValue]
    by_cases hrest : (file w.os).rest = []
    · simp [hrest]
    · have hpos : 0 < min (C.toSize k) (file w.os).rest.length :=
        Nat.lt_min.2 ⟨Nat.pos_of_ne_zero hsize, List.length_pos_iff.2 hrest⟩
      simp [hrest, hpos]

/-- **`*a`**: what is left, as a string. -/
theorem read_all (hr : Reads C s file) (hb : 1 ≤ C.bufferSize) (h : Opened w a f s)
    (hrounds : (file w.os).rest.length < C.rounds) (hv : IsLetter C 97 v) :
    ∃ w', LuaFileAdapter.read C a [v] w = .ok [.string (file w.os).rest] w' ∧
      w'.heap = w.heap ∧ (file w.os).Advances (file w'.os) (file w.os).rest.length := by
  have hle : (file w.os).rest.length ≤ 2 ^ 64 - 1 := Nat.le_pred_of_lt InputStream.length_rest_lt
  obtain ⟨w', hread, hheap, hadv⟩ :=
    LuaBoostFile.read_apply hr hb h.streams hrounds (2 ^ 64 - 1)
  rw [List.take_of_length_le hle] at hread
  rw [Nat.min_eq_right hle] at hadv
  have hround : LuaFileAdapter.readFormat C f 1 v w = .ok (true, .string (file w.os).rest) w' := by
    obtain ⟨hnone, p, hp⟩ := id hv
    rw [LuaFileAdapter.readFormat, hnone, hp]
    exact bind_of_ok hread
  exact ⟨w', read_of_format hr h (.inr (.inr (.inr hv))) hround, hheap, hadv⟩

/-- The values of counts are those of the bytes that are left each time. -/
def countedValues : List ℕ → Str → List (LuaValue ν)
  | [], _ => []
  | n :: ns, rest => countedValue n rest :: countedValues ns (rest.drop n)

/-- What is left after the counts. -/
def afterCounts : List ℕ → Str → Str
  | [], rest => rest
  | n :: ns, rest => afterCounts ns (rest.drop n)

/-- The counts, and what is left after them, make up what there was. -/
theorem flatMap_countedValues (ns : List ℕ) (rest : Str) :
    (countedValues ns rest : List (LuaValue ν)).flatMap LuaValue.bytes ++ afterCounts ns rest =
      rest := by
  induction ns generalizing rest with
  | nil => rfl
  | cons n ns ih =>
    rw [countedValues, List.flatMap_cons, bytes_countedValue, List.append_assoc, afterCounts, ih,
      List.take_append_drop]

theorem readEach_append {w₁ w₂ : World ν Os} {xs ys us vs : List (LuaValue ν)}
    (hx : readEach C a xs w = .ok us w₁) (hy : readEach C a ys w₁ = .ok vs w₂) :
    readEach C a (xs ++ ys) w = .ok (us ++ vs) w₂ := by
  induction xs generalizing w us with
  | nil =>
    cases hx
    exact hy
  | cons x xs ih =>
    obtain ⟨values, w', hread, hx⟩ := bind_eq_ok.1 hx
    obtain ⟨us', w'', hrest, hx⟩ := bind_eq_ok.1 hx
    cases hx
    rw [List.cons_append, readEach, bind_of_ok hread, bind_of_ok (ih hrest), List.append_assoc]
    rfl

/-- Counts one after the other. -/
theorem readEach_counts (hr : Reads C s file) (hb : 1 ≤ C.bufferSize) (h : Opened w a f s)
    (hrounds : (file w.os).rest.length < C.rounds) (ks : List ν)
    (hargs : args.map (LuaValue.toNumber C) = ks.map some) :
    ∃ n ≤ (file w.os).rest.length, ∃ w',
      readEach C a args w = .ok (countedValues (ks.map C.toSize) (file w.os).rest) w' ∧
      w'.heap = w.heap ∧ (file w.os).Advances (file w'.os) n ∧
      (file w'.os).rest = afterCounts (ks.map C.toSize) (file w.os).rest := by
  induction args generalizing w ks with
  | nil =>
    obtain rfl : ks = [] := by simpa using hargs.symm
    exact ⟨0, Nat.zero_le _, w, rfl, rfl, .refl _, rfl⟩
  | cons v args ih =>
    cases ks with
    | nil => cases hargs
    | cons k ks =>
      rw [List.map_cons, List.map_cons, List.cons.injEq] at hargs
      obtain ⟨w₁, h₁, hheap₁, hadv₁⟩ := read_count hr hb h hrounds hargs.1
      obtain ⟨n, hn, w₂, h₂, hheap₂, hadv₂, hrest₂⟩ := ih (h.congr hheap₁)
        (by rw [hadv₁.rest, List.length_drop]; omega) ks hargs.2
      have hdrop : (file w₁.os).rest = (file w.os).rest.drop (C.toSize k) := by
        rw [hadv₁.rest, List.drop_eq_drop_iff]
        omega
      rw [hadv₁.rest, List.length_drop] at hn
      refine ⟨_, ?_, w₂, ?_, hheap₂.trans hheap₁, hadv₁.trans hadv₂, ?_⟩
      · omega
      · rw [readEach, bind_of_ok h₁, bind_of_ok h₂, hdrop]
        rfl
      · rw [hrest₂, hdrop]
        rfl

/-- **Counted reads partition the file.** A count returns as many bytes as there are, at most the
number asked for, and `nil` at the end; `*a` returns the rest; and together, the values are what was
left. -/
theorem counted_partition (hr : Reads C s file) (hb : 1 ≤ C.bufferSize) (h : Opened w a f s)
    (hrounds : (file w.os).rest.length < C.rounds) (ks : List ν)
    (hargs : args.map (LuaValue.toNumber C) = ks.map some) (hv : IsLetter C 97 v) :
    ∃ values data w', readEach C a (args ++ [v]) w = .ok (values ++ [.string data]) w' ∧
      values = countedValues (ks.map C.toSize) (file w.os).rest ∧
      values.flatMap LuaValue.bytes ++ data = (file w.os).rest ∧
      (file w.os).Advances (file w'.os) (file w.os).rest.length := by
  obtain ⟨n, hn, w₁, h₁, hheap₁, hadv₁, hrest₁⟩ := readEach_counts hr hb h hrounds ks hargs
  have hlen : (file w₁.os).rest.length = (file w.os).rest.length - n := by
    rw [hadv₁.rest, List.length_drop]
  obtain ⟨w₂, h₂, -, hadv₂⟩ := read_all hr hb (h.congr hheap₁) (by omega) hv
  refine ⟨_, (file w₁.os).rest, w₂, ?_, rfl, ?_, ?_⟩
  · apply readEach_append h₁
    rw [readEach, bind_of_ok h₂]
    rfl
  · rw [hrest₁, flatMap_countedValues]
  · have hall := hadv₁.trans hadv₂
    rw [hlen] at hall
    rwa [Nat.add_sub_cancel' hn] at hall

theorem counted_partition_textFile : ∃ values data w',
    readEach fileDevice 0
      ([.number 0, .number 2, .number 7, .number 0] ++ [.string (Str.ascii "*a")])
      (deviceVm (.ofContent [97, 0, 10] (by decide))) = .ok (values ++ [.string data]) w' ∧
    values = countedValues [0, 2, 7, 0] [97, 0, 10] ∧
    values.flatMap LuaValue.bytes ++ data = [97, 0, 10] ∧
    (InputStream.ofContent [97, 0, 10] (by decide)).Advances w'.os 3 :=
  counted_partition (fileDevice_reads _) (by decide) (deviceVm_opened _) (by decide)
    [0, 2, 7, 0] rfl ⟨rfl, [], rfl⟩

end Jord.Io
