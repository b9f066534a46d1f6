import Jord.Rc.Shape
import Mathlib.Data.List.Forall2

/-!
# What is emitted

Closed forms of the two parts of the file that depend on the builder: the table is `tocChunks` of
the items of the forest (`writeToc_eq`), and the data array is `entryChunks` of the entries with
their bytes (`writeData_eq`, and `writeData_ok` for the converse). The items and the numbers of a
chunk list are read off these forms.
-/

namespace Jord.Rc.RCBuilder

open Heap

/-! ## The table -/

/-- The chunks of the table of contents of a forest. -/
def tocOutput (F : Forest Str Extent) : List Chunk :=
  [.text (Str.ascii "static const rc::Root::TOCItem __toc[] = \x7b\n\t"),
    .item ⟨.directory, Str.ascii ":/", F.width, 0⟩, .text (Str.ascii ", ")] ++
  tocChunks 1 (tocItems F) ++ itemBreak (1 + F.size) ++
  [.item sentinel, .text (Str.ascii " \n\x7d;\n\n")]

/-- The items of a pack, without the sentinel. -/
def packItems (F : Forest Str Extent) : List TOCItem :=
  ⟨.directory, Str.ascii ":/", F.width, 0⟩ :: tocItems F

/-- **The table loop ends and writes the forest.** -/
theorem writeToc_eq {order : Order} {b : RCBuilder} {F : Forest Str Extent}
    (hF : Shape order b.heap (childList order b.heap b.root.rootDirectory) F) {fuel : ℕ}
    (hfuel : F.size < fuel) : writeToc fuel order b = some (.ok (tocOutput F)) := by
  obtain ⟨m, rfl⟩ : ∃ m, fuel = F.size + (m + 1) := ⟨fuel - F.size - 1, by omega⟩
  set list := childList order b.heap b.root.rootDirectory with hlist
  have hstart : (if list.length ≠ 0 then [(list, 0)] else []) = popDone [(list, 0)] := by
    simp only [popDone, Nat.le_zero, ne_eq]
    split <;> simp_all
  have hend : popDone [(list, list.length)] = [] := by simp [popDone]
  have hr := toc_rounds hF list 0 []
    [.text (Str.ascii "static const rc::Root::TOCItem __toc[] = \x7b\n\t"),
      .item ⟨.directory, Str.ascii ":/", list.length, 0⟩, .text (Str.ascii ", ")] 1 rfl
    (Nat.zero_le _)
  simp only [writeToc, ← hlist, hstart]
  rw [hr.run, hend, Loop.run]
  simp [tocStep, Except.map, tocOutput, hF.width]

/-! ## The data array -/

/-- The chunks of a list of bytes, `n` numbers having been written before. -/
def byteChunks : ℕ → List UInt8 → List Chunk
  | _, [] => []
  | n, data :: input =>
    byteBreak n ++ [.number (charToInt data), .text (Str.ascii ", ")] ++ byteChunks (n + 1) input

/-- The chunks of the entries with their bytes. -/
def entryChunks : ℕ → List (FileEntry × List UInt8) → List Chunk
  | _, [] => []
  | n, (e, bytes) :: parts =>
    entryComment e :: byteChunks n bytes ++ entryChunks (n + bytes.length) parts

/-- The chunks of the data array. -/
def dataOutput (parts : List (FileEntry × List UInt8)) : List Chunk :=
  .text (Str.ascii "static const uint8_t __data[] = \x7b") :: entryChunks 0 parts ++
    byteBreak (parts.flatMap Prod.snd).length ++ [.number 0, .text (Str.ascii "\n\x7d;\n\n")]

theorem writeBytes_eq {size : ℕ} {input : List UInt8} (hsize : size ≤ input.length) (n : ℕ) :
    writeBytes size input n = .ok (byteChunks n (input.take size), n + size) := by
  fun_induction writeBytes size input n with
  | case1 => simp [byteChunks]
  | case2 => simp at hsize
  | case3 n size data input ih =>
    rw [ih (by simpa using hsize)]
    simp [byteChunks, Bind.bind, Except.bind, Pure.pure, Except.pure, Nat.add_assoc, Nat.add_comm 1]

theorem writeBytes_error {size : ℕ} {input : List UInt8} (hsize : input.length < size) (n : ℕ) :
    writeBytes size input n = .error .uninitialised := by
  fun_induction writeBytes size input n with
  | case1 => simp at hsize
  | case2 => rfl
  | case3 n size data input ih =>
    rw [ih (by simpa using hsize)]
    rfl

/-- The bytes of each entry: the first `size` bytes of a file that has that many. -/
def Packed (fs : FileSystem) : List FileEntry → List (List UInt8) → Prop :=
  List.Forall₂ fun e bytes =>
    ∃ input, fs e.path = some input ∧ e.size ≤ input.length ∧ bytes = input.take e.size

theorem writeEntries_eq {fs : FileSystem} {entries : List FileEntry} {parts : List (List UInt8)}
    (hp : Packed fs entries parts) (n : ℕ) :
    writeEntries fs entries n =
      .ok (entryChunks n (entries.zip parts), n + parts.flatten.length) := by
  induction hp generalizing n with
  | nil => rfl
  | @cons e bytes entries parts he _ ih =>
    obtain ⟨input, hfs, hsize, rfl⟩ := he
    have hlen : (input.take e.size).length = e.size := List.length_take_of_le hsize
    simp only [writeEntries, hfs, writeBytes_eq hsize, Bind.bind, Except.bind, ih]
    simp [entryChunks, hlen, Pure.pure, Except.pure, Nat.add_assoc]

theorem writeEntries_ok {fs : FileSystem} {entries : List FileEntry} {n m : ℕ} {out : List Chunk}
    (h : writeEntries fs entries n = .ok (out, m)) : ∃ parts, Packed fs entries parts := by
  induction entries generalizing n m out with
  | nil => exact ⟨[], .nil⟩
  | cons e entries ih =>
    cases hfs : fs e.path with
    | none => simp [writeEntries, hfs] at h
    | some input =>
      by_cases hsize : e.size ≤ input.length
      · simp only [writeEntries, hfs, writeBytes_eq hsize, Bind.bind, Except.bind] at h
        cases hr : writeEntries fs entries (n + e.size) with
        | error f => simp [hr] at h
        | ok r =>
          obtain ⟨parts, hparts⟩ := ih hr
          exact ⟨_, .cons ⟨input, hfs, hsize, rfl⟩ hparts⟩
      · simp [writeEntries, hfs, writeBytes_error (not_le.1 hsize), Bind.bind, Except.bind] at h

/-- The file of an entry can be read to the size that is recorded. -/
def Whole (fs : FileSystem) (e : FileEntry) : Prop :=
  ∃ input, fs e.path = some input ∧ e.size ≤ input.length

/-- Before a file that cannot be opened, the data loops come to one that is too short. -/
def Short (fs : FileSystem) : List FileEntry → Prop
  | [] => False
  | e :: entries =>
    match fs e.path with
    | none => False
    | some input => input.length < e.size ∨ Short fs entries

theorem exists_packed_iff {fs : FileSystem} {entries : List FileEntry} :
    (∃ parts, Packed fs entries parts) ↔ ∀ e ∈ entries, Whole fs e := by
  constructor
  · rintro ⟨parts, hp⟩
    induction hp with
    | nil => exact fun e he => absurd he List.not_mem_nil
    | cons he _ ih =>
      obtain ⟨input, hfs, hsize, -⟩ := he
      exact List.forall_mem_cons.2 ⟨⟨input, hfs, hsize⟩, ih⟩
  · intro h
    induction entries with
    | nil => exact ⟨[], .nil⟩
    | cons e entries ih =>
      obtain ⟨⟨input, hfs, hsize⟩, h⟩ := List.forall_mem_cons.1 h
      obtain ⟨parts, hparts⟩ := ih h
      exact ⟨_, .cons ⟨input, hfs, hsize, rfl⟩ hparts⟩

/-- Where the data loops do not come to their end. -/
theorem writeEntries_error {fs : FileSystem} {entries : List FileEntry}
    (h : ¬ ∀ e ∈ entries, Whole fs e) :
    (Short fs entries ∧ ∀ n, writeEntries fs entries n = .error .uninitialised) ∨
      (¬ Short fs entries ∧ ∃ e, ∀ n, writeEntries fs entries n = .error (.thrown e)) := by
  induction entries with
  | nil => exact absurd (fun e he => absurd he List.not_mem_nil) h
  | cons e entries ih =>
    cases hfs : fs e.path with
    | none => exact .inr ⟨by simp [Short, hfs], _, fun n => by rw [writeEntries, hfs]⟩
    | some input =>
      by_cases hsize : e.size ≤ input.length
      · have hshort : Short fs (e :: entries) ↔ Short fs entries := by
          simp [Short, hfs, not_lt.2 hsize]
        have hrest : ¬ ∀ e ∈ entries, Whole fs e := fun hall =>
          h (List.forall_mem_cons.2 ⟨⟨input, hfs, hsize⟩, hall⟩)
        rw [hshort]
        rcases ih hrest with ⟨hs, hw⟩ | ⟨hs, ex, hw⟩
        · exact .inl ⟨hs, fun n => by
            simp [writeEntries, hfs, writeBytes_eq hsize, hw, Bind.bind, Except.bind]⟩
        · exact .inr ⟨hs, ex, fun n => by
            simp [writeEntries, hfs, writeBytes_eq hsize, hw, Bind.bind, Except.bind]⟩
      · exact .inl ⟨by simp [Short, hfs, not_le.1 hsize], fun n => by
          simp [writeEntries, hfs, writeBytes_error (not_le.1 hsize), Bind.bind, Except.bind]⟩

/-- Files that can all be read whole are not too short. -/
theorem not_short {fs : FileSystem} {entries : List FileEntry} (h : ∀ e ∈ entries, Whole fs e) :
    ¬ Short fs entries := by
  induction entries with
  | nil => exact id
  | cons e entries ih =>
    obtain ⟨⟨input, hfs, hsize⟩, h⟩ := List.forall_mem_cons.1 h
    simpa [Short, hfs, not_lt.2 hsize] using ih h

/-- **The data loops write the bytes of the entries.** -/
theorem writeData_eq {fs : FileSystem} {b : RCBuilder} {parts : List (List UInt8)}
    (hp : Packed fs b.entriesList parts) :
    writeData fs b = .ok (dataOutput (b.entriesList.zip parts)) := by
  have hsnd : (b.entriesList.zip parts).flatMap Prod.snd = parts.flatten := by
    rw [List.flatMap_def, List.map_snd_zip hp.length_eq.ge]
  simp [writeData, writeEntries_eq hp, dataOutput, hsnd, Bind.bind, Except.bind, Pure.pure,
    Except.pure]

theorem writeData_ok {fs : FileSystem} {b : RCBuilder} {out : List Chunk}
    (h : writeData fs b = .ok out) : ∃ parts, Packed fs b.entriesList parts := by
  cases hr : writeEntries fs b.entriesList 0 with
  | error f => simp [writeData, hr, Bind.bind, Except.bind] at h
  | ok r => exact writeEntries_ok hr

/-! ## Items and numbers -/

section FilterMap

variable {α : Type*} {f : Chunk → Option α} (hf : ∀ s, f (.text s) = none)

include hf

theorem filterMap_itemBreak (n : ℕ) : (itemBreak n).filterMap f = [] := by
  rw [itemBreak]
  split <;> simp [hf]

theorem filterMap_byteBreak (n : ℕ) : (byteBreak n).filterMap f = [] := by
  rw [byteBreak]
  split <;> simp [hf]

theorem filterMap_tocChunks (n : ℕ) (is : List TOCItem) :
    (tocChunks n is).filterMap f = is.filterMap fun i => f (.item i) := by
  induction is generalizing n with
  | nil => rfl
  | cons i is ih =>
    simp only [tocChunks, List.filterMap_append, filterMap_itemBreak hf, ih]
    cases hi : f (.item i) <;> simp [hi, hf]

theorem filterMap_tocOutput (F : Forest Str Extent) :
    (tocOutput F).filterMap f = (packItems F ++ [sentinel]).filterMap fun i => f (.item i) := by
  simp only [tocOutput, packItems, List.filterMap_append, filterMap_tocChunks hf,
    filterMap_itemBreak hf]
  cases hr : f (.item ⟨.directory, Str.ascii ":/", F.width, 0⟩) <;>
    simp [List.filterMap_cons, hf, hr]

theorem filterMap_byteChunks (n : ℕ) (bytes : List UInt8) :
    (byteChunks n bytes).filterMap f = bytes.filterMap fun c => f (.number (charToInt c)) := by
  induction bytes generalizing n with
  | nil => rfl
  | cons c bytes ih =>
    simp only [byteChunks, List.filterMap_append, filterMap_byteBreak hf, ih]
    cases hc : f (.number (charToInt c)) <;> simp [hc, hf]

theorem filterMap_entryChunks (n : ℕ) (parts : List (FileEntry × List UInt8)) :
    (entryChunks n parts).filterMap f =
      (parts.flatMap Prod.snd).filterMap fun c => f (.number (charToInt c)) := by
  induction parts generalizing n with
  | nil => rfl
  | cons part parts ih =>
    simp only [entryChunks, entryComment, List.filterMap_append, List.filterMap_cons, hf,
      filterMap_byteChunks hf, ih, List.flatMap_cons]

theorem filterMap_dataOutput (parts : List (FileEntry × List UInt8)) :
    (dataOutput parts).filterMap f =
      ((parts.flatMap Prod.snd).filterMap fun c => f (.number (charToInt c))) ++
        (f (.number 0)).toList := by
  simp only [dataOutput, List.filterMap_append, List.filterMap_cons, hf, filterMap_entryChunks hf,
    filterMap_byteBreak hf]
  cases f (.number 0) <;> simp

end FilterMap

theorem items_tocOutput (F : Forest Str Extent) :
    Chunk.items (tocOutput F) = packItems F ++ [sentinel] := by
  rw [Chunk.items, filterMap_tocOutput fun _ => rfl]
  exact List.filterMap_some

theorem data_tocOutput (F : Forest Str Extent) : Chunk.data (tocOutput F) = [] := by
  rw [Chunk.data, filterMap_tocOutput fun _ => rfl]
  simp [Chunk.number?]

theorem items_dataOutput (parts : List (FileEntry × List UInt8)) :
    Chunk.items (dataOutput parts) = [] := by
  rw [Chunk.items, filterMap_dataOutput fun _ => rfl]
  simp [Chunk.item?]

theorem items_output (F : Forest Str Extent) (parts : List (FileEntry × List UInt8)) (m : Str) :
    Chunk.items (header :: tocOutput F ++ dataOutput parts ++ [trailer m]) =
      packItems F ++ [sentinel] := by
  have h := items_tocOutput F
  have h' := items_dataOutput parts
  simp only [Chunk.items] at h h' ⊢
  simp [header, trailer, Chunk.item?, h, h', List.filterMap_cons]

/-- Bytes from 128 on are negative. -/
theorem charToInt_eq (c : UInt8) :
    charToInt c = if c.toNat < 128 then (c.toNat : ℤ) else (c.toNat : ℤ) - 256 := by
  have hc : c.toBitVec.toNat = c.toNat := rfl
  rw [charToInt, ← Int8.toInt_toBitVec, UInt8.toBitVec_toInt8, BitVec.toInt_eq_toNat_cond, hc]
  split <;> split <;> omega

/-- The conversion to `uint8_t` undoes the sign extension. -/
theorem ofInt_charToInt (c : UInt8) : UInt8.ofInt (charToInt c) = c := by
  have hc := c.toNat_lt
  have hmod : (charToInt c % 2 ^ 8).toNat = c.toNat := by
    rw [charToInt_eq]
    split <;> omega
  rw [UInt8.ofInt, hmod, UInt8.ofNat_toNat]

theorem data_dataOutput (parts : List (FileEntry × List UInt8)) :
    Chunk.data (dataOutput parts) = parts.flatMap Prod.snd ++ [0] := by
  have hnum : (parts.flatMap Prod.snd).filterMap (fun c => Chunk.number? (.number (charToInt c))) =
      (parts.flatMap Prod.snd).map charToInt := by
    rw [← List.filterMap_eq_map]
    rfl
  rw [Chunk.data, filterMap_dataOutput fun _ => rfl, hnum, List.map_append, List.map_map]
  simp only [Function.comp_def, ofInt_charToInt, List.map_id']
  rfl

theorem data_output (F : Forest Str Extent) (parts : List (FileEntry × List UInt8)) (m : Str) :
    Chunk.data (header :: tocOutput F ++ dataOutput parts ++ [trailer m]) =
      parts.flatMap Prod.snd ++ [0] := by
  have h := data_tocOutput F
  have h' := data_dataOutput parts
  simp only [Chunk.data] at h h' ⊢
  rw [List.map_eq_nil_iff] at h
  simp [header, trailer, Chunk.number?, h, ← h', List.filterMap_cons]

/-- The chunks of the whole file. -/
theorem writeFile_eq {order : Order} {fs : FileSystem} {b : RCBuilder} {F : Forest Str Extent}
    {parts : List (List UInt8)}
    (hF : Shape order b.heap (childList order b.heap b.root.rootDirectory) F)
    (hp : Packed fs b.entriesList parts) {fuel : ℕ} (hfuel : F.size < fuel) :
    writeFile fuel order fs true b = some (.ok (header :: tocOutput F ++
      dataOutput (b.entriesList.zip parts) ++ [trailer b.moduleName])) := by
  simp [writeFile, writeToc_eq hF hfuel, writeData_eq hp, Bind.bind, Except.bind, Pure.pure,
    Except.pure]

end Jord.Rc.RCBuilder
