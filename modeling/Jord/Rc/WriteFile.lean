import Jord.Rc.Builder

/-!
# Writing the source file of a pack

`RCBuilder::writeFile` writes a table of contents and a data array as C++ source. The stream is a
list of chunks: literal text, the items of the table, the numbers of the array. `Chunk.render` is
what the stream inserts for a chunk, so the text of the file is `render` of all chunks, and the
emitted table and array are the items and numbers among them.

The table is written by an explicit-stack depth-first loop over the directories (`tocStep`); the
stack holds for each open directory its enumerated children and how many of them are done.
-/

namespace Jord.Rc

/-- A piece of the output stream. -/
inductive Chunk
  | text (s : Str)
  | item (i : TOCItem)
  | number (i : ℤ)
  deriving DecidableEq

namespace RCBuilder

open Heap

/-! ## The table of contents -/

/-- The variables of the table loop: what has been written, the number of items written, and the
stack `directories`, its top first. -/
structure TocState where
  out : List Chunk
  itemsWritten : ℕ
  directories : List (List NodeId × ℕ)

/-- `items_per_string` -/
def itemsPerString : ℕ := 3

/-- `while( !directories.empty() && (top.first.size() <= top.second) ) directories.pop();` -/
def popDone : List (List NodeId × ℕ) → List (List NodeId × ℕ)
  | [] => []
  | (list, i) :: directories =>
    if list.length ≤ i then popDone directories else (list, i) :: directories

/-- `stream << "\n\t"` after every third item. -/
def itemBreak (itemsWritten : ℕ) : List Chunk :=
  if itemsWritten % itemsPerString = 0 then [.text (Str.ascii "\n\t")] else []

/-- `dir->getChildren( temp_list )` on an empty list. -/
def childList (order : Order) (h : Heap) (d : NodeId) : List NodeId :=
  getChildren order h (fun _ => true) false 1 d

/-- One round of the table loop. -/
def tocStep (order : Order) (h : Heap) (s : TocState) : TocState ⊕ Except Fault TocState :=
  match s.directories with
  | [] => .inr (.ok s)
  | (list, i) :: directories =>
    let out := s.out ++ itemBreak s.itemsWritten
    let itemsWritten := s.itemsWritten + 1
    match list[i]? with
    | none => .inr (.error .readPastEnd)
    | some node =>
      let directories := (list, i + 1) :: directories
      match h[node]? with
      | none => .inr (.error .nullPointer)
      | some x =>
        match x.data with
        | .directory _ =>
          let tempList := childList order h node
          let directories :=
            if tempList.length ≠ 0 then (tempList, 0) :: directories else directories
          .inl ⟨out ++ [.item ⟨.directory, x.name, tempList.length, 0⟩, .text (Str.ascii ", ")],
            itemsWritten, popDone directories⟩
        | .file e =>
          .inl ⟨out ++ [.item ⟨.file, x.name, e.offset, e.size⟩, .text (Str.ascii ", ")],
            itemsWritten, popDone directories⟩

/-- The item that ends the table. -/
def sentinel : TOCItem := ⟨.file, [], 0, 0⟩

/-- The table of contents; the fuel bounds the rounds of the loop. -/
def writeToc (fuel : ℕ) (order : Order) (b : RCBuilder) : Option (Except Fault (List Chunk)) :=
  let tempList := childList order b.heap b.root.rootDirectory
  let directories := if tempList.length ≠ 0 then [(tempList, 0)] else []
  let out := [.text (Str.ascii "static const rc::Root::TOCItem __toc[] = \x7b\n\t"),
    .item ⟨.directory, Str.ascii ":/", tempList.length, 0⟩, .text (Str.ascii ", ")]
  (Loop.run (tocStep order b.heap) fuel ⟨out, 1, directories⟩).map fun r => r.map fun s =>
    s.out ++ itemBreak s.itemsWritten ++ [.item sentinel, .text (Str.ascii " \n\x7d;\n\n")]

/-! ## The data array -/

/-- `bytes_per_row` -/
def bytesPerRow : ℕ := 30

/-- `int( data )` for a byte read into a `char`, which is signed. -/
def charToInt (c : UInt8) : ℤ := c.toInt8.toInt

/-- `stream << "\n\t"` before every thirtieth number. -/
def byteBreak (bytesWritten : ℕ) : List Chunk :=
  if bytesWritten % bytesPerRow = 0 then [.text (Str.ascii "\n\t")] else []

/-- The inner data loop: `size` bytes of an input. Past the end of the input the variable `data`
would be written without a value. -/
def writeBytes : ℕ → List UInt8 → ℕ → Except Fault (List Chunk × ℕ)
  | 0, _, bytesWritten => .ok ([], bytesWritten)
  | _ + 1, [], _ => .error .uninitialised
  | size + 1, data :: input, bytesWritten => do
    let (out, n) ← writeBytes size input (bytesWritten + 1)
    return (byteBreak bytesWritten ++ [.number (charToInt data), .text (Str.ascii ", ")] ++ out, n)

/-- The comment line before the bytes of an entry. -/
def entryComment (e : FileEntry) : Chunk :=
  .text (Str.ascii "\n\t// " ++ e.path ++ Str.ascii " " ++ Str.decimal e.size ++ Str.ascii "\n\t")

/-- The outer data loop, over the entries. -/
def writeEntries (fs : FileSystem) : List FileEntry → ℕ → Except Fault (List Chunk × ℕ)
  | [], bytesWritten => .ok ([], bytesWritten)
  | e :: entries, bytesWritten =>
    match fs e.path with
    | none => .error (.thrown (.rc (Str.ascii "Failed to open '" ++ e.path ++ Str.ascii "'")))
    | some input => do
      let (out, n) ← writeBytes e.size input bytesWritten
      let (out', n') ← writeEntries fs entries n
      return (entryComment e :: out ++ out', n')

/-- The data array. -/
def writeData (fs : FileSystem) (b : RCBuilder) : Except Fault (List Chunk) := do
  let (out, bytesWritten) ← writeEntries fs b.entriesList 0
  return .text (Str.ascii "static const uint8_t __data[] = \x7b") :: out ++
    byteBreak bytesWritten ++ [.number 0, .text (Str.ascii "\n\x7d;\n\n")]

/-! ## The file -/

/-- The lines before the table of contents. -/
def header : Chunk :=
  .text (Str.ascii "//Auto generated by rcgen.\n\n#include \"rc/Root.h\"\n\n")

/-- The function that registers the pack. -/
def trailer (moduleName : Str) : Chunk :=
  .text (Str.ascii "extern rc::RootPtr " ++ moduleName ++ Str.ascii "_open();\n\n" ++
    Str.ascii "rc::RootPtr " ++ moduleName ++ Str.ascii "_open()\n\x7b\n" ++
    Str.ascii "\treturn rc::RootPtr( new rc::Root( __toc, __data ) );\n" ++ Str.ascii "\x7d\n")

/-- `RCBuilder::writeFile` on a stream that is open or not. -/
def writeFile (fuel : ℕ) (order : Order) (fs : FileSystem) (isOpen : Bool) (b : RCBuilder) :
    Option (Except Fault (List Chunk)) :=
  if isOpen then
    (writeToc fuel order b).map fun toc => do
      let toc ← toc
      let data ← writeData fs b
      return header :: toc ++ data ++ [trailer b.moduleName]
  else some (.error (.thrown (.rc (Str.ascii "Failed to open the file for writing"))))

end RCBuilder

namespace Chunk

/-- The name of a type of items in the source text. -/
def typeName : TOCItemType → Str
  | .directory => Str.ascii "Directory"
  | .file => Str.ascii "File"

/-- The text an item is written as. -/
def renderItem (i : TOCItem) : Str :=
  Str.ascii "\x7b rc::Root::TOCItem::" ++ typeName i.type ++ Str.ascii ", \"" ++ i.name ++
    Str.ascii "\", " ++ Str.decimal i.count ++ Str.ascii ", " ++ Str.decimal i.fileSize ++
    Str.ascii " \x7d"

/-- The characters inserted into the stream for a chunk. -/
def render : Chunk → Str
  | text s => s
  | item i => renderItem i
  | number i => Str.signed i

/-- The item a chunk emits. -/
def item? : Chunk → Option TOCItem
  | item i => some i
  | _ => none

/-- The initializer a chunk emits. -/
def number? : Chunk → Option ℤ
  | number i => some i
  | _ => none

/-- The table of contents a stream emits, names taken verbatim. -/
def items (out : List Chunk) : List TOCItem := out.filterMap item?

/-- The data array a stream emits, each initializer converted to `uint8_t`. -/
def data (out : List Chunk) : List UInt8 := (out.filterMap number?).map fun i => UInt8.ofInt i

end Chunk

end Jord.Rc
