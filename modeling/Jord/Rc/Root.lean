import Jord.Foundations.Loop
import Jord.Rc.Directory

/-!
# Resource packs

A pack is a tree of nodes and a data array. `construct` is the constructor of `rc::Root`: it
rebuilds the tree from a table of contents with an explicit stack of the directories that still
expect entries. `find`, `getFilePointer` and `getFileSize` are the lookups of the class.
-/

namespace Jord.Rc

/-- `Root::TOCItem::TOCItemType` -/
inductive TOCItemType
  | directory
  | file
  deriving DecidableEq

/-- `Root::TOCItem`; the union of `EntriesCount` and `Offset` is one number. -/
structure TOCItem where
  type : TOCItemType
  name : Str
  count : ℕ
  fileSize : ℕ
  deriving DecidableEq

namespace TOCItem

/-- The member `EntriesCount` of the union. -/
abbrev entriesCount (i : TOCItem) : ℕ := i.count

/-- The member `Offset` of the union. -/
abbrev offset (i : TOCItem) : ℕ := i.count

end TOCItem

/-- The ways in which a function of the resource code does not return: what the language gives no
meaning to, and exceptions. -/
inductive Fault
  /-- An array or a vector is read outside of its bounds. -/
  | readPastEnd
  /-- A null pointer is dereferenced. -/
  | nullPointer
  /-- A counter that is zero is decremented. -/
  | zeroCounter
  /-- An `assert` fails. -/
  | assertion
  /-- A variable is read that holds no value. -/
  | uninitialised
  | thrown (e : Exn)
  deriving DecidableEq

/-- `rc::Root`: the data array `m_BaseAddress` points to, and the root directory. -/
structure Root where
  baseAddress : List UInt8
  rootDirectory : NodeId
  deriving DecidableEq

namespace Root

/-! ## The constructor -/

/-- The variables of the loop of the constructor: the stack `state`, its top first, and the index of
the item `current` points to. `visited` records the indices `current` has taken. -/
structure ParserState where
  heap : Heap
  state : List (NodeId × ℕ)
  current : ℕ
  visited : List ℕ

/-- `while( !state.empty() && !state.top().second ) state.pop();` -/
def popFinished : List (NodeId × ℕ) → List (NodeId × ℕ)
  | (_, 0) :: state => popFinished state
  | state => state

/-- One round of the loop of the constructor. -/
def parseStep (toc : List TOCItem) (s : ParserState) : ParserState ⊕ Except Fault ParserState :=
  match s.state with
  | [] => .inr (.ok s)
  | (top, count) :: state =>
    let current := s.current + 1
    let visited := s.visited ++ [current]
    match count with
    | 0 => .inr (.error .zeroCounter)
    | count + 1 =>
      match toc[current]? with
      | none => .inr (.error .readPastEnd)
      | some item =>
        match item.type with
        | .directory =>
          if item.entriesCount ≠ 0 then
            match s.heap.newDirectory item.name (some top) with
            | .error e => .inr (.error (.thrown e))
            | .ok (heap, newDir) =>
              .inl ⟨heap, popFinished ((newDir, item.entriesCount) :: (top, count) :: state),
                current, visited⟩
          else .inl ⟨s.heap, popFinished ((top, count) :: state), current, visited⟩
        | .file =>
          match s.heap.newFile item.offset item.fileSize item.name (some top) with
          | .error e => .inr (.error (.thrown e))
          | .ok (heap, _) => .inl ⟨heap, popFinished ((top, count) :: state), current, visited⟩

/-- What is left when the constructor returns: the heap, the root directory and what the loop did
with `current`. -/
structure Constructed where
  heap : Heap
  rootDirectory : NodeId
  current : ℕ
  visited : List ℕ

/-- `Root::Root`, run by the `Root` object `self` in a heap; the fuel bounds the rounds of the
loop. -/
def construct (fuel : ℕ) (heap : Heap) (self : RootId) (toc : List TOCItem) :
    Option (Except Fault Constructed) :=
  match toc[0]? with
  | none => some (.error .readPastEnd)
  | some item =>
    if item.type ≠ .directory then some (.error .assertion)
    else
      match heap.newDirectory (Str.ascii ":/") none with
      | .error e => some (.error (.thrown e))
      | .ok (h, root) => do
        let h ← h.setOwner self 1 root
        if item.entriesCount = 0 then return .ok ⟨h, root, 0, [0]⟩
        let r ← Loop.run (parseStep toc) fuel ⟨h, [(root, item.entriesCount)], 0, [0]⟩
        return r.map fun s => ⟨s.heap, root, s.current, s.visited⟩

/-! ## Lookups -/

/-- `Root::find`: the first two characters are cut off, which throws on a shorter string. -/
def find (heap : Heap) (r : Root) (path : Str) : Except Exn (Option NodeId) :=
  if path.length < 2 then .error .outOfRange
  else .ok (heap.findRecursive r.rootDirectory (path.drop 2))

/-- A pointer into a data array. -/
structure Pointer where
  base : List UInt8
  offset : ℕ
  deriving DecidableEq

/-- `Root::getFilePointer`: null unless the node is a file. -/
def getFilePointer (heap : Heap) (r : Root) (node : Option NodeId) : Option Pointer :=
  match node.bind heap.entryOf with
  | some (.file e) => some ⟨r.baseAddress, e.offset⟩
  | _ => none

/-- `Root::getFileSize`: zero unless the node is a file. -/
def getFileSize (heap : Heap) (node : Option NodeId) : ℕ :=
  match node.bind heap.entryOf with
  | some (.file e) => e.size
  | _ => 0

/-- The bytes that `size` bytes from a pointer on hold. -/
def Pointer.read (p : Pointer) (size : ℕ) : List UInt8 := (p.base.drop p.offset).take size

end Root

end Jord.Rc
