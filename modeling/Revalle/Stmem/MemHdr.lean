import Revalle.Data.Checked
import Revalle.Include.SplayTree

/-!
# The memory of a stored object

`mem_hdr` keeps the body of an object in nodes of a page each. A node has a number
of consecutive bytes from an offset on; it grows at its end until the page is full.
The nodes are found with a splay tree whose comparison takes nodes for equal when
their bytes overlap, and one more number says where the data ends (`inmem_hi`).

The tree has pointers to nodes. A pointer is a number here, and `mem` is what it
points to, so that a node that grows is not touched in the tree. A node on the stack,
such as those that searches are made with, has the next number that is free.
-/

namespace Stmem

open Checked

/-- `SM_PAGE_SIZE`. -/
def pageSize : ℕ := 4096

/-- `Range<int64_t>`: from `start` up to and without `end_`. -/
structure Range where
  start : ℤ
  end_ : ℤ
  deriving DecidableEq, Repr

namespace Range

def intersection (r rhs : Range) : Range := ⟨max r.start rhs.start, min r.end_ rhs.end_⟩

def size (r : Range) : ℕ := (r.end_ - r.start).toNat

end Range

/-- `mem_node`. Of `data` it has the bytes that were deposited. -/
structure MemNode where
  offset : ℤ
  length : ℕ
  data : List UInt8
  writePending : Bool
  deriving DecidableEq, Repr

namespace MemNode

/-- The constructor. -/
def new (offset : ℤ) : MemNode := ⟨offset, 0, [], false⟩

def end_ (n : MemNode) : ℤ := n.offset + n.length

def dataRange (n : MemNode) : Range := ⟨n.offset, n.end_⟩

def space (n : MemNode) : ℕ := pageSize - n.length

def canAccept (n : MemNode) (location : ℤ) : Bool := location = n.end_ ∧ 0 < n.space

end MemNode

/-- `mem_hdr::NodeCompare`. -/
def nodeCompare (left right : MemNode) : ℤ :=
  if 0 < (left.dataRange.intersection right.dataRange).size then 0
  else if left.offset < right.offset then -1
  else 1

/-- `mem_hdr`, with the nodes in memory. -/
structure MemHdr where
  inmemHi : ℤ
  nodes : SplayTree.Tree ℕ
  mem : ℕ → MemNode
  /-- the next free place -/
  next : ℕ

namespace MemHdr

def new (mem : ℕ → MemNode) : MemHdr := ⟨0, .empty, mem, 0⟩

/-- `NodeCompare` of two pointers. -/
def compare (s : MemHdr) (a b : ℕ) : ℤ := nodeCompare (s.mem a) (s.mem b)

end MemHdr

/-- Put a node into the next free place. -/
def allocate (n : MemNode) : Checked MemHdr ℕ := do
  let s ← get
  set { s with mem := Function.update s.mem s.next n, next := s.next + 1 }
  return s.next

/-- **Search** with a node on the stack. The comparison asserts that it starts at no
negative offset. -/
def findNode (target : MemNode) : Checked MemHdr (Option ℕ) := do
  let s ← get
  require (s.nodes.values = [] ∨ 0 ≤ target.offset)
  let withTarget := { s with mem := Function.update s.mem s.next target }
  let (nodes, found) := s.nodes.find withTarget.compare s.next
  set { s with nodes := nodes }
  return found

def lowestOffset : Checked MemHdr ℤ := do
  let s ← get
  match s.nodes.start with
  | some theStart => return (s.mem theStart).offset
  | none => return 0

def endOffset : Checked MemHdr ℤ := do
  let s ← get
  let result := match s.nodes.finish with
    | some theEnd => (s.mem theEnd).end_
    | none => 0
  require (result = s.inmemHi)
  return result

def freeContent : Checked MemHdr Unit :=
  modify fun s => { s with nodes := .empty, inmemHi := 0 }

def unlink (aNode : ℕ) : Checked MemHdr Bool := do
  let s ← get
  if (s.mem aNode).writePending then return false
  else
    set { s with nodes := s.nodes.remove s.compare aNode }
    return true

/-- The loop of `freeDataUpto`. One unit of `fuel` for each node is enough. -/
def freeLoop (targetOffset : ℤ) : ℕ → Checked MemHdr Unit
  | 0 => return ()
  | fuel + 1 => do
    let s ← get
    match s.nodes.start with
    | none => return ()
    | some theStart =>
      -- keep the last one
      if s.nodes.finish = some theStart then return ()
      else if targetOffset < (s.mem theStart).end_ then return ()
      else if ← unlink theStart then freeLoop targetOffset fuel
      else return ()

def freeDataUpto (targetOffset : ℤ) : Checked MemHdr ℤ := do
  let s ← get
  freeLoop targetOffset s.nodes.size
  lowestOffset

/-- `appendNode`. -/
def appendNode (aNode : ℕ) : Checked MemHdr Unit :=
  modify fun s => { s with nodes := (s.nodes.insert s.compare aNode).1 }

/-- `getBlockContainingLocation`. -/
def getBlockContainingLocation (location : ℤ) : Checked MemHdr (Option ℕ) :=
  findNode { MemNode.new location with length := 1 }

/-! ## Writing -/

def writeAvailable (aNode : ℕ) (location : ℤ) (source : List UInt8) : Checked MemHdr ℕ := do
  let s ← get
  let n := s.mem aNode
  require (location = n.offset + n.length)
  require (n.canAccept location)
  let copyLen := min source.length n.space
  set { s with
    inmemHi := if s.inmemHi ≤ location then location + copyLen else s.inmemHi
    mem := Function.update s.mem aNode
      { n with length := n.length + copyLen, data := n.data ++ source.take copyLen } }
  return copyLen

def unionNotEmpty (offset : ℤ) (length : ℕ) : Checked MemHdr Bool := do
  require (0 ≤ offset)
  let found ← findNode { MemNode.new offset with length := length }
  return found.isSome

/-- The node that contains the offset before the given one. -/
def leadup (offset : ℤ) : Checked MemHdr (Option ℕ) :=
  if 0 < offset then getBlockContainingLocation (offset - 1) else return none

/-- Whether a node is there and can accept the offset. -/
def candidateFor (s : MemHdr) (offset : ℤ) (candidate : Option ℕ) : Option ℕ :=
  candidate.filter (fun a => (s.mem a).canAccept offset)

/-- `appendNode (new mem_node(offset))`. -/
def appendNewNode (offset : ℤ) : Checked MemHdr ℕ := do
  let a ← allocate (.new offset)
  appendNode a
  return a

/-- `nodeToRecieve`. -/
def nodeToRecieve (offset : ℤ) : Checked MemHdr ℕ := do
  let s ← get
  if s.nodes.size = 0 then
    let _ ← appendNewNode offset
    let s ← get
    match s.nodes.start with
    | some theStart => return theStart
    | none => failure
  else
    let candidate ← leadup offset
    let s ← get
    match candidateFor s offset candidate with
    | some candidate => return candidate
    | none => appendNewNode offset

/-- The loop of `write`. -/
def writeLoop (currentOffset : ℤ) (source : List UInt8) : Checked MemHdr Unit :=
  if source = [] then return ()
  else do
    let target ← nodeToRecieve currentOffset
    let wrote ← writeAvailable target currentOffset source
    if wrote = 0 then failure
    else writeLoop (currentOffset + wrote) (source.drop wrote)
termination_by source.length
decreasing_by
  have := List.length_pos_iff.mpr ‹¬source = []›
  rw [List.length_drop]
  omega

/-- `write`, which does not survive an attempt to overwrite data. -/
def write (offset : ℤ) (data : List UInt8) : Checked MemHdr Unit := do
  if ← unionNotEmpty offset data.length then failure
  else
    require (0 ≤ offset)
    writeLoop offset data

/-! ## Reading -/

def copyAvailable (aNode : ℕ) (location : ℤ) (amount : ℕ) : Checked MemHdr (List UInt8) := do
  let s ← get
  let n := s.mem aNode
  if location < n.offset then return []
  else
    require (location < n.end_)
    let copyOffset := (location - n.offset).toNat
    return (n.data.drop copyOffset).take (min amount (n.length - copyOffset))

/-- The loop of `copy`: what it copies. -/
def copyLoop (p : Option ℕ) (location : ℤ) (bytesToGo : ℕ) : Checked MemHdr (List UInt8) :=
  match p with
  | none => return []
  | some a =>
    if bytesToGo = 0 then return []
    else do
      let bytes ← copyAvailable a location bytesToGo
      -- hit a sparse patch
      if bytes = [] then return []
      else
        let p ← getBlockContainingLocation (location + bytes.length)
        let rest ← copyLoop p (location + bytes.length) (bytesToGo - bytes.length)
        return bytes ++ rest
termination_by bytesToGo
decreasing_by
  have := List.length_pos_iff.mpr ‹¬bytes = []›
  omega

/-- `copy`: the bytes that are copied to the target. -/
def copy (offset : ℤ) (length : ℕ) : Checked MemHdr (List UInt8) := do
  require (0 < length)
  let s ← get
  require (s.nodes.size ≠ 0)
  match ← getBlockContainingLocation offset with
  | none => failure
  | some p => copyLoop (some p) offset length

/-- The loop of `hasContigousContentRange`. One unit of `fuel` for each offset of the
range is enough. -/
def contigousLoop (range : Range) : ℕ → ℤ → Checked MemHdr Bool
  | 0, _ => failure
  | fuel + 1, currentStart => do
    match ← getBlockContainingLocation currentStart with
    | none => return range.size = 0
    | some curr =>
      let s ← get
      let currentStart := (s.mem curr).end_
      if range.end_ ≤ currentStart then return true
      else contigousLoop range fuel currentStart

def hasContigousContentRange (range : Range) : Checked MemHdr Bool :=
  contigousLoop range (range.size + 1) range.start

/-! ## Histories -/

/-- A call. Nodes are named by an offset that they contain. -/
inductive Call
  | write (offset : ℤ) (data : List UInt8)
  | freeDataUpto (targetOffset : ℤ)
  | unlink (location : ℤ)
  | freeContent
  /-- `NodeGet` and `memNodeWriteComplete` -/
  | setPending (location : ℤ) (writePending : Bool)
  | lookup (location : ℤ)

/-- What a call did to the data. -/
inductive Effect
  | wrote (offset : ℤ) (data : List UInt8)
  | freed (lowestOffset : ℤ)
  | unlinked (range : Range)
  | cleared
  | nothing

/-- The node of an offset, if there is one. -/
def nodeAt (location : ℤ) : Checked MemHdr (Option ℕ) :=
  if 0 ≤ location then getBlockContainingLocation location else return none

/-- One call, and what it did. -/
def runCall : Call → Checked MemHdr Effect
  | .write offset data => do
    write offset data
    return .wrote offset data
  | .freeDataUpto targetOffset => do
    let lowest ← freeDataUpto targetOffset
    return .freed lowest
  | .unlink location => do
    match ← nodeAt location with
    | none => return .nothing
    | some a =>
      let s ← get
      if ← unlink a then return .unlinked (s.mem a).dataRange else return .nothing
  | .freeContent => do
    freeContent
    return .cleared
  | .setPending location writePending => do
    match ← nodeAt location with
    | none => return .nothing
    | some a =>
      modify fun s => { s with mem := Function.update s.mem a { s.mem a with writePending } }
      return .nothing
  | .lookup location => do
    let _ ← nodeAt location
    return .nothing

/-- The calls of a history, and what they did. -/
def runCalls : List Call → Checked MemHdr (List Effect)
  | [] => return []
  | call :: calls => do
    let effect ← runCall call
    let effects ← runCalls calls
    return effect :: effects

end Stmem
