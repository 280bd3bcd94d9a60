import Revalle.Shm.Interleaving

/-!
# The shared set of free pages

`Ipc::Mem::IdSet` is a lockless set of identifiers below a capacity. It is a
perfect binary tree of 64-bit atomic integers: a leaf is a bitset of
available identifiers, and an inner node packs two 32-bit counters, the
numbers of available identifiers below its left and its right child. The
tree is flattened into an array, level by level.

`pop` goes from the root to a leaf, and at every node *reserves* an
identifier by decrementing a counter before it descends into that child.
`push` goes from a leaf to the root, and *publishes* the identifier by
incrementing a counter of every node it passes. Neither is atomic as a
whole, and in between the counters of a node disagree with what is below.

`makeFullBeforeSharing` runs before the set is shared, so it is an ordinary
function of the array.
-/

namespace Ipc.Mem

open Shm Function

/-- The maximum number of pages that a leaf node can store. -/
def BitsPerLeaf : ℕ := 64

/-! ## Measurements -/

/-- Basic storage parameters. -/
structure IdSetMeasurements where
  /-- The maximum number of identifiers the tree is allowed to store. -/
  capacity : ℕ
  /-- The number of leaf nodes that satisfy capacity requirements. -/
  requestedLeafNodeCount : ℕ
  /-- Total number of levels, including the leaf level. -/
  treeHeight : ℕ
  /-- The number of nodes at the leaf level. -/
  leafNodeCount : ℕ
  /-- All levels except the leaf level. -/
  innerLevelCount : ℕ
deriving DecidableEq, Repr

namespace IdSetMeasurements

/-- The loop that makes a perfect tree with enough leaves. There are never
more than `2 ^ 26` leaves, so 32 rounds are enough. -/
def grow (requested : ℕ) : ℕ → ℕ × ℕ → ℕ × ℕ
  | 0, t => t
  | fuel + 1, (leafNodeCount, treeHeight) =>
    if leafNodeCount < requested then
      grow requested fuel (leafNodeCount * 2, treeHeight + 1)
    else (leafNodeCount, treeHeight)

/-- The constructor. The sum that is rounded up has 32 bits. -/
def ofCapacity (capacity : UInt32) : IdSetMeasurements :=
  let requested := ((capacity + 63) / 64).toNat
  let t := grow requested 32 (2, 2)
  { capacity := capacity.toNat
    requestedLeafNodeCount := requested
    treeHeight := t.2
    leafNodeCount := t.1
    innerLevelCount := t.2 - 1 }

/-- The total number of nodes at all levels. -/
def nodeCount (m : IdSetMeasurements) : ℕ :=
  if m.leafNodeCount = 0 then 0 else m.leafNodeCount * 2 - 1

end IdSetMeasurements

/-! ## Positions -/

/-- `dirLeft` and `dirRight`. -/
inductive Direction where
  | left
  | right
deriving DecidableEq, Repr

/-- `Ipc::Mem::IdSetPosition`. -/
structure Position where
  /-- The number of levels above. -/
  level : ℕ
  /-- The number of nodes of the level to the left. -/
  offset : ℕ
deriving DecidableEq, Repr

namespace Position

/-- The root node position. -/
def root : Position := ⟨0, 0⟩

/-- Whether this is the top of the tree. -/
def atRoot (pos : Position) : Bool := pos.level = 0 ∧ pos.offset = 0

/-- Which direction this position is from its parent. -/
def ascendDirection (pos : Position) : Direction :=
  if pos.offset % 2 = 0 then .left else .right

/-- The position of the parent. -/
def ascend (pos : Position) : Position := ⟨pos.level - 1, pos.offset / 2⟩

/-- The position of a child. -/
def descend (pos : Position) : Direction → Position
  | .left => ⟨pos.level + 1, pos.offset * 2⟩
  | .right => ⟨pos.level + 1, pos.offset * 2 + 1⟩

/-- The number of nodes before this one in the flattened tree. -/
def nodesBefore (pos : Position) : ℕ := 2 ^ pos.level - 1 + pos.offset

/-- The assertions of `nodeAt`. -/
def InTree (m : IdSetMeasurements) (pos : Position) : Prop :=
  pos.level < m.treeHeight
    ∧ (pos.offset < (2 ^ pos.level - 1) * 2 ∨ pos.atRoot = true ∧ 2 ^ pos.level - 1 = 0)
    ∧ pos.nodesBefore < m.nodeCount

instance (m : IdSetMeasurements) (pos : Position) : Decidable (pos.InTree m) :=
  inferInstanceAs (Decidable (_ ∧ _ ∧ _))

end Position

/-! ## Inner nodes -/

/-- `Ipc::Mem::IdSetInnerNode`. -/
structure IdSetInnerNode where
  /-- The number of available identifiers in the left subtree. -/
  left : UInt32
  /-- The number of available identifiers in the right subtree. -/
  right : UInt32
deriving DecidableEq, Repr

namespace IdSetInnerNode

/-- De-serialize a value. -/
def Unpack (packed : UInt64) : IdSetInnerNode := ⟨(packed >>> 32).toUInt32, packed.toUInt32⟩

/-- A serialized value suitable for shared memory storage. -/
def pack (n : IdSetInnerNode) : UInt64 := (n.left.toUInt64 <<< 32) ||| n.right.toUInt64

end IdSetInnerNode

/-! ## Operations -/

/-- The flattened tree. -/
abbrev Nodes := ℕ → UInt64

namespace IdSet

variable (m : IdSetMeasurements)

/-- Where a node is. A process that fails the assertions of `nodeAt` ends
here. -/
def nodeAt (pos : Position) : Prog Nodes ℕ :=
  if pos.InTree m then .ret pos.nodesBefore else .stall

/-- `compare_exchange_weak`: replace the node if it has the expected value,
and return the value found otherwise. It may fail for no reason. -/
def compareExchangeWeak (node : ℕ) (oldValue newValue : UInt64) : Prog Nodes (Option UInt64) :=
  .pick fun luck => .act
    (fun s => if s node = oldValue ∧ luck ≠ 0 then update s node newValue else s)
    (fun s => .ret (if s node = oldValue ∧ luck ≠ 0 then none else some (s node)))

/-- Account for an identifier added to a subtree. -/
def innerPush (pos : Position) (dir : Direction) : Prog Nodes Unit := do
  let increment := IdSetInnerNode.pack
    ⟨if dir = .left then 1 else 0, if dir = .right then 1 else 0⟩
  let node ← nodeAt m pos
  let previousValue ← Prog.rmw (fun s => update s node (s node + increment)) (· node)
  -- no overflows
  Prog.assert (previousValue ≤ 0 - 1 - increment)

/-- The loop of `innerPop`. -/
def innerPopLoop (node : ℕ) : ℕ → UInt64 → Prog Nodes (Option Direction)
  | 0, _ => .stall
  | fuel + 1, oldValue => do
    let value := IdSetInnerNode.Unpack oldValue
    if value.left ≠ 0 then
      match ← compareExchangeWeak node oldValue
          (IdSetInnerNode.pack { value with left := value.left - 1 }) with
      | none => return some .left
      | some found => innerPopLoop node fuel found
    else if value.right ≠ 0 then
      match ← compareExchangeWeak node oldValue
          (IdSetInnerNode.pack { value with right := value.right - 1 }) with
      | none => return some .right
      | some found => innerPopLoop node fuel found
    else
      return none

/-- Account for a future removal of an identifier from a subtree. Returns the
subtree chosen to relinquish it, if there is one. -/
def innerPop (pos : Position) : Prog Nodes (Option Direction) := do
  let node ← nodeAt m pos
  let oldValue ← Prog.load (· node)
  .pick fun fuel => innerPopLoop node fuel oldValue

/-- Add an identifier to a leaf. -/
def leafPush (pos : Position) (id : ℕ) : Prog Nodes Unit := do
  let mask : UInt64 := 1 <<< UInt64.ofNat (id % BitsPerLeaf)
  let node ← nodeAt m pos
  let oldValue ← Prog.rmw (fun s => update s node (s node ||| mask)) (· node)
  -- this was a new entry
  Prog.assert (oldValue &&& mask = 0)

/-- The loop of `trailingZeros`. -/
def trailingZerosLoop (x : UInt64) : ℕ → ℕ → UInt64 → ℕ
  | 0, count, _ => count
  | fuel + 1, count, mask =>
    if x &&& mask = 0 then trailingZerosLoop x fuel (count + 1) (mask <<< 1) else count

/-- The number of trailing zeros. -/
def trailingZeros (x : UInt64) : ℕ :=
  if x = 0 then 64 else trailingZerosLoop x 64 0 1

/-- The loop of `leafPop`. -/
def leafPopLoop (node : ℕ) : ℕ → UInt64 → Prog Nodes UInt64
  | 0, _ => .stall
  | fuel + 1, oldValue => do
    Prog.assert (oldValue > 0)
    -- clears the rightmost 1
    match ← compareExchangeWeak node oldValue (oldValue &&& (oldValue - 1)) with
    | none => return oldValue
    | some found => leafPopLoop node fuel found

/-- Extract an identifier from a leaf. -/
def leafPop (pos : Position) : Prog Nodes ℕ := do
  let node ← nodeAt m pos
  let oldValue ← Prog.load (· node)
  let oldValue ← Prog.pick fun fuel => leafPopLoop node fuel oldValue
  return pos.offset * BitsPerLeaf + trailingZeros oldValue

/-- The loop of `pop`, below the root. `descend` asserts that there is a
direction. -/
def popLoop : ℕ → Position → Prog Nodes Position
  | 0, pos => .ret pos
  | levels + 1, pos => do
    match ← innerPop m pos with
    | some direction => popLoop levels (pos.descend direction)
    | none => .abort

/-- Extract an identifier, unless none is left. -/
def pop : Prog Nodes (Option ℕ) := do
  match ← innerPop m .root with
  | none => return none
  | some directionFromRoot =>
    let pos ← popLoop m (m.innerLevelCount - 1) (Position.root.descend directionFromRoot)
    let id ← leafPop m pos
    return some id

/-- The loop of `push`. `ascend` asserts that this is not the top level. -/
def pushLoop : ℕ → ℕ → Prog Nodes Unit
  | 0, _ => .abort
  | level + 1, offset => do
    let parent := Position.ascend ⟨level + 1, offset⟩
    innerPush m parent (Position.ascendDirection ⟨level + 1, offset⟩)
    if parent.atRoot then .ret () else pushLoop level (offset / 2)

/-- Make an identifier available to future `pop` callers. -/
def push (id : ℕ) : Prog Nodes Unit := do
  leafPush m ⟨m.innerLevelCount, id / BitsPerLeaf⟩ id
  pushLoop m m.innerLevelCount (id / BitsPerLeaf)

/-! ## Filling the set -/

/-- `std::fill_n`. -/
def fill (node count : ℕ) (value : UInt64) (s : Nodes) : Nodes :=
  fun i => if node ≤ i ∧ i < node + count then value else s i

/-- The inner levels of `fillAllNodes`, above the given level. -/
def fillInner : ℕ → ℕ → ℕ → Nodes → Nodes
  | 0, _, _, s => s
  | level + 1, nodesAtLevel, pagesBelow, s =>
    fillInner level (nodesAtLevel / 2) (pagesBelow * 2)
      (fill (Position.nodesBefore ⟨level, 0⟩) nodesAtLevel
        (IdSetInnerNode.pack ⟨UInt32.ofNat pagesBelow, UInt32.ofNat pagesBelow⟩) s)

/-- Populate the entire tree with available identifiers. -/
def fillAllNodes (s : Nodes) : Nodes :=
  fillInner m.innerLevelCount (m.leafNodeCount / 2) BitsPerLeaf
    (fill (Position.nodesBefore ⟨m.innerLevelCount, 0⟩) m.leafNodeCount (0 - 1) s)

/-- Fill a leaf with zeros, leaving only some identifiers. Shifting by the full
width is undefined, so `junk` stands for its outcome. -/
def leafTruncate (junk : UInt64) (pos : Position) (idsToKeep : ℕ) (s : Nodes) : Option Nodes :=
  if pos.InTree m ∧ s pos.nodesBefore = 0 - 1 then
    some (update s pos.nodesBefore
      (if idsToKeep = 0 then junk
        else s pos.nodesBefore >>> UInt64.ofNat (BitsPerLeaf - idsToKeep)))
  else none

/-- Account for the removal of identifiers from a subtree. Returns how many to
subtract from the parent. -/
def innerTruncate (pos : Position) (dir : Direction) (toSubtract : UInt32) (s : Nodes) :
    Option (Nodes × UInt32) :=
  let value := IdSetInnerNode.Unpack (s pos.nodesBefore)
  match dir with
  | .left =>
    if pos.InTree m ∧ value.left ≥ toSubtract then
      some (update s pos.nodesBefore
        (IdSetInnerNode.pack ⟨value.left - toSubtract, 0⟩), toSubtract + value.right)
    else none
  | .right =>
    if pos.InTree m ∧ value.right ≥ toSubtract then
      some (update s pos.nodesBefore
        (IdSetInnerNode.pack ⟨value.left, value.right - toSubtract⟩), toSubtract)
    else none

/-- The inner nodes of `truncateExtras`, on the way up from a position. -/
def truncateInner : ℕ → ℕ → UInt32 → Nodes → Option Nodes
  | 0, _, _, s => some s
  | level + 1, offset, toSubtract, s => do
    let direction := Position.ascendDirection ⟨level + 1, offset⟩
    let (s, toSubtract) ← innerTruncate m ⟨level, offset / 2⟩ direction toSubtract s
    truncateInner level (offset / 2) toSubtract s

/-- Remove the identifiers that exceed the requested capacity. -/
def truncateExtras (junk : UInt64) (s : Nodes) : Option Nodes := do
  let pos : Position := ⟨m.innerLevelCount, m.capacity / BitsPerLeaf⟩
  let s ← leafTruncate m junk pos (m.capacity % BitsPerLeaf) s
  let rightLeaves := m.leafNodeCount - m.requestedLeafNodeCount
  let s := if rightLeaves > 1 then fill (pos.nodesBefore + 1) (rightLeaves - 1) 0 s else s
  truncateInner m m.innerLevelCount (m.capacity / BitsPerLeaf)
    (UInt32.ofNat (BitsPerLeaf - m.capacity % BitsPerLeaf)) s

/-- **Populate the set with all identifiers below the capacity**, before it is
shared. `none` is a failed assertion. -/
def makeFullBeforeSharing (junk : UInt64) (s : Nodes) : Option Nodes :=
  if m.capacity ≠ m.leafNodeCount * BitsPerLeaf then
    truncateExtras m junk (fillAllNodes m s)
  else some (fillAllNodes m s)

/-! ## The processes -/

/-- What a process does to the set. -/
inductive Op where
  | pop
  | push (id : ℕ)
deriving DecidableEq, Repr

/-- **Processes sharing one set.** A process holds the identifiers it has
popped and not pushed since, and pushes only what it holds. At the start it
may hold identifiers that were never in the set. -/
def system {P : Type} (init : Nodes) (start : P → Finset ℕ) :
    System Nodes P (Finset ℕ) Op where
  init := init
  start := start
  call _ op _ held :=
    match op with
    | .pop => some (held, do
        match ← pop m with
        | some id => return insert id held
        | none => return held)
    | .push id =>
      if id ∈ held ∧ id < m.capacity then
        some (held.erase id, do push m id; return held.erase id)
      else none

end IdSet

end Ipc.Mem
