import Revalle.Ipc.Mem.IdSetNode

/-!
# The tree of a set of identifiers

The tree is perfect, so a node is given by its level and its offset in the
level, and the array of nodes is the tree read level by level. `Good` is the
accounting the tree keeps: the counter a parent has for a child, and what
operations under way owe to the child, are together what the child says is
below it. It is stated for any amount owed, so that it can be used both for
a tree at rest and for a tree that many processes are changing.

Capacities are rarely a multiple of what a perfect tree has room for. Nodes
that have no identifier of the set below them are not *alive*: no counter
leads to them, and nothing is said of what they contain.

`makeFullBeforeSharing` fills the whole tree and then takes the extras away,
along the path from the first leaf with extras to the root.
-/

namespace Ipc.Mem

open Function Finset Position IdSetInnerNode Option Nat

/-! ## The shape of the tree -/

namespace IdSetMeasurements

/-- **The tree is perfect.** -/
structure Perfect (m : IdSetMeasurements) : Prop where
  treeHeight : m.treeHeight = m.innerLevelCount + 1
  leafNodeCount : m.leafNodeCount = 2 ^ m.innerLevelCount
  pos : 1 ≤ m.innerLevelCount
  le : m.innerLevelCount ≤ 26

theorem grow_eq {requested h : ℕ} (hr : requested ≤ 2 ^ 26) (fuel : ℕ) (hle : h ≤ 26) :
    ∃ h', h ≤ h' ∧ h' ≤ 26 ∧ grow requested fuel (2 ^ h, h + 1) = (2 ^ h', h' + 1)
      ∧ (26 ≤ h + fuel → requested ≤ 2 ^ h') := by
  induction fuel generalizing h with
  | zero =>
    refine ⟨h, le_rfl, hle, rfl, fun h26 => ?_⟩
    rwa [show h = 26 by omega]
  | succ fuel ih =>
    by_cases hlt : 2 ^ h < requested
    · have h26 : h < 26 := (Nat.pow_lt_pow_iff_right Nat.one_lt_two).mp (hlt.trans_le hr)
      obtain ⟨h', h1, h2, h3, h4⟩ := ih h26
      refine ⟨h', by omega, h2, ?_, fun hf => h4 (by omega)⟩
      rw [grow, if_pos hlt, ← pow_succ]
      exact h3
    · exact ⟨h, le_rfl, hle, by rw [grow, if_neg hlt], fun _ => Nat.le_of_not_lt hlt⟩

/-- The constructor makes a perfect tree with enough leaves. -/
theorem ofCapacity_perfect (capacity : UInt32) : (ofCapacity capacity).Perfect
      ∧ (ofCapacity capacity).requestedLeafNodeCount ≤ (ofCapacity capacity).leafNodeCount := by
  have hr : ((capacity + 63) / 64).toNat ≤ 2 ^ 26 := by
    have := (capacity + 63).toNat_lt
    show (capacity + 63).toNat / 64 ≤ _
    omega
  obtain ⟨h, h1, h2, h3, h4⟩ := grow_eq (h := 1) hr 32 (by decide)
  have ht : grow ((capacity + 63) / 64).toNat 32 (2, 2) = (2 ^ h, h + 1) := h3
  refine ⟨⟨?_, ?_, ?_, ?_⟩, ?_⟩ <;> simp only [ofCapacity, ht, Nat.add_sub_cancel]
  · exact h1
  · exact h2
  · exact h4 (by decide)

end IdSetMeasurements

namespace Position

/-- A position of the tree. -/
def Valid (m : IdSetMeasurements) (pos : Position) : Prop :=
  pos.level ≤ m.innerLevelCount ∧ pos.offset < 2 ^ pos.level

variable {m : IdSetMeasurements} {pos : Position}

theorem Valid.inTree (hm : m.Perfect) (h : pos.Valid m) : pos.InTree m := by
  obtain ⟨hl, ho⟩ := h
  have hpow : 2 ^ pos.level ≤ 2 ^ m.innerLevelCount := Nat.pow_le_pow_right Nat.two_pos hl
  refine ⟨by rw [hm.treeHeight]; omega, ?_, ?_⟩
  · rcases Nat.eq_zero_or_pos pos.level with h0 | h0
    · rw [h0] at ho
      refine .inr ⟨?_, by rw [h0]; rfl⟩
      rw [atRoot, decide_eq_true_eq]
      exact ⟨h0, by omega⟩
    · have : 2 ^ 1 ≤ 2 ^ pos.level := Nat.pow_le_pow_right Nat.two_pos h0
      exact .inl (by omega)
  · unfold nodesBefore IdSetMeasurements.nodeCount
    rw [hm.leafNodeCount, if_neg (Nat.two_pow_pos _).ne']
    omega

/-- `nodeAt` accepts no other leaves. -/
theorem InTree.offset_lt {t : ℕ} (hm : m.Perfect) (h : InTree m ⟨m.innerLevelCount, t⟩) :
    t < 2 ^ m.innerLevelCount := by
  obtain ⟨-, -, h⟩ := h
  unfold nodesBefore IdSetMeasurements.nodeCount at h
  rw [hm.leafNodeCount, if_neg (Nat.two_pow_pos _).ne'] at h
  simp only at h
  omega

/-- Different positions are different nodes. -/
theorem nodesBefore_inj {pos' : Position} (h : pos.Valid m) (h' : pos'.Valid m)
    (heq : pos.nodesBefore = pos'.nodesBefore) : pos = pos' := by
  have ho := h.2
  have ho' := h'.2
  unfold nodesBefore at heq
  have hsum : 2 ^ pos.level + pos.offset = 2 ^ pos'.level + pos'.offset := by omega
  have hlevel : pos.level = pos'.level := by
    rcases lt_trichotomy pos.level pos'.level with hlt | heq | hlt
    · have : 2 ^ (pos.level + 1) ≤ 2 ^ pos'.level := Nat.pow_le_pow_right Nat.two_pos hlt
      omega
    · exact heq
    · have : 2 ^ (pos'.level + 1) ≤ 2 ^ pos.level := Nat.pow_le_pow_right Nat.two_pos hlt
      omega
  obtain ⟨l, t⟩ := pos
  simp only at hlevel hsum
  rw [hlevel] at hsum ⊢
  rw [add_left_cancel hsum]

@[simp] theorem descend_level (pos : Position) (d : Direction) :
    (pos.descend d).level = pos.level + 1 := by
  cases d <;> rfl

theorem ne_descend (pos : Position) (d : Direction) : pos ≠ pos.descend d := by
  intro h
  simpa using congrArg level h

theorem descend_ne_root (pos : Position) (d : Direction) : pos.descend d ≠ root := by
  intro h
  simpa [root] using congrArg level h

theorem descend_valid (h : pos.Valid m) (hl : pos.level < m.innerLevelCount) (d : Direction) :
    (pos.descend d).Valid m := by
  refine ⟨by rw [descend_level]; exact hl, ?_⟩
  have := h.2
  cases d <;> simp only [descend] <;> omega

theorem ascend_valid (h : pos.Valid m) (hl : 0 < pos.level) : pos.ascend.Valid m := by
  obtain ⟨l, t⟩ := pos
  obtain ⟨l, rfl⟩ : ∃ l', l = l' + 1 := ⟨l - 1, by simp only at hl; omega⟩
  obtain ⟨h1, h2⟩ := h
  simp only [pow_succ] at h1 h2
  exact ⟨by simp only [ascend]; omega, by simp only [ascend, Nat.add_sub_cancel]; omega⟩

/-- A parent is an inner node. -/
theorem ascend_level_lt (h : pos.Valid m) (hl : 0 < pos.level) :
    pos.ascend.level < m.innerLevelCount := by
  have hle := h.1
  show pos.level - 1 < _
  omega

/-- A position is the child of its parent. -/
theorem descend_ascend (hl : 0 < pos.level) : pos.ascend.descend pos.ascendDirection = pos := by
  obtain ⟨l, t⟩ := pos
  simp only at hl
  unfold ascend ascendDirection
  by_cases h : t % 2 = 0
  · simp only [if_pos h, descend, mk.injEq]
    omega
  · simp only [if_neg h, descend, mk.injEq]
    omega

/-- Only one position has a given child. -/
theorem descend_inj {pos' : Position} {d d' : Direction} (h : pos.descend d = pos'.descend d') :
    pos = pos' ∧ d = d' := by
  obtain ⟨l, t⟩ := pos
  obtain ⟨l', t'⟩ := pos'
  cases d <;> cases d' <;>
    simp only [descend, mk.injEq, reduceCtorEq, and_true, and_false] at h ⊢ <;> omega

/-- The first identifier below a position. -/
def firstId (m : IdSetMeasurements) (pos : Position) : ℕ :=
  pos.offset * 2 ^ (m.innerLevelCount - pos.level) * BitsPerLeaf

theorem firstId_ascend_le (hl : 0 < pos.level) (hv : pos.level ≤ m.innerLevelCount) :
    pos.ascend.firstId m ≤ pos.firstId m := by
  unfold firstId ascend
  rw [show m.innerLevelCount - (pos.level - 1) = m.innerLevelCount - pos.level + 1 by omega,
    pow_succ, ← mul_assoc, mul_right_comm (pos.offset / 2)]
  exact mul_le_mul_right _ (mul_le_mul_right _ (div_mul_le_self _ _))

/-- **There are identifiers of the set below a position.** The nodes of other
positions are never visited, except for the root. -/
def Live (m : IdSetMeasurements) (pos : Position) : Prop :=
  pos.level = 0 ∨ pos.firstId m < m.capacity

/-- The leaf of an identifier of the set is alive. -/
theorem live_of_id {id : ℕ} (hid : id < m.capacity) :
    Live m ⟨m.innerLevelCount, id / BitsPerLeaf⟩ := by
  refine .inr ?_
  unfold firstId
  rw [Nat.sub_self, pow_zero, Nat.mul_one]
  exact (div_mul_le_self _ _).trans_lt hid

/-- What is above a living node is alive. -/
theorem Live.ascend (h : pos.Live m) (hl : 0 < pos.level) (hv : pos.Valid m) :
    pos.ascend.Live m := by
  rcases h with h | h
  · exact absurd hl (by omega)
  · exact .inr ((firstId_ascend_le hl hv.1).trans_lt h)

theorem live_of_descend {d : Direction} (hv : pos.Valid m) (hl : pos.level < m.innerLevelCount)
    (h : (pos.descend d).Live m) : pos.Live m := by
  have hup := h.ascend (by rw [descend_level]; exact succ_pos _) (descend_valid hv hl d)
  have : (pos.descend d).ascend = pos := by
    obtain ⟨l, t⟩ := pos
    cases d <;> simp only [descend, ascend, mk.injEq] <;> omega
  rwa [this] at hup

end Position

namespace IdSet

/-! ## The accounting -/

/-- How many identifiers a node says there are below it. -/
def totalOf (m : IdSetMeasurements) (pos : Position) (v : UInt64) : ℕ :=
  if pos.level < m.innerLevelCount then counterOf v .left + counterOf v .right
  else (bits v).card

/-- **The accounting of the tree.** Every operation under way owes something to
one node: a `pop` is about to take an identifier that the parent of the node
has already counted off, and a `push` has put one that the parent has not
counted yet. `pend` is how many owe something to a node. -/
structure Good (m : IdSetMeasurements) (s : Nodes) (pend : Position → ℕ) : Prop where
  /-- What is below a node is what its parent counts and what is owed. -/
  count : ∀ (pos : Position) (d : Direction), pos.Valid m → pos.level < m.innerLevelCount →
    (pos.descend d).Live m → counterOf (s pos.nodesBefore) d + pend (pos.descend d)
      = totalOf m (pos.descend d) (s (pos.descend d).nodesBefore)
  /-- Nothing is counted where there is nothing to count. -/
  dead : ∀ (pos : Position) (d : Direction), pos.Valid m → pos.level < m.innerLevelCount →
    pos.Live m → ¬ (pos.descend d).Live m → counterOf (s pos.nodesBefore) d = 0
  /-- The identifiers of a leaf are below the capacity. -/
  bits_lt : ∀ pos : Position, pos.Valid m → pos.level = m.innerLevelCount → pos.Live m →
    ∀ i ∈ bits (s pos.nodesBefore), pos.offset * BitsPerLeaf + i < m.capacity

variable {m : IdSetMeasurements} {s : Nodes} {pend : Position → ℕ}

namespace Good

/-- A node never says there is more below it than there can be. -/
theorem total_le (hg : Good m s pend) {k : ℕ} {pos : Position} (hv : pos.Valid m)
    (hk : pos.level + k = m.innerLevelCount) (hl : pos.Live m) :
    totalOf m pos (s pos.nodesBefore) ≤ 64 * 2 ^ k := by
  induction k generalizing pos with
  | zero =>
    rw [totalOf, if_neg (by omega)]
    exact card_bits_le _
  | succ k ih =>
    have hlt : pos.level < m.innerLevelCount := by omega
    have hchild : ∀ d, counterOf (s pos.nodesBefore) d ≤ 64 * 2 ^ k := by
      intro d
      by_cases hld : (pos.descend d).Live m
      · have h1 := hg.count pos d hv hlt hld
        have h2 := ih (descend_valid hv hlt d) (by rw [descend_level]; omega) hld
        omega
      · rw [hg.dead pos d hv hlt hl hld]
        exact zero_le _
    have h1 := hchild .left
    have h2 := hchild .right
    rw [totalOf, if_pos hlt, pow_succ]
    omega

/-- **Changing one node.** Its children and itself must still be accounted
for; nothing else is concerned. -/
theorem update (hg : Good m s pend) {pos : Position} (hpos : pos.Valid m) {v : UInt64}
    {pend' : Position → ℕ} (hother : ∀ w, w ≠ pos → (∀ d, w ≠ pos.descend d) → pend' w = pend w)
    (hself : 0 < pos.level → pend' pos + totalOf m pos (s pos.nodesBefore)
      = pend pos + totalOf m pos v)
    (hinner : pos.level < m.innerLevelCount → ∀ d,
      ((pos.descend d).Live m → counterOf v d + pend' (pos.descend d)
        = counterOf (s pos.nodesBefore) d + pend (pos.descend d))
      ∧ (pos.Live m → ¬ (pos.descend d).Live m → counterOf v d = 0))
    (hbits : pos.level = m.innerLevelCount → pos.Live m → ∀ i ∈ bits v,
      pos.offset * BitsPerLeaf + i < m.capacity) : Good m (update s pos.nodesBefore v) pend' := by
  have hne : ∀ w, w.Valid m → w ≠ pos →
      Function.update s pos.nodesBefore v w.nodesBefore = s w.nodesBefore := fun w hw hwp =>
    update_of_ne (fun h => hwp (nodesBefore_inj hw hpos h)) _ _
  refine ⟨fun p d hp hl hld => ?_, fun p d hp hl hlp hld => ?_, fun p hp hl hlp => ?_⟩
  · have hvd := descend_valid hp hl d
    have hcount := hg.count p d hp hl hld
    by_cases hpp : p = pos
    · -- the child of the node
      have hwp : p.descend d ≠ pos := hpp ▸ (p.ne_descend d).symm
      rw [hne _ hvd hwp, ← hcount]
      subst hpp
      rw [update_self]
      exact (hinner hl d).1 hld
    · rw [hne p hp hpp]
      by_cases hwp : p.descend d = pos
      · -- the node itself
        rw [hwp] at hcount ⊢
        rw [update_self]
        have := hself (by rw [← hwp, descend_level]; exact succ_pos _)
        omega
      · rw [hne _ hvd hwp, hother _ hwp fun d' h => hpp (descend_inj h).1]
        exact hcount
  · by_cases hpp : p = pos
    · subst hpp
      rw [update_self]
      exact (hinner hl d).2 hlp hld
    · rw [hne p hp hpp]
      exact hg.dead p d hp hl hlp hld
  · by_cases hpp : p = pos
    · subst hpp
      rw [update_self]
      exact hbits hl hlp
    · rw [hne p hp hpp]
      exact hg.bits_lt p hp hl hlp

end Good

/-! ## The full set -/

/-- How many identifiers fit below a node of a level. -/
def span (m : IdSetMeasurements) (level : ℕ) : ℕ := 64 * 2 ^ (m.innerLevelCount - level)

/-- How many identifiers of the set there are below a node. -/
def avail (m : IdSetMeasurements) (pos : Position) : ℕ :=
  min (span m pos.level) (m.capacity - pos.offset * span m pos.level)

@[simp] theorem span_leaf : span m m.innerLevelCount = 64 := by
  unfold span
  rw [Nat.sub_self, pow_zero, Nat.mul_one]

variable {level : ℕ} {pos : Position}

theorem span_succ (hl : level < m.innerLevelCount) : span m level = 2 * span m (level + 1) := by
  unfold span
  rw [show m.innerLevelCount - level = m.innerLevelCount - (level + 1) + 1 by omega, pow_succ]
  ring

theorem firstId_eq (pos : Position) : pos.firstId m = pos.offset * span m pos.level := by
  unfold firstId span BitsPerLeaf
  ring

/-- What is below a node is what is below its children. -/
theorem avail_eq (hl : pos.level < m.innerLevelCount) :
    avail m pos = avail m (pos.descend .left) + avail m (pos.descend .right) := by
  obtain ⟨l, t⟩ := pos
  simp only [avail, descend, span_succ hl, add_mul, one_mul]
  have h1 : t * (2 * span m (l + 1)) = t * 2 * span m (l + 1) := by ring
  omega

/-- **The set has all identifiers below the capacity.** -/
structure Full (m : IdSetMeasurements) (s : Nodes) : Prop where
  inner : ∀ pos : Position, pos.Valid m → pos.level < m.innerLevelCount → pos.Live m →
    ∀ d, counterOf (s pos.nodesBefore) d = avail m (pos.descend d)
  leaf : ∀ pos : Position, pos.Valid m → pos.level = m.innerLevelCount → pos.Live m →
    bits (s pos.nodesBefore) = Finset.range (avail m pos)

/-- Nothing is below a node that is not alive. -/
theorem avail_of_not_live (h : ¬ pos.Live m) : avail m pos = 0 := by
  have hle : m.capacity ≤ pos.firstId m := Nat.le_of_not_lt fun hlt => h (.inr hlt)
  rw [firstId_eq] at hle
  unfold avail
  omega

/-- A full set is accounted for. -/
theorem Full.good (h : Full m s) : Good m s fun _ => 0 := by
  have htotal : ∀ pos : Position, pos.Valid m → pos.Live m →
      totalOf m pos (s pos.nodesBefore) = avail m pos := by
    intro pos hpos hlive
    unfold totalOf
    by_cases hl : pos.level < m.innerLevelCount
    · rw [if_pos hl, h.inner pos hpos hl hlive, h.inner pos hpos hl hlive, avail_eq hl]
    · rw [if_neg hl, h.leaf pos hpos (le_antisymm hpos.1 (Nat.le_of_not_lt hl)) hlive, card_range]
  refine ⟨fun pos d hpos hl hld => ?_, fun pos d hpos hl hlp hld => ?_,
    fun pos hpos hl hlp i hi => ?_⟩
  · have hdv := descend_valid hpos hl d
    have hlp : pos.Live m := live_of_descend hpos hl hld
    rw [htotal _ hdv hld, h.inner pos hpos hl hlp]
    rfl
  · rw [h.inner pos hpos hl hlp, avail_of_not_live hld]
  · rw [h.leaf pos hpos hl hlp, mem_range] at hi
    unfold avail at hi
    unfold BitsPerLeaf
    rw [hl, span_leaf] at hi
    omega

/-- The empty set is accounted for. -/
theorem good_zero : Good m (fun _ => 0) fun _ => 0 := by
  refine ⟨fun pos d _ _ _ => ?_, fun pos d _ _ _ _ => ?_, fun pos _ _ _ i hi => ?_⟩
  · unfold totalOf
    cases d <;> split <;> rfl
  · cases d <;> rfl
  · exact absurd hi (notMem_empty i)

/-! ### Filling all nodes -/

/-- What an inner node of a level has when there are no extras. -/
def fullNode (m : IdSetMeasurements) (level : ℕ) : UInt64 :=
  IdSetInnerNode.pack ⟨UInt32.ofNat (span m (level + 1)), UInt32.ofNat (span m (level + 1))⟩

/-- Filling a level. -/
theorem fill_level (hpos : pos.Valid m) (hl : level ≤ m.innerLevelCount) (value : UInt64) :
    fill (nodesBefore ⟨level, 0⟩) (2 ^ level) value s pos.nodesBefore
      = if pos.level = level then value else s pos.nodesBefore := by
  refine if_congr ⟨fun ⟨h1, h2⟩ => ?_, fun h => ?_⟩ rfl rfl
  · simp only [nodesBefore, add_zero] at h1 h2
    have hin : Position.Valid m ⟨level, pos.nodesBefore - (2 ^ level - 1)⟩ :=
      ⟨hl, by simp only [nodesBefore]; omega⟩
    refine congrArg Position.level (Position.nodesBefore_inj hpos hin ?_)
    simp only [nodesBefore]
    omega
  · have := hpos.2
    rw [h] at this
    simp only [nodesBefore, h]
    omega

theorem fillInner_apply (hpos : pos.Valid m) {level : ℕ} (s : Nodes)
    (hl : level ≤ m.innerLevelCount) :
    fillInner level (2 ^ level / 2) (span m level) s pos.nodesBefore
      = if pos.level < level then fullNode m pos.level else s pos.nodesBefore := by
  induction level generalizing s with
  | zero => rfl
  | succ level ih =>
    rw [fillInner, pow_succ, Nat.mul_div_cancel _ Nat.two_pos, Nat.mul_comm (span m (level + 1)),
      ← span_succ hl, ih _ (by omega), fill_level hpos (by omega)]
    rcases lt_trichotomy pos.level level with h | h | h
    · rw [if_pos h, if_pos (by omega)]
    · rw [if_neg (by omega), if_pos h, if_pos (by omega), h]
      rfl
    · rw [if_neg (by omega), if_neg (by omega), if_neg (by omega)]

/-- **What `fillAllNodes` leaves.** -/
theorem fillAllNodes_apply (hm : m.Perfect) (hpos : pos.Valid m) : fillAllNodes m s pos.nodesBefore
      = if pos.level < m.innerLevelCount then fullNode m pos.level else 0 - 1 := by
  have hspan : BitsPerLeaf = span m m.innerLevelCount := span_leaf.symm
  unfold fillAllNodes
  rw [hm.leafNodeCount, hspan, fillInner_apply hpos _ le_rfl, fill_level hpos le_rfl]
  have := hpos.1
  by_cases h : pos.level < m.innerLevelCount
  · rw [if_pos h, if_pos h]
  · rw [if_neg h, if_neg h, if_pos (by omega)]

theorem span_lt (hm : m.Perfect) (level : ℕ) : span m (level + 1) < 2 ^ 32 := by
  have : 2 ^ (m.innerLevelCount - (level + 1)) ≤ 2 ^ 25 :=
    Nat.pow_le_pow_right Nat.two_pos (by have := hm.le; omega)
  unfold span
  omega

theorem toNat_ofNat_span (hm : m.Perfect) (level : ℕ) :
    (UInt32.ofNat (span m (level + 1))).toNat = span m (level + 1) :=
  UInt32.toNat_ofNat_of_lt' (span_lt hm level)

theorem counterOf_fullNode (hm : m.Perfect) (level : ℕ) (d : Direction) :
    counterOf (fullNode m level) d = span m (level + 1) := by
  cases d with
  | left => exact (counterOf_pack_left _).trans (toNat_ofNat_span hm level)
  | right => exact (counterOf_pack_right _).trans (toNat_ofNat_span hm level)

/-! ### Removing the extras -/

/-- The node of a level that has both identifiers of the set and extras below
it, or the first one with extras only. `truncateExtras` visits these. -/
def cut (m : IdSetMeasurements) (level : ℕ) : Position := ⟨level, m.capacity / span m level⟩

theorem span_pos (level : ℕ) : 0 < span m level :=
  Nat.mul_pos (by decide) (Nat.two_pow_pos _)

/-- What stays below the cut. -/
theorem avail_cut (level : ℕ) : avail m (cut m level) = m.capacity % span m level := by
  have := mod_lt m.capacity (span_pos (m := m) level)
  have hdm := div_add_mod' m.capacity (span m level)
  simp only [avail, cut]
  omega

theorem cut_ascend (hl : level < m.innerLevelCount) : (cut m (level + 1)).ascend = cut m level := by
  unfold ascend cut
  rw [span_succ hl, Nat.div_div_eq_div_mul, Nat.mul_comm 2]
  rfl

/-- A node to the left of the cut is full. -/
theorem avail_of_lt_cut (h : pos.offset < m.capacity / span m pos.level) :
    avail m pos = span m pos.level := by
  have hle : (pos.offset + 1) * span m pos.level ≤ m.capacity :=
    (mul_le_mul_right _ h).trans (div_mul_le_self _ _)
  rw [add_mul, one_mul] at hle
  unfold avail
  omega

/-- The children of such a node are to the left of the cut. -/
theorem descend_lt_cut (hl : pos.level < m.innerLevelCount)
    (h : pos.offset < m.capacity / span m pos.level) (d : Direction) :
    (pos.descend d).offset < m.capacity / span m (pos.descend d).level := by
  have hdiv : m.capacity / span m pos.level = m.capacity / span m (pos.level + 1) / 2 := by
    rw [span_succ hl, Nat.mul_comm 2, Nat.div_div_eq_div_mul]
  cases d <;> simp only [descend] <;> omega

/-- A living node is the cut or to the left of it. -/
theorem le_cut_of_live (hpos : pos.Valid m) (hlive : pos.Live m) :
    pos.offset ≤ m.capacity / span m pos.level := by
  rcases hlive with h | h
  · have := hpos.2
    rw [h, pow_zero, lt_one_iff] at this
    rw [this]
    exact zero_le _
  · rw [firstId_eq] at h
    exact (le_div_iff_mul_le (span_pos _)).mpr h.le

/-- **The extras are removed from a level on**, and the nodes above still count
them. -/
structure Truncated (m : IdSetMeasurements) (level : ℕ) (s : Nodes) : Prop where
  inner : ∀ pos : Position, pos.Valid m → level ≤ pos.level → pos.level < m.innerLevelCount →
    pos.Live m → ∀ d, counterOf (s pos.nodesBefore) d = avail m (pos.descend d)
  leaf : ∀ pos : Position, pos.Valid m → pos.level = m.innerLevelCount → pos.Live m →
    bits (s pos.nodesBefore) = Finset.range (avail m pos)
  above : ∀ pos : Position, pos.Valid m → pos.level < level →
    s pos.nodesBefore = fullNode m pos.level

/-- Writing the right counters into the cut of a level. -/
theorem Truncated.update (hm : m.Perfect) (h : Truncated m (level + 1) s)
    (hl : level < m.innerLevelCount) (hcut : (cut m level).Valid m) {v : UInt64}
    (hv : ∀ d, counterOf v d = avail m ((cut m level).descend d)) :
    Truncated m level (update s (cut m level).nodesBefore v) := by
  have hne : ∀ pos : Position, pos.Valid m → pos ≠ cut m level →
      Function.update s (cut m level).nodesBefore v pos.nodesBefore = s pos.nodesBefore :=
    fun pos hpos hp => update_of_ne (fun he => hp (nodesBefore_inj hpos hcut he)) _ _
  refine ⟨fun pos hpos hge hlt hlive d => ?_, fun pos hpos hlh hlive => ?_, fun pos hpos hlt => ?_⟩
  · by_cases hp : pos = cut m level
    · rw [hp, update_self]
      exact hv d
    · rw [hne pos hpos hp]
      rcases eq_or_lt_of_le hge with he | hgt
      · -- to the left of the cut
        have hoff : pos.offset < m.capacity / span m pos.level := by
          refine lt_of_le_of_ne (le_cut_of_live hpos hlive) fun ho => hp ?_
          unfold cut
          rw [he, ← ho]
        rw [h.above pos hpos (by omega), counterOf_fullNode hm,
          avail_of_lt_cut (descend_lt_cut hlt hoff d), descend_level]
      · exact h.inner pos hpos hgt hlt hlive d
  · rw [hne pos hpos fun he => by
        rw [he] at hlh
        exact absurd hl (by rw [← hlh]; exact lt_irrefl _)]
    exact h.leaf pos hpos hlh hlive
  · rw [hne pos hpos fun he => by rw [he] at hlt; exact absurd hlt (lt_irrefl _)]
    exact h.above pos hpos (by omega)

section

variable (hl : level < m.innerLevelCount)
include hl

/-- The cut of a level is the child of the cut of the level above. -/
theorem cut_descend :
    (cut m level).descend (cut m (level + 1)).ascendDirection = cut m (level + 1) := by
  rw [← cut_ascend hl]
  exact descend_ascend (succ_pos _)

/-- Nothing stays to the right of the cut. -/
theorem avail_right_of_cut (hdir : (cut m (level + 1)).ascendDirection = .left) :
    avail m ((cut m level).descend .right) = 0 := by
  have hoff := congrArg offset (cut_descend hl)
  rw [hdir] at hoff
  have hlt := lt_div_mul_add (span_pos (m := m) (level + 1)) (a := m.capacity)
  simp only [cut, descend] at hoff
  simp only [avail, cut, descend, hoff, add_mul, one_mul]
  omega

/-- Everything stays to the left of the cut. -/
theorem avail_left_of_cut (hdir : (cut m (level + 1)).ascendDirection = .right) :
    avail m ((cut m level).descend .left) = span m (level + 1) := by
  have hoff := congrArg offset (cut_descend hl)
  rw [hdir] at hoff
  refine avail_of_lt_cut ?_
  simp only [cut, descend] at hoff ⊢
  omega

end

/-- How many extras there are below the cut of a level. -/
def extras (m : IdSetMeasurements) (level : ℕ) : ℕ := span m level - m.capacity % span m level

/-- **One round of `truncateExtras`.** -/
theorem innerTruncate_eq (hm : m.Perfect) (h : Truncated m (level + 1) s)
    (hl : level < m.innerLevelCount) (hcut : (cut m level).Valid m) :
    ∃ s', innerTruncate m (cut m level) (cut m (level + 1)).ascendDirection
        (UInt32.ofNat (extras m (level + 1))) s = some (s', UInt32.ofNat (extras m level))
      ∧ Truncated m level s' := by
  have hS := span_lt hm level
  have hS2 := span_succ hl
  have hr := mod_lt m.capacity (span_pos (m := m) (level + 1))
  have hself : avail m ((cut m level).descend (cut m (level + 1)).ascendDirection)
      = m.capacity % span m (level + 1) := by rw [cut_descend hl, avail_cut]
  have hsum : m.capacity % span m level = _ := (avail_cut level).symm.trans (avail_eq hl)
  have hvalue : IdSetInnerNode.Unpack (s (cut m level).nodesBefore)
      = ⟨UInt32.ofNat (span m (level + 1)), UInt32.ofNat (span m (level + 1))⟩ := by
    rw [h.above _ hcut (lt_succ_self level)]
    exact unpack_pack _
  have hle : extras m (level + 1) ≤ span m (level + 1) := sub_le _ _
  have hspan := UInt32.toNat_ofNat_of_lt' hS
  have hextras := UInt32.toNat_ofNat_of_lt' (hle.trans_lt hS)
  have hge : UInt32.ofNat (span m (level + 1)) ≥ UInt32.ofNat (extras m (level + 1)) := by
    refine UInt32.le_iff_toNat_le.mpr ?_
    rwa [hspan, hextras]
  have hsub : (UInt32.ofNat (span m (level + 1)) - UInt32.ofNat (extras m (level + 1))).toNat
      = m.capacity % span m (level + 1) := by
    rw [UInt32.toNat_sub_of_le _ _ hge, hspan, hextras, extras]
    omega
  unfold innerTruncate
  simp only [hvalue]
  cases hdir : (cut m (level + 1)).ascendDirection with
  | left =>
    have hright := avail_right_of_cut hl hdir
    rw [hdir] at hself
    have hnext : UInt32.ofNat (extras m (level + 1)) + UInt32.ofNat (span m (level + 1))
        = UInt32.ofNat (extras m level) := by
      rw [← UInt32.ofNat_add, extras, extras]
      congr 1
      omega
    have hv : ∀ d, counterOf (pack ⟨UInt32.ofNat (span m (level + 1))
        - UInt32.ofNat (extras m (level + 1)), 0⟩) d = avail m ((cut m level).descend d) := by
      intro d
      cases d with
      | left => rw [counterOf_pack_left, hsub, hself]
      | right =>
        rw [counterOf_pack_right, hright]
        rfl
    refine ⟨_, (if_pos ⟨hcut.inTree hm, hge⟩).trans ?_, h.update hm hl hcut hv⟩
    rw [hnext]
  | right =>
    have hleft := avail_left_of_cut hl hdir
    rw [hdir] at hself
    have hnext : extras m (level + 1) = extras m level := by
      unfold extras
      omega
    have hv : ∀ d, counterOf (pack ⟨UInt32.ofNat (span m (level + 1)),
        UInt32.ofNat (span m (level + 1)) - UInt32.ofNat (extras m (level + 1))⟩) d
          = avail m ((cut m level).descend d) := by
      intro d
      cases d with
      | left => rw [counterOf_pack_left, hspan, hleft]
      | right => rw [counterOf_pack_right, hsub, hself]
    refine ⟨_, (if_pos ⟨hcut.inTree hm, hge⟩).trans ?_, h.update hm hl hcut hv⟩
    rw [hnext]

theorem truncateInner_full (hm : m.Perfect) {level : ℕ} (hl : level ≤ m.innerLevelCount)
    (hcut : (cut m level).Valid m) (h : Truncated m level s) :
    ∃ s', truncateInner m level (m.capacity / span m level)
        (UInt32.ofNat (extras m level)) s = some s'
      ∧ Truncated m 0 s' := by
  induction level generalizing s with
  | zero => exact ⟨s, rfl, h⟩
  | succ level ih =>
    have hup : (cut m level).Valid m := by
      rw [← cut_ascend hl]
      exact ascend_valid hcut (succ_pos _)
    obtain ⟨s', hs', h'⟩ := innerTruncate_eq hm h hl hup
    obtain ⟨s'', hs'', h''⟩ := ih (by omega) hup h'
    refine ⟨s'', ?_, h''⟩
    have hoff : m.capacity / span m (level + 1) / 2 = m.capacity / span m level :=
      congrArg offset (cut_ascend hl)
    unfold truncateInner
    rw [hoff]
    show (innerTruncate m (cut m level) (cut m (level + 1)).ascendDirection _ s >>= _) = _
    rw [hs']
    exact hs''

/-- The leaf that keeps some identifiers. -/
theorem bits_shiftRight {k : ℕ} (h0 : k ≠ 0) (hk : k ≤ 64) :
    bits ((0 - 1) >>> UInt64.ofNat (BitsPerLeaf - k)) = range k := by
  have hshift : (UInt64.ofNat (BitsPerLeaf - k)).toNat % 64 = BitsPerLeaf - k := by
    unfold BitsPerLeaf
    rw [UInt64.toNat_ofNat_of_lt' (by show _ < 2 ^ 64; omega), mod_eq_of_lt (by omega)]
  ext i
  rw [mem_bits, UInt64.toNat_shiftRight, hshift, testBit_shiftRight,
    show (0 - 1 : UInt64).toNat = 2 ^ 64 - 1 from rfl, testBit_two_pow_sub_one,
    decide_eq_true_eq, mem_range]
  unfold BitsPerLeaf
  omega

/-- A leaf with all identifiers. -/
theorem bits_max : bits (0 - 1) = range 64 := bits_shiftRight (k := 64) (by decide) le_rfl

/-- The leaves of `truncateExtras`. -/
theorem truncated_leaves (hm : m.Perfect) (s : Nodes) (junk : UInt64) (count : ℕ)
    (hcut : (cut m m.innerLevelCount).Valid m) : Truncated m m.innerLevelCount
      (fill ((cut m m.innerLevelCount).nodesBefore + 1) count 0
        (update (fillAllNodes m s) (cut m m.innerLevelCount).nodesBefore
          (if m.capacity % BitsPerLeaf = 0 then junk
            else (0 - 1) >>> UInt64.ofNat (BitsPerLeaf - m.capacity % BitsPerLeaf)))) := by
  -- nothing up to the cut is filled with zeros
  have hbefore : ∀ pos : Position, pos.nodesBefore ≤ (cut m m.innerLevelCount).nodesBefore →
      ∀ s' : Nodes, fill ((cut m m.innerLevelCount).nodesBefore + 1) count 0 s' pos.nodesBefore
        = s' pos.nodesBefore := by
    intro pos hle s'
    exact if_neg (by omega)
  refine ⟨fun pos _ hge hlt => absurd hlt (not_lt.mpr hge), fun pos hpos hl hlive => ?_,
    fun pos hpos hl => ?_⟩
  · have hle := le_cut_of_live hpos hlive
    rw [hbefore pos (by simp only [nodesBefore, cut]; rw [hl] at hle ⊢; omega)]
    by_cases hp : pos = cut m m.innerLevelCount
    · have hmod : m.capacity % BitsPerLeaf ≠ 0 := by
        unfold BitsPerLeaf
        rcases hlive with h0 | h0
        · exact absurd hm.pos (by omega)
        · rw [firstId_eq, hp] at h0
          simp only [cut, span_leaf] at h0
          omega
      rw [hp, update_self, if_neg hmod, avail_cut, span_leaf]
      exact bits_shiftRight hmod (mod_lt _ (by decide)).le
    · rw [update_of_ne fun he => hp (nodesBefore_inj hpos hcut he),
        fillAllNodes_apply hm hpos, if_neg (by omega), bits_max, avail_of_lt_cut, hl, span_leaf]
      refine lt_of_le_of_ne hle fun ho => hp ?_
      unfold cut
      rw [← hl, ← ho]
  · have hlt : pos.nodesBefore < (cut m m.innerLevelCount).nodesBefore := by
      have : 2 ^ (pos.level + 1) ≤ 2 ^ m.innerLevelCount := Nat.pow_le_pow_right Nat.two_pos hl
      have := hpos.2
      have := zero_le (m.capacity / span m m.innerLevelCount)
      simp only [nodesBefore, cut]
      omega
    rw [hbefore pos hlt.le, update_of_ne hlt.ne, fillAllNodes_apply hm hpos, if_pos hl]

theorem leaf_eq_cut :
    (⟨m.innerLevelCount, m.capacity / BitsPerLeaf⟩ : Position) = cut m m.innerLevelCount := by
  unfold cut
  rw [span_leaf]
  rfl

/-- **`makeFullBeforeSharing` makes the set full**, if there is a leaf to begin
with. -/
theorem exists_full (hm : m.Perfect) (junk : UInt64) (s : Nodes)
    (hcut : m.capacity ≠ m.leafNodeCount * BitsPerLeaf → (cut m m.innerLevelCount).Valid m) :
    ∃ s', makeFullBeforeSharing m junk s = some s' ∧ Full m s' := by
  unfold makeFullBeforeSharing
  by_cases hextras : m.capacity ≠ m.leafNodeCount * BitsPerLeaf
  · have hcut := hcut hextras
    have hones : fillAllNodes m s (cut m m.innerLevelCount).nodesBefore = 0 - 1 := by
      exact (fillAllNodes_apply hm hcut).trans (if_neg (lt_irrefl _))
    obtain ⟨count, hcount⟩ : ∃ count, ∀ s1 : Nodes,
        (if m.leafNodeCount - m.requestedLeafNodeCount > 1 then
          fill ((cut m m.innerLevelCount).nodesBefore + 1)
            (m.leafNodeCount - m.requestedLeafNodeCount - 1) 0 s1 else s1)
          = fill ((cut m m.innerLevelCount).nodesBefore + 1) count 0 s1 := by
      by_cases hright : m.leafNodeCount - m.requestedLeafNodeCount > 1
      · exact ⟨_, fun s1 => if_pos hright⟩
      · exact ⟨0, fun s1 => (if_neg hright).trans (funext fun i => (if_neg (by omega)).symm)⟩
    obtain ⟨s', hs', hfull⟩ :=
      truncateInner_full hm le_rfl hcut (truncated_leaves hm s junk count hcut)
    refine ⟨s', ?_, fun pos hp hl => hfull.inner pos hp (zero_le _) hl, hfull.leaf⟩
    rw [extras, span_leaf] at hs'
    simp only [if_pos hextras, truncateExtras, leafTruncate, leaf_eq_cut, hones, hcut.inTree hm,
      and_self, if_true, hcount]
    exact hs'
  · rw [if_neg hextras]
    have hcap : ∀ pos : Position, pos.Valid m → pos.offset < m.capacity / span m pos.level := by
      intro pos hpos
      have hpow : 2 ^ m.innerLevelCount * 64 = 2 ^ pos.level * span m pos.level := by
        unfold span
        rw [Nat.mul_left_comm, ← pow_add, Nat.add_sub_cancel' hpos.1, Nat.mul_comm]
      rw [not_not.mp hextras, hm.leafNodeCount]
      unfold BitsPerLeaf
      rw [hpow, Nat.mul_div_cancel _ (span_pos _)]
      exact hpos.2
    refine ⟨_, rfl, fun pos hpos hl _ d => ?_, fun pos hpos hl _ => ?_⟩
    · rw [fillAllNodes_apply hm hpos, if_pos hl, counterOf_fullNode hm,
        avail_of_lt_cut (descend_lt_cut hl (hcap pos hpos) d), descend_level]
    · rw [fillAllNodes_apply hm hpos, if_neg (by omega), bits_max, avail_of_lt_cut (hcap pos hpos),
        hl, span_leaf]

/-- What `makeFullBeforeSharing` leaves, whenever it completes, is the full set. -/
theorem makeFullBeforeSharing_full (hm : m.Perfect) {junk : UInt64} {s' : Nodes}
    (h : makeFullBeforeSharing m junk s = some s') : Full m s' := by
  obtain ⟨s'', hs'', hfull⟩ := exists_full hm junk s fun hextras => by
    rw [makeFullBeforeSharing, if_pos hextras] at h
    obtain ⟨s1, h1, -⟩ := bind_eq_some_iff.mp h
    obtain ⟨⟨hin, -⟩, -⟩ := ite_none_right_eq_some.mp h1
    exact ⟨le_rfl, (leaf_eq_cut (m := m) ▸ hin).offset_lt hm⟩
  exact some.inj (hs''.symm.trans h) ▸ hfull

/-! ### The counters of the full set -/

/-- How many 1s there are below a position, in the leaves that have identifiers
of the set. The leaves are `k` levels below. -/
def onesBelow (m : IdSetMeasurements) (s : Nodes) : ℕ → Position → ℕ
  | 0, pos => if pos.firstId m < m.capacity then (bits (s pos.nodesBefore)).card else 0
  | k + 1, pos => onesBelow m s k (pos.descend .left) + onesBelow m s k (pos.descend .right)

theorem Full.onesBelow_eq (h : Full m s) (k : ℕ) (hpos : pos.Valid m)
    (hk : pos.level + k = m.innerLevelCount) (h0 : 0 < pos.level) :
    onesBelow m s k pos = avail m pos := by
  induction k generalizing pos with
  | zero =>
    unfold onesBelow
    split
    · rename_i hlt
      rw [h.leaf pos hpos hk (.inr hlt), card_range]
    · rename_i hge
      exact (avail_of_not_live fun hlive => hlive.elim h0.ne' hge).symm
  | succ k ih =>
    have hl : pos.level < m.innerLevelCount := by omega
    have hchild : ∀ d, onesBelow m s k (pos.descend d) = avail m (pos.descend d) := fun d =>
      ih (descend_valid hpos hl d) (by rw [descend_level]; omega) (by rw [descend_level]; omega)
    rw [onesBelow, hchild, hchild, avail_eq hl]

/-- **The documented tree**, as far as nodes have identifiers of the set below
them: those below the capacity are available, and inner nodes count the 1s. -/
structure Documented (m : IdSetMeasurements) (s : Nodes) : Prop where
  leaf : ∀ pos : Position, pos.Valid m → pos.level = m.innerLevelCount → pos.Live m → ∀ i < 64,
    (s pos.nodesBefore).toNat.testBit i = true ↔ pos.offset * 64 + i < m.capacity
  inner : ∀ pos : Position, pos.Valid m → pos.level < m.innerLevelCount → pos.Live m → ∀ d,
    counterOf (s pos.nodesBefore) d
      = onesBelow m s (m.innerLevelCount - (pos.level + 1)) (pos.descend d)

theorem Full.documented (h : Full m s) : Documented m s where
  leaf pos hpos hl hlive i hi := by
    rw [← mem_bits, h.leaf pos hpos hl hlive, mem_range, avail, hl, span_leaf]
    omega
  inner pos hpos hl hlive d := by
    rw [h.inner pos hpos hl hlive, h.onesBelow_eq _ (descend_valid hpos hl d)]
    · rw [descend_level]
      omega
    · rw [descend_level]
      omega

/-- `makeFullBeforeSharing` leaves the documented tree, for every capacity that
can be rounded up in 32 bits. -/
theorem makeFullBeforeSharing_documented (capacity : UInt32) (h : capacity ≤ 0 - 64)
    (junk : UInt64) (s : Nodes) :
    ∃ s', makeFullBeforeSharing (.ofCapacity capacity) junk s = some s'
      ∧ Documented (.ofCapacity capacity) s' := by
  obtain ⟨hm, hrequested⟩ := IdSetMeasurements.ofCapacity_perfect capacity
  have hcap : (IdSetMeasurements.ofCapacity capacity).capacity = capacity.toNat := rfl
  have hreq : (IdSetMeasurements.ofCapacity capacity).requestedLeafNodeCount
      = (capacity.toNat + 63) / 64 := by
    have hle : capacity.toNat ≤ 2 ^ 32 - 64 := UInt32.le_iff_toNat_le.mp h
    show (capacity.toNat + 63) % 2 ^ 32 / 64 = _
    rw [mod_eq_of_lt (by omega)]
  rw [hreq, hm.leafNodeCount] at hrequested
  obtain ⟨s', hs', hfull⟩ := exists_full hm junk s fun hextras => by
    rw [hcap, hm.leafNodeCount, BitsPerLeaf] at hextras
    refine ⟨le_rfl, ?_⟩
    simp only [cut, span_leaf, hcap]
    omega
  exact ⟨s', hs', hfull.documented⟩

theorem documented_of_257 : ∃ s', makeFullBeforeSharing (.ofCapacity 257) 0 (fun _ => 0) = some s'
    ∧ Documented (.ofCapacity 257) s' :=
  makeFullBeforeSharing_documented 257 (by decide) 0 fun _ => 0

/-- **A node that is not on the way up keeps its counters**: the last node above
the leaves counts 64 identifiers in a leaf that has none. -/
theorem unadjusted_of_257 : (makeFullBeforeSharing (.ofCapacity 257) 0 fun _ => 0).any (fun s =>
    counterOf (s (Position.nodesBefore ⟨2, 3⟩)) .left = 64
      ∧ bits (s (Position.nodesBefore ⟨3, 6⟩)) = ∅) = true := by
  decide +kernel

end IdSet

end Ipc.Mem
