import Revalle.Stmem.MemHdr

/-!
# The memory as a partial map

What the nodes hold is a partial map from offsets to bytes. Writing adds bytes to
it, freeing and unlinking take nodes away, and the searches are right about it: the
nodes do not overlap, so that the comparison of the tree is aligned with their order
whatever is looked for (`Inv.aligned`).

`inmem_hi` is the end of the last node as long as no call unlinks that node.
`freeDataUpto`, which is the only one to unlink nodes, keeps it; a call of `unlink`
by itself need not.
-/

namespace Stmem

open Checked Function List Option

/-! ## Nodes that do not overlap -/

/-- A node with what it has room for. -/
structure MemNode.Wf (n : MemNode) : Prop where
  nonneg : 0 ≤ n.offset
  pos : 0 < n.length
  full : n.length ≤ pageSize
  data : n.data.length = n.length

/-- The byte of a node at an offset. -/
def MemNode.byteAt (n : MemNode) (i : ℤ) : Option UInt8 :=
  if n.offset ≤ i then n.data[(i - n.offset).toNat]? else none

/-- **The nodes of the tree are in order and do not overlap.** -/
structure Inv (s : MemHdr) : Prop where
  wf : ∀ a ∈ s.nodes.values, (s.mem a).Wf
  apart : s.nodes.values.Pairwise (fun a b => (s.mem a).end_ ≤ (s.mem b).offset)
  fresh : ∀ a ∈ s.nodes.values, a < s.next
  size : s.nodes.size = s.nodes.values.length

/-- Two ranges have an offset in common. -/
def Range.Meets (r rhs : Range) : Prop := r.start < rhs.end_ ∧ rhs.start < r.end_ ∧
  r.start < r.end_ ∧ rhs.start < rhs.end_

theorem size_intersection_pos_iff (r rhs : Range) :
    0 < (r.intersection rhs).size ↔ r.Meets rhs := by
  unfold Range.size Range.intersection Range.Meets
  dsimp only
  omega

theorem nodeCompare_eq_zero_iff (n m : MemNode) :
    nodeCompare n m = 0 ↔ n.dataRange.Meets m.dataRange := by
  unfold nodeCompare
  rw [← size_intersection_pos_iff]
  split
  · exact iff_of_true rfl ‹_›
  · split <;> exact iff_of_false (by decide) ‹_›

theorem nodeCompare_neg_iff (n m : MemNode) :
    nodeCompare n m < 0 ↔ ¬n.dataRange.Meets m.dataRange ∧ n.offset < m.offset := by
  unfold nodeCompare
  rw [← size_intersection_pos_iff]
  split
  · simp [*]
  · split <;> simp [*]

theorem nodeCompare_pos_iff (n m : MemNode) :
    0 < nodeCompare n m ↔ ¬n.dataRange.Meets m.dataRange ∧ m.offset ≤ n.offset := by
  unfold nodeCompare
  rw [← size_intersection_pos_iff]
  split
  · simp [*]
  · split
    · simp [*]
    · simp_all

/-- Searching for a node among nodes that do not overlap is sent to one side
consistently, also when the node is empty. -/
theorem aligned_nodeCompare (target : MemNode) {mem : ℕ → MemNode} {l : List ℕ}
    (hwf : ∀ a ∈ l, (mem a).Wf) (hapart : l.Pairwise (fun a b => (mem a).end_ ≤ (mem b).offset)) :
    Splay.Aligned (fun a => nodeCompare target (mem a)) l := by
  refine hapart.imp_of_mem (fun {a b} ha hb hab => ?_)
  have hapos := (hwf a ha).pos
  rw [nodeCompare_neg_iff, nodeCompare_neg_iff, nodeCompare_pos_iff, nodeCompare_pos_iff]
  unfold Range.Meets MemNode.dataRange MemNode.end_ at *
  constructor
  · rintro ⟨hmeets, hlt⟩
    dsimp only at hmeets hab ⊢
    omega
  · rintro ⟨hmeets, hle⟩
    dsimp only at hmeets hab ⊢
    omega

/-! ## Searching -/

/-- A search rearranges the tree and changes nothing else. -/
structure Same (s s' : MemHdr) : Prop where
  inmemHi : s'.inmemHi = s.inmemHi
  values : s'.nodes.values = s.nodes.values
  size : s'.nodes.size = s.nodes.size
  mem : s'.mem = s.mem
  next : s'.next = s.next

theorem Same.refl (s : MemHdr) : Same s s := ⟨rfl, rfl, rfl, rfl, rfl⟩

variable {s s' : MemHdr} {m : ℤ → Option UInt8} {i : ℤ}

theorem Same.trans {s'' : MemHdr} (h : Same s s') (h' : Same s' s'') : Same s s'' :=
  ⟨h'.inmemHi.trans h.inmemHi, h'.values.trans h.values, h'.size.trans h.size,
    h'.mem.trans h.mem, h'.next.trans h.next⟩

/-- What is left when nodes are taken out of the tree. -/
theorem Inv.sublist (h : Inv s) (hsub : s'.nodes.values.Sublist s.nodes.values)
    (hmem : s'.mem = s.mem) (hnext : s'.next = s.next)
    (hsize : s'.nodes.size = s'.nodes.values.length) : Inv s' := by
  refine ⟨fun a ha => ?_, ?_, fun a ha => ?_, hsize⟩
  · rw [hmem]
    exact h.wf a (hsub.subset ha)
  · rw [hmem]
    exact h.apart.sublist hsub
  · rw [hnext]
    exact h.fresh a (hsub.subset ha)

theorem Inv.same (h : Inv s) (hsame : Same s s') : Inv s' := by
  refine h.sublist (by rw [hsame.values]) hsame.mem hsame.next ?_
  rw [hsame.values, hsame.size]
  exact h.size

/-- **Whatever is looked for, the comparison is aligned with the nodes**, when what
is looked for stands in the next free place. -/
theorem Inv.aligned (h : Inv s) (t : MemHdr) (target : MemNode)
    (hmem : t.mem = update s.mem s.next target) :
    (∀ a ∈ s.nodes.values, t.compare s.next a = nodeCompare target (s.mem a)) ∧
      Splay.Aligned (t.compare s.next) s.nodes.splay.values := by
  have hcompare : ∀ a ∈ s.nodes.values, t.compare s.next a = nodeCompare target (s.mem a) := by
    intro a ha
    show nodeCompare (t.mem s.next) (t.mem a) = _
    rw [hmem, update_self, update_of_ne (h.fresh a ha).ne]
  refine ⟨hcompare, (aligned_nodeCompare target h.wf h.apart).imp_of_mem fun {a b} ha hb hab => ?_⟩
  rw [hcompare a ha, hcompare b hb]
  exact hab

/-- **A search finds a node that meets the target, if there is one.** -/
theorem Inv.findNode (h : Inv s) (target : MemNode) (ht : 0 ≤ target.offset) :
    Ensures (findNode target) (fun found s' => Same s s' ∧ (∀ a, found = some a →
        a ∈ s.nodes.values ∧ target.dataRange.Meets (s.mem a).dataRange) ∧
      (found = none → ∀ a ∈ s.nodes.values, ¬target.dataRange.Meets (s.mem a).dataRange)) s := by
  let withTarget : MemHdr := { s with mem := update s.mem s.next target }
  obtain ⟨hcompare, haligned⟩ := h.aligned withTarget target rfl
  obtain ⟨hsome, hnone⟩ := Splay.find_spec haligned
  refine ⟨(s.nodes.find withTarget.compare s.next).2,
    { s with nodes := (s.nodes.find withTarget.compare s.next).1 }, ?_, ?_, ?_, ?_⟩
  · simp [Stmem.findNode, require, ht, withTarget]
    rfl
  · exact ⟨rfl, Splay.find_values _ s.nodes.splay, rfl, rfl, rfl⟩
  · intro a ha
    obtain ⟨hmem, hzero⟩ := hsome a ha
    exact ⟨hmem, (nodeCompare_eq_zero_iff _ _).mp ((hcompare a hmem).symm.trans hzero)⟩
  · intro hfound a ha hmeets
    refine hnone hfound a ha ?_
    rw [hcompare a ha]
    exact (nodeCompare_eq_zero_iff _ _).mpr hmeets

/-- Whether an offset is one of a node. -/
def MemNode.Contains (n : MemNode) (i : ℤ) : Prop := n.offset ≤ i ∧ i < n.end_

/-! ## What is held -/

/-- **The nodes hold the partial map `m`.** -/
def Holds (s : MemHdr) (m : ℤ → Option UInt8) : Prop :=
  ∀ i b, m i = some b ↔ ∃ a ∈ s.nodes.values, (s.mem a).byteAt i = some b

theorem Holds.congr (h : Holds s m) (hvalues : s'.nodes.values = s.nodes.values)
    (hmem : s'.mem = s.mem) : Holds s' m := by
  unfold Holds
  rw [hvalues, hmem]
  exact h

theorem Holds.same (h : Holds s m) (hsame : Same s s') : Holds s' m :=
  h.congr hsame.values hsame.mem

theorem MemNode.Wf.isSome_byteAt {n : MemNode} (h : n.Wf) (i : ℤ) :
    (n.byteAt i).isSome ↔ n.Contains i := by
  have hdata := h.data
  unfold MemNode.byteAt MemNode.Contains MemNode.end_
  split
  · rw [isSome_iff_ne_none, ne_eq, getElem?_eq_none_iff]
    omega
  · simp [*]

/-- An offset is held iff a node contains it. -/
theorem Holds.isSome_iff (h : Holds s m) (hinv : Inv s) (i : ℤ) :
    (m i).isSome ↔ ∃ a ∈ s.nodes.values, (s.mem a).Contains i := by
  constructor
  · intro hsome
    obtain ⟨b, hb⟩ := isSome_iff_exists.mp hsome
    obtain ⟨a, ha, hbyte⟩ := (h i b).mp hb
    exact ⟨a, ha, ((hinv.wf a ha).isSome_byteAt i).mp (by simp [hbyte])⟩
  · rintro ⟨a, ha, hcontains⟩
    obtain ⟨b, hb⟩ :=
      isSome_iff_exists.mp (((hinv.wf a ha).isSome_byteAt i).mpr hcontains)
    simp [(h i b).mpr ⟨a, ha, hb⟩]

/-- A node has the bytes of the map. -/
theorem Holds.byteAt_eq (h : Holds s m) (hinv : Inv s) {a : ℕ} (ha : a ∈ s.nodes.values)
    (hi : (s.mem a).Contains i) : (s.mem a).byteAt i = m i := by
  obtain ⟨b, hb⟩ := isSome_iff_exists.mp (((hinv.wf a ha).isSome_byteAt i).mpr hi)
  rw [hb, (h i b).mpr ⟨a, ha, hb⟩]

/-- **A node that contains the location, if it is held.** -/
theorem Inv.getBlockContainingLocation (h : Inv s) (hm : Holds s m) {location : ℤ}
    (hlocation : 0 ≤ location) : Ensures (getBlockContainingLocation location)
      (fun found s' => Same s s' ∧
        (∀ a, found = some a → a ∈ s.nodes.values ∧ (s.mem a).Contains location) ∧
        (found = none → m location = none)) s := by
  refine (h.findNode ⟨location, 1, [], false⟩ hlocation).mono (fun found s' hfound => ?_)
  obtain ⟨hsame, hsome, hnone⟩ := hfound
  have hmeets : ∀ n : MemNode, (MemNode.mk location 1 [] false).dataRange.Meets n.dataRange ↔
      n.Contains location := by
    intro n
    unfold Range.Meets MemNode.dataRange MemNode.Contains MemNode.end_
    dsimp only
    omega
  refine ⟨hsame, fun a ha => ⟨(hsome a ha).1, (hmeets _).mp (hsome a ha).2⟩, fun hfound => ?_⟩
  rw [← not_isSome_iff_eq_none, hm.isSome_iff h]
  exact fun ⟨a, ha, hcontains⟩ => hnone hfound a ha ((hmeets _).mpr hcontains)

/-! ## Reading -/

/-- The bytes of the longest run from an offset on that is held, up to a length. -/
def heldRun (m : ℤ → Option UInt8) : ℕ → ℤ → List UInt8
  | 0, _ => []
  | length + 1, i =>
    match m i with
    | none => []
    | some b => b :: heldRun m length (i + 1)

/-- A run over bytes that are held, and what follows them. -/
theorem heldRun_append (bytes : List UInt8) {length : ℕ}
    (hbytes : ∀ k : ℕ, k < bytes.length → m (i + k) = bytes[k]?) (hle : bytes.length ≤ length) :
    heldRun m length i = bytes ++ heldRun m (length - bytes.length) (i + bytes.length) := by
  induction bytes generalizing i length with
  | nil => simp
  | cons b bytes ih =>
    cases length with
    | zero => simp at hle
    | succ length =>
      have hfirst : m i = some b := by simpa using hbytes 0 (by simp)
      have hrest : ∀ k : ℕ, k < bytes.length → m (i + 1 + k) = bytes[k]? := by
        intro k hk
        have hnext := hbytes (k + 1) (by simpa using hk)
        rw [getElem?_cons_succ] at hnext
        rw [← hnext]
        congr 1
        omega
      have hlength : length + 1 - (bytes.length + 1) = length - bytes.length := by omega
      have hend : i + ((bytes.length + 1 : ℕ) : ℤ) = i + 1 + bytes.length := by omega
      rw [heldRun, hfirst, length_cons, hlength, hend]
      rw [ih hrest (by simpa using hle), cons_append]

theorem heldRun_eq_nil (hi : m i = none) (length : ℕ) : heldRun m length i = [] := by
  cases length with
  | zero => rfl
  | succ length => rw [heldRun, hi]

section Reading

variable {s : MemHdr} {m : ℤ → Option UInt8}

variable (h : Inv s)
include h

variable (hm : Holds s m)
include hm

/-- What is copied out of one node. -/
theorem Inv.copyAvailable {a : ℕ} (ha : a ∈ s.nodes.values) {location : ℤ}
    (hcontains : (s.mem a).Contains location) {amount : ℕ} (hamount : 0 < amount) :
    Ensures (copyAvailable a location amount) (fun bytes s' => s' = s ∧ bytes ≠ [] ∧
      bytes.length ≤ amount ∧ ∀ k : ℕ, k < bytes.length → m (location + k) = bytes[k]?) s := by
  have hdata := (h.wf a ha).data
  have hlower := hcontains.1
  have hupper : location < (s.mem a).offset + (s.mem a).length := hcontains.2
  let copyOffset := (location - (s.mem a).offset).toNat
  let bytes := ((s.mem a).data.drop copyOffset).take (min amount ((s.mem a).length - copyOffset))
  have hlength : bytes.length = min amount ((s.mem a).length - copyOffset) := by
    simp only [bytes, length_take, length_drop, hdata]
    omega
  simp only [Stmem.copyAvailable, ensures_bind, ensures_get, if_neg (not_lt.mpr hlower),
    ensures_require, ensures_pure]
  refine ⟨hcontains.2, trivial, ?_⟩
  change bytes ≠ [] ∧ bytes.length ≤ amount ∧
    ∀ k : ℕ, k < bytes.length → m (location + k) = bytes[k]?
  refine ⟨?_, ?_, fun k hk => ?_⟩
  · intro hnil
    rw [hnil] at hlength
    simp only [length_nil, copyOffset] at hlength
    omega
  · omega
  · have hk' : (s.mem a).Contains (location + k) := by
      unfold MemNode.Contains MemNode.end_
      omega
    rw [← hm.byteAt_eq h ha hk', MemNode.byteAt, if_pos hk'.1, getElem?_take_of_lt (by omega),
      getElem?_drop]
    congr 1
    omega

/-- The loop of `copy` at a node that contains the location, if there is one. -/
theorem Inv.copyLoop (bytesToGo : ℕ) {p : Option ℕ} {location : ℤ} (hlocation : 0 ≤ location)
    (hsome : ∀ a, p = some a → a ∈ s.nodes.values ∧ (s.mem a).Contains location)
    (hnone : p = none → m location = none) : Ensures (copyLoop p location bytesToGo)
      (fun bytes s' => Same s s' ∧ bytes = heldRun m bytesToGo location) s := by
  induction bytesToGo using Nat.strong_induction_on generalizing s p location with
  | _ bytesToGo ih =>
    unfold Stmem.copyLoop
    cases p with
    | none =>
      simp only [ensures_pure]
      exact ⟨Same.refl s, (heldRun_eq_nil (hnone rfl) bytesToGo).symm⟩
    | some a =>
      obtain ⟨ha, hcontains⟩ := hsome a rfl
      by_cases hzero : bytesToGo = 0
      · simp only [hzero, if_true, ensures_pure]
        exact ⟨Same.refl s, rfl⟩
      · simp only [hzero, if_false, ensures_bind]
        refine (h.copyAvailable hm ha hcontains (by omega)).mono ?_
        rintro bytes _ ⟨rfl, hne, hle, hbytes⟩
        have hpos := length_pos_iff.mpr hne
        simp only [hne, if_false, ensures_bind]
        have hnonneg : 0 ≤ location + (bytes.length : ℤ) := by omega
        refine (h.getBlockContainingLocation hm hnonneg).mono ?_
        rintro found s' ⟨hsame, hsome', hnone'⟩
        have hnext := ih (bytesToGo - bytes.length) (by omega) (h.same hsame) (hm.same hsame)
          (p := found) hnonneg
          (by rw [hsame.values, hsame.mem]; exact hsome') hnone'
        rw [ensures_bind]
        refine hnext.mono (fun rest s'' hrest => ?_)
        rw [ensures_pure]
        exact ⟨hsame.trans hrest.1, by rw [hrest.2, heldRun_append bytes hbytes hle]⟩

/-- **`copy`** from an offset that is held. -/
theorem Inv.copy {offset : ℤ} (hoffset : (m offset).isSome) {length : ℕ} (hlength : 0 < length) :
    Ensures (copy offset length)
      (fun bytes s' => Same s s' ∧ bytes = heldRun m length offset) s := by
  obtain ⟨a, ha, hcontains⟩ := (hm.isSome_iff h offset).mp hoffset
  have hnonneg : 0 ≤ offset := (h.wf a ha).nonneg.trans hcontains.1
  have hsize : s.nodes.size ≠ 0 := by
    rw [h.size]
    exact (length_pos_of_mem ha).ne'
  simp only [Stmem.copy, ensures_bind, ensures_require, ensures_get]
  refine ⟨hlength, hsize, (h.getBlockContainingLocation hm hnonneg).mono ?_⟩
  rintro found s' ⟨hsame, hsome, hnone⟩
  cases found with
  | none => simp [hnone rfl] at hoffset
  | some p =>
    refine ((h.same hsame).copyLoop (hm.same hsame) length hnonneg ?_ ?_).mono ?_
    · rw [hsame.values, hsame.mem]
      exact hsome
    · simp
    · exact fun bytes s'' hbytes => ⟨hsame.trans hbytes.1, hbytes.2⟩

/-- **`unionNotEmpty`** tells whether an offset of the buffer is held. -/
theorem Inv.unionNotEmpty {offset : ℤ} (hoffset : 0 ≤ offset) (length : ℕ) :
    Ensures (unionNotEmpty offset length) (fun found s' => Same s s' ∧
      (found = true ↔ ∃ i, offset ≤ i ∧ i < offset + length ∧ (m i).isSome)) s := by
  simp only [Stmem.unionNotEmpty, ensures_bind, ensures_require]
  refine ⟨hoffset, (h.findNode ⟨offset, length, [], false⟩ hoffset).mono ?_⟩
  rintro found s' ⟨hsame, hsome, hnone⟩
  rw [ensures_pure]
  refine ⟨hsame, ?_⟩
  have hcommon : ∀ n : MemNode, (MemNode.mk offset length [] false).dataRange.Meets n.dataRange →
        ∃ i, offset ≤ i ∧ i < offset + length ∧ n.Contains i := by
    intro n hmeets
    unfold Range.Meets MemNode.dataRange MemNode.end_ at hmeets
    dsimp only at hmeets
    refine ⟨max offset n.offset, by omega, by omega, ?_⟩
    unfold MemNode.Contains MemNode.end_
    omega
  cases found with
  | some a =>
    obtain ⟨ha, hmeets⟩ := hsome a rfl
    obtain ⟨i, hlower, hupper, hcontains⟩ := hcommon _ hmeets
    exact iff_of_true rfl ⟨i, hlower, hupper, (hm.isSome_iff h i).mpr ⟨a, ha, hcontains⟩⟩
  | none =>
    refine iff_of_false (by simp) ?_
    rintro ⟨i, hlower, hupper, hi⟩
    obtain ⟨a, ha, hcontains⟩ := (hm.isSome_iff h i).mp hi
    refine hnone rfl a ha ?_
    unfold MemNode.Contains MemNode.end_ at hcontains
    unfold Range.Meets MemNode.dataRange MemNode.end_
    dsimp only
    omega

/-- The loop of `hasContigousContentRange`, when all of the range is held up to here. -/
theorem Inv.contigousLoop (range : Range) {fuel : ℕ} {currentStart : ℤ} (hnonneg : 0 ≤ currentStart)
    (hfuel : (range.end_ - currentStart).toNat < fuel) (hstart : range.start ≤ currentStart)
    (hbefore : ∀ i, range.start ≤ i → i < currentStart → (m i).isSome)
    (hinside : currentStart < range.end_ ∨ range.end_ ≤ range.start) :
    Ensures (contigousLoop range fuel currentStart) (fun found s' => Same s s' ∧
      (found = true ↔ ∀ i, range.start ≤ i → i < range.end_ → (m i).isSome)) s := by
  induction fuel generalizing s currentStart with
  | zero => omega
  | succ fuel ih =>
    simp only [Stmem.contigousLoop, ensures_bind]
    refine (h.getBlockContainingLocation hm hnonneg).mono ?_
    rintro found s' ⟨hsame, hsome, hnone⟩
    cases found with
    | none =>
      rw [ensures_pure]
      refine ⟨hsame, ?_⟩
      rw [decide_eq_true_iff, Range.size]
      constructor
      · intro hsize i hlower hupper
        omega
      · intro hall
        by_contra hsize
        exact absurd (hall currentStart hstart (by omega)) (by simp [hnone rfl])
    | some a =>
      obtain ⟨ha, hcontains⟩ := hsome a rfl
      have hend : currentStart < (s.mem a).end_ := hcontains.2
      simp only [ensures_bind, ensures_get, hsame.mem]
      have hbefore' : ∀ i, range.start ≤ i → i < (s.mem a).end_ → (m i).isSome := by
        intro i hlower hupper
        by_cases hi : i < currentStart
        · exact hbefore i hlower hi
        · have := hcontains.1
          exact (hm.isSome_iff h i).mpr ⟨a, ha, by unfold MemNode.Contains; omega⟩
      by_cases hdone : range.end_ ≤ (s.mem a).end_
      · rw [if_pos hdone, ensures_pure]
        exact ⟨hsame, iff_of_true rfl fun i hlower hupper => hbefore' i hlower (by omega)⟩
      · rw [if_neg hdone]
        refine (ih (h.same hsame) (hm.same hsame) (by omega) (by omega) (by omega) hbefore'
          (by omega)).mono ?_
        exact fun found s'' hfound => ⟨hsame.trans hfound.1, hfound.2⟩

/-- **`hasContigousContentRange`** tells whether all of a range is held. -/
theorem Inv.hasContigousContentRange {range : Range} (hstart : 0 ≤ range.start) :
    Ensures (hasContigousContentRange range) (fun found s' => Same s s' ∧
      (found = true ↔ ∀ i, range.start ≤ i → i < range.end_ → (m i).isSome)) s :=
  h.contigousLoop hm range hstart (by rw [Range.size]; omega) le_rfl
    (fun i hlower hupper => by omega) (by omega)

end Reading

/-! ## Writing -/

/-- **`inmem_hi` is the end of the last node.** -/
def HiExact (s : MemHdr) : Prop :=
  s.inmemHi = match s.nodes.values.getLast? with
    | some a => (s.mem a).end_
    | none => 0

/-- The node `a`, between `xs` and `ys`, is to receive data at the location. It may
be a new one, which has no data yet. -/
structure Receives (exact : Prop) (s : MemHdr) (m : ℤ → Option UInt8) (a : ℕ) (xs ys : List ℕ)
    (location : ℤ) : Prop where
  values : s.nodes.values = xs ++ a :: ys
  others : ∀ x ∈ xs ++ ys, (s.mem x).Wf
  nonneg : 0 ≤ (s.mem a).offset
  data : (s.mem a).data.length = (s.mem a).length
  space : (s.mem a).length < pageSize
  ends : (s.mem a).end_ = location
  before : ∀ x ∈ xs, (s.mem x).end_ ≤ (s.mem a).offset
  after : ∀ y ∈ ys, location ≤ (s.mem y).offset
  apart : (xs ++ ys).Pairwise (fun a b => (s.mem a).end_ ≤ (s.mem b).offset)
  self : a ∉ xs ++ ys
  fresh : ∀ x ∈ s.nodes.values, x < s.next
  size : s.nodes.size = s.nodes.values.length
  holds : Holds s m
  hi : exact → match ys.getLast? with
    | some y => s.inmemHi = (s.mem y).end_
    | none => s.inmemHi ≤ location

section Writing

variable {exact : Prop} {s : MemHdr} {m : ℤ → Option UInt8} {location : ℤ}

/-- No node is in the tree twice. -/
theorem Inv.nodup (h : Inv s) : s.nodes.values.Nodup := by
  refine h.apart.imp_of_mem (fun {a b} ha _ hab heq => ?_)
  subst heq
  have := (h.wf a ha).pos
  unfold MemNode.end_ at hab
  omega

/-- A node that ends at the location can receive data there, if it has space. -/
theorem Inv.receives (h : Inv s) (hm : Holds s m) (hhi : exact → HiExact s) {a : ℕ}
    (ha : a ∈ s.nodes.values) (haccept : (s.mem a).canAccept location = true) :
    ∃ xs ys, Receives exact s m a xs ys location := by
  obtain ⟨hend, hspace⟩ : location = (s.mem a).end_ ∧ 0 < (s.mem a).space := by
    simpa [MemNode.canAccept] using haccept
  have hwf := h.wf a ha
  obtain ⟨xs, ys, hvalues⟩ := append_of_mem ha
  have hapart := h.apart
  have hnodup := h.nodup
  rw [hvalues] at hapart hnodup
  obtain ⟨hxs, hcons, hcross⟩ := pairwise_append.mp hapart
  obtain ⟨hys, hyy⟩ := pairwise_cons.mp hcons
  have hself : a ∉ xs ++ ys := (nodup_middle.mp hnodup).notMem
  refine ⟨xs, ys, hvalues, fun x hx => h.wf x ?_, hwf.nonneg, hwf.data, ?_, hend.symm, ?_, ?_, ?_,
    hself, h.fresh, h.size, hm, fun hexact => ?_⟩
  · rw [hvalues]
    exact perm_middle.mem_iff.mpr (mem_cons_of_mem a hx)
  · unfold MemNode.space at hspace
    omega
  · exact fun x hx => hcross x hx a mem_cons_self
  · exact fun y hy => hend ▸ hys y hy
  · exact pairwise_append.mpr ⟨hxs, hyy, fun x hx y hy => hcross x hx y (mem_cons_of_mem a hy)⟩
  · have hexact := hhi hexact
    rw [HiExact, hvalues, getLast?_append_of_ne_nil _ (cons_ne_nil a ys)] at hexact
    cases hlast : ys.getLast? with
    | none =>
      obtain rfl := getLast?_eq_none_iff.mp hlast
      rw [hexact, hend]
      exact le_rfl
    | some y =>
      rw [getLast?_cons, hlast] at hexact
      exact hexact

/-- **A new node** comes to stand where its data belongs. -/
theorem Inv.appendNewNode (h : Inv s) (hm : Holds s m) (hhi : exact → HiExact s)
    (hlocation : 0 ≤ location) (hfree : ¬(m location).isSome) : Ensures (appendNewNode location)
      (fun a s' => ∃ xs ys, s.nodes.values = xs ++ ys ∧ Receives exact s' m a xs ys location)
      s := by
  let s1 : MemHdr :=
    { s with mem := update s.mem s.next (.new location), next := s.next + 1 }
  have hold : ∀ x ∈ s.nodes.values, s1.mem x = s.mem x := fun x hx =>
    update_of_ne (h.fresh x hx).ne _ _
  have hnew : s1.mem s.next = .new location := update_self _ _ _
  obtain ⟨hcompare, haligned⟩ := h.aligned s1 (.new location) rfl
  have hempty : ∀ n : MemNode, ¬(MemNode.new location).dataRange.Meets n.dataRange := by
    intro n
    unfold Range.Meets MemNode.dataRange MemNode.end_ MemNode.new
    dsimp only
    omega
  obtain ⟨hsome, hnone⟩ := Splay.insert_spec s.next haligned
  -- nothing is in the way of a node that is empty
  have hinsert : (s.nodes.splay.insert (s1.compare s.next) s.next).2 = none := by
    by_contra hfound
    obtain ⟨old, hold⟩ := ne_none_iff_exists'.mp hfound
    obtain ⟨-, hmem, hzero⟩ := hsome old hold
    rw [hcompare old hmem, nodeCompare_eq_zero_iff] at hzero
    exact hempty _ hzero
  obtain ⟨xs, ys, hparts, hsplits, hinserted⟩ := hnone hinsert
  obtain ⟨hvalues, helements⟩ := SplayTree.insert_of_none (t := s.nodes) hinsert
  rw [hinserted] at hvalues
  have hparts' : s.nodes.values = xs ++ ys := hparts
  have hx : ∀ x ∈ xs, x ∈ s.nodes.values := fun x hx => by simp [hparts', hx]
  have hy : ∀ y ∈ ys, y ∈ s.nodes.values := fun y hy => by simp [hparts', hy]
  have hxs : ∀ x ∈ xs, (s.mem x).end_ ≤ location := by
    intro x hxmem
    have hpos := hsplits.1 x hxmem
    rw [hcompare x (hx x hxmem), nodeCompare_pos_iff] at hpos
    by_contra hlt
    exact hfree ((hm.isSome_iff h location).mpr ⟨x, hx x hxmem, hpos.2, not_le.mp hlt⟩)
  have hys : ∀ y ∈ ys, location < (s.mem y).offset := by
    intro y hymem
    have hneg := hsplits.2 y hymem
    rw [hcompare y (hy y hymem), nodeCompare_neg_iff] at hneg
    exact hneg.2
  refine ⟨s.next, { s1 with nodes := (s.nodes.insert s1.compare s.next).1 }, rfl, xs, ys, hparts',
    ?_⟩
  have hmem : ∀ x ∈ xs ++ ys, s1.mem x = s.mem x := fun x hxy => hold x (hparts'.symm ▸ hxy)
  have hself : s.next ∉ xs ++ ys := fun hxy => (h.fresh _ (hparts'.symm ▸ hxy)).ne rfl
  refine
    { values := hvalues
      others := fun x hxy => ?_
      nonneg := hnew ▸ hlocation
      data := hnew ▸ rfl
      space := hnew ▸ (show 0 < pageSize by decide)
      ends := ?_
      before := fun x hxmem => ?_
      after := fun y hymem => ?_
      apart := ?_
      self := hself
      fresh := ?_
      size := ?_
      holds := ?_
      hi := fun hexact => ?_ }
  · rw [hmem x hxy]
    exact h.wf x (hparts'.symm ▸ hxy)
  · rw [hnew]
    simp [MemNode.new, MemNode.end_]
  · rw [hmem x (mem_append_left ys hxmem), hnew]
    exact hxs x hxmem
  · rw [hmem y (mem_append_right xs hymem)]
    exact (hys y hymem).le
  · refine (hparts' ▸ h.apart).imp_of_mem (fun {a b} ha hb hab => ?_)
    rw [hmem a ha, hmem b hb]
    exact hab
  · rw [hvalues]
    intro x hxmem
    rcases mem_cons.mp (perm_middle.mem_iff.mp hxmem) with rfl | hxy
    · exact lt_add_one _
    · exact (h.fresh x (hparts'.symm ▸ hxy)).trans (lt_add_one _)
  · show (s.nodes.insert s1.compare s.next).1.elements =
      (s.nodes.insert s1.compare s.next).1.values.length
    have hsize : s.nodes.elements = s.nodes.values.length := h.size
    rw [helements, hvalues, hsize, hparts']
    simp only [length_append, length_cons]
    omega
  · intro i b
    rw [hm i b, hvalues, hparts']
    constructor
    · rintro ⟨x, hxy, hbyte⟩
      exact ⟨x, perm_middle.mem_iff.mpr (mem_cons_of_mem _ hxy), by rwa [hmem x hxy]⟩
    · rintro ⟨x, hxmem, hbyte⟩
      rcases mem_cons.mp (perm_middle.mem_iff.mp hxmem) with rfl | hxy
      · rw [hnew] at hbyte
        simp [MemNode.new, MemNode.byteAt] at hbyte
      · exact ⟨x, hxy, by rwa [hmem x hxy] at hbyte⟩
  · have hexact := hhi hexact
    rw [HiExact, hparts'] at hexact
    cases hlast : ys.getLast? with
    | none =>
      obtain rfl := getLast?_eq_none_iff.mp hlast
      rw [append_nil] at hexact
      rw [hexact]
      cases hlastx : xs.getLast? with
      | none => exact hlocation
      | some x => exact hxs x (mem_of_getLast? hlastx)
    | some y =>
      show s.inmemHi = (s1.mem y).end_
      have hymem := mem_of_getLast? hlast
      rw [hmem y (mem_append_right xs hymem), hexact,
        getLast?_append_of_ne_nil _ (ne_nil_of_mem hymem), hlast]

theorem HiExact.congr {s' : MemHdr} (h : HiExact s) (hvalues : s'.nodes.values = s.nodes.values)
    (hmem : s'.mem = s.mem) (hinmemHi : s'.inmemHi = s.inmemHi) : HiExact s' := by
  rw [HiExact, hinmemHi, hvalues, hmem]
  exact h

theorem HiExact.same {s' : MemHdr} (h : HiExact s) (hsame : Same s s') : HiExact s' :=
  h.congr hsame.values hsame.mem hsame.inmemHi

/-- The search for a node that leads up to an offset. -/
theorem Inv.leadup (h : Inv s) (hm : Holds s m) (offset : ℤ) :
    Ensures (leadup offset) (fun candidate s' => Same s s' ∧
      ∀ a, candidate = some a → a ∈ s.nodes.values) s := by
  unfold Stmem.leadup
  split
  · exact (h.getBlockContainingLocation hm (by omega)).mono
      (fun found s' hfound => ⟨hfound.1, fun a ha => (hfound.2.1 a ha).1⟩)
  · rw [ensures_pure]
    exact ⟨Same.refl s, fun a ha => nomatch ha⟩

/-- **`nodeToRecieve`** gives a node that can receive data at an offset that is not
held. -/
theorem Inv.nodeToRecieve (h : Inv s) (hm : Holds s m) (hhi : exact → HiExact s)
    (hlocation : 0 ≤ location) (hfree : ¬(m location).isSome) : Ensures (nodeToRecieve location)
      (fun a s' => ∃ xs ys, Receives exact s' m a xs ys location) s := by
  simp only [Stmem.nodeToRecieve, ensures_bind, ensures_get]
  by_cases hsize : s.nodes.size = 0
  · rw [if_pos hsize, ensures_bind]
    refine (h.appendNewNode hm hhi hlocation hfree).mono ?_
    rintro a s' ⟨xs, ys, hparts, hreceives⟩
    -- the new node is the only one
    rw [h.size, hparts, length_eq_zero_iff, append_eq_nil_iff] at hsize
    obtain ⟨rfl, rfl⟩ := hsize
    have hstart : s'.nodes.start = some a := by
      rw [SplayTree.Tree.start, SplayTree.nodeStart_eq_head?]
      exact congrArg head? hreceives.values
    rw [ensures_bind, ensures_get, hstart]
    exact (ensures_pure a).mpr ⟨[], [], hreceives⟩
  · rw [if_neg hsize, ensures_bind]
    refine (h.leadup hm location).mono ?_
    rintro candidate s' ⟨hsame, hcandidate⟩
    have h' := h.same hsame
    have hm' := hm.same hsame
    have hhi' : exact → HiExact s' := fun hexact => (hhi hexact).same hsame
    rw [ensures_bind, ensures_get]
    cases haccepts : candidateFor s' location candidate with
    | none =>
      refine (h'.appendNewNode hm' hhi' hlocation hfree).mono ?_
      rintro a s'' ⟨xs, ys, -, hreceives⟩
      exact ⟨xs, ys, hreceives⟩
    | some a =>
      obtain ⟨hsome, haccept⟩ := filter_eq_some_iff.mp haccepts
      exact (ensures_pure a).mpr
        (h'.receives hm' hhi' (hsame.values.symm ▸ hcandidate a hsome) haccept)

/-- The bytes of a node that grows. -/
theorem MemNode.byteAt_append {n : MemNode} (hdata : n.data.length = n.length)
    (bytes : List UInt8) (length : ℕ) (i : ℤ) :
    (MemNode.byteAt { n with length := length, data := n.data ++ bytes } i) =
      if n.end_ ≤ i then bytes[(i - n.end_).toNat]? else n.byteAt i := by
  unfold MemNode.byteAt MemNode.end_
  dsimp only
  by_cases hlower : n.offset ≤ i
  · by_cases hend : n.offset + n.length ≤ i
    · rw [if_pos hlower, if_pos hend, getElem?_append_right (by omega)]
      congr 1
      omega
    · rw [if_pos hlower, if_neg hend, if_pos hlower, getElem?_append_left (by omega)]
  · rw [if_neg hlower, if_neg (by omega), if_neg hlower]

/-- What is written to an offset. -/
def written (offset : ℤ) (data : List UInt8) (m : ℤ → Option UInt8) (i : ℤ) : Option UInt8 :=
  if offset ≤ i ∧ i < offset + data.length then data[(i - offset).toNat]? else m i

/-- **`writeAvailable`** to a node that can receive the data. -/
theorem Receives.writeAvailable {a : ℕ} {xs ys : List ℕ} (h : Receives exact s m a xs ys location)
    {source : List UInt8} (hsource : source ≠ [])
    (hfree : ∀ i, location ≤ i → i < location + source.length → ¬(m i).isSome) :
    Ensures (writeAvailable a location source) (fun wrote s' => 0 < wrote ∧
      wrote ≤ source.length ∧ Inv s' ∧ Holds s' (written location (source.take wrote) m) ∧
      (exact → HiExact s')) s := by
  have hpos := length_pos_iff.mpr hsource
  let copyLen := min source.length (s.mem a).space
  have hspace : (s.mem a).space = pageSize - (s.mem a).length := rfl
  have hlt := h.space
  have hcopy : 0 < copyLen ∧ copyLen ≤ source.length ∧ copyLen ≤ (s.mem a).space := by
    omega
  have haccept : (s.mem a).canAccept location = true := by
    simp only [MemNode.canAccept, decide_eq_true_eq]
    exact ⟨h.ends.symm, by omega⟩
  -- what follows begins after all that is to be written
  have hafter : ∀ y ∈ ys, location + source.length ≤ (s.mem y).offset := by
    intro y hy
    by_contra hlt
    have hwf := h.others y (mem_append_right xs hy)
    have hymem : y ∈ s.nodes.values := by
      rw [h.values]
      exact mem_append_right _ (mem_cons_of_mem a hy)
    obtain ⟨b, hb⟩ := isSome_iff_exists.mp ((hwf.isSome_byteAt (s.mem y).offset).mpr
      ⟨le_rfl, by have := hwf.pos; unfold MemNode.end_; omega⟩)
    have hheld := (h.holds (s.mem y).offset b).mpr ⟨y, hymem, hb⟩
    exact hfree _ (h.after y hy) (by omega) (by simp [hheld])
  let n : MemNode := { s.mem a with
    length := (s.mem a).length + copyLen, data := (s.mem a).data ++ source.take copyLen }
  let s' : MemHdr := { s with
    inmemHi := if s.inmemHi ≤ location then location + copyLen else s.inmemHi
    mem := update s.mem a n }
  have hself : s'.mem a = n := update_self _ _ _
  have hold : ∀ x ∈ xs ++ ys, s'.mem x = s.mem x := by
    intro x hx
    refine update_of_ne ?_ _ _
    rintro rfl
    exact h.self hx
  have hend : n.end_ = location + copyLen := by
    have hends := h.ends
    simp only [n, MemNode.end_] at hends ⊢
    omega
  simp only [Stmem.writeAvailable, ensures_bind, ensures_get, ensures_require, ensures_set,
    ensures_pure]
  refine ⟨h.ends.symm, haccept, hcopy.1, hcopy.2.1, ?_⟩
  have hmem : ∀ x, x ∈ s'.nodes.values ↔ x ∈ xs ++ ys ∨ x = a := by
    intro x
    rw [h.values, perm_middle.mem_iff, mem_cons, or_comm]
  refine ⟨⟨fun x hx => ?_, ?_, h.fresh, h.size⟩, fun i b => ?_, fun hexact => ?_⟩
  · rcases (hmem x).mp hx with hx | rfl
    · rw [hold x hx]
      exact h.others x hx
    · rw [hself]
      refine ⟨h.nonneg, ?_, ?_, ?_⟩
      · show 0 < (s.mem x).length + copyLen
        omega
      · show (s.mem x).length + copyLen ≤ pageSize
        omega
      · show ((s.mem x).data ++ source.take copyLen).length = (s.mem x).length + copyLen
        rw [length_append, h.data, length_take]
        omega
  · have hapart : (xs ++ ys).Pairwise (fun a b => (s'.mem a).end_ ≤ (s'.mem b).offset) :=
      h.apart.imp_of_mem fun {x y} hx hy hxy => by rwa [hold x hx, hold y hy]
    obtain ⟨hxs, hys, hcross⟩ := pairwise_append.mp hapart
    rw [h.values]
    refine pairwise_append.mpr ⟨hxs, pairwise_cons.mpr ⟨fun y hy => ?_, hys⟩,
      fun x hx => forall_mem_cons.mpr ⟨?_, hcross x hx⟩⟩
    · rw [hself, hend, hold y (mem_append_right xs hy)]
      have := hafter y hy
      omega
    · rw [hold x (mem_append_left ys hx), hself]
      exact h.before x hx
  · have hgrown : (s'.mem a).byteAt i =
        if location ≤ i then (source.take copyLen)[(i - location).toNat]?
        else (s.mem a).byteAt i := by
      rw [hself, MemNode.byteAt_append h.data, h.ends]
    have hlength : (source.take copyLen).length = copyLen := by
      rw [length_take]
      omega
    unfold written
    rw [hlength]
    by_cases hin : location ≤ i ∧ i < location + copyLen
    · rw [if_pos hin]
      rw [if_pos hin.1] at hgrown
      constructor
      · exact fun hb => ⟨a, (hmem a).mpr (.inr rfl), hgrown.trans hb⟩
      · rintro ⟨x, hx, hbyte⟩
        rcases (hmem x).mp hx with hx | rfl
        · -- no other node has a byte there
          rw [hold x hx] at hbyte
          have hheld := (h.holds i b).mpr ⟨x, (hmem x).mpr (.inl hx), hbyte⟩
          exact absurd (by simp [hheld]) (hfree i hin.1 (by omega))
        · exact hgrown.symm.trans hbyte
    · have hsame : ∀ x ∈ s'.nodes.values, (s'.mem x).byteAt i = (s.mem x).byteAt i := by
        intro x hx
        rcases (hmem x).mp hx with hx | rfl
        · rw [hold x hx]
        · rw [hgrown]
          split
          · rw [getElem?_eq_none (by omega), MemNode.byteAt]
            have hends := h.ends
            unfold MemNode.end_ at hends
            split
            · rw [getElem?_eq_none (by have := h.data; omega)]
            · rfl
          · rfl
      rw [if_neg hin, h.holds i b]
      exact exists_congr fun x => and_congr_right fun hx => by rw [hsame x hx]
  · have hhi := h.hi hexact
    show (if s.inmemHi ≤ location then location + copyLen else s.inmemHi) =
      match s.nodes.values.getLast? with
      | some a => (s'.mem a).end_
      | none => 0
    rw [h.values, getLast?_append_of_ne_nil _ (cons_ne_nil a ys), getLast?_cons]
    cases hlast : ys.getLast? with
    | none =>
      rw [hlast] at hhi
      rw [if_pos hhi]
      show location + copyLen = (s'.mem a).end_
      rw [hself, hend]
    | some y =>
      rw [hlast] at hhi
      have hy := mem_of_getLast? hlast
      have hle := h.after y hy
      have hypos := (h.others y (mem_append_right xs hy)).pos
      rw [if_neg (by rw [hhi]; unfold MemNode.end_; omega)]
      show s.inmemHi = (s'.mem y).end_
      rw [hold y (mem_append_right xs hy), hhi]

/-- One piece after the other is written. -/
theorem written_append (offset : ℤ) (data data' : List UInt8) (m : ℤ → Option UInt8) :
    written (offset + data.length) data' (written offset data m) =
      written offset (data ++ data') m := by
  funext i
  unfold written
  rw [length_append]
  by_cases hlower : offset ≤ i
  · by_cases hmiddle : i < offset + data.length
    · rw [if_neg (by omega), if_pos ⟨hlower, hmiddle⟩, if_pos (by omega),
        getElem?_append_left (by omega)]
    · by_cases hupper : i < offset + data.length + data'.length
      · rw [if_pos (by omega), if_pos (by omega), getElem?_append_right (by omega)]
        congr 1
        omega
      · rw [if_neg (by omega), if_neg (by omega), if_neg (by omega)]
  · rw [if_neg (by omega), if_neg (by omega), if_neg (by omega)]

theorem written_nil (offset : ℤ) (m : ℤ → Option UInt8) : written offset [] m = m := by
  funext i
  exact if_neg (by simp)

/-- **The loop of `write`** to offsets that are not held. -/
theorem Inv.writeLoop (source : List UInt8) (h : Inv s) (hm : Holds s m)
    (hhi : exact → HiExact s) (hlocation : 0 ≤ location)
    (hfree : ∀ i, location ≤ i → i < location + source.length → ¬(m i).isSome) :
    Ensures (writeLoop location source) (fun _ s' => Inv s' ∧ Holds s' (written location source m) ∧
      (exact → HiExact s')) s := by
  induction hn : source.length using Nat.strong_induction_on generalizing s m location source with
  | _ n ih =>
    unfold Stmem.writeLoop
    by_cases hsource : source = []
    · rw [if_pos hsource, ensures_pure, hsource, written_nil]
      exact ⟨h, hm, hhi⟩
    · rw [if_neg hsource, ensures_bind]
      have hpos := length_pos_iff.mpr hsource
      refine (h.nodeToRecieve hm hhi hlocation (hfree location le_rfl (by omega))).mono ?_
      rintro a s1 ⟨xs, ys, hreceives⟩
      rw [ensures_bind]
      refine (hreceives.writeAvailable hsource hfree).mono ?_
      rintro wrote s2 ⟨hwrote, hle, h2, hm2, hhi2⟩
      rw [if_neg hwrote.ne']
      have htake : (source.take wrote).length = wrote := by
        rw [length_take]
        omega
      have hnonneg : 0 ≤ location + (wrote : ℤ) := by omega
      have hnext := ih (source.drop wrote).length (by rw [length_drop]; omega)
        (source.drop wrote) h2 hm2 hhi2 hnonneg ?_ rfl
      · have happend := written_append location (source.take wrote) (source.drop wrote) m
        rw [htake, take_append_drop] at happend
        rw [← happend]
        exact hnext
      · intro i hlower hupper
        rw [length_drop] at hupper
        unfold written
        rw [if_neg (by omega)]
        exact hfree i (by omega) (by omega)

/-- **`write`** to offsets that are not held. -/
theorem Inv.write (h : Inv s) (hm : Holds s m) (hhi : exact → HiExact s) {offset : ℤ}
    (hoffset : 0 ≤ offset) (data : List UInt8)
    (hfree : ∀ i, offset ≤ i → i < offset + data.length → ¬(m i).isSome) :
    Ensures (write offset data) (fun _ s' => Inv s' ∧ Holds s' (written offset data m) ∧
      (exact → HiExact s')) s := by
  unfold Stmem.write
  rw [ensures_bind]
  refine (h.unionNotEmpty hm hoffset data.length).mono ?_
  rintro found s' ⟨hsame, hfound⟩
  have hnot : found = false := by
    rw [Bool.eq_false_iff]
    intro htrue
    obtain ⟨i, hlower, hupper, hi⟩ := hfound.mp htrue
    exact hfree i hlower hupper hi
  subst hnot
  simp only [Bool.false_eq_true, if_false, ensures_bind, ensures_require]
  exact ⟨hoffset, (h.same hsame).writeLoop data (hm.same hsame)
    (fun hexact => (hhi hexact).same hsame) hoffset hfree⟩

end Writing

end Stmem
