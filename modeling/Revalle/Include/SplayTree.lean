import Revalle.Data.Splay

/-!
# The splay tree of `splay.h`

`Splay` is an ordered set of values with a comparison function that the caller
gives with each call. Values that compare equal need not be the same: the tree
has at most one of them, the one that was inserted first. The tree also counts
its values, by adding and subtracting with each insertion and removal.

Against any comparison that is a three-way total order, the tree refines the set
of what was inserted and not removed (`Contents`): it has the values of the set
in ascending order, and searching, the ends of the tree and the counter are what
they should be (`refines_run`).
-/

namespace SplayTree

open List

variable {V : Type}

/-- **A three-way comparison is a total order**: its sign tells which of two
values comes first, and `0` that neither does. -/
structure ThreeWay (compare : V → V → ℤ) : Prop where
  refl : ∀ a, compare a a = 0
  swap : ∀ a b, compare a b < 0 ↔ 0 < compare b a
  trans : ∀ a b c, compare a b ≤ 0 → compare b c ≤ 0 → compare a c ≤ 0

/-- The leftmost value, as `SplayNode::start` walks to it. -/
def nodeStart : Splay.Node V → Option V
  | .nil => none
  | .node .nil data _ => some data
  | .node (.node a y b) _ _ => nodeStart (.node a y b)

/-- The rightmost value, as `SplayNode::finish` walks to it. -/
def nodeFinish : Splay.Node V → Option V
  | .nil => none
  | .node _ data .nil => some data
  | .node _ _ (.node a y b) => nodeFinish (.node a y b)

/-- `Splay<V>`: the tree and the counter. -/
structure Tree (V : Type) where
  splay : Splay V
  elements : ℕ

namespace Tree

def empty : Tree V := ⟨⟨.nil⟩, 0⟩

/-- The stored values from left to right. -/
def values (t : Tree V) : List V := t.splay.values

/-- `Splay::find`. -/
def find (compare : V → V → ℤ) (value : V) (t : Tree V) : Tree V × Option V :=
  let (splay, found) := t.splay.find (compare value)
  ({ t with splay := splay }, found)

/-- `Splay::insert`: the similar value that is in the way, if there is one. -/
def insert (compare : V → V → ℤ) (value : V) (t : Tree V) : Tree V × Option V :=
  match t.splay.insert (compare value) value with
  | (splay, some similarValue) => (⟨splay, t.elements⟩, some similarValue)
  | (splay, none) => (⟨splay, t.elements + 1⟩, none)

/-- `Splay::remove`. -/
def remove (compare : V → V → ℤ) (value : V) (t : Tree V) : Tree V :=
  match t.splay.find (compare value) with
  | (splay, none) => { t with splay := splay }
  | (splay, some _) => ⟨⟨Splay.removeNode (compare value) splay.head⟩, t.elements - 1⟩

def start (t : Tree V) : Option V := nodeStart t.splay.head

def finish (t : Tree V) : Option V := nodeFinish t.splay.head

def size (t : Tree V) : ℕ := t.elements

end Tree

/-! ## Histories -/

/-- A call on a tree. -/
inductive Call (V : Type) where
  | insert (value : V)
  | remove (value : V)
  | find (value : V)

def Call.run (compare : V → V → ℤ) (t : Tree V) : Call V → Tree V
  | .insert value => (t.insert compare value).1
  | .remove value => t.remove compare value
  | .find value => (t.find compare value).1

/-- What a call makes of the set of stored values: insertion adds a value unless
there is an equal one, removal takes away what is equal. -/
def Call.contents (compare : V → V → ℤ) (stored : Set V) : Call V → Set V
  | .insert value => {v | v ∈ stored ∨ v = value ∧ ∀ w ∈ stored, compare value w ≠ 0}
  | .remove value => {v ∈ stored | compare value v ≠ 0}
  | .find _ => stored

/-- **What was inserted and not removed.** -/
def Contents (compare : V → V → ℤ) (calls : List (Call V)) : Set V :=
  calls.foldl (Call.contents compare) ∅

/-- The tree after a history. -/
def runCalls (compare : V → V → ℤ) (calls : List (Call V)) : Tree V :=
  calls.foldl (Call.run compare) Tree.empty

/-! ## The tree refines the set -/

/-- The tree has the values of the set in ascending order, and has counted them. -/
structure Refines (compare : V → V → ℤ) (t : Tree V) (stored : Set V) : Prop where
  ascending : t.values.Pairwise (fun a b => compare a b < 0)
  mem_iff : ∀ v, v ∈ t.values ↔ v ∈ stored
  elements : t.elements = t.values.length

variable {compare : V → V → ℤ}

namespace ThreeWay

variable (h : ThreeWay compare)
include h

theorem zero_swap {a b : V} : compare a b = 0 ↔ compare b a = 0 := by
  have h1 := h.swap a b
  have h2 := h.swap b a
  omega

/-- What is before a value is before everything that is not before it. -/
theorem lt_of_lt_of_le {a b c : V} (hab : compare a b < 0) (hbc : compare b c ≤ 0) :
    compare a c < 0 := by
  have hca := h.swap a c
  have hba := h.swap a b
  by_contra hge
  -- otherwise c ≤ a, and b ≤ c ≤ a
  have hle : compare c a ≤ 0 := by
    omega
  have := h.trans b c a hbc hle
  omega

/-- Two values that are equal to one are equal. -/
theorem zero_of_zero {a b c : V} (hab : compare a b = 0) (hac : compare a c = 0) :
    compare b c = 0 := by
  have hba := h.zero_swap.mp hab
  have hca := h.zero_swap.mp hac
  have hbc := h.trans b a c hba.le hac.le
  have hcb := h.trans c a b hca.le hab.le
  have hswap := h.swap b c
  omega

/-- No two values of an ascending sequence are equal. -/
theorem eq_of_zero {l : List V} (hl : l.Pairwise (fun a b => compare a b < 0)) {a b : V}
    (ha : a ∈ l) (hb : b ∈ l) (hab : compare a b = 0) : a = b := by
  by_contra hne
  have hnonzero : l.Pairwise (fun a b => compare a b ≠ 0) := hl.imp (fun hlt => hlt.ne)
  have : Std.Symm (fun a b => compare a b ≠ 0) := ⟨fun _ _ h' h'' => h' (h.zero_swap.mp h'')⟩
  exact hnonzero.forall ha hb hne hab

/-- A search in an ascending sequence is sent to one side consistently. -/
theorem aligned {l : List V} (hl : l.Pairwise (fun a b => compare a b < 0)) (value : V) :
    Splay.Aligned (compare value) l := by
  refine hl.imp (fun {a b} hab => ⟨fun hlt => ?_, fun hgt => ?_⟩)
  · exact h.lt_of_lt_of_le hlt hab.le
  · exact (h.swap a value).mp (h.lt_of_lt_of_le hab ((h.swap b value).mpr hgt).le)

end ThreeWay

variable {t : Tree V} {stored : Set V}

/-- **Searching** rearranges the tree, and finds the stored value that is equal. -/
theorem Refines.find (hc : ThreeWay compare) (h : Refines compare t stored) (value : V) :
    Refines compare (t.find compare value).1 stored ∧
      (∀ v, (t.find compare value).2 = some v ↔ v ∈ stored ∧ compare value v = 0) := by
  have hvalues : (t.find compare value).1.values = t.values := Splay.find_values _ t.splay
  obtain ⟨hsome, hnone⟩ := Splay.find_spec (hc.aligned h.ascending value)
  refine ⟨⟨?_, ?_, ?_⟩, fun v => ⟨fun hv => ?_, fun hv => ?_⟩⟩
  · rw [hvalues]
    exact h.ascending
  · rw [hvalues]
    exact h.mem_iff
  · rw [hvalues]
    exact h.elements
  · obtain ⟨hmem, heq⟩ := hsome v hv
    exact ⟨(h.mem_iff v).mp hmem, heq⟩
  · have hmem := (h.mem_iff v).mpr hv.1
    cases hfound : (t.splay.find (compare value)).2 with
    | none => exact absurd hv.2 (hnone hfound v hmem)
    | some w =>
      obtain ⟨hw, hweq⟩ := hsome w hfound
      rw [hc.eq_of_zero h.ascending hmem hw (hc.zero_of_zero hv.2 hweq)]
      exact hfound

/-- **Insertion** adds the value, unless it finds an equal one. -/
theorem Refines.insert (hc : ThreeWay compare) (h : Refines compare t stored) (value : V) :
    Refines compare (t.insert compare value).1 (Call.contents compare stored (.insert value)) ∧
      (∀ v, (t.insert compare value).2 = some v ↔ v ∈ stored ∧ compare value v = 0) := by
  obtain ⟨hsome, hnone⟩ := Splay.insert_spec value (hc.aligned h.ascending value)
  unfold Tree.insert
  cases hinsert : t.splay.insert (compare value) value with
  | mk splay similar =>
    rw [hinsert] at hsome hnone
    cases similar with
    | some w =>
      obtain ⟨hvalues, hw, hweq⟩ := hsome w rfl
      have hvalues' : (Tree.mk splay t.elements).values = t.values := hvalues
      have hwstored := (h.mem_iff w).mp hw
      refine ⟨⟨hvalues'.symm ▸ h.ascending, fun v => ?_, hvalues'.symm ▸ h.elements⟩, fun v => ?_⟩
      · rw [hvalues', h.mem_iff]
        refine ⟨.inl, ?_⟩
        rintro (hv | ⟨-, hfree⟩)
        · exact hv
        · exact absurd hweq (hfree w hwstored)
      · constructor
        · intro hv
          obtain rfl := Option.some.inj hv
          exact ⟨hwstored, hweq⟩
        · rintro ⟨hv, hveq⟩
          rw [hc.eq_of_zero h.ascending hw ((h.mem_iff v).mpr hv) (hc.zero_of_zero hweq hveq)]
    | none =>
      obtain ⟨xs, ys, hparts, hsplits, hvalues⟩ := hnone rfl
      have hparts' : t.values = xs ++ ys := hparts
      have hvalues' : (Tree.mk splay (t.elements + 1)).values = xs ++ value :: ys := hvalues
      have hascending := hparts' ▸ h.ascending
      obtain ⟨hxs, hys, hxy⟩ := pairwise_append.mp hascending
      -- nothing that is stored is equal to the value
      have hfree : ∀ w ∈ stored, compare value w ≠ 0 := by
        intro w hw
        have hmem := (h.mem_iff w).mpr hw
        rw [hparts', mem_append] at hmem
        rcases hmem with hmem | hmem
        · exact (hsplits.1 w hmem).ne'
        · exact (hsplits.2 w hmem).ne
      refine ⟨⟨?_, fun v => ?_, ?_⟩, fun v => ?_⟩
      · rw [hvalues']
        refine pairwise_append.mpr ⟨hxs, pairwise_cons.mpr ⟨hsplits.2, hys⟩, ?_⟩
        intro x hx
        exact forall_mem_cons.mpr ⟨(hc.swap x value).mpr (hsplits.1 x hx), hxy x hx⟩
      · show v ∈ (Tree.mk splay (t.elements + 1)).values ↔
          v ∈ stored ∨ v = value ∧ ∀ w ∈ stored, compare value w ≠ 0
        rw [hvalues', ← h.mem_iff, hparts']
        simp only [mem_append, mem_cons, and_iff_left hfree]
        tauto
      · rw [hvalues', h.elements, hparts']
        simp only [length_append, length_cons]
        omega
      · exact iff_of_false (by simp) (fun hv => hfree v hv.1 hv.2)

/-- An insertion that finds nothing in its way is that of the tree below. -/
theorem insert_of_none {value : V} (h : (t.splay.insert (compare value) value).2 = none) :
    (t.insert compare value).1.values = (t.splay.insert (compare value) value).1.values ∧
      (t.insert compare value).1.elements = t.elements + 1 := by
  have hinsert : t.splay.insert (compare value) value = (_, none) := Prod.ext rfl h
  unfold Tree.insert
  rw [hinsert]
  exact ⟨rfl, rfl⟩

/-- A removal that finds nothing leaves the values as they are. -/
theorem remove_of_none {value : V} (h : (t.splay.find (compare value)).2 = none) :
    (t.remove compare value).values = t.values ∧
      (t.remove compare value).elements = t.elements := by
  have hfind : t.splay.find (compare value) = (_, none) := Prod.ext rfl h
  unfold Tree.remove
  rw [hfind]
  exact ⟨Splay.find_values (compare value) t.splay, rfl⟩

/-- A removal that finds something is that of the tree below. -/
theorem remove_of_some {value w : V} (h : (t.splay.find (compare value)).2 = some w) :
    (t.remove compare value).values = (t.splay.remove (compare value)).values ∧
      (t.remove compare value).elements = t.elements - 1 := by
  have hfind : t.splay.find (compare value) = (_, some w) := Prod.ext rfl h
  unfold Tree.remove Splay.remove
  rw [hfind]
  exact ⟨rfl, rfl⟩

/-- **Removal** takes the equal value away, if there is one. -/
theorem Refines.remove (hc : ThreeWay compare) (h : Refines compare t stored) (value : V) :
    Refines compare (t.remove compare value) (Call.contents compare stored (.remove value)) := by
  obtain ⟨hsome, hnone⟩ := Splay.find_spec (hc.aligned h.ascending value)
  cases hfind : (t.splay.find (compare value)).2 with
  | none =>
    obtain ⟨hvalues, helements⟩ := remove_of_none hfind
    refine ⟨hvalues.symm ▸ h.ascending, fun v => ?_, ?_⟩
    · show v ∈ (t.remove compare value).values ↔ v ∈ stored ∧ compare value v ≠ 0
      rw [hvalues, ← h.mem_iff]
      exact ⟨fun hv => ⟨hv, hnone hfind v hv⟩, And.left⟩
    · rw [hvalues, helements, h.elements]
  | some w =>
    obtain ⟨hw, hweq⟩ := hsome w hfind
    obtain ⟨hvalues, helements⟩ := remove_of_some hfind
    obtain ⟨xs, ys, hparts⟩ := append_of_mem hw
    have hparts' : t.values = xs ++ w :: ys := hparts
    have hascending := hparts' ▸ h.ascending
    obtain ⟨hxs, hcons, hxy⟩ := pairwise_append.mp hascending
    obtain ⟨hwy, hys⟩ := pairwise_cons.mp hcons
    -- what stands before the match is before the value, and what stands after it is after
    have hsplits : Splay.Splits (compare value) xs ys := by
      refine ⟨fun x hx => ?_, fun y hy => ?_⟩
      · have hxw := hxy x hx w mem_cons_self
        exact (hc.swap x value).mp (hc.lt_of_lt_of_le hxw (hc.zero_swap.mp hweq).le)
      · by_contra hge
        have hyv : compare y value ≤ 0 := by
          have := hc.swap value y
          omega
        have hyw := hc.trans y value w hyv hweq.le
        have := hwy y hy
        have := hc.swap w y
        omega
    rw [Splay.remove_spec hsplits hweq hparts] at hvalues
    refine ⟨?_, fun v => ?_, ?_⟩
    · rw [hvalues]
      exact pairwise_append.mpr ⟨hxs, hys, fun x hx y hy => hxy x hx y (mem_cons_of_mem w hy)⟩
    · show v ∈ (t.remove compare value).values ↔ v ∈ stored ∧ compare value v ≠ 0
      rw [hvalues, ← h.mem_iff, hparts', mem_append, mem_append, mem_cons]
      constructor
      · rintro (hv | hv)
        · exact ⟨.inl hv, (hsplits.1 v hv).ne'⟩
        · exact ⟨.inr (.inr hv), (hsplits.2 v hv).ne⟩
      · rintro ⟨hv | rfl | hv, hne⟩
        · exact .inl hv
        · exact absurd hweq hne
        · exact .inr hv
    · rw [hvalues, helements, h.elements, hparts']
      simp only [length_append, length_cons]
      omega

/-- One call. -/
theorem Refines.step (hc : ThreeWay compare) (h : Refines compare t stored) (call : Call V) :
    Refines compare (call.run compare t) (call.contents compare stored) := by
  cases call with
  | insert value => exact (h.insert hc value).1
  | remove value => exact h.remove hc value
  | find value => exact (h.find hc value).1

/-- **After any history, the tree refines what was inserted and not removed.** -/
theorem refines_run (hc : ThreeWay compare) (calls : List (Call V)) :
    Refines compare (runCalls compare calls) (Contents compare calls) := by
  refine foldl_rel ⟨.nil, fun v => ?_, rfl⟩ fun call _ _ _ h => h.step hc call
  exact iff_of_false not_mem_nil (Set.notMem_empty v)

/-! ## The ends and the number of the values -/

theorem nodeStart_eq_head? (n : Splay.Node V) : nodeStart n = n.toList.head? := by
  fun_induction nodeStart n with
  | case1 => rfl
  | case2 data right => rfl
  | case3 a y b data right ih =>
    rw [ih]
    simp [Splay.Node.toList, head?_append]

theorem nodeFinish_eq_getLast? (n : Splay.Node V) : nodeFinish n = n.toList.getLast? := by
  fun_induction nodeFinish n with
  | case1 => rfl
  | case2 left data => simp [Splay.Node.toList]
  | case3 left data a y b ih =>
    have hne : (Splay.Node.node a y b).toList ≠ [] := by simp [Splay.Node.toList]
    rw [ih, Splay.Node.toList.eq_2 left, append_cons, getLast?_append_of_ne_nil _ hne]

/-- The first value of an ascending sequence is the least. -/
theorem ThreeWay.head?_eq_some_iff (h : ThreeWay compare) {l : List V}
    (hl : l.Pairwise (fun a b => compare a b < 0)) {v : V} :
    l.head? = some v ↔ v ∈ l ∧ ∀ w ∈ l, compare v w ≤ 0 := by
  cases l with
  | nil => simp
  | cons u l =>
    have hfirst := (pairwise_cons.mp hl).1
    constructor
    · intro hv
      obtain rfl := Option.some.inj hv
      exact ⟨mem_cons_self, forall_mem_cons.mpr ⟨(h.refl u).le, fun w hw => (hfirst w hw).le⟩⟩
    · rintro ⟨hv, hleast⟩
      rcases mem_cons.mp hv with rfl | hv
      · rfl
      · have hvu := hleast u mem_cons_self
        have huv := (h.swap u v).mp (hfirst v hv)
        omega

/-- The order read backwards. -/
theorem ThreeWay.flip (h : ThreeWay compare) : ThreeWay (fun a b => compare b a) :=
  ⟨h.refl, fun a b => h.swap b a, fun a b c hab hbc => h.trans c b a hbc hab⟩

/-- The last value of an ascending sequence is the greatest. -/
theorem ThreeWay.getLast?_eq_some_iff (h : ThreeWay compare) {l : List V}
    (hl : l.Pairwise (fun a b => compare a b < 0)) {v : V} :
    l.getLast? = some v ↔ v ∈ l ∧ ∀ w ∈ l, compare w v ≤ 0 := by
  rw [← head?_reverse, h.flip.head?_eq_some_iff (pairwise_reverse.mpr hl)]
  simp only [mem_reverse]

/-- The values are counted once each. -/
theorem Refines.ncard (hc : ThreeWay compare) (h : Refines compare t stored) :
    stored.Finite ∧ stored.ncard = t.elements := by
  classical
  have hset : stored = ↑t.values.toFinset := by
    ext v
    rw [coe_toFinset]
    exact (h.mem_iff v).symm
  have hnodup : t.values.Nodup := h.ascending.imp (fun {a b} hlt heq => by
    rw [heq, hc.refl] at hlt
    exact lt_irrefl 0 hlt)
  rw [hset]
  refine ⟨t.values.toFinset.finite_toSet, ?_⟩
  rw [Set.ncard_coe_finset, toFinset_card_of_nodup hnodup, h.elements]

/-- **The splay tree is correct for every total order.** After any history, its
in-order sequence is strictly ascending and has exactly the values that were
inserted and not removed; a search succeeds exactly for values that are present
and gives the stored one; inserting a duplicate gives the stored value and
changes no membership; the ends of the tree are the least and the greatest value;
and the counter is the number of the stored values. -/
theorem splay_correct (compare : V → V → ℤ) (hc : ThreeWay compare) (calls : List (Call V)) :
    (runCalls compare calls).values.Pairwise (fun a b => compare a b < 0) ∧
    (∀ v, v ∈ (runCalls compare calls).values ↔ v ∈ Contents compare calls) ∧
    (∀ value v, ((runCalls compare calls).find compare value).2 = some v ↔
      v ∈ Contents compare calls ∧ compare value v = 0) ∧
    (∀ value v, ((runCalls compare calls).insert compare value).2 = some v ↔
      v ∈ Contents compare calls ∧ compare value v = 0) ∧
    (∀ value w, w ∈ Contents compare calls → compare value w = 0 →
      Contents compare (calls ++ [.insert value]) = Contents compare calls) ∧
    (∀ v, (runCalls compare calls).start = some v ↔
      v ∈ Contents compare calls ∧ ∀ w ∈ Contents compare calls, compare v w ≤ 0) ∧
    (∀ v, (runCalls compare calls).finish = some v ↔
      v ∈ Contents compare calls ∧ ∀ w ∈ Contents compare calls, compare w v ≤ 0) ∧
    (runCalls compare calls).size = (Contents compare calls).ncard ∧
    (Contents compare calls).Finite := by
  have h := refines_run hc calls
  obtain ⟨hfinite, hncard⟩ := h.ncard hc
  refine ⟨h.ascending, h.mem_iff, fun value => (h.find hc value).2,
    fun value => (h.insert hc value).2, fun value w hw hweq => ?_, fun v => ?_, fun v => ?_,
    hncard.symm, hfinite⟩
  · rw [Contents, List.foldl_append]
    ext v
    exact ⟨fun hv => hv.resolve_right (fun hfree => hfree.2 w hw hweq), .inl⟩
  · rw [Tree.start, nodeStart_eq_head?]
    exact (hc.head?_eq_some_iff h.ascending).trans (by simp only [h.mem_iff])
  · rw [Tree.finish, nodeFinish_eq_getLast?]
    exact (hc.getLast?_eq_some_iff h.ascending).trans (by simp only [h.mem_iff])

/-! ## Iteration -/

/-- The stack of `SplayConstIterator`: the value and the right child of each node to visit. -/
abbrev ToVisit (V : Type) := List (V × Splay.Node V)

def addLeftPath : Splay.Node V → ToVisit V → ToVisit V
  | .nil, toVisit => toVisit
  | .node left data right, toVisit => addLeftPath left ((data, right) :: toVisit)

def advance : ToVisit V → ToVisit V
  | _ :: (data, right) :: toVisit => (data, right) :: addLeftPath right toVisit
  | _ => []

/-- What nodes on the stack stand for. -/
def pending : ToVisit V → List V
  | [] => []
  | (data, right) :: toVisit => data :: (right.toList ++ pending toVisit)

theorem pending_addLeftPath (n : Splay.Node V) (toVisit : ToVisit V) :
    pending (addLeftPath n toVisit) = n.toList ++ pending toVisit := by
  induction n generalizing toVisit with
  | nil => rfl
  | node left data right ihleft _ => simp [addLeftPath, ihleft, pending, Splay.Node.toList]

/-- The values from an iterator to `end()`. -/
def iterate : ToVisit V → List V
  | [] => []
  | top :: toVisit => top.1 :: iterate (advance (top :: toVisit))
termination_by toVisit => (pending toVisit.tail).length + toVisit.length.min 1
decreasing_by
  cases toVisit with
  | nil => simp [advance]
  | cons => simp [advance, pending_addLeftPath, pending]

def Tree.iterate (t : Tree V) : List V := SplayTree.iterate (addLeftPath t.splay.head [])

/-- The right child of the leftmost node. -/
def firstRight : Splay.Node V → Splay.Node V
  | .nil => .nil
  | .node .nil _ right => right
  | .node (.node a y b) _ _ => firstRight (.node a y b)

/-- **Each stored value is visited once, in ascending order.** -/
def Complete (compare : V → V → ℤ) (calls : List (Call V)) : Prop :=
  (runCalls compare calls).iterate.Pairwise (fun a b => compare a b < 0) ∧
    ∀ v, v ∈ (runCalls compare calls).iterate ↔ v ∈ Contents compare calls

/-- **The right child of the top is on the stack already**, or is never visited. -/
theorem iterate_cons (top : V × Splay.Node V) (toVisit : ToVisit V) :
    iterate (top :: toVisit) = top.1 :: pending toVisit := by
  generalize h : top :: toVisit = stack
  fun_induction iterate stack generalizing top toVisit with
  | case1 => cases h
  | case2 _ toVisit ih =>
    cases h
    cases toVisit with
    | nil => simp [advance, iterate, pending]
    | cons next toVisit => rw [ih next _ rfl, pending_addLeftPath, pending]

theorem addLeftPath_eq_cons {n : Splay.Node V} (hn : n ≠ .nil) (toVisit : ToVisit V) :
    ∃ data rest, addLeftPath n toVisit = (data, firstRight n) :: rest := by
  fun_induction firstRight n generalizing toVisit with
  | case1 => exact absurd rfl hn
  | case2 data right => exact ⟨data, toVisit, rfl⟩
  | case3 a y b data right ih => exact ih nofun _

/-- **Iteration is complete iff the leftmost node has no right child**, after any history. -/
theorem iterate_complete_iff (compare : V → V → ℤ) (hc : ThreeWay compare) (calls : List (Call V)) :
    Complete compare calls ↔ firstRight (runCalls compare calls).splay.head = .nil := by
  have h := refines_run hc calls
  have hascending := h.ascending
  simp only [Complete, ← h.mem_iff, Tree.values, Splay.values, Tree.iterate] at hascending ⊢
  generalize (runCalls compare calls).splay.head = n at hascending ⊢
  by_cases hn : n = .nil
  · subst hn
    simp [addLeftPath, iterate, firstRight, Splay.Node.toList]
  obtain ⟨data, rest, hpath⟩ := addLeftPath_eq_cons hn []
  have hvalues := pending_addLeftPath n []
  rw [hpath, pending, pending, append_nil] at hvalues
  rw [← hvalues] at hascending
  rw [hpath, iterate_cons, ← hvalues]
  generalize firstRight n = right at hascending ⊢
  cases right with
  | nil => exact iff_of_true ⟨hascending, fun v => .rfl⟩ rfl
  | node a y b =>
    refine iff_of_false (fun hall => ?_) (by simp)
    have hy : y ∈ (Splay.Node.node a y b).toList := by simp [Splay.Node.toList]
    obtain ⟨hdata, hrest⟩ := pairwise_cons.mp hascending
    -- the value would stand twice in the ascending sequence
    have hlt : compare y y < 0 := by
      rcases mem_cons.mp ((hall.2 y).mpr (mem_cons_of_mem _ (mem_append_left _ hy))) with heq | hmem
      · exact heq ▸ hdata y (mem_append_left _ hy)
      · exact (pairwise_append.mp hrest).2.2 y hy y hmem
    exact hlt.ne (hc.refl y)

/-- The usual comparison of numbers. -/
theorem threeWay_sub : ThreeWay (fun a b : ℤ => a - b) :=
  ⟨fun a => by omega, fun a b => by omega, fun a b c => by omega⟩

theorem splay_correct_sub :
    ThreeWay (fun a b : ℤ => a - b) ∧
      (runCalls (fun a b : ℤ => a - b) [.insert 2, .insert 1, .insert 2, .remove 1]).size =
        (Contents (fun a b : ℤ => a - b) [.insert 2, .insert 1, .insert 2, .remove 1]).ncard :=
  have h := splay_correct _ threeWay_sub [.insert 2, .insert 1, .insert 2, .remove 1]
  ⟨threeWay_sub, h.2.2.2.2.2.2.2.1⟩

theorem iterate_complete_sub : Complete (fun a b : ℤ => a - b) [.insert 1, .insert 2] :=
  (iterate_complete_iff _ threeWay_sub _).mpr rfl

/-- **The second of two values is never visited**: the root has no left child. -/
theorem iterate_incomplete : ¬Complete (fun a b : ℤ => a - b) [.insert 2, .insert 1] := by
  intro h
  have hiterate : (runCalls (fun a b : ℤ => a - b) [.insert 2, .insert 1]).iterate = [1] :=
    iterate_cons (1, .node .nil 2 .nil) []
  have h2 := (h.2 2).mpr (by simp [Contents, Call.contents])
  simp [hiterate] at h2

end SplayTree
