import Revalle.Data.Splay

/-!
# Merging values into an access list

The values of an IP or domain access list are sets, of addresses or of domain
names, and are kept in a splay tree. `Acl::SplayInserter::Merge` makes sure
that the values in the tree are disjoint: a new value that overlaps an old one
replaces it, or is dropped, or is combined with it.

Everything the tree needs to know is where a value stands. Values are convex
sets of points of a linear order, so that two of them either overlap or one
precedes the other. If the comparison of values says which, then the tree
holds the union of all values merged into it, however it has been searched in
between.
-/

namespace Acl

open List Set

/-- The functions of `Acl::SplayInserter`, for one type of values. A combined
value need not exist. -/
structure SplayInserter (V : Type) where
  compare : V → V → ℤ
  isSubset : V → V → Bool
  makeCombinedValue : V → V → Option V

namespace SplayInserter

variable {V : Type}

/-- The loop of `Acl::SplayInserter::Merge`, for at most `fuel` insertions. -/
def mergeLoop (ops : SplayInserter V) : (fuel : ℕ) → Splay V → V → Option (Splay V)
  | 0, _, _ => none
  | fuel + 1, storage, newItem =>
    match storage.insert (ops.compare newItem) newItem with
    | (storage, none) => some storage
    | (storage, some oldItem) =>
      if ops.isSubset newItem oldItem then
        some storage
      else if ops.isSubset oldItem newItem then
        -- still need to insert newItem, which may conflict with other old items
        mergeLoop ops fuel (storage.remove (ops.compare oldItem)) newItem
      else
        match ops.makeCombinedValue oldItem newItem with
        | none => none
        | some combinedItem =>
          mergeLoop ops fuel (storage.remove (ops.compare oldItem)) combinedItem

/-- **`Acl::SplayInserter::Merge`.** Every turn but the last one takes a value
out of the tree. -/
def merge (ops : SplayInserter V) (storage : Splay V) (newItem : V) : Option (Splay V) :=
  ops.mergeLoop (storage.values.length + 1) storage newItem

end SplayInserter

/-- What happens to an access list: a value `V` is merged into it, or it is
searched for a key `K`. -/
inductive Event (V K : Type) where
  | merge (v : V)
  | lookup (key : K)

section

variable {V K : Type}

/-- One event; `compare` is the comparison of a search. A search reshapes the
tree. -/
def step (ops : SplayInserter V) (compare : K → V → ℤ) (storage : Splay V) :
    Event V K → Option (Splay V)
  | .merge v => ops.merge storage v
  | .lookup key => some (storage.find (compare key)).1

/-- The tree after these events. -/
def after (ops : SplayInserter V) (compare : K → V → ℤ) (events : List (Event V K)) :
    Option (Splay V) :=
  events.foldlM (step ops compare) {}

/-- The values merged by a list of events. -/
def merged : List (Event V K) → List V
  | [] => []
  | .merge v :: events => v :: merged events
  | .lookup _ :: events => merged events

theorem merged_append (xs ys : List (Event V K)) : merged (xs ++ ys) = merged xs ++ merged ys := by
  fun_induction merged xs <;> simp [merged, *]

end

/-! ## Values as sets of points -/

section

variable {V P : Type} [LinearOrder P]

/-- All points of the one set are smaller than those of the other. -/
def Precedes (A B : Set P) : Prop := ∀ p ∈ A, ∀ q ∈ B, p < q

theorem Precedes.trans {A B C : Set P} (hB : B.Nonempty) (h : Precedes A B) (h' : Precedes B C) :
    Precedes A C := by
  obtain ⟨q, hq⟩ := hB
  exact fun p hp r hr => (h p hp q hq).trans (h' q hq r hr)

theorem not_precedes_self {A : Set P} (hA : A.Nonempty) : ¬ Precedes A A := by
  obtain ⟨p, hp⟩ := hA
  exact fun h => lt_irrefl p (h p hp p hp)

/-- **The comparison sees values as sets of points**: `den v` are the points
of the value `v`. -/
structure SplayInserter.Lawful (ops : SplayInserter V) (den : V → Set P) (Good : V → Prop) :
    Prop where
  nonempty {v : V} (hv : Good v) : (den v).Nonempty
  compare_neg {a b : V} (ha : Good a) (hb : Good b) :
    ops.compare a b < 0 ↔ Precedes (den a) (den b)
  compare_pos {a b : V} (ha : Good a) (hb : Good b) :
    0 < ops.compare a b ↔ Precedes (den b) (den a)
  isSubset {a b : V} (ha : Good a) (hb : Good b) (h : ops.compare a b = 0)
    (hsub : ops.isSubset a b = true) : den a ⊆ den b
  combined {a b : V} (ha : Good a) (hb : Good b) (h : ops.compare a b = 0)
    (hab : ops.isSubset a b = false) (hba : ops.isSubset b a = false) :
    ∃ c, ops.makeCombinedValue a b = some c ∧ Good c ∧ den c = den a ∪ den b

/-- The values of the tree are disjoint and stand in order. -/
structure Stored (den : V → Set P) (Good : V → Prop) (values : List V) : Prop where
  good : ∀ v ∈ values, Good v
  sorted : values.Pairwise fun a b => Precedes (den a) (den b)

/-- The points of a list of values. -/
def points (den : V → Set P) (values : List V) : Set P := {p | ∃ v ∈ values, p ∈ den v}

variable {ops : SplayInserter V} {den : V → Set P} {Good : V → Prop} {values : List V}

section

variable (hops : ops.Lawful den Good)
include hops

theorem SplayInserter.Lawful.compare_eq_zero_symm {a b : V} (ha : Good a) (hb : Good b)
    (h : ops.compare a b = 0) : ops.compare b a = 0 := by
  have hneg := (hops.compare_neg ha hb).not.mp (by omega)
  have hpos := (hops.compare_pos ha hb).not.mp (by omega)
  have h1 := (hops.compare_neg hb ha).not.mpr hpos
  have h2 := (hops.compare_pos hb ha).not.mpr hneg
  omega

theorem Stored.aligned (h : Stored den Good values) {v : V} (hv : Good v) :
    Splay.Aligned (ops.compare v) values := by
  refine List.Pairwise.imp_of_mem (fun {a b} ha hb hab => ⟨fun hneg => ?_, fun hpos => ?_⟩) h.sorted
  · rw [hops.compare_neg hv (h.good a ha)] at hneg
    exact (hops.compare_neg hv (h.good b hb)).mpr (hneg.trans (hops.nonempty (h.good a ha)) hab)
  · rw [hops.compare_pos hv (h.good b hb)] at hpos
    exact (hops.compare_pos hv (h.good a ha)).mpr (hab.trans (hops.nonempty (h.good b hb)) hpos)

/-- A stored value tells the values on its two sides. -/
theorem Stored.splits {xs ys : List V} {old : V} (h : Stored den Good (xs ++ old :: ys)) :
    Splay.Splits (ops.compare old) xs ys ∧ ops.compare old old = 0 := by
  have hold := h.good old (by simp)
  obtain ⟨-, hcons, hbefore⟩ := pairwise_append.mp h.sorted
  refine ⟨⟨fun x hx => ?_, fun y hy => ?_⟩, ?_⟩
  · exact (hops.compare_pos hold (h.good x (by simp [hx]))).mpr (hbefore x hx old mem_cons_self)
  · exact (hops.compare_neg hold (h.good y (by simp [hy]))).mpr ((pairwise_cons.mp hcons).1 y hy)
  · have hself := not_precedes_self (hops.nonempty hold)
    have h1 := (hops.compare_neg hold hold).not.mpr hself
    have h2 := (hops.compare_pos hold hold).not.mpr hself
    omega

theorem Stored.insert {xs ys : List V} {v : V} (h : Stored den Good (xs ++ ys)) (hv : Good v)
    (hs : Splay.Splits (ops.compare v) xs ys) : Stored den Good (xs ++ v :: ys) := by
  obtain ⟨hxs, hys, hxy⟩ := pairwise_append.mp h.sorted
  obtain ⟨hbefore, hafter⟩ := forall_mem_append.mp h.good
  have hgood := forall_mem_append.mpr ⟨hbefore, forall_mem_cons.mpr ⟨hv, hafter⟩⟩
  refine ⟨hgood, pairwise_append.mpr ⟨hxs, pairwise_cons.mpr ⟨fun y hy => ?_, hys⟩, ?_⟩⟩
  · exact (hops.compare_neg hv (hafter y hy)).mp (hs.2 y hy)
  · intro x hx
    exact forall_mem_cons.mpr ⟨(hops.compare_pos hv (hbefore x hx)).mp (hs.1 x hx), hxy x hx⟩

end

theorem Stored.remove {xs ys : List V} {old : V} (h : Stored den Good (xs ++ old :: ys)) :
    Stored den Good (xs ++ ys) := by
  have hsub : (xs ++ ys).Sublist (xs ++ old :: ys) :=
    List.Sublist.append (List.Sublist.refl xs) (sublist_cons_self old ys)
  exact ⟨fun v hv => h.good v (hsub.subset hv), h.sorted.sublist hsub⟩

omit [LinearOrder P] in
theorem points_nil : points den [] = ∅ := by
  ext p
  exact ⟨fun ⟨_, hv, _⟩ => (nomatch hv), fun h => h.elim⟩

omit [LinearOrder P] in
theorem points_cons (v : V) (vs : List V) : points den (v :: vs) = den v ∪ points den vs := by
  ext p
  show (∃ w ∈ v :: vs, p ∈ den w) ↔ p ∈ den v ∨ ∃ w ∈ vs, p ∈ den w
  simp only [mem_cons, or_and_right, exists_or, exists_eq_left]

omit [LinearOrder P] in
theorem points_append (xs ys : List V) : points den (xs ++ ys) = points den xs ∪ points den ys := by
  induction xs with
  | nil => rw [nil_append, points_nil, empty_union]
  | cons x xs ih => rw [cons_append, points_cons, points_cons, ih, union_assoc]

omit [LinearOrder P] in
theorem points_middle (xs ys : List V) (v : V) :
    points den (xs ++ v :: ys) = points den (xs ++ ys) ∪ den v := by
  rw [points_append, points_append, points_cons, union_comm (den v), union_assoc]

/-- **Merging keeps the values disjoint and adds the points of the new one.** -/
theorem mergeLoop_spec (hops : ops.Lawful den Good) {fuel : ℕ} {storage : Splay V} {newItem : V}
    (hst : Stored den Good storage.values) (hnew : Good newItem)
    (hfuel : storage.values.length < fuel) :
    ∃ storage', ops.mergeLoop fuel storage newItem = some storage' ∧
      Stored den Good storage'.values ∧
      points den storage'.values = points den storage.values ∪ den newItem := by
  induction fuel generalizing storage newItem with
  | zero => exact absurd hfuel (Nat.not_lt_zero _)
  | succ fuel ih =>
    obtain ⟨hsome, hnone⟩ := Splay.insert_spec newItem (hst.aligned hops hnew)
    unfold SplayInserter.mergeLoop
    cases hins : storage.insert (ops.compare newItem) newItem with
    | mk storage1 found =>
      rw [hins] at hsome hnone
      cases found with
      | none =>
        obtain ⟨xs, ys, hvalues, hsplits, hvalues'⟩ := hnone rfl
        rw [hvalues] at hst ⊢
        refine ⟨storage1, rfl, ?_, ?_⟩
        · rw [hvalues']
          exact hst.insert hops hnew hsplits
        · rw [hvalues', points_middle]
      | some oldItem =>
        obtain ⟨hvalues, hmem, hzero⟩ := hsome oldItem rfl
        dsimp only at hvalues ⊢
        have hold := hst.good oldItem hmem
        have hzero' := hops.compare_eq_zero_symm hnew hold hzero
        obtain ⟨xs, ys, hsplit⟩ := append_of_mem hmem
        rw [hsplit] at hst hfuel hvalues ⊢
        obtain ⟨hsplits, hself⟩ := hst.splits hops
        have hremoved := Splay.remove_spec hsplits hself hvalues
        have hlen : (xs ++ ys).length < fuel := by
          simp only [length_append, length_cons] at hfuel ⊢
          omega
        have hrest := @ih (storage1.remove (ops.compare oldItem))
        rw [hremoved] at hrest
        split
        · next hsub =>
            refine ⟨storage1, rfl, hvalues ▸ hst, ?_⟩
            have := hops.isSubset hnew hold hzero hsub
            rw [hvalues, points_middle, union_assoc, union_eq_left.mpr this]
        · next hsub =>
            split
            · next hsub' =>
                obtain ⟨t, ht, hst', hpoints⟩ := hrest hst.remove hnew hlen
                refine ⟨t, ht, hst', ?_⟩
                have := hops.isSubset hold hnew hzero' hsub'
                rw [hpoints, points_middle, union_assoc, union_eq_right.mpr this]
            · next hsub' =>
                obtain ⟨c, hc, hgood, hden⟩ := hops.combined hold hnew hzero'
                  (Bool.eq_false_iff.mpr hsub') (Bool.eq_false_iff.mpr hsub)
                rw [hc]
                obtain ⟨t, ht, hst', hpoints⟩ := hrest hst.remove hgood hlen
                refine ⟨t, ht, hst', ?_⟩
                rw [hpoints, points_middle, hden, union_assoc]

/-- What one event does: a merge adds the points of its value, and a search
only reshapes the tree. -/
theorem step_spec (hops : ops.Lawful den Good) {K : Type} (compare : K → V → ℤ)
    {storage : Splay V} (h : Stored den Good storage.values) (event : Event V K)
    (hgood : ∀ v ∈ merged [event], Good v) :
    ∃ storage', step ops compare storage event = some storage' ∧ Stored den Good storage'.values ∧
      points den storage'.values = points den storage.values ∪ points den (merged [event]) := by
  cases event with
  | merge v =>
    obtain ⟨storage', hmerge, hst, hpoints⟩ := mergeLoop_spec hops h
      (hgood v mem_cons_self) (Nat.lt_succ_self _)
    refine ⟨storage', hmerge, hst, ?_⟩
    rw [hpoints, merged, merged, points_cons, points_nil, union_empty]
  | lookup key =>
    have hvalues := Splay.find_values (compare key) storage
    refine ⟨_, rfl, hvalues.symm ▸ h, ?_⟩
    rw [hvalues, merged, merged, points_nil, union_empty]

/-- **What a list of events does.** -/
theorem after_spec (hops : ops.Lawful den Good) {K : Type} (compare : K → V → ℤ)
    (events : List (Event V K)) (hgood : ∀ v ∈ merged events, Good v) :
    ∃ storage, after ops compare events = some storage ∧ Stored den Good storage.values ∧
      points den storage.values = points den (merged events) := by
  induction events using reverseRecOn with
  | nil => exact ⟨{}, rfl, ⟨nofun, .nil⟩, rfl⟩
  | append_singleton events event ih =>
    rw [merged_append] at hgood ⊢
    obtain ⟨storage, hafter, hst, hpoints⟩ := ih fun v hv => hgood v (mem_append_left _ hv)
    obtain ⟨storage', hstep, hst', hpoints'⟩ :=
      step_spec hops compare hst event fun v hv => hgood v (mem_append_right _ hv)
    refine ⟨storage', ?_, hst', ?_⟩
    · rw [after, foldlM_append, ← after, hafter]
      simp [hstep]
    · rw [hpoints', hpoints, points_append]

/-- **A search that knows on which side of a value its point is finds the
point** if it is in some value. -/
theorem find_iff_mem_points (compare : V → ℤ) {t : Splay V} (ht : Stored den Good t.values)
    (hne : ∀ v, Good v → (den v).Nonempty) {p : P}
    (hneg : ∀ v, Good v → (compare v < 0 ↔ ∀ q ∈ den v, p < q))
    (hpos : ∀ v, Good v → (0 < compare v ↔ ∀ q ∈ den v, q < p))
    (hzero : ∀ v, Good v → (compare v = 0 ↔ p ∈ den v)) :
    (t.find compare).2.isSome ↔ p ∈ points den t.values := by
  have halign : Splay.Aligned compare t.values := by
    refine List.Pairwise.imp_of_mem (fun {a b} ha hb hab => ⟨fun h => ?_, fun h => ?_⟩) ht.sorted
    · rw [hneg a (ht.good a ha)] at h
      obtain ⟨q, hq⟩ := hne a (ht.good a ha)
      exact (hneg b (ht.good b hb)).mpr fun r hr => (h q hq).trans (hab q hq r hr)
    · rw [hpos b (ht.good b hb)] at h
      obtain ⟨q, hq⟩ := hne b (ht.good b hb)
      exact (hpos a (ht.good a ha)).mpr fun r hr => (hab r hr q hq).trans (h q hq)
  obtain ⟨hsome, hnone⟩ := Splay.find_spec halign
  constructor
  · intro h
    obtain ⟨v, hv⟩ := Option.isSome_iff_exists.mp h
    obtain ⟨hmem, hv⟩ := hsome v hv
    exact ⟨v, hmem, (hzero v (ht.good v hmem)).mp hv⟩
  · rintro ⟨v, hmem, hp⟩
    by_contra h
    exact hnone (Option.not_isSome_iff_eq_none.mp h) v hmem ((hzero v (ht.good v hmem)).mpr hp)

end

end Acl
