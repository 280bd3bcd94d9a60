import Revalle.Ipc.Mem.IdSetTree

/-!
# What the set of free pages guarantees

Any number of processes pop and push, one atomic access at a time. `Sound`
is what they can rely on.

The counters are never right while operations are under way: `pop` counts
an identifier off before it takes it and `push` puts one before it counts
it. But both are off in the same direction, and by one. A process inside an
operation *owes* an identifier to exactly one node: to the node `pop` has
descended to, whose parent has already counted it off, or to the node
`push` has reached, whose parent has not counted it yet. That node is the
phase of the process. The invariant is that the tree is `Good` for what all
the processes owe together, and each access moves the debt of one process
by one level: down for `reserve`, up for `publish`, and into or out of a
leaf for `take` and `put`.

A counter that somebody owes to is positive, so `pop` never finds an empty
node below the root; and no counter exceeds what fits below a child, so
adding one to it never carries.
-/

namespace Ipc.Mem

open Shm Function Finset Position Option IdSetInnerNode

namespace IdSet

variable {m : IdSetMeasurements} {s : Nodes}

/-! ## The invariant -/

/-- An identifier is in the set. -/
def InSet (m : IdSetMeasurements) (s : Nodes) (id : ℕ) : Prop :=
  id / BitsPerLeaf < 2 ^ m.innerLevelCount
    ∧ id % BitsPerLeaf ∈ bits (s (Position.nodesBefore ⟨m.innerLevelCount, id / BitsPerLeaf⟩))

/-- What a process has under way: the node it owes something to, and the
identifier it carries. -/
structure Phase where
  /-- The node it owes something to. -/
  node : Option Position
  /-- The identifier it carries. -/
  id : Option ℕ

namespace Phase

/-- Nothing is under way. -/
def quiet : Phase := ⟨none, none⟩

/-- What is owed to a node. -/
def due (φ : Phase) (w : Position) : ℕ := if φ.node = some w then 1 else 0

end Phase

/-- A process has an identifier: it holds it or carries it. -/
def Has (held : Finset ℕ) (φ : Phase) (id : ℕ) : Prop := id ∈ held ∨ φ.id = some id

section

variable {P : Type} [Fintype P]

/-- **The invariant of the set.** -/
structure Inv (m : IdSetMeasurements) (s : Nodes) (o : P → Outline (Finset ℕ)) (φs : P → Phase) :
    Prop where
  good : Good m s fun w => ∑ p, (φs p).due w
  has_out : ∀ p id, Has (o p).held (φs p) id → id < m.capacity ∧ ¬ InSet m s id
  has_unique : ∀ p q id, p ≠ q → Has (o p).held (φs p) id → ¬ Has (o q).held (φs q) id
  apart : ∀ p id, (φs p).id = some id → id ∉ (o p).held

/-- The invariant as a protocol. -/
def protocol (P : Type) [Fintype P] (m : IdSetMeasurements) :
    Protocol Nodes P (Finset ℕ) Phase where
  Inv := Inv m
  Ok _ := True

end

/-- **What a process knows of the set at an instant**: what the others owe, and
what they have. -/
structure View (m : IdSetMeasurements) (s : Nodes) (rest : Position → ℕ) (others : ℕ → Prop)
    (held : Finset ℕ) (φ : Phase) : Prop where
  good : Good m s fun w => rest w + φ.due w
  others_out : ∀ id, others id → id < m.capacity ∧ ¬ InSet m s id
  has_out : ∀ id, Has held φ id → id < m.capacity ∧ ¬ InSet m s id ∧ ¬ others id
  apart : ∀ id, φ.id = some id → id ∉ held

section

variable {P : Type} [Fintype P] [DecidableEq P] {p : P} {o : P → Outline (Finset ℕ)}
  {φs : P → Phase} {held : Finset ℕ} {φ : Phase} {α : Type} {Q : α → Phase → Prop}

/-- What is owed is owed by one process and the others. -/
theorem sum_due (φs : P → Phase) (p : P) (φ : Phase) (w : Position) : ∑ q, (update φs p φ q).due w
      = ∑ q ∈ univ.erase p, (φs q).due w + φ.due w := by
  rw [← sum_erase_add _ _ (mem_univ p), update_self]
  congr 1
  refine sum_congr rfl fun q hq => ?_
  rw [update_of_ne (ne_of_mem_erase hq)]

/-- What the others have. -/
def OthersHave (o : P → Outline (Finset ℕ)) (φs : P → Phase) (p : P) (id : ℕ) : Prop :=
  ∃ q ≠ p, Has (o q).held (φs q) id

/-- What the invariant tells a process. -/
theorem View.of_inv (hI : Inv m s o φs) {l : Outline (Finset ℕ)} (ho : o p = l) (hφ : φs p = φ) :
    View m s (fun w => ∑ q ∈ univ.erase p, (φs q).due w) (OthersHave o φs p) l.held φ := by
  subst ho hφ
  refine ⟨?_, ?_, fun id hid => ⟨(hI.has_out p id hid).1, (hI.has_out p id hid).2, ?_⟩, hI.apart p⟩
  · have := hI.good
    simp only [← sum_due φs p (φs p), update_eq_self]
    exact this
  · rintro id ⟨q, _, hq⟩
    exact hI.has_out q id hq
  · rintro ⟨q, hqp, hq⟩
    exact hI.has_unique q p id hqp hq hid

/-- **The invariant after one process has changed the set, what it holds and
what it has under way.** -/
theorem View.inv_update {s' : Nodes} {held' : Finset ℕ} {φ' : Phase} (busy : Bool)
    (hI : Inv m s o φs)
    (hv : View m s' (fun w => ∑ q ∈ univ.erase p, (φs q).due w) (OthersHave o φs p) held' φ') :
    Inv m s' (update o p ⟨held', busy⟩) (update φs p φ') := by
  have hself : ∀ id, Has (update o p ⟨held', busy⟩ p).held (update φs p φ' p) id
      ↔ Has held' φ' id := by
    intro id
    rw [update_self, update_self]
  have hother : ∀ q ≠ p, ∀ id, Has (update o p ⟨held', busy⟩ q).held (update φs p φ' q) id
        ↔ Has (o q).held (φs q) id := by
    intro q hq id
    rw [update_of_ne hq, update_of_ne hq]
  refine ⟨?_, fun q id hq => ?_, fun q r id hqr hq hr => ?_, fun q id hq => ?_⟩
  · simp only [sum_due]
    exact hv.good
  · by_cases hqp : q = p
    · subst hqp
      rw [hself] at hq
      exact ⟨(hv.has_out id hq).1, (hv.has_out id hq).2.1⟩
    · rw [hother q hqp] at hq
      exact hv.others_out id ⟨q, hqp, hq⟩
  · by_cases hqp : q = p
    · subst hqp
      rw [hself] at hq
      rw [hother r (Ne.symm hqr)] at hr
      exact (hv.has_out id hq).2.2 ⟨r, Ne.symm hqr, hr⟩
    · rw [hother q hqp] at hq
      by_cases hrp : r = p
      · subst hrp
        rw [hself] at hr
        exact (hv.has_out id hr).2.2 ⟨q, hqp, hq⟩
      · rw [hother r hrp] at hr
        exact hI.has_unique q r id hqr hq hr
  · by_cases hqp : q = p
    · subst hqp
      rw [update_self] at hq ⊢
      exact hv.apart id hq
    · rw [update_of_ne hqp] at hq ⊢
      exact hI.apart q id hq

/-- **The rule of one access.** -/
theorem safe_act {upd : Nodes → Nodes} {k : Nodes → Prog Nodes α}
    (hstep : ∀ s rest others, View m s rest others held φ → ∃ φ', View m (upd s) rest others held φ'
        ∧ (protocol P m).SafeIn p held (k s) φ' Q) :
    (protocol P m).SafeIn p held (.act upd k) φ Q := by
  intro s o φs hI _ ho hφ
  obtain ⟨φ', hv', hk⟩ := hstep s _ _ (View.of_inv hI ho hφ)
  refine ⟨φ', ?_, hk⟩
  have := View.inv_update true hI hv'
  rwa [← ho, update_eq_self] at this

/-- Owing something else without touching the set. -/
theorem shift_of_view {φ' : Phase}
    (h : ∀ s rest others, View m s rest others held φ → View m s rest others held φ') :
    (protocol P m).Shift p ⟨held, true⟩ φ φ' := by
  intro s o φs hI _ ho hφ
  have := View.inv_update true hI (h s _ _ (View.of_inv hI ho hφ))
  rwa [← ho, update_eq_self] at this

end

/-! ## What each access does -/

@[simp] theorem Phase.due_self (w : Position) (id : Option ℕ) :
    (⟨some w, id⟩ : Phase).due w = 1 := if_pos rfl

theorem Phase.due_of_ne {w w' : Position} (h : w ≠ w') (id : Option ℕ) :
    (⟨some w, id⟩ : Phase).due w' = 0 := if_neg fun h' => h (some.inj h')

@[simp] theorem Phase.due_none (w : Position) (id : Option ℕ) :
    (⟨none, id⟩ : Phase).due w = 0 := if_neg nofun

/-- Inner nodes do not say what is in the set. -/
theorem inSet_update_inner {pos : Position} (hpos : pos.Valid m)
    (hl : pos.level < m.innerLevelCount) (v : UInt64) (id : ℕ) :
    InSet m (update s pos.nodesBefore v) id ↔ InSet m s id := by
  refine and_congr_right fun hid => ?_
  rw [update_of_ne]
  intro h
  have := nodesBefore_inj (m := m) ⟨le_rfl, hid⟩ hpos h
  rw [← this] at hl
  exact absurd hl (lt_irrefl _)

/-- A leaf. -/
abbrev leaf (m : IdSetMeasurements) (t : ℕ) : Position := ⟨m.innerLevelCount, t⟩

/-- A leaf says what is in the set. -/
theorem inSet_update_leaf {t : ℕ} (ht : t < 2 ^ m.innerLevelCount) (v : UInt64) (id : ℕ) :
    InSet m (update s (leaf m t).nodesBefore v) id
      ↔ if id / BitsPerLeaf = t then id % BitsPerLeaf ∈ bits v else InSet m s id := by
  unfold InSet
  by_cases hid : id / BitsPerLeaf = t
  · rw [if_pos hid, hid, update_self, and_iff_right ht]
  · rw [if_neg hid]
    refine and_congr_right fun hlt => ?_
    rw [update_of_ne]
    intro h
    have := nodesBefore_inj (m := m) ⟨le_rfl, hlt⟩ ⟨le_rfl, ht⟩ h
    exact hid (congrArg offset this)

namespace View

variable {rest : Position → ℕ} {others : ℕ → Prop} {held : Finset ℕ} {φ : Phase}
  {pos : Position} {v : UInt64} {carried : Option ℕ}

/-- A change that does not concern what is in the set. -/
theorem of_good {s' : Nodes} {φ' : Phase} (hv : View m s rest others held φ)
    (hid : φ'.id = φ.id) (hs : ∀ id, InSet m s' id ↔ InSet m s id)
    (hg : Good m s' fun w => rest w + φ'.due w) : View m s' rest others held φ' where
  good := hg
  others_out id h := by
    rw [hs]
    exact hv.others_out id h
  has_out id h := by
    rw [hs]
    unfold Has at h
    rw [hid] at h
    exact hv.has_out id h
  apart id h := hv.apart id (hid ▸ h)

open Phase

/-- A process owes nothing to the root that anybody counts. -/
theorem owe_root (hv : View m s rest others held ⟨none, carried⟩) :
    View m s rest others held ⟨some .root, carried⟩ := by
  refine hv.of_good rfl (fun _ => Iff.rfl) { hv.good with count := fun pos d hp hl hld => ?_ }
  have hne : root ≠ pos.descend d := (pos.descend_ne_root d).symm
  rw [due_of_ne hne, ← hv.good.count pos d hp hl hld, due_none]

/-- And back. -/
theorem settle_root (hv : View m s rest others held ⟨some .root, carried⟩) :
    View m s rest others held ⟨none, carried⟩ := by
  refine hv.of_good rfl (fun _ => Iff.rfl) { hv.good with count := fun pos d hp hl hld => ?_ }
  have hne : root ≠ pos.descend d := (pos.descend_ne_root d).symm
  rw [due_none, ← hv.good.count pos d hp hl hld, due_of_ne hne]

/-- A node that somebody is going to take an identifier from is not empty. -/
theorem total_pos (hv : View m s rest others held ⟨some pos, carried⟩) (hpos : pos.Valid m)
    (hl : 0 < pos.level) (hlive : pos.Live m) : 0 < totalOf m pos (s pos.nodesBefore) := by
  have hup := ascend_valid hpos hl
  have hlt := ascend_level_lt hpos hl
  have hcount := hv.good.count pos.ascend pos.ascendDirection hup hlt
    (by rw [descend_ascend hl]; exact hlive)
  rw [descend_ascend hl, due_self] at hcount
  omega

/-- In particular a leaf. -/
theorem leaf_ne_zero {t : ℕ} (hv : View m s rest others held ⟨some (leaf m t), carried⟩)
    (ht : t < 2 ^ m.innerLevelCount) (hl : 0 < m.innerLevelCount)
    (hlive : (leaf m t).Live m) :
    s (leaf m t).nodesBefore ≠ 0 := by
  intro h0
  have := hv.total_pos ⟨le_rfl, ht⟩ hl hlive
  rw [totalOf, if_neg (lt_irrefl _), h0] at this
  cases this

/-- **An identifier is reserved below a child**, which is alive. -/
theorem reserve (hv : View m s rest others held ⟨some pos, carried⟩) (hpos : pos.Valid m)
    (hl : pos.level < m.innerLevelCount) (hlive : pos.Live m) {d : Direction}
    (hd : ∀ d', counterOf v d' + (if d' = d then 1 else 0) = counterOf (s pos.nodesBefore) d') :
    View m (update s pos.nodesBefore v) rest others held ⟨some (pos.descend d), carried⟩
      ∧ (pos.descend d).Live m := by
  have hdl : (pos.descend d).Live m := by
    by_contra hdead
    have := hv.good.dead pos d hpos hl hlive hdead
    have hd' := hd d
    rw [if_pos rfl] at hd'
    omega
  refine ⟨hv.of_good rfl (inSet_update_inner hpos hl v) (hv.good.update hpos ?_ ?_ ?_ ?_), hdl⟩
  · intro w hw hwd
    rw [due_of_ne (Ne.symm hw), due_of_ne (Ne.symm (hwd d))]
  · intro _
    have h1 := hd .left
    have h2 := hd .right
    rw [due_of_ne (pos.ne_descend d).symm, due_self, totalOf, if_pos hl, totalOf,
      if_pos hl, ← h1, ← h2]
    cases d <;> simp only [reduceCtorEq, if_true, if_false] <;> omega
  · refine fun _ d' => ⟨fun _ => ?_, fun _ hdead => ?_⟩
    · rw [due_of_ne (pos.ne_descend d'), ← hd d']
      by_cases hdd : d' = d
      · rw [hdd, due_self, if_pos rfl]
        omega
      · rw [due_of_ne (fun h => hdd (descend_inj h).2.symm), if_neg hdd]
        omega
    · have := hv.good.dead pos d' hpos hl hlive hdead
      have := hd d'
      omega
  · intro h
    exact absurd hl (by omega)

/-- **An identifier is taken from a leaf.** -/
theorem take {t i : ℕ} (hv : View m s rest others held ⟨some (leaf m t), none⟩)
    (ht : t < 2 ^ m.innerLevelCount) (hlive : (leaf m t).Live m)
    (hi : i ∈ bits (s (leaf m t).nodesBefore))
    (hbits : bits v = (bits (s (leaf m t).nodesBefore)).erase i) :
    View m (update s (leaf m t).nodesBefore v) rest others held
      ⟨none, some (t * BitsPerLeaf + i)⟩ := by
  have hpos : (leaf m t).Valid m := ⟨le_rfl, ht⟩
  have hi64 : i < BitsPerLeaf := mem_range.mp (mem_filter.mp hi).1
  have hdiv : (t * BitsPerLeaf + i) / BitsPerLeaf = t := by
    unfold BitsPerLeaf at hi64 ⊢
    omega
  have hmod : (t * BitsPerLeaf + i) % BitsPerLeaf = i := by
    unfold BitsPerLeaf at hi64 ⊢
    omega
  have hin : InSet m s (t * BitsPerLeaf + i) := by
    unfold InSet
    rw [hdiv, hmod]
    exact ⟨ht, hi⟩
  -- nothing enters the set, and the identifier leaves it
  have hout : ∀ id, InSet m (update s (leaf m t).nodesBefore v) id →
      InSet m s id ∧ id ≠ t * BitsPerLeaf + i := by
    intro id hid
    rw [inSet_update_leaf ht] at hid
    by_cases hidt : id / BitsPerLeaf = t
    · rw [if_pos hidt, hbits, mem_erase] at hid
      refine ⟨?_, fun h => hid.1 (by rw [h, hmod])⟩
      unfold InSet
      rw [hidt]
      exact ⟨ht, hid.2⟩
    · rw [if_neg hidt] at hid
      exact ⟨hid, fun h => hidt (by rw [h, hdiv])⟩
  refine ⟨hv.good.update hpos ?_ ?_ (fun h => absurd h (lt_irrefl _)) ?_, ?_, ?_, ?_⟩
  · intro w hw _
    rw [due_none, due_of_ne (Ne.symm hw)]
  · intro _
    have hcard := card_erase_add_one hi
    rw [due_none, due_self, totalOf, if_neg (lt_irrefl _), totalOf, if_neg (lt_irrefl _), hbits]
    omega
  · intro _ hl j hj
    rw [hbits] at hj
    exact hv.good.bits_lt _ hpos rfl hl j (mem_of_mem_erase hj)
  · intro id hid
    exact ⟨(hv.others_out id hid).1, fun h => (hv.others_out id hid).2 (hout id h).1⟩
  · rintro id (hid | hid)
    · obtain ⟨h1, h2, h3⟩ := hv.has_out id (.inl hid)
      exact ⟨h1, fun h => h2 (hout id h).1, h3⟩
    · obtain rfl := some.inj hid
      exact ⟨hv.good.bits_lt _ hpos rfl hlive i hi, fun h => (hout _ h).2 rfl,
        fun h => (hv.others_out _ h).2 hin⟩
  · intro id hid hheld
    obtain rfl := some.inj hid
    exact (hv.has_out _ (.inl hheld)).2.1 hin

/-- **An identifier is put into a leaf.** It was not there. -/
theorem put {id : ℕ} (hv : View m s rest others held ⟨none, some id⟩)
    (ht : id / BitsPerLeaf < 2 ^ m.innerLevelCount) (hbits : bits v = insert (id % BitsPerLeaf)
      (bits (s (leaf m (id / BitsPerLeaf)).nodesBefore))) :
    View m (update s (leaf m (id / BitsPerLeaf)).nodesBefore v)
      rest others held ⟨some (leaf m (id / BitsPerLeaf)), none⟩ := by
  have hpos : (leaf m (id / BitsPerLeaf)).Valid m := ⟨le_rfl, ht⟩
  obtain ⟨hlt, hnin, hno⟩ := hv.has_out id (.inr rfl)
  have hnot : id % BitsPerLeaf ∉ bits (s (leaf m (id / BitsPerLeaf)).nodesBefore) :=
    fun h => hnin ⟨ht, h⟩
  -- only the identifier enters the set
  have hin : ∀ id', InSet m (update s (leaf m (id / BitsPerLeaf)).nodesBefore v) id' →
      InSet m s id' ∨ id' = id := by
    intro id' hid'
    rw [inSet_update_leaf ht] at hid'
    by_cases hdiv : id' / BitsPerLeaf = id / BitsPerLeaf
    · rw [if_pos hdiv, hbits, mem_insert] at hid'
      rcases hid' with h | h
      · refine .inr ?_
        rw [← Nat.div_add_mod id' BitsPerLeaf, hdiv, h, Nat.div_add_mod]
      · refine .inl ?_
        unfold InSet
        rw [hdiv]
        exact ⟨ht, h⟩
    · rw [if_neg hdiv] at hid'
      exact .inl hid'
  refine ⟨hv.good.update hpos ?_ ?_ (fun h => absurd h (lt_irrefl _)) ?_, ?_, ?_, nofun⟩
  · intro w hw _
    rw [due_none, due_of_ne (Ne.symm hw)]
  · intro _
    rw [due_none, due_self, totalOf, if_neg (lt_irrefl _), totalOf,
      if_neg (lt_irrefl _), hbits, card_insert_of_notMem hnot]
    omega
  · intro _ hl j hj
    rw [hbits, mem_insert] at hj
    rcases hj with rfl | hj
    · rw [Nat.div_add_mod']
      exact hlt
    · exact hv.good.bits_lt _ hpos rfl hl j hj
  · intro id' hid'
    refine ⟨(hv.others_out id' hid').1, fun h => ?_⟩
    rcases hin id' h with h | rfl
    · exact (hv.others_out id' hid').2 h
    · exact hno hid'
  · rintro id' (hid' | hid')
    · obtain ⟨h1, h2, h3⟩ := hv.has_out id' (.inl hid')
      refine ⟨h1, fun h => ?_, h3⟩
      rcases hin id' h with h | rfl
      · exact h2 h
      · exact hv.apart _ rfl hid'
    · cases hid'

/-- **An identifier is counted by the parent of a node.** -/
theorem publish (hv : View m s rest others held ⟨some pos, carried⟩) (hpos : pos.Valid m)
    (hl : 0 < pos.level) (hlive : pos.Live m)
    (hd : ∀ d, counterOf v d = counterOf (s pos.ascend.nodesBefore) d
      + if d = pos.ascendDirection then 1 else 0) :
    View m (update s pos.ascend.nodesBefore v) rest others held ⟨some pos.ascend, carried⟩ := by
  have hup := ascend_valid hpos hl
  have hlt := ascend_level_lt hpos hl
  have hself : pos.ascend.descend pos.ascendDirection = pos := descend_ascend hl
  refine hv.of_good rfl (inSet_update_inner hup hlt v) (hv.good.update hup ?_ ?_ ?_ ?_)
  · intro w hw hwd
    rw [due_of_ne (Ne.symm hw), due_of_ne]
    rintro rfl
    exact hwd _ hself.symm
  · intro _
    have hne : pos ≠ pos.ascend := fun h => by
      have := congrArg level h
      simp only [ascend] at this
      omega
    rw [due_self, due_of_ne hne, totalOf, if_pos hlt, totalOf, if_pos hlt, hd, hd]
    cases pos.ascendDirection <;> simp only [reduceCtorEq, if_true, if_false] <;> omega
  · refine fun _ d => ⟨fun _ => ?_, fun hla hdead => ?_⟩
    · rw [due_of_ne (pos.ascend.ne_descend d), hd d]
      by_cases hdd : d = pos.ascendDirection
      · rw [hdd, hself, if_pos rfl, due_self]
        omega
      · rw [if_neg hdd, due_of_ne]
        · omega
        · intro h
          exact hdd (descend_inj (h.symm.trans hself.symm)).2
    · rw [hd d, hv.good.dead pos.ascend d hup hlt hla hdead, if_neg]
      rintro rfl
      rw [hself] at hdead
      exact hdead hlive
  · intro h
    exact absurd hlt (by omega)

/-- There is room for it. -/
theorem counter_lt (hm : m.Perfect) (hv : View m s rest others held ⟨some pos, carried⟩)
    (hpos : pos.Valid m) (hl : 0 < pos.level) (hlive : pos.Live m) :
    counterOf (s pos.ascend.nodesBefore) pos.ascendDirection + 1 < 2 ^ 32 := by
  have hup := ascend_valid hpos hl
  have hlt := ascend_level_lt hpos hl
  have hself : pos.ascend.descend pos.ascendDirection = pos := descend_ascend hl
  have hcount := hv.good.count pos.ascend pos.ascendDirection hup hlt (by rw [hself]; exact hlive)
  rw [hself, due_self] at hcount
  have hle := hv.good.total_le (k := m.innerLevelCount - pos.level) hpos
    (by have := hpos.1; omega) hlive
  have hpow : 2 ^ (m.innerLevelCount - pos.level) ≤ 2 ^ 25 :=
    Nat.pow_le_pow_right Nat.two_pos (by have := hm.le; omega)
  omega

end View

/-! ## The operations -/

section

variable {P : Type} [Fintype P] [DecidableEq P] {p : P} {held : Finset ℕ} {φ : Phase} {α : Type}
  {Q : α → Phase → Prop} {pos : Position}

theorem nodeAt_eq (hm : m.Perfect) (hpos : pos.Valid m) : nodeAt m pos = .ret pos.nodesBefore :=
  if_pos (hpos.inTree hm)

/-- The rule of a load. -/
theorem safe_load {k : Nodes → Prog Nodes α} (hstep : ∀ s rest others, View m s rest others held φ →
      (protocol P m).SafeIn p held (k s) φ Q) :
    (protocol P m).SafeIn p held (.act id k) φ Q :=
  safe_act fun s rest others hv => ⟨φ, hv, hstep s rest others hv⟩

/-- The rule of `compare_exchange_weak`: it succeeds on a node that has the
expected value, or returns the value found. -/
theorem safe_compareExchangeWeak {node : ℕ} {oldValue newValue : UInt64}
    {k : Option UInt64 → Prog Nodes α}
    (hok : ∀ s rest others, View m s rest others held φ → s node = oldValue →
      ∃ φ', View m (update s node newValue) rest others held φ'
        ∧ (protocol P m).SafeIn p held (k none) φ' Q)
    (hfail : ∀ s rest others, View m s rest others held φ →
      (protocol P m).SafeIn p held (k (some (s node))) φ Q) :
    (protocol P m).SafeIn p held (compareExchangeWeak node oldValue newValue >>= k) φ Q := by
  intro luck
  refine safe_act fun s rest others hv => ?_
  show ∃ φ', _ ∧ (protocol P m).Safe p _
    (k (if s node = oldValue ∧ luck ≠ 0 then none else some _)) _ _
  by_cases h : s node = oldValue ∧ luck ≠ 0
  · simp only [if_pos h]
    exact hok s rest others hv h.1
  · simp only [if_neg h]
    exact ⟨φ, hv, hfail s rest others hv⟩

/-- What `innerPop` has done when it returns. -/
def Reserved (m : IdSetMeasurements) (pos : Position) : Option Direction → Phase → Prop
  | some d, φ => φ = ⟨some (pos.descend d), none⟩ ∧ (pos.descend d).Live m
  | none, φ => φ = ⟨some pos, none⟩ ∧ pos.level = 0

theorem innerPopLoop_safe (hpos : pos.Valid m) (hl : pos.level < m.innerLevelCount)
    (hlive : pos.Live m) (fuel : ℕ) (oldValue : UInt64)
    (hold : 0 < pos.level → 0 < totalOf m pos oldValue) :
    (protocol P m).SafeIn p held (innerPopLoop pos.nodesBefore fuel oldValue)
      ⟨some pos, none⟩ (Reserved m pos) := by
  induction fuel generalizing oldValue with
  | zero => trivial
  | succ fuel ih =>
    have again : ∀ s rest others, View m s rest others held ⟨some pos, none⟩ →
        (protocol P m).SafeIn p held (innerPopLoop pos.nodesBefore fuel (s pos.nodesBefore))
          ⟨some pos, none⟩ (Reserved m pos) :=
      fun s rest others hv => ih _ fun h0 => hv.total_pos hpos h0 hlive
    have hleft := toNat_unpack_left oldValue
    have hright := toNat_unpack_right oldValue
    unfold innerPopLoop
    by_cases h1 : (IdSetInnerNode.Unpack oldValue).left ≠ 0
    · rw [if_pos h1]
      refine safe_compareExchangeWeak (fun s rest others hv hs => ?_) again
      obtain ⟨hv', hd⟩ := hv.reserve hpos hl hlive (by rw [hs]; exact counterOf_sub_left h1)
      exact ⟨_, hv', .ret ⟨rfl, hd⟩⟩
    · rw [if_neg h1]
      by_cases h2 : (IdSetInnerNode.Unpack oldValue).right ≠ 0
      · rw [if_pos h2]
        refine safe_compareExchangeWeak (fun s rest others hv hs => ?_) again
        obtain ⟨hv', hd⟩ := hv.reserve hpos hl hlive (by rw [hs]; exact counterOf_sub_right h2)
        exact ⟨_, hv', .ret ⟨rfl, hd⟩⟩
      · rw [if_neg h2]
        refine .ret ⟨rfl, Nat.eq_zero_of_not_pos fun h0 => ?_⟩
        have := hold h0
        rw [totalOf, if_pos hl, ← hleft, ← hright, not_not.mp h1, not_not.mp h2] at this
        cases this

/-- **`innerPop` reserves an identifier below a child**, and fails only at the
root. -/
theorem innerPop_safe (hm : m.Perfect) (hpos : pos.Valid m) (hl : pos.level < m.innerLevelCount)
    (hlive : pos.Live m) :
    (protocol P m).SafeIn p held (innerPop m pos) ⟨some pos, none⟩ (Reserved m pos) := by
  unfold innerPop
  rw [nodeAt_eq hm hpos]
  refine safe_load fun s rest others hv fuel => ?_
  exact innerPopLoop_safe hpos hl hlive fuel _ fun h0 => hv.total_pos hpos h0 hlive

/-- The loop of `pop` arrives at a leaf. -/
theorem popLoop_safe (hm : m.Perfect) (levels : ℕ) (hpos : pos.Valid m) (hl : 0 < pos.level)
    (hlevels : pos.level + levels = m.innerLevelCount) (hlive : pos.Live m) :
    (protocol P m).SafeIn p held (popLoop m levels pos) ⟨some pos, none⟩
      (fun pos' φ => φ = ⟨some pos', none⟩ ∧ pos'.Valid m ∧ pos'.Live m
        ∧ pos'.level = m.innerLevelCount) := by
  induction levels generalizing pos with
  | zero => exact .ret ⟨rfl, hpos, hlive, hlevels⟩
  | succ levels ih =>
    refine (innerPop_safe hm hpos (by omega) hlive).bind ?_
    rintro (_ | d) φ hφ
    · exact absurd hl (by rw [hφ.2]; exact lt_irrefl 0)
    · obtain ⟨rfl, hd⟩ := hφ
      exact ih (descend_valid hpos (by omega) d) (by rw [descend_level]; exact Nat.succ_pos _)
        (by rw [descend_level]; omega) hd

theorem leafPopLoop_safe {t : ℕ} (ht : t < 2 ^ m.innerLevelCount)
    (hl : 0 < m.innerLevelCount) (hlive : (leaf m t).Live m)
    (fuel : ℕ) (oldValue : UInt64) (hold : oldValue ≠ 0) : (protocol P m).SafeIn p held
      (leafPopLoop (leaf m t).nodesBefore fuel oldValue)
      ⟨some (leaf m t), none⟩
      (fun v φ => φ = ⟨none, some (t * BitsPerLeaf + trailingZeros v)⟩) := by
  induction fuel generalizing oldValue with
  | zero => trivial
  | succ fuel ih =>
    unfold leafPopLoop
    rw [Prog.assert_bind, if_pos (UInt64.pos_iff_ne_zero.mpr hold)]
    refine safe_compareExchangeWeak (fun s rest others hv hs => ?_) fun s rest others hv => ?_
    · have hlow := trailingZeros_isLowest hold
      rw [← hs] at hlow ⊢
      exact ⟨_, hv.take ht hlive hlow.1 (bits_and_sub_one hlow), .ret rfl⟩
    · exact ih _ (hv.leaf_ne_zero ht hl hlive)

section

variable (hm : m.Perfect)
include hm

/-- **`leafPop` takes an identifier.** -/
theorem leafPop_safe (hpos : pos.Valid m) (hlive : pos.Live m)
    (hl : pos.level = m.innerLevelCount) :
    (protocol P m).SafeIn p held (leafPop m pos) ⟨some pos, none⟩
      (fun id φ => φ = ⟨none, some id⟩) := by
  obtain ⟨l, t⟩ := pos
  obtain rfl : l = m.innerLevelCount := hl
  unfold leafPop
  rw [nodeAt_eq hm hpos]
  refine safe_load fun s rest others hv fuel => ?_
  refine (leafPopLoop_safe hpos.2 hm.pos hlive fuel _ ?_).bind ?_
  · exact hv.leaf_ne_zero hpos.2 hm.pos hlive
  · rintro v φ rfl
    exact .ret rfl

/-- **`pop` takes an identifier or changes nothing.** -/
theorem pop_safe : (protocol P m).SafeIn p held (pop m) .quiet (fun r φ => φ = ⟨none, r⟩) := by
  have hroot : root.Valid m := ⟨Nat.zero_le _, Nat.one_pos⟩
  refine .shift (shift_of_view fun s rest others hv => hv.owe_root) ?_
  refine (innerPop_safe hm hroot hm.pos (.inl rfl)).bind ?_
  rintro (_ | d) φ hφ
  · obtain ⟨rfl, -⟩ := hφ
    exact ⟨_, shift_of_view fun s rest others hv => hv.settle_root, rfl⟩
  · obtain ⟨rfl, hd⟩ := hφ
    refine (popLoop_safe hm _ (descend_valid hroot hm.pos d)
      (by rw [descend_level]; exact Nat.succ_pos _)
      (by rw [descend_level]; have := hm.pos; show 0 + 1 + _ = _; omega) hd).bind ?_
    rintro pos φ ⟨rfl, hpos, hlive, hl⟩
    refine (leafPop_safe hm hpos hlive hl).bind ?_
    rintro id φ rfl
    exact .ret rfl

/-- **`innerPush` counts an identifier.** -/
theorem innerPush_safe (hpos : pos.Valid m) (hl : 0 < pos.level) (hlive : pos.Live m) :
    (protocol P m).SafeIn p held (innerPush m pos.ascend pos.ascendDirection)
      ⟨some pos, none⟩ (fun _ φ => φ = ⟨some pos.ascend, none⟩) := by
  unfold innerPush
  rw [nodeAt_eq hm (ascend_valid hpos hl)]
  simp only [Prog.ret_bind, Prog.rmw_bind]
  refine safe_act fun s rest others hv => ?_
  obtain ⟨hle, hadd⟩ := counterOf_add_increment (hv.counter_lt hm hpos hl hlive)
  refine ⟨_, hv.publish hpos hl hlive hadd, ?_⟩
  rw [Prog.assert, if_pos (by exact hle)]
  exact .ret rfl

/-- The loop of `push` arrives at the root. -/
theorem pushLoop_safe (level offset : ℕ) (hpos : Position.Valid m ⟨level, offset⟩) (hl : 0 < level)
    (hlive : Position.Live m ⟨level, offset⟩) :
    (protocol P m).SafeIn p held (pushLoop m level offset) ⟨some ⟨level, offset⟩, none⟩
      (fun _ φ => φ = .quiet) := by
  induction level generalizing offset with
  | zero => exact absurd hl (lt_irrefl 0)
  | succ level ih =>
    have hup := ascend_valid hpos hl
    refine (innerPush_safe hm hpos hl hlive).bind ?_
    rintro _ φ rfl
    by_cases hroot : (ascend ⟨level + 1, offset⟩).atRoot = true
    · have : ascend ⟨level + 1, offset⟩ = .root := by
        rw [atRoot, decide_eq_true_eq] at hroot
        exact Position.mk.injEq .. ▸ hroot
      rw [this]
      exact ⟨_, shift_of_view fun s rest others hv => hv.settle_root, rfl⟩
    · rw [if_neg hroot]
      refine ih (offset / 2) hup (Nat.pos_of_ne_zero fun h0 => hroot ?_) (hlive.ascend hl hpos)
      subst h0
      have := hup.2
      rw [atRoot, decide_eq_true_eq]
      exact ⟨rfl, Nat.lt_one_iff.mp this⟩

/-- **`push` puts an identifier.** -/
theorem push_safe (id : ℕ) :
    (protocol P m).SafeIn p held (push m id) ⟨none, some id⟩ (fun _ φ => φ = .quiet) := by
  by_cases ht : id / BitsPerLeaf < 2 ^ m.innerLevelCount
  · unfold push leafPush
    rw [nodeAt_eq hm ⟨le_rfl, ht⟩]
    simp only [Prog.ret_bind, Prog.rmw_bind, Prog.act_bind, Prog.assert_bind]
    refine safe_act fun s rest others hv => ?_
    obtain ⟨hlt, hnin, -⟩ := hv.has_out id (.inr rfl)
    refine ⟨_, hv.put ht (bits_or_mask _ id), ?_⟩
    rw [if_pos (by exact (and_mask_eq_zero _ id).mpr fun h => hnin ⟨ht, h⟩)]
    exact pushLoop_safe hm _ _ ⟨le_rfl, ht⟩ hm.pos (live_of_id hlt)
  · -- the process fails in `nodeAt`
    have : nodeAt m (leaf m (id / BitsPerLeaf)) = .stall :=
      if_neg fun h => ht (h.offset_lt hm)
    unfold push leafPush
    rw [this]
    trivial

end

/-! ## Every interleaving -/

variable {s : Nodes}

/-- An idle process calls `pop`, or `push` for something it holds. -/
theorem View.start_push {rest : Position → ℕ} {others : ℕ → Prop} {id : ℕ}
    (hv : View m s rest others held .quiet) (hid : id ∈ held) :
    View m s rest others (held.erase id) ⟨none, some id⟩ where
  good := hv.good
  others_out := hv.others_out
  has_out id' h := by
    rcases h with h | h
    · exact hv.has_out id' (.inl (mem_of_mem_erase h))
    · exact hv.has_out id' (.inl (some.inj h ▸ hid))
  apart id' h hmem := (mem_erase.mp hmem).1 (some.inj h).symm

/-- A `pop` ends with one more identifier held. -/
theorem View.end_pop {rest : Position → ℕ} {others : ℕ → Prop} {id : ℕ}
    (hv : View m s rest others held ⟨none, some id⟩) :
    View m s rest others (insert id held) .quiet where
  good := hv.good
  others_out := hv.others_out
  has_out id' h := by
    rcases h with h | h
    · rcases mem_insert.mp h with rfl | h
      · exact hv.has_out id' (.inr rfl)
      · exact hv.has_out id' (.inl h)
    · cases h
  apart := nofun

theorem return_of_view {held' : Finset ℕ}
    (h : ∀ s rest others, View m s rest others held φ → View m s rest others held' .quiet) :
    (protocol P m).Return p ⟨held, true⟩ .quiet held' φ := by
  intro s o φs hI _ ho hφ
  exact View.inv_update false hI (h s _ _ (View.of_inv hI ho hφ))

/-- **Every operation keeps the invariant.** -/
theorem call_safe (hm : m.Perfect) {init : Nodes} {start : P → Finset ℕ} {op : Op}
    {held' : Finset ℕ} {x : Prog Nodes (Finset ℕ)}
    (hcall : (system m init start).call p op s held = some (held', x)) {o : P → Outline (Finset ℕ)}
    {φs : P → Phase} (hI : Inv m s o φs) (ho : o p = ⟨held, false⟩) (hφ : φs p = .quiet) :
    ∃ φ, Inv m s (update o p ⟨held', true⟩) (update φs p φ)
      ∧ (protocol P m).SafeIn p held' x φ ((protocol P m).Return p ⟨held', true⟩ .quiet) := by
  have hv := View.of_inv hI ho hφ
  cases op with
  | pop =>
    obtain ⟨rfl, rfl⟩ := Prod.mk.inj (some.inj hcall)
    refine ⟨.quiet, View.inv_update true hI hv, (pop_safe hm).bind ?_⟩
    rintro (_ | id) φ rfl
    · exact .ret (return_of_view fun _ _ _ hv => hv)
    · exact .ret (return_of_view fun _ _ _ hv => hv.end_pop)
  | push id =>
    obtain ⟨⟨hid, -⟩, hcall⟩ := ite_some_none_eq_some.mp hcall
    obtain ⟨rfl, rfl⟩ := Prod.mk.inj hcall
    refine ⟨⟨none, some id⟩, View.inv_update true hI (hv.start_push hid),
      (push_safe hm id).bind ?_⟩
    rintro _ φ rfl
    exact .ret (return_of_view fun _ _ _ hv => hv)

/-- **What the set starts with**: nothing, or what `makeFullBeforeSharing`
makes of it. -/
inductive Initial (m : IdSetMeasurements) : Nodes → Prop where
  | empty : Initial m fun _ => 0
  | full {junk : UInt64} {s : Nodes} (h : makeFullBeforeSharing m junk (fun _ => 0) = some s) :
      Initial m s

theorem Initial.good (hm : m.Perfect) (h : Initial m s) : Good m s fun _ => 0 := by
  cases h with
  | empty => exact good_zero
  | full h => exact (makeFullBeforeSharing_full hm h).good

/-- **What processes may hold at the start**: identifiers that are not in the
set, each held once. -/
structure Outside (m : IdSetMeasurements) (init : Nodes) (start : P → Finset ℕ) : Prop where
  lt : ∀ p, ∀ id ∈ start p, id < m.capacity
  out : ∀ p, ∀ id ∈ start p, ¬ InSet m init id
  unique : ∀ p q id, id ∈ start p → id ∈ start q → p = q

theorem reachable_inv (hm : m.Perfect) {init : Nodes} {start : P → Finset ℕ}
    (hinit : Initial m init) (hstart : Outside m init start) {c : Config Nodes P (Finset ℕ)}
    (hc : (system m init start).Reachable c) : ∃ φs, Inv m c.mem c.outline φs
      ∧ ∀ p, (protocol P m).ThreadOk .quiet p (c.thread p) (φs p) := by
  refine System.ReachableIn.invariant (π := protocol P m) ?_ ?_ hc
  · have hhas : ∀ p id, Has (start p) .quiet id → id ∈ start p := by
      rintro p id (h | h)
      · exact h
      · cases h
    refine ⟨?_, fun p id h => ⟨hstart.lt p id (hhas p id h), hstart.out p id (hhas p id h)⟩,
      fun p q id hpq hp hq => hpq (hstart.unique p q id (hhas p id hp) (hhas q id hq)), nofun⟩
    simp only [Phase.quiet, Phase.due_none, sum_const_zero]
    exact hinit.good hm
  · intro p op s h h' x hcall o φs hI _ ho hφ
    exact call_safe hm hcall hI ho hφ

/-- **What the set guarantees.** -/
structure Sound (m : IdSetMeasurements) (c : Config Nodes P (Finset ℕ)) : Prop where
  /-- No assertion has failed. -/
  not_aborted : ∀ p, (c.thread p).aborted = false
  /-- An identifier is held by one process at most. -/
  held_unique : ∀ p q id, id ∈ (c.outline p).held → id ∈ (c.outline q).held → p = q
  /-- What is held is not in the set. -/
  held_out : ∀ p, ∀ id ∈ (c.outline p).held, ¬ InSet m c.mem id
  /-- What is held is below the capacity. -/
  held_lt : ∀ p, ∀ id ∈ (c.outline p).held, id < m.capacity

/-- **The set is safe in every interleaving of `pop` and `push`.** -/
theorem sound_of_reachable (capacity : UInt32) {init : Nodes} {start : P → Finset ℕ}
    (hinit : Initial (.ofCapacity capacity) init)
    (hstart : Outside (.ofCapacity capacity) init start) {c : Config Nodes P (Finset ℕ)}
    (hc : (system (.ofCapacity capacity) init start).Reachable c) :
    Sound (.ofCapacity capacity) c := by
  have hm := (IdSetMeasurements.ofCapacity_perfect capacity).1
  obtain ⟨φs, hI, ht⟩ := reachable_inv hm hinit hstart hc
  refine ⟨fun p => (ht p).not_aborted id, fun p q id hp hq => ?_,
    fun p id h => (hI.has_out p id (.inl h)).2, fun p id h => (hI.has_out p id (.inl h)).1⟩
  by_contra hpq
  exact hI.has_unique p q id hpq (.inl hp) (.inl hq)

/-- **Every counter of the tree is right but for what is under way**: a process that is inside an
operation owes an identifier to one node at most, and one that is not owes nothing. -/
theorem good_of_reachable (capacity : UInt32) {init : Nodes} {start : P → Finset ℕ}
    (hinit : Initial (.ofCapacity capacity) init)
    (hstart : Outside (.ofCapacity capacity) init start) {c : Config Nodes P (Finset ℕ)}
    (hc : (system (.ofCapacity capacity) init start).Reachable c) :
    ∃ owes : P → Option Position, (∀ p, (c.outline p).busy = false → owes p = none) ∧
      Good (.ofCapacity capacity) c.mem fun w => ∑ p, if owes p = some w then 1 else 0 := by
  have hm := (IdSetMeasurements.ofCapacity_perfect capacity).1
  obtain ⟨φs, hI, ht⟩ := reachable_inv hm hinit hstart hc
  refine ⟨fun p => (φs p).node, fun p hp => ?_, hI.good⟩
  have hthread := ht p
  cases hidle : c.thread p with
  | idle h =>
    rw [hidle] at hthread
    exact congrArg Phase.node (show φs p = .quiet from hthread)
  | running h x => simp [Config.outline, hidle, Thread.outline] at hp

end

/-- For instance a set of seventy identifiers made full, from which one process
has popped while the other is in the middle of a `pop`. -/
theorem sound_of_reachable_seventy :
    ∃ init c, Initial (.ofCapacity 70) init
      ∧ (system (P := Fin 2) (.ofCapacity 70) init fun _ => ∅).Reachable c
      ∧ 0 ∈ (c.outline 0).held ∧ (c.outline 1).busy = true ∧ Sound (.ofCapacity 70) c := by
  have hinit : Initial (.ofCapacity 70)
      ((makeFullBeforeSharing (.ofCapacity 70) 0 fun _ => 0).getD fun _ => 0) :=
    @Initial.full _ 0 _ rfl
  have hc : (system (P := Fin 2) (.ofCapacity 70)
      ((makeFullBeforeSharing (.ofCapacity 70) 0 fun _ => 0).getD fun _ => 0)
      fun _ => ∅).Reachable _ :=
    (System.ReachableIn.init trivial).run (.invoke 0 .pop :: List.replicate 9 (.advance 0 1)
        ++ .invoke 1 .pop :: List.replicate 4 (.advance 1 1)) rfl
  exact ⟨_, _, hinit, hc, by decide, rfl, sound_of_reachable 70 hinit
    ⟨fun _ _ h => absurd h (Finset.notMem_empty _), fun _ _ h => absurd h (Finset.notMem_empty _),
      fun _ _ _ h => absurd h (Finset.notMem_empty _)⟩ hc⟩

/-- In the same state, the process in the middle of its `pop` has reserved an identifier of the
left leaf, which still has it: the root counts 62 of its 63. -/
theorem good_of_reachable_seventy :
    ∃ init c, Initial (.ofCapacity 70) init
      ∧ (system (P := Fin 2) (.ofCapacity 70) init fun _ => ∅).Reachable c
      ∧ counterOf (c.mem 0) .left = 62 ∧ totalOf (.ofCapacity 70) ⟨1, 0⟩ (c.mem 1) = 63
      ∧ ∃ owes : Fin 2 → Option Position, owes 0 = none ∧ owes 1 = some ⟨1, 0⟩
        ∧ Good (.ofCapacity 70) c.mem fun w => ∑ p, if owes p = some w then 1 else 0 := by
  have hinit : Initial (.ofCapacity 70)
      ((makeFullBeforeSharing (.ofCapacity 70) 0 fun _ => 0).getD fun _ => 0) :=
    @Initial.full _ 0 _ rfl
  obtain ⟨c, hc, hquiet, hcounter, htotal⟩ : ∃ c, (system (P := Fin 2) (.ofCapacity 70)
      ((makeFullBeforeSharing (.ofCapacity 70) 0 fun _ => 0).getD fun _ => 0)
      fun _ => ∅).Reachable c ∧ (c.outline 0).busy = false ∧ counterOf (c.mem 0) .left = 62
      ∧ totalOf (.ofCapacity 70) ⟨1, 0⟩ (c.mem 1) = 63 :=
    ⟨_, (System.ReachableIn.init trivial).run (.invoke 0 .pop :: List.replicate 9 (.advance 0 1)
        ++ .invoke 1 .pop :: List.replicate 4 (.advance 1 1)) rfl, rfl, by decide +kernel,
      by decide +kernel⟩
  obtain ⟨owes, hidle, hgood⟩ := good_of_reachable 70 hinit
    ⟨fun _ _ h => absurd h (Finset.notMem_empty _), fun _ _ h => absurd h (Finset.notMem_empty _),
      fun _ _ _ h => absurd h (Finset.notMem_empty _)⟩ hc
  have hnone : owes 0 = none := hidle 0 hquiet
  refine ⟨_, c, hinit, hc, hcounter, htotal, owes, hnone, ?_, hgood⟩
  -- what the root does not count is owed, and not by the other process
  have hcount : 62 + ∑ p, (if owes p = some ⟨1, 0⟩ then 1 else 0) = 63 := by
    rw [← hcounter, ← htotal]
    exact hgood.count .root .left ⟨by decide, by decide⟩ (by decide) (.inr (by decide))
  rw [Fin.sum_univ_two, hnone] at hcount
  by_contra hne
  simp [hne] at hcount

end IdSet

end Ipc.Mem
