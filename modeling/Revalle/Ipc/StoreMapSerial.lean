import Revalle.Shm.Serial
import Revalle.Ipc.StoreMap

/-!
# What the operations of a map do alone

An operation that does not overlap with others finds every lock as some
holder has left it (`ReadWriteLock.Quiet`) and goes through its back-off
paths without any effect, so it amounts to a few changes of the memory. This
module says which: one lemma for each operation, in the form *the
operation ends with `Q` if these memories satisfy `Q`*, with the conditions
under which each of them is reached. The memories are written with a small
set of changes – an anchor, a lock, the counter, the slices, a name – and
the lemmas on how these combine are simplification rules.

Freeing slices is the work of the cleaner as much as of the map, so it stays
a program here: `Frees e A a R p` says that freeing the slices of `a` ends
with `R`.

An operation stops at an assertion that fails, so what comes behind an
assertion may use it.
-/

namespace Ipc

open Shm Function Prog ReadWriteLock StoreMapAnchor

/-! ## Locks that no operation is using -/

namespace ReadWriteLock

/-- **A lock that no operation is using.** -/
inductive Quiet : ReadWriteLock → Prop where
  /-- It has readers, or nobody holds it. -/
  | shared (r : UInt32) (u : Bool) : Quiet ⟨r, false, false, u, r, 0⟩
  /-- It has a writer. -/
  | sole (u : Bool) : Quiet ⟨0, true, false, u, 0, 1⟩
  /-- It has a writer that lets readers in. -/
  | appending (r : UInt32) (u : Bool) : Quiet ⟨r, true, true, u, r, 1⟩

/-- Nobody holds the lock. -/
def Free (l : ReadWriteLock) : Prop := l.writing = false ∧ l.readers = 0

instance (l : ReadWriteLock) : Decidable l.Free := inferInstanceAs (Decidable (_ ∧ _))

/-- After `lockExclusive`. -/
def grabbed (l : ReadWriteLock) : ReadWriteLock := { l with writing := true, writeLevel := 1 }

/-- After `unlockExclusive`. -/
def released (l : ReadWriteLock) : ReadWriteLock :=
  { l with appending := false, writing := false, writeLevel := 0 }

/-- After `lockShared`. -/
def joined (l : ReadWriteLock) : ReadWriteLock :=
  { l with readLevel := l.readLevel + 1, readers := l.readers + 1 }

/-- After `unlockShared`. -/
def left (l : ReadWriteLock) : ReadWriteLock :=
  { l with readLevel := l.readLevel - 1, readers := l.readers - 1 }

variable {l : ReadWriteLock} {Q : Bool → ReadWriteLock → Prop} {R : Unit → ReadWriteLock → Prop}

theorem Quiet.new : Quiet .new := .shared 0 false

section

variable (hq : l.Quiet)
include hq

theorem Quiet.grabbed (hf : l.Free) : l.grabbed.Quiet := by
  cases hq with
  | shared r u =>
    obtain rfl : r = 0 := hf.2
    exact .sole u
  | sole u => exact .sole u
  | appending r u => exact .appending r u

theorem Quiet.released : l.released.Quiet := by
  cases hq with
  | shared r u => exact .shared r u
  | sole u => exact .shared 0 u
  | appending r u => exact .shared r u

theorem Quiet.joined (h : l.writing = false ∨ l.appending = true) : l.joined.Quiet := by
  cases hq with
  | shared r u => exact .shared (r + 1) u
  | sole u => exact nomatch h
  | appending r u => exact .appending (r + 1) u

theorem Quiet.left (h : l.readers ≠ 0) : l.left.Quiet := by
  cases hq with
  | shared r u => exact .shared (r - 1) u
  | sole u => exact absurd rfl h
  | appending r u => exact .appending (r - 1) u

/-- After `stopAppendingAndRestoreExclusive`. -/
theorem Quiet.stopped (hr : l.readers = 0) : Quiet { l with appending := false } := by
  cases hq with
  | shared r u => exact .shared r u
  | sole u => exact .sole u
  | appending r u =>
    obtain rfl : r = 0 := hr
    exact .sole u

/-- A writer that does not append has no readers. -/
theorem Quiet.readers_eq_zero (hw : l.writing = true) (ha : l.appending = false) :
    l.readers = 0 := by
  cases hq with
  | shared r u => cases hw
  | sole u => rfl
  | appending r u => cases ha

theorem wlp_lockExclusive :
    lockExclusive.wlp True Q l ↔ (l.Free → Q true l.grabbed) ∧ (¬ l.Free → Q false l) := by
  cases hq with
  | shared r u =>
    by_cases h : r = 0
    · subst h
      exact ⟨fun hQ => ⟨fun _ => hQ, fun hf => absurd ⟨rfl, rfl⟩ hf⟩, fun hQ => hQ.1 ⟨rfl, rfl⟩⟩
    · simp [lockExclusive, finalizeExclusive, h, Free]
  | sole u => simp [lockExclusive, Free]
  | appending r u => simp [lockExclusive, Free]

theorem Quiet.writeLevel_eq (hw : l.writing = true) : l.writeLevel = 1 := by
  cases hq with
  | shared r u => cases hw
  | sole u => rfl
  | appending r u => rfl

end

theorem wlp_unlockExclusive (hwl : l.writing = true → l.writeLevel = 1) :
    unlockExclusive.wlp True R l ↔ (l.writing = true → R () l.released) := by
  unfold unlockExclusive
  simp only [wlp_bind, wlp_load, wlp_assert, wlp_store]
  refine forall_congr' fun hw => ?_
  simp [released, hwl hw]

theorem wlp_lockShared (hq : l.Quiet)
    (hok : l.writing = false ∨ l.appending = true → Q true l.joined)
    (hfail : l.writing = true → l.appending = false → Q false l) : lockShared.wlp True Q l := by
  cases hq with
  | shared r u => exact hok (.inl rfl)
  | sole u => simpa [lockShared, wlp_bind] using hfail rfl rfl
  | appending r u => exact hok (.inr rfl)

theorem wlp_unlockShared (hR : l.readers ≠ 0 → R () l.left) : unlockShared.wlp True R l := by
  unfold unlockShared
  simp only [wlp_bind, wlp_load, wlp_assert, wlp_store]
  exact fun h => hR (UInt32.pos_iff_ne_zero.mp h)

@[simp] theorem left_joined (l : ReadWriteLock) : l.joined.left = l := by
  simp [joined, left]

theorem left_joined_updating (hu : l.updating = true) :
    left { l.joined with updating := true } = l := by
  obtain ⟨r, w, a, u, rl, wl⟩ := l
  obtain rfl : u = true := hu
  simp [joined, left]

theorem wlp_lockHeaders (hq : l.Quiet)
    (hok : l.writing = false ∨ l.appending = true → l.updating = false →
      Q true { l.joined with updating := true })
    (hfail : Q false l) : lockHeaders.wlp True Q l := by
  unfold lockHeaders
  rw [wlp_bind]
  refine wlp_lockShared hq (fun h => ?_) fun _ _ => hfail
  rw [if_pos rfl, wlp_bind, wlp_rmw]
  by_cases hu : l.updating = false
  · rw [if_pos (show l.joined.updating = false from hu)]
    exact hok h hu
  · rw [if_neg (show ¬ l.joined.updating = false from hu), wlp_bind]
    refine wlp_unlockShared fun _ => ?_
    rw [left_joined_updating (Bool.eq_true_of_not_eq_false hu)]
    exact hfail

theorem wlp_unlockHeaders (hR : l.readers ≠ 0 → R () { l.left with updating := false }) :
    unlockHeaders.wlp True R l := by
  unfold unlockHeaders
  simp only [wlp_bind, wlp_rmw, wlp_assert, wlp_store]
  exact fun _ => wlp_unlockShared hR

section

variable (hq : l.Quiet)
include hq

theorem wlp_switchExclusiveToShared (hw : l.writing = true) (hR : R () l.released.joined) :
    switchExclusiveToShared.wlp True R l := by
  cases hq with
  | shared r u => cases hw
  | sole u =>
    simpa [switchExclusiveToShared, unlockExclusive, wlp_bind, released, joined] using hR
  | appending r u =>
    simpa [switchExclusiveToShared, unlockExclusive, wlp_bind, released, joined] using hR

/-- The last reader becomes the writer. -/
theorem wlp_unlockSharedAndSwitchToExclusive (h : l.readers ≠ 0)
    (hok : l.left.Free → Q true l.left.grabbed) (hfail : ¬ l.left.Free → Q false l.left) :
    unlockSharedAndSwitchToExclusive.wlp True Q l := by
  cases hq with
  | shared r u =>
    have hr : r ≠ 0 := h
    have hpos : 0 < r := UInt32.pos_iff_ne_zero.mpr hr
    by_cases h1 : r - 1 = 0
    · have := hok ⟨rfl, h1⟩
      simpa [unlockSharedAndSwitchToExclusive, unlockShared, finalizeExclusive, wlp_bind, hpos,
        hr, h1, left, grabbed] using this
    · have := hfail fun hf => h1 hf.2
      simpa [unlockSharedAndSwitchToExclusive, unlockShared, finalizeExclusive, wlp_bind, hpos,
        hr, h1, left, grabbed] using this
  | sole u => exact absurd rfl h
  | appending r u =>
    have hr : r ≠ 0 := h
    have hpos : 0 < r := UInt32.pos_iff_ne_zero.mpr hr
    have := hfail fun hf => nomatch hf.1
    simpa [unlockSharedAndSwitchToExclusive, unlockShared, wlp_bind, hpos, hr, left] using this

/-- The writer of an entry being appended to is alone if there are no readers. -/
theorem wlp_stopAppendingAndRestoreExclusive (ha : l.appending = true)
    (hQ : Q (decide (l.readers = 0)) { l with appending := false }) :
    stopAppendingAndRestoreExclusive.wlp True Q l := by
  cases hq with
  | shared r u => cases ha
  | sole u => cases ha
  | appending r u => simpa [stopAppendingAndRestoreExclusive, wlp_bind] using hQ

/-- Taking and releasing a lock that nobody holds. -/
theorem released_grabbed (hf : l.Free) : l.grabbed.released = l := by
  cases hq with
  | shared r u => rfl
  | sole u => cases hf.1
  | appending r u => cases hf.1

/-- With the headers lock and one more shared lock. -/
def updated (l : ReadWriteLock) : ReadWriteLock := { l.joined.joined with updating := true }

/-- Without the headers lock and one shared lock. -/
def outdated (l : ReadWriteLock) : ReadWriteLock := { l.left.left with updating := false }

theorem Quiet.updated (hw : l.writing = false) : l.updated.Quiet := by
  cases hq with
  | shared r u => exact .shared (r + 1 + 1) true
  | sole u => cases hw
  | appending r u => cases hw

end

theorem readers_ne_zero (hr : 2 ≤ l.readers.toNat) : l.readers ≠ 0 := by
  intro h0
  rw [h0] at hr
  exact nomatch hr

theorem Quiet.outdated (hq : l.Quiet) (hr : 2 ≤ l.readers.toNat) : l.outdated.Quiet := by
  cases hq with
  | shared r u => exact .shared (r - 1 - 1) false
  | sole u => exact absurd rfl (readers_ne_zero hr)
  | appending r u => exact .appending (r - 1 - 1) false

theorem outdated_updated (hu : l.updating = false) : l.updated.outdated = l := by
  obtain ⟨r, w, a, u, rl, wl⟩ := l
  obtain rfl : u = false := hu
  simp [updated, outdated, joined, left]

end ReadWriteLock

/-! ## Parts of a map -/

namespace StoreMapAnchor

/-- After `rewind`. -/
def rewound (a : StoreMapAnchor) : StoreMapAnchor :=
  ⟨a.lock, false, false, ⟨0, 0⟩, .cleared, some 0, none⟩

/-- An anchor that has no slices yet. -/
def unstarted (a : StoreMapAnchor) : StoreMapAnchor :=
  { a with start := none, splicingPoint := none }

variable {a : StoreMapAnchor} {l l' : ReadWriteLock}

@[simp] theorem lock_withLock : (a.withLock l).lock = l := rfl

@[simp] theorem empty_withLock : (a.withLock l).empty = a.empty := rfl

@[simp] theorem sameKey_withLock {key : CacheKey} :
    (a.withLock l).sameKey key = a.sameKey key := rfl

@[simp] theorem waitingToBeFreed_withLock :
    (a.withLock l).waitingToBeFreed = a.waitingToBeFreed := rfl

@[simp] theorem start_withLock : (a.withLock l).start = a.start := rfl

@[simp] theorem withLock_withLock : (a.withLock l).withLock l' = a.withLock l' := rfl

@[simp] theorem rewound_withLock : (a.withLock l).rewound = a.rewound.withLock l := rfl

end StoreMapAnchor

/-- The key is not the one of empty anchors. -/
def CacheKey.Nonzero (key : CacheKey) : Prop := key.k0 ≠ 0 ∨ key.k1 ≠ 0

instance (key : CacheKey) : Decidable key.Nonzero := inferInstanceAs (Decidable (_ ∨ _))

theorem StoreMapAnchor.empty_eq_false {a : StoreMapAnchor} (h : a.key.Nonzero) : a.empty = false :=
  decide_eq_false fun h0 => h.elim (· h0.1) (· h0.2)

/-- What `set` makes of an entry. -/
def StoreEntry.basics (entry : StoreEntry) : Basics :=
  ⟨entry.timestamp, entry.lastref, entry.expires, entry.lastModified, entry.swap_file_sz,
    entry.refcount, entry.flags⟩

namespace StoreMap

variable {κ β : Type} {s : StoreMap κ} {i : ℕ} {a b : StoreMapAnchor}
  {p p' : SlicePool κ} {n n' : ℤ}

@[simp] theorem setAnchor_self : (s.setAnchor i a).anchors i = a := update_self ..

variable {j name f m : ℕ} {l : ReadWriteLock} {key : CacheKey} {entry : StoreEntry} {v : UInt32}
  {u : StoreMapUpdate}

theorem setAnchor_of_ne (h : j ≠ i) : (s.setAnchor i a).anchors j = s.anchors j :=
  update_of_ne h ..

@[simp] theorem setAnchor_setAnchor : (s.setAnchor i a).setAnchor i b = s.setAnchor i b := by
  unfold setAnchor
  rw [update_idem]

@[simp] theorem setAnchor_eq_self : s.setAnchor i (s.anchors i) = s := by
  unfold setAnchor
  rw [update_eq_self]

@[simp] theorem setLock_self : (s.setLock i l).anchors i = (s.anchors i).withLock l :=
  setAnchor_self

theorem setLock_of_ne (h : j ≠ i) : (s.setLock i l).anchors j = s.anchors j := setAnchor_of_ne h

@[simp] theorem setLock_setLock {l' : ReadWriteLock} :
    (s.setLock i l).setLock i l' = s.setLock i l' := by
  unfold setLock
  rw [setAnchor_setAnchor, setAnchor_self, withLock_withLock]

@[simp] theorem setLock_eq_self : s.setLock i (s.anchors i).lock = s := setAnchor_eq_self

@[simp] theorem setLock_setAnchor :
    (s.setAnchor i a).setLock i l = s.setAnchor i (a.withLock l) := by
  unfold setLock
  rw [setAnchor_setAnchor, setAnchor_self]

@[simp] theorem setAnchor_setLock : (s.setLock i l).setAnchor i a = s.setAnchor i a :=
  setAnchor_setAnchor

@[simp] theorem pool_setLock : (s.setLock i l).pool = s.pool := rfl

@[simp] theorem setLock_withPool : (s.withPool p).setLock i l = (s.setLock i l).withPool p := rfl

@[simp] theorem anchors_withPool : (s.withPool p).anchors = s.anchors := rfl

@[simp] theorem anchors_addCount : (s.addCount n).anchors = s.anchors := rfl

@[simp] theorem pool_withPool : (s.withPool p).pool = p := rfl

@[simp] theorem setAnchor_withPool :
    (s.withPool p).setAnchor i a = (s.setAnchor i a).withPool p := rfl

@[simp] theorem setAnchor_addCount :
    (s.addCount n).setAnchor i a = (s.setAnchor i a).addCount n := rfl

@[simp] theorem setLock_addCount : (s.addCount n).setLock i l = (s.setLock i l).addCount n := rfl

@[simp] theorem addCount_withPool : (s.withPool p).addCount n = (s.addCount n).withPool p := rfl

@[simp] theorem withPool_withPool : (s.withPool p).withPool p' = s.withPool p' := rfl

@[simp] theorem addCount_addCount : (s.addCount n).addCount n' = s.addCount (n + n') := by
  unfold addCount
  rw [Int.add_assoc]

@[simp] theorem addCount_zero : s.addCount 0 = s := by
  unfold addCount
  rw [Int.add_zero]

@[simp] theorem wlp_loadAnchor {f : StoreMapAnchor → β} {Q : β → StoreMap κ → Prop} :
    (loadAnchor i f).wlp True Q s ↔ Q (f (s.anchors i)) s := Iff.rfl

@[simp] theorem wlp_storeAnchor {f : StoreMapAnchor → StoreMapAnchor}
    {Q : Unit → StoreMap κ → Prop} :
    (storeAnchor i f).wlp True Q s ↔ Q () (s.setAnchor i (f (s.anchors i))) := Iff.rfl

@[simp] theorem wlp_lockOf {x : Prog ReadWriteLock β} {Q : β → StoreMap κ → Prop} :
    (lockOf i x).wlp True Q s ↔ x.wlp True (fun r l => Q r (s.setLock i l)) (s.anchors i).lock := by
  refine wlp_zoom (fun l s => ?_) (fun l l' s => ?_) (fun s => ?_) x s
  · rw [setLock_self, lock_withLock]
  · exact setLock_setLock
  · exact setLock_eq_self

@[simp] theorem wlp_onPool {x : Prog (SlicePool κ) β} {Q : β → StoreMap κ → Prop} :
    (onPool x).wlp True Q s ↔ x.wlp True (fun r p => Q r (s.withPool p)) s.pool := by
  refine wlp_zoom ?_ ?_ ?_ x s
  · exact fun _ _ => rfl
  · exact fun _ _ _ => rfl
  · exact fun _ => rfl

/-! ## Anchors -/

variable {Q : Unit → StoreMap κ → Prop}

theorem wlp_rewind : (rewind i).wlp True Q s ↔
    ((s.anchors i).lock.writing = true → Q () (s.setAnchor i (s.anchors i).rewound)) := by
  unfold rewind
  simp only [wlp_bind, wlp_loadAnchor, wlp_assert, wlp_storeAnchor, setAnchor_self,
    setAnchor_setAnchor]
  exact Iff.rfl

theorem wlp_setKey (hQ : ∀ marked, Q () (s.setAnchor i
      { s.anchors i with key := key, waitingToBeFreed := marked })) :
    (setKey i key).wlp True Q s := by
  unfold setKey
  simp only [wlp_bind, wlp_storeAnchor, wlp_pick, wlp_ret, setAnchor_self, setAnchor_setAnchor]
  exact fun n => hQ _

theorem wlp_set (hQ : ∀ marked, Q () (s.setAnchor i
      { s.anchors i with key := entry.key, waitingToBeFreed := marked, basics := entry.basics })) :
    (set i entry).wlp True Q s := by
  unfold set
  simp only [wlp_bind, wlp_loadAnchor, wlp_assert]
  refine fun _ => wlp_setKey fun marked => ?_
  rw [wlp_storeAnchor, setAnchor_self, setAnchor_setAnchor]
  exact hQ marked

/-! ## Freeing -/

variable {e : Env κ} {R : SlicePool κ → Prop}

theorem wlp_anchorAt (hi : i < e.entryLimit) : (anchorAt e i).wlp True Q s ↔ Q () s :=
  (wlp_assert _).trans (forall_prop_of_true hi)

/-- **Freeing the slices of an anchor ends with `R`.** -/
def Frees (e : Env κ) (A : Prop) (a : StoreMapAnchor) (R : SlicePool κ → Prop) (p : SlicePool κ) :
    Prop :=
  if a.empty then R p else (freeChainAt e a.start a.splicingPoint).wlp A (fun _ => R) p

theorem Frees.mono {R' : SlicePool κ → Prop} (h : Frees e True a R p) (hR : ∀ p, R p → R' p) :
    Frees e True a R' p := by
  unfold Frees at h ⊢
  by_cases he : a.empty = true
  · rw [if_pos he] at h ⊢
    exact hR p h
  · rw [if_neg he] at h ⊢
    exact wlp_mono h fun _ => hR

@[simp] theorem frees_withLock : Frees e True (a.withLock l) R p ↔ Frees e True a R p := Iff.rfl

/-- Freeing slices ends with what always holds. -/
theorem frees_of_forall (hR : ∀ p, R p) : Frees e True a R p := by
  unfold Frees
  split
  · exact hR p
  · exact wlp_of_forall _ trivial fun _ => hR

/-- After an entry was freed, with the slices that are left. -/
def freed (i : ℕ) (p : SlicePool κ) (s : StoreMap κ) : StoreMap κ :=
  ((s.setAnchor i (s.anchors i).rewound).addCount (-1)).withPool p

/-- After an entry was marked. -/
def marked (i : ℕ) (s : StoreMap κ) : StoreMap κ :=
  s.setAnchor i { s.anchors i with waitingToBeFreed := true }

/-- **What `freeChain` does**, with the lock it leaves. -/
theorem wlp_freeChain {keep : Bool} (hq : (s.anchors i).lock.Quiet)
    (hw : (s.anchors i).lock.writing = true) : (freeChain e i keep).wlp True Q s ↔
      Frees e True (s.anchors i) (fun p => Q () ((s.setLock i (if keep then (s.anchors i).lock
        else (s.anchors i).lock.released)).freed i p)) s.pool := by
  -- what is left to do once the slices are free
  have hrest : ∀ p, (do
      rewind i
      if keep = false then lockOf i unlockExclusive
      store (addCount (-1)) : Prog (StoreMap κ) Unit).wlp True Q (s.withPool p) ↔
      Q () ((s.setLock i (if keep then (s.anchors i).lock
        else (s.anchors i).lock.released)).freed i p) := by
    intro p
    unfold freed
    rw [setLock_self, setAnchor_setLock, wlp_bind, wlp_rewind]
    refine (forall_prop_of_true hw).trans ?_
    cases keep with
    | true => exact Iff.rfl
    | false =>
      simp only [if_pos, wlp_bind, wlp_lockOf, setAnchor_withPool, anchors_withPool, setAnchor_self]
      refine (wlp_unlockExclusive hq.writeLevel_eq).trans ((forall_prop_of_true hw).trans ?_)
      rw [wlp_store, setLock_withPool, setLock_setAnchor]
      exact Iff.rfl
  unfold freeChain Frees
  rw [wlp_bind, wlp_loadAnchor]
  cases hempty : (s.anchors i).empty with
  | true => exact hrest s.pool
  | false =>
    simp only [if_pos, wlp_bind, wlp_loadAnchor, wlp_onPool] at hrest ⊢
    simp only [hrest, Bool.false_eq_true, if_false]

/-- Freeing an entry that was locked for that, and unlocking it. -/
theorem wlp_freeChain_grabbed (hq : (s.anchors i).lock.Quiet) (hf : (s.anchors i).lock.Free) :
    (freeChain e i false).wlp True Q (s.setLock i (s.anchors i).lock.grabbed) ↔
      Frees e True (s.anchors i) (fun p => Q () (s.freed i p)) s.pool := by
  rw [wlp_freeChain (by rw [setLock_self]; exact hq.grabbed hf) (by rw [setLock_self]; rfl)]
  simp only [setLock_self, setLock_setLock, Bool.false_eq_true, if_false,
    lock_withLock, released_grabbed hq hf, setLock_eq_self, frees_withLock, pool_setLock]

/-- A lock that was taken is given back. -/
theorem wlp_unlock_grabbed (hq : (s.anchors i).lock.Quiet) (hf : (s.anchors i).lock.Free)
    (hQ : Q () s) :
    (lockOf i unlockExclusive).wlp True Q (s.setLock i (s.anchors i).lock.grabbed) := by
  rw [wlp_lockOf, setLock_self]
  refine (wlp_unlockExclusive fun _ => rfl).mpr fun _ => ?_
  rw [lock_withLock, released_grabbed hq hf, setLock_setLock, setLock_eq_self]
  exact hQ

/-- **What `freeEntry` does.** -/
theorem wlp_freeEntry {Q : Bool → StoreMap κ → Prop} (hi : i < e.entryLimit)
    (hq : (s.anchors i).lock.Quiet) : (freeEntry e i).wlp True Q s ↔
      ((s.anchors i).lock.Free → Frees e True (s.anchors i) (fun p =>
        Q (!(s.anchors i).waitingToBeFreed && !(s.anchors i).empty) (s.freed i p)) s.pool) ∧
      (¬ (s.anchors i).lock.Free → Q (!(s.anchors i).waitingToBeFreed) (s.marked i)) := by
  unfold freeEntry
  rw [wlp_bind, wlp_anchorAt hi, wlp_bind, wlp_lockOf, wlp_lockExclusive hq]
  refine and_congr (forall_congr' fun hf => ?_) (forall_congr' fun hf => ?_)
  · rw [if_pos rfl, wlp_bind, wlp_loadAnchor, setLock_self, waitingToBeFreed_withLock]
    cases (s.anchors i).waitingToBeFreed with
    | true =>
      exact (wlp_bind (freeChain e i false) (fun _ => pure false) Q _).trans
        (wlp_freeChain_grabbed hq hf)
    | false =>
      rw [if_neg (by decide), wlp_bind, wlp_loadAnchor, setLock_self, wlp_bind]
      exact wlp_freeChain_grabbed hq hf
  · rw [setLock_eq_self]
    exact Iff.rfl

/-- **What `freeEntryByKey` does.** -/
theorem wlp_freeEntryByKey (hidx : s.lookup (nameByKey e key) = i) (hi : i < e.entryLimit)
    (hq : (s.anchors i).lock.Quiet) (hother : (s.anchors i).sameKey key = false → Q () s)
    (hfree : (s.anchors i).lock.Free → (s.anchors i).sameKey key = true →
      Frees e True (s.anchors i) (fun p => Q () (s.freed i p)) s.pool)
    (hmark : ¬ (s.anchors i).lock.Free → (s.anchors i).sameKey key = true → Q () (s.marked i)) :
    (freeEntryByKey e key).wlp True Q s := by
  unfold freeEntryByKey
  rw [wlp_bind, fileNoByKey, fileNoByName, wlp_load, hidx, wlp_bind, wlp_anchorAt hi,
    wlp_bind, wlp_lockOf]
  refine (wlp_lockExclusive hq).mpr ⟨fun hf => ?_, fun hf => ?_⟩
  · -- nobody uses the entry
    rw [if_pos rfl, wlp_bind, wlp_loadAnchor, setLock_self, sameKey_withLock]
    cases hkey : (s.anchors i).sameKey key with
    | true =>
      rw [if_pos rfl, wlp_bind]
      rw [wlp_freeChain (by rw [setLock_self]; exact hq.grabbed hf) (by rw [setLock_self]; rfl),
        setLock_self, frees_withLock]
      refine (hfree hf hkey).mono fun p hp => ?_
      rw [wlp_lockOf]
      unfold freed at hp ⊢
      simp only [anchors_withPool, anchors_addCount, setAnchor_self, setLock_setLock, if_true,
        setLock_self, lock_withLock]
      refine (wlp_unlockExclusive fun _ => rfl).mpr fun _ => ?_
      simp only [setAnchor_setLock, setLock_withPool, setLock_addCount, setLock_setAnchor,
        lock_withLock, rewound_withLock, withLock_withLock, released_grabbed hq hf]
      exact hp
    | false => exact wlp_unlock_grabbed hq hf (hother hkey)
  · -- somebody does, so the entry can only be marked
    rw [setLock_eq_self, if_neg (by decide), wlp_bind, wlp_lockOf]
    refine wlp_lockShared hq (fun _ => ?_) fun _ _ => ?_
    · have hrest : ∀ s' : StoreMap κ, (s'.anchors i).lock = (s.anchors i).lock.joined →
          Q () (s'.setLock i (s.anchors i).lock) →
          (lockOf i unlockShared).wlp True Q s' := by
        intro s' hlock hQ
        rw [wlp_lockOf, hlock]
        refine wlp_unlockShared fun _ => ?_
        rw [left_joined]
        exact hQ
      rw [if_pos rfl, wlp_bind, wlp_loadAnchor, setLock_self, sameKey_withLock]
      cases hkey : (s.anchors i).sameKey key with
      | true =>
        rw [if_pos rfl, wlp_bind, wlp_storeAnchor, setLock_self, setAnchor_setLock]
        refine hrest _ (by rw [setAnchor_self]; rfl) ?_
        rw [setLock_setAnchor]
        exact hmark hf hkey
      | false =>
        refine hrest _ (by rw [setLock_self]; rfl) ?_
        rw [setLock_setLock, setLock_eq_self]
        exact hother hkey
    · rw [setLock_eq_self, if_neg (by decide), wlp_bind, wlp_loadAnchor]
      cases hkey : (s.anchors i).sameKey key with
      | true => exact hmark hf hkey
      | false => exact hother hkey

/-! ## Writing -/

/-- After an anchor was emptied and locked for writing. -/
def opened (i : ℕ) (p : SlicePool κ) (s : StoreMap κ) : StoreMap κ :=
  (s.setAnchor i ((s.anchors i).rewound.withLock (s.anchors i).lock.grabbed).unstarted).withPool p

/-- After an empty anchor was locked for writing. -/
def claimed (i : ℕ) (s : StoreMap κ) : StoreMap κ :=
  (s.setAnchor i ((s.anchors i).withLock (s.anchors i).lock.grabbed).unstarted).addCount 1

/-- **Opening a free anchor for writing ends with `R`**, whether it was in use or not. -/
structure Opens (e : Env κ) (i : ℕ) (R : StoreMap κ → Prop) (s : StoreMap κ) : Prop where
  opened : (s.anchors i).waitingToBeFreed = true ∨ (s.anchors i).empty = false →
    Frees e True (s.anchors i) (fun p => R (s.opened i p)) s.pool
  claimed : (s.anchors i).waitingToBeFreed = false → (s.anchors i).empty = true → R (s.claimed i)

/-- The anchor is locked then, and the others are as they were. -/
theorem Opens.mono {R R' : StoreMap κ → Prop} (h : Opens e i R s)
    (hR : ∀ s', (s'.anchors i).lock = (s.anchors i).lock.grabbed →
      (∀ j, j ≠ i → s'.anchors j = s.anchors j) → R s' → R' s') : Opens e i R' s := by
  refine ⟨fun hused => (h.opened hused).mono fun p => hR _ ?_ ?_,
    fun hwt hempty => hR _ ?_ ?_ (h.claimed hwt hempty)⟩
  · exact congrArg StoreMapAnchor.lock setAnchor_self
  · exact fun _ => setAnchor_of_ne
  · exact congrArg StoreMapAnchor.lock setAnchor_self
  · exact fun _ => setAnchor_of_ne

section

variable (hi : i < e.entryLimit) (hq : (s.anchors i).lock.Quiet)
include hi hq

/-- **What `openForWritingAt` does.** -/
theorem wlp_openForWritingAt {Q : Bool → StoreMap κ → Prop} {overwrite : Bool}
    (hfail : ¬ (s.anchors i).lock.Free ∨ overwrite = false → Q false s)
    (hopen : (s.anchors i).lock.Free → Opens e i (Q true) s) :
    (openForWritingAt e i overwrite).wlp True Q s := by
  unfold openForWritingAt
  rw [wlp_bind, wlp_anchorAt hi, wlp_bind, wlp_lockOf]
  refine (wlp_lockExclusive hq).mpr ⟨fun hf => ?_, fun hf => ?_⟩
  · simp only [if_pos, wlp_bind, wlp_loadAnchor, setLock_self, wlp_assert,
      empty_withLock, waitingToBeFreed_withLock]
    intro _
    by_cases hkeep : (s.anchors i).waitingToBeFreed = false ∧ (s.anchors i).empty = false
        ∧ overwrite = false
    · rw [if_pos hkeep, wlp_bind]
      exact wlp_unlock_grabbed hq hf (hfail (.inr hkeep.2.2))
    · rw [if_neg hkeep]
      simp only [wlp_bind, wlp_loadAnchor, setLock_self, empty_withLock, waitingToBeFreed_withLock]
      by_cases hused : (s.anchors i).waitingToBeFreed = true ∨ (s.anchors i).empty = false
      · rw [if_pos hused, wlp_bind]
        rw [wlp_freeChain (by rw [setLock_self]; exact hq.grabbed hf) (by rw [setLock_self]; rfl),
          setLock_self, frees_withLock]
        refine ((hopen hf).opened hused).mono fun p hp => ?_
        simp only [freed, wlp_bind, wlp_loadAnchor, setAnchor_self, setAnchor_setAnchor,
          wlp_assert, wlp_storeAnchor, wlp_store, if_true, rewound_withLock,
          setAnchor_withPool, setAnchor_addCount, anchors_withPool, anchors_addCount,
          setLock_self, setAnchor_setLock, addCount_withPool, addCount_addCount,
          neg_add_cancel, addCount_zero]
        exact fun _ => hp
      · rw [if_neg hused]
        have hempty : (s.anchors i).empty = true := by
          by_contra h
          exact hused (.inr (Bool.eq_false_of_not_eq_true h))
        have hwt : (s.anchors i).waitingToBeFreed = false :=
          Bool.eq_false_of_not_eq_true fun h => hused (.inl h)
        simp only [wlp_bind, wlp_loadAnchor, setAnchor_self, setAnchor_setAnchor,
          setLock_self, setAnchor_setLock, wlp_assert, wlp_storeAnchor, wlp_store,
          empty_withLock]
        exact fun _ => (hopen hf).claimed hwt hempty
  · rw [setLock_eq_self]
    exact hfail (.inl hf)

theorem wlp_closeForWriting
    (hQ : (s.anchors i).lock.writing = true → Q () (s.setLock i (s.anchors i).lock.released)) :
    (closeForWriting e i).wlp True Q s := by
  unfold closeForWriting
  rw [wlp_bind, wlp_anchorAt hi, wlp_bind, wlp_loadAnchor, wlp_bind, wlp_assert]
  intro hw
  rw [wlp_lockOf]
  exact (wlp_unlockExclusive hq.writeLevel_eq).mpr hQ

/-- After a writer that cannot free its entry has left it. -/
def halted (i : ℕ) (s : StoreMap κ) : StoreMap κ :=
  s.setAnchor i { s.anchors i with
    lock := (s.anchors i).lock.released, waitingToBeFreed := true, writerHalted := true }

/-- **What `abortWriting` does.** -/
theorem wlp_abortWriting
    (hfree : (s.anchors i).lock.writing = true → (s.anchors i).lock.readers = 0 →
      Frees e True (s.anchors i)
        (fun p => Q () ((s.setLock i (s.anchors i).lock.released).freed i p)) s.pool)
    (hhalt : (s.anchors i).lock.writing = true → (s.anchors i).lock.readers ≠ 0 →
      Q () (s.halted i)) : (abortWriting e i).wlp True Q s := by
  unfold abortWriting
  rw [wlp_bind, wlp_anchorAt hi, wlp_bind, wlp_loadAnchor, wlp_bind, wlp_assert]
  intro hw
  rw [wlp_bind, wlp_loadAnchor]
  cases happ : (s.anchors i).lock.appending with
  | false =>
    exact (wlp_freeChain hq hw).mpr (hfree hw (hq.readers_eq_zero hw happ))
  | true =>
    rw [if_neg (by decide), wlp_bind, wlp_lockOf]
    refine wlp_stopAppendingAndRestoreExclusive hq happ ?_
    by_cases hr : (s.anchors i).lock.readers = 0
    · rw [decide_eq_true hr]
      refine (wlp_freeChain ?_ ?_).mpr ?_
      · rw [setLock_self]
        exact hq.stopped hr
      · rw [setLock_self]
        exact hw
      · rw [setLock_self, setLock_setLock, frees_withLock]
        exact hfree hw hr
    · rw [decide_eq_false hr]
      simp only [Bool.false_eq_true, if_false, wlp_bind, wlp_storeAnchor, setAnchor_self,
        setAnchor_setAnchor, setLock_self, setAnchor_setLock, wlp_lockOf]
      refine (wlp_unlockExclusive ?_).mpr fun _ => ?_
      · exact hq.writeLevel_eq
      · rw [setLock_setAnchor]
        exact hhalt hw hr

theorem wlp_forgetWritingEntry (hQ : (s.anchors i).lock.writing = true →
      Q () ((s.setLock i (s.anchors i).lock.released).freed i s.pool)) :
    (forgetWritingEntry e i).wlp True Q s := by
  unfold forgetWritingEntry
  rw [wlp_bind, wlp_anchorAt hi, wlp_bind, wlp_loadAnchor, wlp_bind, wlp_assert]
  intro hw
  rw [wlp_bind]
  refine wlp_rewind.mpr fun _ => ?_
  rw [wlp_bind, wlp_lockOf, setAnchor_self]
  refine (wlp_unlockExclusive hq.writeLevel_eq).mpr fun _ => ?_
  have := hQ hw
  unfold freed at this
  rw [setLock_self, setAnchor_setLock] at this
  rw [wlp_store, setLock_setAnchor]
  exact this

/-! ## Reading -/

/-- **What `openForReadingAt` does.** -/
theorem wlp_openForReadingAt {Q : Bool → StoreMap κ → Prop}
    (hok : (s.anchors i).lock.writing = false ∨ (s.anchors i).lock.appending = true →
      (s.anchors i).empty = false → (s.anchors i).waitingToBeFreed = false →
      (s.anchors i).sameKey key = true → Q true (s.setLock i (s.anchors i).lock.joined))
    (hfail : Q false s) : (openForReadingAt e i key).wlp True Q s := by
  -- giving up
  have hleave : (do lockOf i unlockShared; pure false : Prog (StoreMap κ) Bool).wlp True Q
      (s.setLock i (s.anchors i).lock.joined) := by
    rw [wlp_bind, wlp_lockOf, setLock_self]
    refine wlp_unlockShared fun _ => ?_
    rw [lock_withLock, left_joined, setLock_setLock, setLock_eq_self]
    exact hfail
  unfold openForReadingAt
  rw [wlp_bind, wlp_anchorAt hi, wlp_bind, wlp_lockOf]
  refine wlp_lockShared hq (fun hl => ?_) fun _ _ => ?_
  · rw [if_neg (by decide), wlp_bind, wlp_loadAnchor, setLock_self, empty_withLock]
    cases hempty : (s.anchors i).empty with
    | true => exact hleave
    | false =>
      rw [if_neg (by decide), wlp_bind, wlp_loadAnchor, setLock_self, waitingToBeFreed_withLock]
      cases hwt : (s.anchors i).waitingToBeFreed with
      | true => exact hleave
      | false =>
        rw [if_neg (by decide), wlp_bind, wlp_loadAnchor, setLock_self, sameKey_withLock]
        cases hkey : (s.anchors i).sameKey key with
        | true => exact hok hl hempty hwt hkey
        | false => exact hleave
  · rw [setLock_eq_self]
    exact hfail

omit hq in
theorem wlp_closeForReading
    (hQ : (s.anchors i).lock.readers ≠ 0 → Q () (s.setLock i (s.anchors i).lock.left)) :
    (closeForReading e i).wlp True Q s := by
  unfold closeForReading
  rw [wlp_bind, wlp_anchorAt hi, wlp_bind, wlp_loadAnchor, wlp_bind, wlp_assert]
  intro hr
  rw [wlp_lockOf]
  exact wlp_unlockShared hQ

/-- **What `closeForReadingAndFreeIdle` does.** -/
theorem wlp_closeForReadingAndFreeIdle
    (hfree : (s.anchors i).lock.readers ≠ 0 → (s.anchors i).lock.left.Free →
      Frees e True (s.anchors i)
        (fun p => Q () ((s.setLock i (s.anchors i).lock.left).freed i p)) s.pool)
    (hkeep : (s.anchors i).lock.readers ≠ 0 → ¬ (s.anchors i).lock.left.Free →
      Q () (s.setLock i (s.anchors i).lock.left)) :
    (closeForReadingAndFreeIdle e i).wlp True Q s := by
  unfold closeForReadingAndFreeIdle
  rw [wlp_bind, wlp_anchorAt hi, wlp_bind, wlp_loadAnchor, wlp_bind, wlp_assert]
  intro hr
  rw [wlp_bind, wlp_lockOf]
  refine wlp_unlockSharedAndSwitchToExclusive hq hr (fun hf => ?_) fun hf => ?_
  · simp only [if_pos, wlp_bind, wlp_loadAnchor, wlp_assert, setLock_self]
    intro _ _
    have := (wlp_freeChain_grabbed (s := s.setLock i (s.anchors i).lock.left) (Q := Q) (e := e)
      (i := i) (by rw [setLock_self]; exact hq.left hr) (by rw [setLock_self]; exact hf)).mpr
      (by rw [setLock_self, frees_withLock]; exact hfree hr hf)
    rwa [setLock_self, setLock_setLock] at this
  · exact hkeep hr hf

end

/-- After an entry without content was created for its reader. -/
def created (i : ℕ) (key : CacheKey) (marked : Bool) (s : StoreMap κ) : StoreMap κ :=
  s.setAnchor i { s.anchors i with
    lock := (s.anchors i).lock.released.joined, key := key, waitingToBeFreed := marked }

/-- **What `openOrCreateForReading` does.** -/
theorem wlp_openOrCreateForReading {Q : Option ℕ → StoreMap κ → Prop}
    (hidx : s.lookup (nameByKey e key) = i) (hi : i < e.entryLimit) (hq : (s.anchors i).lock.Quiet)
    (hread : (s.anchors i).lock.writing = false ∨ (s.anchors i).lock.appending = true →
      (s.anchors i).empty = false → (s.anchors i).waitingToBeFreed = false →
      (s.anchors i).sameKey key = true → Q (some i) (s.setLock i (s.anchors i).lock.joined))
    (hopen : (s.anchors i).lock.Free → Opens e i (fun s' => ∀ m, Q (some i) (s'.created i key m)) s)
    (hfail : Q none s) : (openOrCreateForReading e key).wlp True Q s := by
  -- the end of the creation of an entry
  have hcreate : ∀ s' : StoreMap κ, (s'.anchors i).lock.Quiet → (s'.anchors i).lock.writing = true →
      (∀ m, Q (some i) (s'.created i key m)) → (do
        setKey i key
        lockOf i switchExclusiveToShared
        let empty ← loadAnchor i (·.empty)
        let writing ← loadAnchor i (·.lock.writing)
        assert (empty = false ∧ writing = false)
        pure (some i) : Prog (StoreMap κ) (Option ℕ)).wlp True Q s' := by
    intro s' hq' hw hQ
    rw [wlp_bind]
    refine wlp_setKey fun m => ?_
    rw [wlp_bind, wlp_lockOf, setAnchor_self]
    refine wlp_switchExclusiveToShared hq' hw ?_
    simp only [wlp_bind, wlp_loadAnchor, wlp_assert, setLock_setAnchor, setAnchor_self]
    exact fun _ => hQ m
  unfold openOrCreateForReading
  rw [wlp_bind, fileNoByKey, fileNoByName, wlp_load, hidx, wlp_bind]
  refine wlp_openForReadingAt hi hq hread ?_
  rw [if_neg (by decide), wlp_bind, wlp_load, hidx, wlp_bind]
  refine wlp_openForWritingAt hi hq (fun _ => ?_) fun hf =>
    (hopen hf).mono fun s' hlock _ => hcreate s' ?_ ?_
  · rw [if_neg (by decide), wlp_bind, wlp_load, hidx, wlp_bind]
    exact wlp_openForReadingAt hi hq hread hfail
  · rw [hlock]
    exact hq.grabbed hf
  · rw [hlock]
    rfl

/-! ## Victims -/

@[simp] theorem anchors_withVictim : (s.withVictim v).anchors = s.anchors := rfl

variable {n : ℕ}

@[simp] theorem lookup_withVictim : (s.withVictim v).lookup n = s.lookup n := rfl

/-- **What a search for a victim does**: every visit either ends it or leaves the map. -/
theorem wlp_visitVictims {visitor : ℕ → Prog (StoreMap κ) (Option β)}
    {Q : Option β → StoreMap κ → Prop} (hnone : ∀ v, Q none (s.withVictim v))
    (hvisit : ∀ v name, name < e.entryLimit → (visitor name).wlp True
      (fun r s' => r.elim (∃ v, s' = s.withVictim v) fun b => Q (some b) s') (s.withVictim v)) :
    (visitVictims e visitor).wlp True Q s := by
  have hloop : ∀ tries v, (tries = 0 ∨ 0 < e.entryLimit) →
      (visitLoop e visitor tries).wlp True Q (s.withVictim v) := by
    intro tries
    induction tries with
    | zero => exact fun v _ => hnone v
    | succ tries ih =>
      intro v hlim
      have hpos : 0 < e.entryLimit := hlim.resolve_left (Nat.succ_ne_zero tries)
      unfold visitLoop
      rw [wlp_bind, wlp_rmw, wlp_bind]
      refine wlp_mono (hvisit _ _ (Nat.mod_lt _ hpos)) fun r s' hr => ?_
      cases r with
      | some b => exact hr
      | none =>
        obtain ⟨v', rfl⟩ := hr
        exact ih v' (.inr hpos)
  refine hloop _ s.victim ?_
  by_cases h : 0 < e.entryLimit
  · exact .inr h
  · left
    omega

/-- What `purgeOne` does with a name. -/
theorem wlp_purgeVisitor {Q : Option Unit → StoreMap κ → Prop} (hidx : s.lookup name = i)
    (hi : i < e.entryLimit) (hq : (s.anchors i).lock.Quiet) (hleave : Q none s)
    (hfree : (s.anchors i).lock.Free → (s.anchors i).empty = false → (s.anchors i).start.isSome →
      Frees e True (s.anchors i) (fun p => Q (some ()) (s.freed i p)) s.pool) :
    (purgeVisitor e name).wlp True Q s := by
  unfold purgeVisitor
  rw [wlp_bind, fileNoByName, wlp_load, hidx, wlp_bind, wlp_anchorAt hi, wlp_bind, wlp_lockOf]
  refine (wlp_lockExclusive hq).mpr ⟨fun hf => ?_, fun hf => ?_⟩
  · -- the visitor is not satisfied and unlocks the anchor
    have hunlock : (do
        lockOf i unlockExclusive
        pure none : Prog (StoreMap κ) (Option Unit)).wlp True Q
          (s.setLock i (s.anchors i).lock.grabbed) := by
      rw [wlp_bind]
      exact wlp_unlock_grabbed hq hf hleave
    rw [if_pos rfl, wlp_bind, wlp_loadAnchor, setLock_self, empty_withLock]
    cases hempty : (s.anchors i).empty with
    | true => exact hunlock
    | false =>
      rw [if_neg (by decide), wlp_bind, wlp_loadAnchor, setLock_self, start_withLock]
      cases hstart : (s.anchors i).start with
      | none => exact hunlock
      | some x =>
        simp only [Option.isSome_some, if_true]
        rw [wlp_bind]
        exact (wlp_freeChain_grabbed hq hf).mpr (hfree hf hempty (by rw [hstart]; rfl))
  · rw [setLock_eq_self]
    exact hleave

/-- **What `purgeOne` does.** -/
theorem wlp_purgeOne {Q : Bool → StoreMap κ → Prop}
    (hq : ∀ i < e.entryLimit, (s.anchors i).lock.Quiet)
    (hn : ∀ n < e.entryLimit, s.lookup n < e.entryLimit) (hfail : ∀ v, Q false (s.withVictim v))
    (hfree : ∀ v i, i < e.entryLimit → (s.anchors i).lock.Free → (s.anchors i).empty = false →
      (s.anchors i).start.isSome →
      Frees e True (s.anchors i) (fun p => Q true ((s.withVictim v).freed i p)) s.pool) :
    (purgeOne e).wlp True Q s := by
  unfold purgeOne
  rw [wlp_bind]
  refine wlp_visitVictims hfail fun v name hname => ?_
  have hi := hn name hname
  exact wlp_purgeVisitor rfl hi (hq _ hi) ⟨v, rfl⟩ fun hf => hfree v _ hi hf

/-! ## Updating -/

/-- A map with so many slices and the given cleaner. -/
def Env.plain (sliceLimit : ℕ) (noteFreeMapSlice : ℕ → Prog κ Unit) : Env κ :=
  { sliceLimit := sliceLimit, noteFreeMapSlice := noteFreeMapSlice }

theorem Env.entryLimit_pos {c : ℕ → Prog κ Unit} (hn : 0 < n) :
    0 < (Env.plain n c).entryLimit := lt_min hn (by decide)

/-- **What `openKeyless` does.** -/
theorem wlp_openKeyless {Q : Option Edition → StoreMap κ → Prop}
    (hq : ∀ i < e.entryLimit, (s.anchors i).lock.Quiet)
    (hn : ∀ n < e.entryLimit, s.lookup n < e.entryLimit) (hfail : ∀ v, Q none (s.withVictim v))
    (hopen : ∀ v n, n < e.entryLimit → (s.anchors (s.lookup n)).lock.Free →
      Opens e (s.lookup n) (Q (some ⟨s.lookup n, n, none⟩)) (s.withVictim v)) :
    (openKeyless e).wlp True Q s := by
  refine wlp_visitVictims hfail fun v n hname => ?_
  unfold keylessVisitor
  rw [wlp_bind, fileNoByName, wlp_load, lookup_withVictim, wlp_bind]
  refine wlp_openForWritingAt (s := s.withVictim v) (hn n hname) (hq _ (hn n hname))
    (fun _ => ⟨v, rfl⟩) fun hf => (hopen v n hname hf).mono fun s' _ _ hs' => ?_
  rw [if_pos rfl]
  exact hs'

/-- The end of an update that gives up its stale anchor. -/
theorem wlp_leaveStale {x : Prog (StoreMap κ) β} {Q : β → StoreMap κ → Prop}
    (hi : i < e.entryLimit) (hQ : 2 ≤ (s.anchors i).lock.readers.toNat →
      x.wlp True Q (s.setLock i (s.anchors i).lock.outdated)) : (do
      lockOf i unlockHeaders
      closeForReading e i
      x).wlp True Q s := by
  rw [wlp_bind, wlp_lockOf]
  refine wlp_unlockHeaders fun h1 => ?_
  rw [wlp_bind]
  refine wlp_closeForReading hi fun h2 => ?_
  rw [setLock_self, setLock_setLock]
  refine hQ ?_
  rw [setLock_self] at h2
  have h3 : (s.anchors i).lock.readers - 1 ≠ 0 := h2
  by_contra hlt
  have hone : (s.anchors i).lock.readers.toNat = 1 := by
    have : (s.anchors i).lock.readers.toNat ≠ 0 := fun h0 => h1 (UInt32.toNat_inj.mp h0)
    omega
  exact h3 (by rw [UInt32.toNat_inj.mp (show _ = (1 : UInt32).toNat from hone)]; rfl)

theorem wlp_AssertFlagIsSet {R : Unit → ReadWriteLock → Prop} (hR : l.updating = true → R () l) :
    AssertFlagIsSet.wlp True R l := by
  unfold AssertFlagIsSet
  rw [wlp_bind, wlp_rmw, wlp_assert]
  intro hu
  have hl : { l with updating := true } = l := by rw [← hu]
  rw [hl]
  exact hR hu

/-- After `set`, for a key that others have marked or not. -/
def keyed (i : ℕ) (entry : StoreEntry) (marked : Bool) (s : StoreMap κ) : StoreMap κ :=
  s.setAnchor i
    { s.anchors i with key := entry.key, waitingToBeFreed := marked, basics := entry.basics }

/-- After an entry was locked for an update. -/
def headersLocked (i : ℕ) (s : StoreMap κ) : StoreMap κ := s.setLock i (s.anchors i).lock.updated

/-- What `openFresh` does, after the stale anchor was locked. -/
theorem wlp_openFresh {Q : Option StoreMapUpdate → StoreMap κ → Prop}
    (hi : i < e.entryLimit) (hq : ∀ i < e.entryLimit, (s.anchors i).lock.Quiet)
    (hn : ∀ n < e.entryLimit, s.lookup n < e.entryLimit)
    (hfail : ∀ v, Q none ((s.setLock i (s.anchors i).lock.outdated).withVictim v))
    (hopen : ∀ v n, n < e.entryLimit → (s.anchors (s.lookup n)).lock.Free →
      Opens e (s.lookup n) (fun s' => ∀ m, Q (some ⟨⟨i, name, none⟩, ⟨s.lookup n, n, none⟩⟩)
        (s'.keyed (s.lookup n) entry m)) (s.withVictim v)) :
    (openFresh e ⟨i, name, none⟩ entry).wlp True Q s := by
  unfold openFresh
  rw [wlp_bind]
  refine wlp_openKeyless hq hn (fun v => ?_) fun v n hlt hf =>
    (hopen v n hlt hf).mono fun s' _ _ hs' => ?_
  · rw [wlp_bind, abortEditions, wlp_bind, wlp_lockOf]
    refine wlp_AssertFlagIsSet fun _ => ?_
    rw [setLock_eq_self]
    exact wlp_leaveStale hi fun _ => hfail v
  · rw [wlp_bind]
    exact wlp_set hs'

/-- **What `openStale` does.** -/
theorem wlp_openStale {Q : Option StoreMapUpdate → StoreMap κ → Prop}
    (hi : i < e.entryLimit) (hq : (s.anchors i).lock.Quiet) (hfail : Q none s)
    (hok : (s.anchors i).lock.writing = false → (s.anchors i).lock.updating = false →
      (s.anchors i).empty = false → (s.anchors i).waitingToBeFreed = false →
      (s.anchors i).sameKey entry.key = true →
      (openFresh e ⟨i, name, none⟩ entry).wlp True Q (s.headersLocked i)) :
    (openStale e name i entry).wlp True Q s := by
  -- the entry turns out not to be suitable
  have hleave : (do
      closeForReading e i
      pure none : Prog (StoreMap κ) (Option StoreMapUpdate)).wlp True Q
        (s.setLock i (s.anchors i).lock.joined) := by
    rw [wlp_bind]
    refine wlp_closeForReading hi fun _ => ?_
    rw [setLock_self, lock_withLock, left_joined, setLock_setLock, setLock_eq_self]
    exact hfail
  unfold openStale
  rw [wlp_bind]
  refine wlp_openForReadingAt hi hq (fun hl hempty hwt hkey => ?_) hfail
  rw [if_neg (by decide), wlp_bind, wlp_loadAnchor, setLock_self]
  cases hw : (s.anchors i).lock.writing with
  | true =>
    rw [show ((s.anchors i).withLock (s.anchors i).lock.joined).lock.writing = true from hw,
      if_pos rfl]
    exact hleave
  | false =>
    rw [show ((s.anchors i).withLock (s.anchors i).lock.joined).lock.writing = false from hw,
      if_neg (by decide), wlp_bind, wlp_lockOf, setLock_self, lock_withLock]
    refine wlp_lockHeaders (hq.joined hl) (fun _ hu => ?_) ?_
    · rw [if_neg (by decide), setLock_setLock]
      exact hok hw hu hempty hwt hkey
    · rw [setLock_setLock]
      exact hleave

/-- An update that finds no fresh anchor leaves its stale one as it was. -/
theorem outdated_headersLocked (hu : (s.anchors i).lock.updating = false) :
    (s.headersLocked i).setLock i ((s.headersLocked i).anchors i).lock.outdated = s := by
  unfold headersLocked
  rw [setLock_setLock, setLock_self, lock_withLock, outdated_updated hu, setLock_eq_self]

theorem wlp_abortUpdating (hi : u.stale.fileNo < e.entryLimit)
    (hQ : (abortWriting e u.fresh.fileNo).wlp True Q
      (s.setLock u.stale.fileNo (s.anchors u.stale.fileNo).lock.outdated)) :
    (abortUpdating e u).wlp True Q s := by
  unfold abortUpdating abortEditions
  rw [wlp_bind, wlp_lockOf]
  refine wlp_AssertFlagIsSet fun _ => ?_
  rw [setLock_eq_self]
  exact wlp_leaveStale hi fun _ => hQ

/-- The slices after the fresh prefix was joined with the stale suffix. -/
def spliced (staleSplice freshSplice : ℕ) (p : SlicePool κ) : SlicePool κ :=
  modifySlice freshSplice ({ · with next := (p.slices staleSplice).next }) p

theorem spliced_eq_self {x y : ℕ} (h : (p.slices y).next = (p.slices x).next) :
    spliced x y p = p := by
  unfold spliced modifySlice
  rw [← h]
  exact congrArg (SlicePool.mk · p.cleaner) (update_eq_self ..)

theorem wlp_splice {x y : ℕ} {Q : Bool → SlicePool κ → Prop} (hthrow : Q false p)
    (hok : y < e.sliceLimit → x < e.sliceLimit →
      (p.slices y).next = none ∨ (p.slices y).next = (p.slices x).next → Q true (spliced x y p)) :
    (splice e x y).wlp True Q p := by
  unfold splice sliceAt
  simp only [wlp_bind, wlp_assert, wlp_load]
  intro hy hx
  cases hnext : (p.slices y).next with
  | none =>
    exact hok hy hx (.inl hnext)
  | some z =>
    by_cases h : some z = (p.slices x).next
    · rw [decide_eq_true h]
      have := hok hy hx (.inr (hnext.trans h))
      rwa [spliced_eq_self (hnext.trans h)] at this
    · rw [decide_eq_false h]
      exact hthrow

/-- Marks an anchor if another one is marked. -/
def propagated (i j : ℕ) (s : StoreMap κ) : StoreMap κ :=
  s.setAnchor j { s.anchors j with
    waitingToBeFreed := (s.anchors j).waitingToBeFreed || (s.anchors i).waitingToBeFreed }

theorem wlp_propagateDeletion (hj : u.fresh.fileNo < e.entryLimit)
    (hq : (s.anchors u.fresh.fileNo).lock.Quiet) (hnf : ¬ (s.anchors u.fresh.fileNo).lock.Free)
    (hQ : Q () (s.propagated u.stale.fileNo u.fresh.fileNo)) :
    (propagateDeletion e u).wlp True Q s := by
  unfold propagated at hQ
  unfold propagateDeletion
  rw [wlp_bind, wlp_loadAnchor]
  cases hwt : (s.anchors u.stale.fileNo).waitingToBeFreed with
  | true =>
    rw [hwt, Bool.or_true] at hQ
    rw [if_pos rfl, wlp_discard]
    exact (wlp_freeEntry hj hq).mpr ⟨fun hf => absurd hf hnf, fun _ => hQ⟩
  | false =>
    rw [hwt, Bool.or_false, setAnchor_eq_self] at hQ
    exact hQ

theorem setAnchor_comm (h : i ≠ j) :
    (s.setAnchor i a).setAnchor j b = (s.setAnchor j b).setAnchor i a := by
  unfold setAnchor
  rw [update_comm h]

@[simp] theorem anchors_setFileNo : (s.setFileNo m f).anchors = s.anchors := rfl

@[simp] theorem setAnchor_setFileNo :
    (s.setFileNo m f).setAnchor i a = (s.setAnchor i a).setFileNo m f := rfl

@[simp] theorem setLock_setFileNo :
    (s.setFileNo m f).setLock i l = (s.setLock i l).setFileNo m f := rfl

theorem lookup_setFileNo (m f n : ℕ) :
    (s.setFileNo m f).lookup n = if n = m then f else s.lookup n := by
  unfold setFileNo lookup
  by_cases h : n = m
  · simp only [h, update_self, if_true, Nat.succ_ne_zero, if_false, Nat.add_sub_cancel]
  · simp only [update_of_ne h, if_neg h]

theorem wlp_relocate : (relocate m f).wlp True Q s ↔ Q () (s.setFileNo m f) := Iff.rfl

/-- **After an update**: the stale anchor is marked, with its splicing point,
the fresh one is readable, and their names are swapped. -/
def swapped (u : StoreMapUpdate) (x : ℕ) (s : StoreMap κ) : StoreMap κ :=
  (((s.setAnchor u.fresh.fileNo { s.anchors u.fresh.fileNo with
        lock := (s.anchors u.fresh.fileNo).lock.released
        waitingToBeFreed := (s.anchors u.fresh.fileNo).waitingToBeFreed
          || (s.anchors u.stale.fileNo).waitingToBeFreed }).setAnchor
      u.stale.fileNo { s.anchors u.stale.fileNo with
        lock := (s.anchors u.stale.fileNo).lock.outdated
        waitingToBeFreed := true
        splicingPoint := some x }).setFileNo u.stale.name u.fresh.fileNo).setFileNo
    u.fresh.name u.stale.fileNo

section

variable (hi : u.stale.fileNo < e.entryLimit) (hj : u.fresh.fileNo < e.entryLimit)
  (hqi : (s.anchors u.stale.fileNo).lock.Quiet) (hqj : (s.anchors u.fresh.fileNo).lock.Quiet)
  (hr : 2 ≤ (s.anchors u.stale.fileNo).lock.readers.toNat)
  (hw : (s.anchors u.fresh.fileNo).lock.writing = true)
  (hr0 : (s.anchors u.fresh.fileNo).lock.readers = 0)
include hi hj hqi hqj hr hw hr0

theorem wlp_supersede {x : ℕ} (hQ : Q () (s.swapped u x)) : (supersede e u x).wlp True Q s := by
  have hne : u.fresh.fileNo ≠ u.stale.fileNo := by
    intro h
    rw [← h, hr0] at hr
    exact nomatch hr
  have hqj' : (s.anchors u.fresh.fileNo).lock.released.joined.Quiet :=
    hqj.released.joined (.inl rfl)
  have hnf : ¬ (s.anchors u.fresh.fileNo).lock.released.joined.Free := by
    intro hf
    have h1 : (s.anchors u.fresh.fileNo).lock.readers + 1 = 0 := hf.2
    rw [hr0] at h1
    exact nomatch h1
  -- the fresh anchor while it is still locked, and the stale one when it no longer is
  let fresh : StoreMapAnchor := { s.anchors u.fresh.fileNo with
    lock := (s.anchors u.fresh.fileNo).lock.released.joined
    waitingToBeFreed := (s.anchors u.fresh.fileNo).waitingToBeFreed
      || (s.anchors u.stale.fileNo).waitingToBeFreed }
  have hfirst : (s.setLock u.fresh.fileNo
      (s.anchors u.fresh.fileNo).lock.released.joined).propagated
      u.stale.fileNo u.fresh.fileNo = s.setAnchor u.fresh.fileNo fresh := by
    unfold propagated
    rw [setLock_self, setLock_of_ne hne.symm, setAnchor_setLock]
    rfl
  have hsecond : ∀ f : ℕ, ((s.setAnchor u.fresh.fileNo fresh).setFileNo f u.fresh.fileNo).propagated
      u.stale.fileNo u.fresh.fileNo =
        (s.setAnchor u.fresh.fileNo fresh).setFileNo f u.fresh.fileNo := by
    intro f
    unfold propagated
    rw [anchors_setFileNo, setAnchor_self, setAnchor_of_ne hne.symm, setAnchor_setFileNo,
      setAnchor_setAnchor]
    simp only [fresh, Bool.or_assoc, Bool.or_self]
  unfold supersede
  rw [wlp_bind, wlp_lockOf]
  refine wlp_switchExclusiveToShared hqj hw ?_
  rw [wlp_bind]
  refine wlp_propagateDeletion hj (by rw [setLock_self]; exact hqj')
    (by rw [setLock_self]; exact hnf) ?_
  rw [hfirst, wlp_bind, wlp_relocate, wlp_bind]
  refine wlp_propagateDeletion hj (by rw [anchors_setFileNo, setAnchor_self]; exact hqj')
    (by rw [anchors_setFileNo, setAnchor_self]; exact hnf) ?_
  rw [hsecond, wlp_bind, wlp_storeAnchor, anchors_setFileNo, setAnchor_of_ne hne.symm,
    setAnchor_setFileNo, wlp_bind, wlp_discard]
  refine (wlp_freeEntry hi (by rw [anchors_setFileNo, setAnchor_self]; exact hqi)).mpr
    ⟨fun hf => ?_, fun _ => ?_⟩
  · rw [anchors_setFileNo, setAnchor_self] at hf
    exact absurd hf.2 (readers_ne_zero hr)
  rw [marked, anchors_setFileNo, setAnchor_self, setAnchor_setFileNo, setAnchor_setAnchor]
  rw [wlp_bind, wlp_relocate]
  refine wlp_leaveStale hi fun _ => ?_
  simp only [anchors_setFileNo, setAnchor_self, setLock_setFileNo, setLock_setAnchor]
  refine wlp_closeForReading hj fun _ => ?_
  rw [anchors_setFileNo, anchors_setFileNo, setAnchor_of_ne hne, setAnchor_self,
    setAnchor_comm hne, setLock_setFileNo, setLock_setFileNo, setLock_setAnchor,
    setAnchor_comm hne.symm]
  have hlock : fresh.lock.left = (s.anchors u.fresh.fileNo).lock.released := left_joined _
  rw [hlock]
  exact hQ

/-- **What `closeForUpdating` does.** -/
theorem wlp_closeForUpdating {Q : Bool → StoreMap κ → Prop} (hthrow : Q false s)
    (hok : ∀ x y, u.stale.splicingPoint = some x → u.fresh.splicingPoint = some y →
      (s.anchors u.stale.fileNo).start ≠ (s.anchors u.fresh.fileNo).start →
      (s.anchors u.stale.fileNo).start ≠ some y → (s.anchors u.fresh.fileNo).start ≠ some x →
      x ≠ y → y < e.sliceLimit → x < e.sliceLimit →
      (s.pool.slices y).next = none ∨ (s.pool.slices y).next = (s.pool.slices x).next →
      Q true ((s.withPool (spliced x y s.pool)).swapped u x)) :
    (closeForUpdating e u).wlp True Q s := by
  unfold closeForUpdating
  simp only [wlp_bind, wlp_lockOf]
  refine wlp_AssertFlagIsSet fun _ => ?_
  rw [setLock_eq_self]
  cases hx : u.stale.splicingPoint with
  | none => exact hthrow
  | some x =>
    cases hy : u.fresh.splicingPoint with
    | none => exact hthrow
    | some y =>
      simp only [wlp_bind, wlp_loadAnchor]
      by_cases hoverlap : (s.anchors u.stale.fileNo).start = (s.anchors u.fresh.fileNo).start
          ∨ (s.anchors u.stale.fileNo).start = some y
          ∨ some x = (s.anchors u.fresh.fileNo).start ∨ x = y
      · rw [if_pos hoverlap]
        exact hthrow
      · rw [if_neg hoverlap, wlp_bind, wlp_onPool]
        refine wlp_splice hthrow fun hy' hx' hnext => ?_
        simp only [not_or] at hoverlap
        obtain ⟨h1, h2, h3, h4⟩ := hoverlap
        rw [if_neg (by decide), wlp_bind]
        exact wlp_supersede (s := s.withPool (spliced x y s.pool)) hi hj hqi hqj hr hw hr0
          (hok x y hx hy h1 h2 (Ne.symm h3) h4 hy' hx' hnext)

end

end StoreMap

end Ipc
