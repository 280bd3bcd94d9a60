import Mathlib

/-!
# The purge of a least-recently-used list

A purge walks a list from its head, and is to end where it began. A locked entry goes to the
end of the list meanwhile. But an unlocked head is gone by then, and the walk goes on into
the locked entries that it has put there (`purge_once_iff`).
-/

namespace LruPurge

open List

/-- The list of a policy, and a walker. -/
structure Walker (α : Type*) where
  list : List α
  count : ℤ
  current : Option α
  start : Option α
  maxScan : ℤ
  scanned : ℤ := 0
  locked : ℤ := 0

variable {α : Type*} [DecidableEq α]

def purgeInit (list : List α) (count maxScan : ℤ) : Walker α :=
  { list, count, maxScan, current := list.head?, start := list.head? }

/-- The `next` of a node. -/
def next (list : List α) (x : α) : Option α := (list.dropWhile (· ≠ x)).tail.head?

variable (locked : α → Bool)

/-- A node is taken from the list, and put at its end if the entry is locked. -/
def scan (w : Walker α) (x : α) : Walker α :=
  { w with
    scanned := w.scanned + 1
    current := if next w.list x = w.start then none else next w.list x
    list := if locked x then w.list.erase x ++ [x] else w.list.erase x
    count := if locked x then w.count else w.count - 1
    locked := if locked x then w.locked + 1 else w.locked }

/-- The entries scanned, and the one returned. -/
def purgeNext (w : Walker α) : List α × Option α × Walker α :=
  match w.current with
  | none => ([], none, w)
  | some x =>
    if w.scanned ≥ w.maxScan then ([], none, w)
    else if locked x then
      let (xs, result) := purgeNext (scan locked w x)
      (x :: xs, result)
    else ([x], some x, scan locked w x)
termination_by (w.maxScan - w.scanned).toNat
decreasing_by
  show (w.maxScan - (w.scanned + 1)).toNat < _
  omega

variable {locked} {w w' : Walker α} {x : α} {l xs : List α}

theorem purgeNext_lt (h : purgeNext locked w = (xs, some x, w')) :
    (w'.maxScan - w'.scanned).toNat < (w.maxScan - w.scanned).toNat := by
  fun_induction purgeNext locked w generalizing xs with
  | case1 | case2 => cases h
  | case3 w y _ hscan _ ys result heq ih =>
    cases h
    have := ih heq
    simp only [scan] at this
    omega
  | case4 w y _ hscan =>
    cases h
    simp only [scan]
    omega

variable (locked)

/-- The entries that successive calls scan and return, until one returns null. -/
def purge (w : Walker α) : List α × List α × Walker α :=
  match _ : purgeNext locked w with
  | (xs, none, w') => (xs, [], w')
  | (xs, some x, w') =>
    let (scanned, returned, last) := purge w'
    (xs ++ scanned, x :: returned, last)
termination_by (w.maxScan - w.scanned).toNat
decreasing_by exact purgeNext_lt ‹_›

/-- **Each entry is scanned at most once**, and the unlocked ones are purged. -/
structure Once (l : List α) (maxScan : ℤ) (result : List α × List α × Walker α) : Prop where
  scanned : result.1.Nodup
  returned : result.2.1 = (l.take maxScan.toNat).filter (!locked ·)
  locked : result.2.2.locked = (l.take maxScan.toNat).countP locked
  list : result.2.2.list ++ result.2.1 ~ l
  count : result.2.2.count = result.2.2.list.length

variable {locked}

theorem purge_eq : purge locked w = match purgeNext locked w with
    | (xs, none, w') => (xs, [], w')
    | (xs, some x, w') =>
      (xs ++ (purge locked w').1, x :: (purge locked w').2.1, (purge locked w').2.2) := by
  rw [purge]
  split <;> simp [*]

theorem purge_stop (h : w.current = none ∨ w.maxScan ≤ w.scanned) :
    purge locked w = ([], [], w) := by
  rw [purge_eq, purgeNext]
  cases hx : w.current with
  | none => rfl
  | some x => simp [h.resolve_left (by simp [hx])]

theorem purge_scan (hx : w.current = some x) (hscan : w.scanned < w.maxScan) :
    purge locked w = (x :: (purge locked (scan locked w x)).1,
      [x].filter (!locked ·) ++ (purge locked (scan locked w x)).2.1,
      (purge locked (scan locked w x)).2.2) := by
  rw [purge_eq, purgeNext]
  simp only [hx, if_neg (not_le.mpr hscan)]
  by_cases hlocked : locked x
  · rw [purge_eq (w := scan locked w x)]
    rcases purgeNext locked (scan locked w x) with ⟨xs, _ | y, w'⟩ <;> simp [*]
  · simp [*]

variable (locked) in
/-- Where the walk is when it has been through `done`. -/
structure At (done rest : List α) (w : Walker α) : Prop where
  list : w.list = rest ++ done.filter locked
  count : w.count = w.list.length
  scanned : w.scanned = done.length
  start : w.start = (done ++ rest).head?
  -- the `next` of a node is read before the node goes to the end
  current : w.current = if done = [] then rest.head? else
    if (rest ++ done.dropLast.filter locked).head? = w.start then none
    else (rest ++ done.dropLast.filter locked).head?
  locked : w.locked = done.countP locked

variable {done rest : List α}

/-- One scan. -/
theorem At.scan (h : At locked done (x :: rest) w) :
    At locked (done ++ [x]) rest (scan locked w x) := by
  by_cases hlocked : locked x <;> constructor <;>
    simp [LruPurge.scan, next, hlocked, h.list, h.count, h.scanned, h.locked, h.start]
  omega

/-- **The walk goes on to the end of the list**, as long as it may. -/
theorem At.run (h : At locked done (xs ++ rest) w) (hnodup : (done ++ (xs ++ rest)).Nodup)
    (hscan : (done ++ xs).length ≤ w.maxScan.toNat) : ∃ w', At locked (done ++ xs) rest w' ∧
      w'.maxScan = w.maxScan ∧ purge locked w = (xs ++ (purge locked w').1,
        xs.filter (!locked ·) ++ (purge locked w').2.1, (purge locked w').2.2) := by
  induction xs generalizing done w with
  | nil => exact ⟨w, by simpa using h, rfl, rfl⟩
  | cons x xs ih =>
    rw [append_cons] at hscan
    have hcurrent : w.current = some x := by
      rw [h.current, h.start]
      cases done with
      | nil => rfl
      | cons y done =>
        have hne : x ≠ y := by
          rintro rfl
          simp at hnodup
        simp [hne]
    obtain ⟨w', hw', hmax, hpurge⟩ := ih h.scan (by simpa using hnodup) hscan
    refine ⟨w', by simpa using hw', hmax, ?_⟩
    rw [purge_scan hcurrent, hpurge]
    · simp [← append_assoc, ← filter_append]
    · rw [h.scanned]
      simp at hscan
      omega

/-- At the end of the list, the walk goes on unless no entry before was locked, or the first. -/
theorem At.current_eq_none_iff (h : At locked l [] w) (hl : l.Nodup) :
    w.current = none ↔ (∀ x ∈ l.head?, locked x) ∨ ∀ x ∈ l.dropLast, ¬locked x := by
  rw [h.current, h.start]
  match l with
  | [] | [x] => simp
  | x :: y :: l =>
    by_cases hlocked : locked x
    · simp [hlocked]
    · have hx : (y :: l).dropLast.find? locked ≠ some x := fun hfind =>
        (nodup_cons.mp hl).1 ((dropLast_sublist _).subset (mem_of_find?_eq_some hfind))
      simp [hlocked, hx]

theorem At.mem_of_current (h : At locked l [] w) (hx : w.current = some x) : x ∈ l := by
  rw [h.current] at hx
  split_ifs at hx
  · simp at hx
  · exact (dropLast_sublist _).subset (mem_filter.mp (mem_of_mem_head? hx)).1

/-- **A purge scans each entry at most once** iff it may not scan more entries than there are,
or its first entry is locked, or none before the last is. -/
theorem purge_once_iff (hl : l.Nodup) (maxScan : ℤ) :
    Once locked l maxScan (purge locked (purgeInit l l.length maxScan)) ↔
      maxScan ≤ l.length ∨ (∀ x ∈ l.head?, locked x) ∨ ∀ x ∈ l.dropLast, ¬locked x := by
  have hinit : At locked [] (l.take maxScan.toNat ++ l.drop maxScan.toNat)
      (purgeInit l l.length maxScan) := by
    rw [take_append_drop]
    constructor <;> simp [purgeInit]
  obtain ⟨w, hw, hmax, hpurge⟩ := hinit.run (by simpa using hl) (by simp [purgeInit])
  have hstop (h : w.current = none ∨ w.maxScan ≤ w.scanned) :
      Once locked l maxScan (purge locked (purgeInit l l.length maxScan)) := by
    rw [hpurge, purge_stop h]
    refine ⟨?_, append_nil _, hw.locked, ?_, hw.count⟩
    · simpa using (take_sublist _ l).nodup hl
    · simp only [append_nil, hw.list, nil_append, append_assoc]
      have hperm := ((filter_append_perm locked (l.take maxScan.toNat)).append_left
        (l.drop maxScan.toNat)).trans perm_append_comm
      rwa [take_append_drop] at hperm
  by_cases hle : maxScan ≤ l.length
  · refine iff_of_true (hstop (.inr ?_)) (.inl hle)
    rw [hmax, hw.scanned]
    simp [purgeInit]
    omega
  · rw [take_of_length_le (by omega), drop_of_length_le (by omega), nil_append] at *
    rw [or_iff_right hle, ← hw.current_eq_none_iff hl]
    refine ⟨fun h => ?_, fun h => hstop (.inl h)⟩
    by_contra hgo
    obtain ⟨x, hx⟩ := Option.ne_none_iff_exists'.mp hgo
    have hnodup := h.scanned
    rw [hpurge, purge_scan hx (by rw [hmax, hw.scanned]; simpa [purgeInit] using hle)] at hnodup
    exact (nodup_append.mp hnodup).2.2 x (hw.mem_of_current hx) x mem_cons_self rfl

/-- All of a list is scanned. -/
theorem purge_once : Once (· = 1) [0, 1, 2] 3 (purge (· = 1) (purgeInit [0, 1, 2] 3 3)) :=
  (purge_once_iff (by decide) 3).mpr (.inl (by decide))

/-- **The locked entry is scanned twice**: the first entry, where the walk began, is gone. -/
theorem purge_twice : ¬Once (· = 1) [0, 1, 2] 4 (purge (· = 1) (purgeInit [0, 1, 2] 3 4)) := by
  intro h
  have hnodup := h.scanned
  iterate 4 rw [purge_scan rfl (by decide)] at hnodup
  simp at hnodup

end LruPurge
