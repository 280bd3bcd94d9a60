import Mathlib

/-!
# Splay trees

Top-down splaying, as of `splay.h`. The comparison is a function of the stored
value alone: what is looked for is already part of it, so that one definition
serves the search for a value and the search for anything else. Its result is
negative where the search has to go left and positive where it has to go
right.

Splaying never changes the order of the stored values, whatever the comparison
says. It also finds what there is to find if the comparison is *aligned* with
that order: where it sends the search to the left, it does so from all later
values, too.
-/

namespace Splay

variable {α : Type}

/-- A tree, or none. -/
inductive Node (α : Type) where
  | nil
  | node (left : Node α) (data : α) (right : Node α)
  deriving DecidableEq, Repr

namespace Node

/-- The stored values from left to right. -/
def toList : Node α → List α
  | nil => []
  | node left data right => left.toList ++ data :: right.toList

end Node

open Node

/-- The values that were linked to the left tree, newest first, with what
stands to their left. -/
abbrev LeftLinks (α : Type) : Type := List (Node α × α)

/-- The values that were linked to the right tree, newest first, with what
stands to their right. -/
abbrev RightLinks (α : Type) : Type := List (α × Node α)

/-- The left tree, with `rest` in its open place. -/
def LeftLinks.close (l : LeftLinks α) (rest : Node α) : Node α :=
  l.foldl (fun t link => node link.1 link.2 t) rest

/-- The right tree, with `rest` in its open place. -/
def RightLinks.close (r : RightLinks α) (rest : Node α) : Node α :=
  r.foldl (fun t link => node t link.1 link.2) rest

/-- The end of `SplayNode::splay`. -/
def assemble (l : LeftLinks α) (r : RightLinks α) (left : Node α) (data : α) (right : Node α) :
    Node α :=
  node (l.close left) data (r.close right)

/-- **The loop of `SplayNode::splay`** at a node `top`, with the left and right
trees it has built. Beside the tree it gives `splayLastResult`. -/
def splayLoop (compare : α → ℤ) (l : LeftLinks α) (r : RightLinks α) : Node α → Node α × ℤ
  | nil => (nil, 0)
  | node left data right =>
    if compare data < 0 then
      match left with
      | nil => (assemble l r nil data right, compare data)
      | node a y b =>
        if compare y < 0 then
          -- rotate right
          match a with
          | nil => (assemble l r nil y (node b data right), compare y)
          | node a₁ z a₂ => splayLoop compare l ((y, node b data right) :: r) (node a₁ z a₂)
        else
          splayLoop compare l ((data, right) :: r) (node a y b)
    else if 0 < compare data then
      match right with
      | nil => (assemble l r left data nil, compare data)
      | node a y b =>
        if 0 < compare y then
          -- rotate left
          match b with
          | nil => (assemble l r (node left data a) y nil, compare y)
          | node b₁ z b₂ => splayLoop compare ((node left data a, y) :: l) r (node b₁ z b₂)
        else
          splayLoop compare ((left, data) :: l) r (node a y b)
    else
      (assemble l r left data right, compare data)

/-- `SplayNode::splay`. -/
def splay (compare : α → ℤ) (top : Node α) : Node α × ℤ := splayLoop compare [] [] top

/-- `SplayNode::insert`. -/
def insertNode (compare : α → ℤ) (dataToInsert : α) (top : Node α) : Node α :=
  match splay compare top with
  | (nil, _) => node nil dataToInsert nil
  | (node left data right, last) =>
    if last < 0 then
      node left dataToInsert (node nil data right)
    else if 0 < last then
      node (node left data nil) dataToInsert right
    else
      node left data right

/-- `SplayNode::remove`. -/
def removeNode (compare : α → ℤ) (top : Node α) : Node α :=
  match splay compare top with
  | (nil, _) => nil
  | (node left data right, last) =>
    if last = 0 then
      match left with
      | nil => right
      | node a y b =>
        match (splay compare (node a y b)).1 with
        | nil => nil
        | node a' y' _ => node a' y' right
    else
      node left data right

end Splay

/-- **A splay tree.** -/
structure Splay (α : Type) where
  head : Splay.Node α := .nil
  deriving DecidableEq, Repr

namespace Splay

open Node

variable {α : Type}

/-- The stored values from left to right. -/
def values (t : Splay α) : List α := t.head.toList

/-- `Splay::find`; the tree it leaves behind and what it has found. -/
def find (compare : α → ℤ) (t : Splay α) : Splay α × Option α :=
  match t.head with
  | nil => (t, none)
  | node l d r =>
    let (head, last) := splay compare (node l d r)
    let found := match head with
      | nil => none
      | node _ data _ => some data
    ({ head }, if last ≠ 0 then none else found)

/-- `Splay::insert`: the value in the way, if there is one. -/
def insert (compare : α → ℤ) (value : α) (t : Splay α) : Splay α × Option α :=
  match find compare t with
  | (t, some similarValue) => (t, some similarValue)
  | (t, none) =>
    let head := match t.head with
      | nil => node nil value nil
      | node l d r => insertNode compare value (node l d r)
    ({ head }, none)

/-- `Splay::remove`. -/
def remove (compare : α → ℤ) (t : Splay α) : Splay α :=
  match find compare t with
  | (t, none) => t
  | (t, some _) => { head := removeNode compare t.head }

end Splay

namespace Splay

open Node

variable {α : Type} {compare : α → ℤ}

/-! ## Splaying keeps the order -/

/-- The values linked to the left tree, from left to right. -/
def LeftLinks.toList : LeftLinks α → List α
  | [] => []
  | (t, x) :: l => LeftLinks.toList l ++ (t.toList ++ [x])

/-- The values linked to the right tree, from left to right. -/
def RightLinks.toList : RightLinks α → List α
  | [] => []
  | (x, t) :: r => x :: t.toList ++ RightLinks.toList r

open Node
open List hiding nil

theorem LeftLinks.toList_close (l : LeftLinks α) (rest : Node α) :
    (l.close rest).toList = l.toList ++ rest.toList := by
  induction l generalizing rest with
  | nil => rfl
  | cons link l ih =>
    show (LeftLinks.close l (node link.1 link.2 rest)).toList = _
    rw [ih, LeftLinks.toList, Node.toList]
    simp only [append_assoc, singleton_append]

theorem RightLinks.toList_close (r : RightLinks α) (rest : Node α) :
    (r.close rest).toList = rest.toList ++ r.toList := by
  induction r generalizing rest with
  | nil => exact (append_nil _).symm
  | cons link r ih =>
    show (RightLinks.close r (node rest link.1 link.2)).toList = _
    rw [ih, RightLinks.toList, Node.toList]
    simp only [append_assoc, cons_append]

/-- The loop of `splay` has stopped: at a value `data` from which the search
could not go on, between values it has turned right or left from. -/
structure Stopped (compare : α → ℤ) (values : List α) (res : Node α × ℤ) : Prop where
  exists_parts : ∃ (l : LeftLinks α) (r : RightLinks α) (left : Node α) (data : α)
    (right : Node α), res = (assemble l r left data right, compare data) ∧
      l.toList ++ (left.toList ++ data :: right.toList) ++ r.toList = values ∧
      (∀ link ∈ l, 0 < compare link.2) ∧ (∀ link ∈ r, compare link.1 < 0) ∧
      (compare data < 0 → left = nil) ∧ (0 < compare data → right = nil)

theorem stopped_splayLoop (compare : α → ℤ) (l : LeftLinks α) (r : RightLinks α) (t : Node α)
    (ht : t ≠ nil) (hl : ∀ link ∈ l, 0 < compare link.2) (hr : ∀ link ∈ r, compare link.1 < 0) :
    Stopped compare (l.toList ++ t.toList ++ r.toList) (splayLoop compare l r t) := by
  fun_induction splayLoop compare l r t with
  | case1 => exact absurd rfl ht
  | case2 l r data right hlt =>
    exact ⟨l, r, nil, data, right, rfl, rfl, hl, hr, fun _ => rfl, fun h => by omega⟩
  | case3 l r data right hlt y b hy =>
    refine ⟨l, r, nil, y, node b data right, rfl, ?_, hl, hr, fun _ => rfl, fun h => by omega⟩
    simp [toList]
  | case4 l r data right hlt y b hy a₁ z a₂ ih =>
    have h := ih (by simp) hl (forall_mem_cons.mpr ⟨hy, hr⟩)
    simpa [toList, RightLinks.toList] using h
  | case5 l r data right hlt a y b hy ih =>
    have h := ih (by simp) hl (forall_mem_cons.mpr ⟨hlt, hr⟩)
    simpa [toList, RightLinks.toList] using h
  | case6 l r left data hnlt hgt =>
    exact ⟨l, r, left, data, nil, rfl, rfl, hl, hr, fun h => by omega, fun _ => rfl⟩
  | case7 l r left data hnlt hgt a y hy =>
    refine ⟨l, r, node left data a, y, nil, rfl, ?_, hl, hr, fun h => by omega, fun _ => rfl⟩
    simp [toList]
  | case8 l r left data hnlt hgt a y hy b₁ z b₂ ih =>
    have h := ih (by simp) (forall_mem_cons.mpr ⟨hy, hl⟩) hr
    simpa [toList, LeftLinks.toList] using h
  | case9 l r left data hnlt hgt a y b hy ih =>
    have h := ih (by simp) (forall_mem_cons.mpr ⟨hgt, hl⟩) hr
    simpa [toList, LeftLinks.toList] using h
  | case10 l r left data right hnlt hngt =>
    exact ⟨l, r, left, data, right, rfl, rfl, hl, hr, fun h => absurd h hnlt,
      fun h => absurd h hngt⟩

/-! ## A comparison that is aligned with the order -/

/-- **The search is sent to one side consistently**: from a value on to the
left, also from all later ones, and to the right, also from all earlier
ones. -/
def Aligned (compare : α → ℤ) (values : List α) : Prop :=
  values.Pairwise fun a b => (compare a < 0 → compare b < 0) ∧ (0 < compare b → 0 < compare a)

theorem LeftLinks.pos_of_aligned (l : LeftLinks α) (h : Aligned compare l.toList)
    (hl : ∀ link ∈ l, 0 < compare link.2) : ∀ x ∈ l.toList, 0 < compare x := by
  induction l with
  | nil => exact nofun
  | cons link l ih =>
    obtain ⟨hrest, hlink, -⟩ := pairwise_append.mp h
    obtain ⟨-, -, hlast⟩ := pairwise_append.mp hlink
    obtain ⟨hpos, hl⟩ := forall_mem_cons.mp hl
    refine forall_mem_append.mpr ⟨ih hrest hl, forall_mem_append.mpr
      ⟨fun x hx => ?_, forall_mem_singleton.mpr hpos⟩⟩
    exact (hlast x hx link.2 (mem_singleton.mpr rfl)).2 hpos

theorem RightLinks.neg_of_aligned (r : RightLinks α) (h : Aligned compare r.toList)
    (hr : ∀ link ∈ r, compare link.1 < 0) : ∀ x ∈ r.toList, compare x < 0 := by
  induction r with
  | nil => exact nofun
  | cons link r ih =>
    obtain ⟨hlink, hrest, -⟩ := pairwise_append.mp h
    obtain ⟨hfirst, -⟩ := pairwise_cons.mp hlink
    obtain ⟨hneg, hr⟩ := forall_mem_cons.mp hr
    exact forall_mem_append.mpr ⟨forall_mem_cons.mpr
      ⟨hneg, fun x hx => (hfirst x hx).1 hneg⟩, ih hrest hr⟩

/-- **What splaying does.** The order of the values stays, and the top value is
the one where the search stopped: if that is not a match, then the search
belongs next to it. -/
theorem splay_spec (compare : α → ℤ) {t : Node α} (ht : t ≠ nil) :
    ∃ left data right, splay compare t = (node left data right, compare data) ∧
      left.toList ++ data :: right.toList = t.toList ∧
      (Aligned compare t.toList → (compare data < 0 → ∀ x ∈ left.toList, 0 < compare x) ∧
        (0 < compare data → ∀ x ∈ right.toList, compare x < 0)) := by
  obtain ⟨l, r, left, data, right, hres, hlist, hl, hr, hleft, hright⟩ :=
    (stopped_splayLoop compare [] [] t ht nofun nofun).exists_parts
  rw [show LeftLinks.toList ([] : LeftLinks α) = [] from rfl,
    show RightLinks.toList ([] : RightLinks α) = [] from rfl, nil_append, append_nil]
    at hlist
  refine ⟨l.close left, data, r.close right, hres, ?_,
    fun halign => ⟨fun hneg => ?_, fun hpos => ?_⟩⟩
  · rw [LeftLinks.toList_close, RightLinks.toList_close, ← hlist]
    simp only [append_assoc, cons_append]
  · rw [← hlist] at halign
    obtain ⟨h, -, -⟩ := pairwise_append.mp halign
    rw [LeftLinks.toList_close, hleft hneg, toList, append_nil]
    exact l.pos_of_aligned (pairwise_append.mp h).1 hl
  · rw [← hlist] at halign
    rw [RightLinks.toList_close, hright hpos, toList, nil_append]
    exact r.neg_of_aligned (pairwise_append.mp halign).2.1 hr

/-! ## Searching -/

/-- If the search stopped at a value that does not match, then none does. -/
theorem no_match_of_stopped {left right : List α} {data : α}
    (h : Aligned compare (left ++ data :: right)) (hstop : Aligned compare (left ++ data :: right) →
      (compare data < 0 → ∀ x ∈ left, 0 < compare x) ∧
        (0 < compare data → ∀ x ∈ right, compare x < 0))
    (hne : compare data ≠ 0) : ∀ x ∈ left ++ data :: right, compare x ≠ 0 := by
  obtain ⟨hleft, hright⟩ := hstop h
  obtain ⟨-, hcons, hbefore⟩ := pairwise_append.mp h
  have hafter := (pairwise_cons.mp hcons).1
  intro x hx
  rcases mem_append.mp hx with hx | hx
  · rcases Int.lt_or_gt_of_ne hne with hneg | hpos
    · exact Int.ne_of_gt (hleft hneg x hx)
    · exact Int.ne_of_gt ((hbefore x hx data mem_cons_self).2 hpos)
  · rcases mem_cons.mp hx with rfl | hx
    · exact hne
    · rcases Int.lt_or_gt_of_ne hne with hneg | hpos
      · exact Int.ne_of_lt ((hafter x hx).1 hneg)
      · exact Int.ne_of_lt (hright hpos x hx)

@[simp] theorem find_values (compare : α → ℤ) (t : Splay α) :
    (t.find compare).1.values = t.values := by
  unfold find
  cases hhead : t.head with
  | nil => rfl
  | node l d r =>
    obtain ⟨left, data, right, hsplay, hlist, -⟩ :=
      splay_spec compare (t := node l d r) (by simp)
    simp only [hsplay, values, hhead, toList] at hlist ⊢
    exact hlist

/-- **The search finds a match if there is one.** -/
theorem find_spec {t : Splay α} (h : Aligned compare t.values) :
    (∀ x, (t.find compare).2 = some x → x ∈ t.values ∧ compare x = 0) ∧
      ((t.find compare).2 = none → ∀ x ∈ t.values, compare x ≠ 0) := by
  unfold find values at *
  cases hhead : t.head with
  | nil => exact ⟨nofun, nofun⟩
  | node l d r =>
    obtain ⟨left, data, right, hsplay, hlist, hstop⟩ :=
      splay_spec compare (t := node l d r) (by simp)
    rw [hhead, ← hlist] at h
    rw [← hlist] at hstop ⊢
    simp only [hsplay]
    by_cases hzero : compare data = 0
    · rw [if_neg (not_not.mpr hzero)]
      refine ⟨fun x hx => ?_, nofun⟩
      cases hx
      exact ⟨mem_append_right _ mem_cons_self, hzero⟩
    · rw [if_pos hzero]
      exact ⟨fun x hx => (nomatch hx), fun _ => no_match_of_stopped h hstop hzero⟩

/-! ## Inserting and removing -/

/-- The comparison tells `xs` from `ys`: it points right from the ones and left
from the others. -/
def Splits (compare : α → ℤ) (xs ys : List α) : Prop :=
  (∀ x ∈ xs, 0 < compare x) ∧ ∀ y ∈ ys, compare y < 0

/-- **Insertion** puts a new value next to where the search for it stopped, or
gives a value that is in the way. -/
theorem insert_spec {t : Splay α} (value : α) (h : Aligned compare t.values) :
    (∀ old, (t.insert compare value).2 = some old →
      (t.insert compare value).1.values = t.values ∧ old ∈ t.values ∧ compare old = 0) ∧
    ((t.insert compare value).2 = none → ∃ xs ys, t.values = xs ++ ys ∧ Splits compare xs ys ∧
      (t.insert compare value).1.values = xs ++ value :: ys) := by
  obtain ⟨hsome, hnone⟩ := find_spec h
  have hvalues := find_values compare t
  unfold insert
  cases hfind : t.find compare with
  | mk t' found =>
    rw [hfind] at hsome hnone hvalues
    cases found with
    | some old =>
      refine ⟨fun x hx => ?_, nofun⟩
      cases hx
      exact ⟨hvalues, hsome old rfl⟩
    | none =>
      refine ⟨fun x hx => (nomatch hx), fun _ => ?_⟩
      have hnone' := hnone rfl
      dsimp only at hvalues ⊢
      cases hhead : t'.head with
      | nil =>
        refine ⟨[], [], ?_, ⟨nofun, nofun⟩, rfl⟩
        rw [← hvalues, values, hhead]
        rfl
      | node l d r =>
        obtain ⟨left, data, right, hsplay, hlist, hstop⟩ :=
          splay_spec compare (t := node l d r) (by simp)
        rw [← hvalues, values, hhead] at h hnone'
        obtain ⟨hleft, hright⟩ := hstop h
        rw [← hlist] at h hnone'
        obtain ⟨-, hcons, hbefore⟩ := pairwise_append.mp h
        have hafter := (pairwise_cons.mp hcons).1
        have hne := hnone' data (mem_append_right _ mem_cons_self)
        rw [← hvalues, values, hhead, ← hlist]
        simp only [insertNode, hsplay, values]
        rcases Int.lt_or_gt_of_ne hne with hneg | hpos
        · rw [if_pos hneg]
          refine ⟨left.toList, data :: right.toList, rfl, ⟨hleft hneg, ?_⟩, ?_⟩
          · exact forall_mem_cons.mpr ⟨hneg, fun y hy => (hafter y hy).1 hneg⟩
          · simp [toList]
        · rw [if_neg (by omega), if_pos hpos]
          refine ⟨left.toList ++ [data], right.toList, by simp, ⟨?_, hright hpos⟩, ?_⟩
          · refine forall_mem_append.mpr ⟨fun x hx => ?_, forall_mem_singleton.mpr hpos⟩
            exact (hbefore x hx data mem_cons_self).2 hpos
          · simp [toList]

variable {xs ys : List α}

variable (h : Splits compare xs ys)
include h

/-- The only match of a split list stands where it stands. -/
theorem Splits.parts_eq {d : α} {left right : List α} {data : α} (hdata : compare data = 0)
    (heq : left ++ data :: right = xs ++ d :: ys) : left = xs ∧ data = d ∧ right = ys := by
  rcases append_eq_append_iff.mp heq with ⟨a, rfl, hd⟩ | ⟨a, rfl, hd⟩
  · cases a with
    | nil => exact ⟨(append_nil _).symm, List.cons.inj hd⟩
    | cons b a =>
      obtain ⟨rfl, -⟩ := List.cons.inj hd
      exact absurd hdata (Int.ne_of_gt (h.1 data (mem_append_right _ mem_cons_self)))
  · cases a with
    | nil =>
      obtain ⟨rfl, rfl⟩ := List.cons.inj hd
      exact ⟨append_nil _, rfl, rfl⟩
    | cons b a =>
      obtain ⟨rfl, rfl⟩ := List.cons.inj hd
      exact absurd hdata (Int.ne_of_lt (h.2 data (mem_append_right _ mem_cons_self)))

theorem Splits.aligned {d : α} (hd : compare d = 0) : Aligned compare (xs ++ d :: ys) := by
  refine pairwise_append.mpr ⟨?_, pairwise_cons.mpr ⟨fun y hy => ?_, ?_⟩, ?_⟩
  · refine pairwise_of_forall_mem_list fun a ha b hb => ?_
    have := h.1 a ha
    omega
  · have := h.2 y hy
    omega
  · refine pairwise_of_forall_mem_list fun a ha b hb => ?_
    have := h.2 b hb
    omega
  · intro a ha b hb
    have := h.1 a ha
    omega

/-- **Removal** takes the only match out. -/
theorem remove_spec {t : Splay α} {d : α} (hd : compare d = 0) (ht : t.values = xs ++ d :: ys) :
    (t.remove compare).values = xs ++ ys := by
  have halign : Aligned compare t.values := ht ▸ h.aligned hd
  obtain ⟨hsome, hnone⟩ := find_spec halign
  have hvalues := find_values compare t
  unfold remove
  cases hfind : t.find compare with
  | mk t' found =>
    rw [hfind] at hsome hnone hvalues
    cases found with
    | none => exact absurd hd (hnone rfl d (by rw [ht]; simp))
    | some old =>
      dsimp only at hvalues ⊢
      rw [ht, values] at hvalues
      cases hhead : t'.head with
      | nil =>
        rw [hhead] at hvalues
        exact absurd hvalues.symm (by simp [toList])
      | node a y b =>
        obtain ⟨left, data, right, hsplay, hlist, hstop⟩ :=
          splay_spec compare (t := node a y b) (by simp)
        rw [← hhead, hvalues] at hlist hstop
        have hzero : compare data = 0 := by
          by_contra hne
          rw [← hlist] at hstop
          exact no_match_of_stopped (hlist ▸ h.aligned hd) hstop hne d (by rw [hlist]; simp) hd
        obtain ⟨hxs, -, hys⟩ := h.parts_eq hzero hlist
        simp only [removeNode, hsplay, if_pos hzero, values]
        cases hleft : left with
        | nil =>
          rw [← hxs, ← hys, hleft]
          rfl
        | node a y b =>
          -- everything is smaller than the match, so nothing stands right of the top
          have hpos : ∀ x ∈ (node a y b).toList, 0 < compare x := by
            rw [← hleft, hxs]
            exact h.1
          obtain ⟨a', y', b', hsplay', hlist', hstop'⟩ :=
            splay_spec compare (t := node a y b) (by simp)
          have halign' : Aligned compare (node a y b).toList :=
            pairwise_of_forall_mem_list fun u hu v hv => by
              have := hpos u hu
              omega
          have hy' : 0 < compare y' := hpos y' (by rw [← hlist']; simp)
          have hb' : b'.toList = [] := by
            refine eq_nil_iff_forall_not_mem.mpr fun u hu => ?_
            have h1 := (hstop' halign').2 hy' u hu
            have h2 := hpos u (by rw [← hlist']; simp [hu])
            omega
          rw [hb'] at hlist'
          simp only [hsplay']
          rw [← hxs, ← hys, hleft, ← hlist']
          simp [toList]

end Splay
