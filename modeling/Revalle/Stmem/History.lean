import Revalle.Stmem.Refinement

/-!
# Histories of the memory of an object

What a history of calls has left in memory can be read off what the calls report:
what was written where, up to where data was freed, and which ranges were unlinked.
The memory holds just that, and answers by it (`memHdr_refines`).
-/

namespace Stmem

open Checked List MemNode Option

/-! ## Freeing -/

section Freeing

variable {s s' : MemHdr} {m : ℤ → Option UInt8}

variable {xs ys : List ℕ}

/-- **`unlink`** takes a node out of the tree, unless it is pending. -/
theorem Inv.unlink (h : Inv s) {a : ℕ} (hvalues : s.nodes.values = xs ++ a :: ys) :
    Ensures (unlink a) (fun removed s' => Inv s' ∧ s'.mem = s.mem ∧ s'.inmemHi = s.inmemHi ∧
      s'.nodes.values = if removed then xs ++ ys else s.nodes.values) s := by
  simp only [Stmem.unlink, ensures_bind, ensures_get]
  by_cases hpending : (s.mem a).writePending = true
  · rw [if_pos hpending, ensures_pure]
    exact ⟨h, rfl, rfl, by simp⟩
  · rw [if_neg hpending, ensures_bind, ensures_set, ensures_pure]
    have ha : a ∈ s.nodes.values := by simp [hvalues]
    have hpos := (h.wf a ha).pos
    have hapart := hvalues ▸ h.apart
    obtain ⟨-, hcons, hcross⟩ := pairwise_append.mp hapart
    have hself : s.compare a a = 0 := by
      refine (nodeCompare_eq_zero_iff _ _).mpr ?_
      unfold Range.Meets dataRange end_
      dsimp only
      omega
    have hsplits : Splay.Splits (s.compare a) xs ys := by
      refine ⟨fun x hx => ?_, fun y hy => ?_⟩
      · have hxa := hcross x hx a mem_cons_self
        refine (nodeCompare_pos_iff _ _).mpr ?_
        unfold Range.Meets dataRange end_ at *
        dsimp only at hxa ⊢
        omega
      · have hay := (pairwise_cons.mp hcons).1 y hy
        refine (nodeCompare_neg_iff _ _).mpr ?_
        unfold Range.Meets dataRange end_ at *
        dsimp only at hay ⊢
        omega
    have hfound : ∃ w, (s.nodes.splay.find (s.compare a)).2 = some w := by
      have haligned : Splay.Aligned (s.compare a) s.nodes.splay.values := by
        have := hsplits.aligned hself
        rwa [← hvalues] at this
      by_contra hnone
      refine (Splay.find_spec haligned).2 ?_ a ha hself
      rw [eq_none_iff_forall_ne_some]
      exact fun w hw => hnone ⟨w, hw⟩
    obtain ⟨w, hw⟩ := hfound
    obtain ⟨hremoved, helements⟩ := SplayTree.remove_of_some hw
    rw [Splay.remove_spec hsplits hself hvalues] at hremoved
    refine ⟨h.sublist ?_ rfl rfl ?_, rfl, rfl, ?_⟩
    · rw [hremoved, hvalues]
      exact (List.Sublist.refl xs).append (sublist_cons_self a ys)
    · show (s.nodes.remove s.compare a).elements = (s.nodes.remove s.compare a).values.length
      have hsize : s.nodes.elements = s.nodes.values.length := h.size
      rw [helements, hremoved, hsize, hvalues]
      simp only [length_append, length_cons]
      omega
    · rw [hremoved, if_pos rfl]

/-- Data is freed from the front: `s'` has what is left of the nodes of `s`. -/
structure FreedUpto (targetOffset : ℤ) (s s' : MemHdr) : Prop where
  inv : Inv s'
  mem : s'.mem = s.mem
  inmemHi : s'.inmemHi = s.inmemHi
  values : ∃ gone, s.nodes.values = gone ++ s'.nodes.values ∧
    (gone ≠ [] → s'.nodes.values ≠ []) ∧ ∀ a ∈ gone, (s.mem a).end_ ≤ targetOffset

theorem FreedUpto.refl (h : Inv s) (targetOffset : ℤ) : FreedUpto targetOffset s s :=
  ⟨h, rfl, rfl, [], rfl, fun hne => absurd rfl hne, nofun⟩

theorem start_eq (s : MemHdr) : s.nodes.start = s.nodes.values.head? :=
  SplayTree.nodeStart_eq_head? _

theorem finish_eq (s : MemHdr) : s.nodes.finish = s.nodes.values.getLast? :=
  SplayTree.nodeFinish_eq_getLast? _

/-- The loop of `freeDataUpto`. -/
theorem Inv.freeLoop (h : Inv s) (targetOffset : ℤ) (fuel : ℕ) :
    Ensures (freeLoop targetOffset fuel) (fun _ => FreedUpto targetOffset s) s := by
  induction fuel generalizing s with
  | zero =>
    simp only [Stmem.freeLoop, ensures_pure]
    exact .refl h targetOffset
  | succ fuel ih =>
    simp only [Stmem.freeLoop, ensures_bind, ensures_get]
    rw [start_eq, finish_eq]
    cases hvalues : s.nodes.values with
    | nil => exact (ensures_pure ()).mpr (.refl h targetOffset)
    | cons a rest =>
      dsimp only [head?_cons]
      by_cases honly : (a :: rest).getLast? = some a
      · rw [if_pos honly]
        exact (ensures_pure ()).mpr (.refl h targetOffset)
      · rw [if_neg honly]
        have hrest : rest ≠ [] := by
          rintro rfl
          exact honly rfl
        by_cases hend : targetOffset < (s.mem a).end_
        · rw [if_pos hend]
          exact (ensures_pure ()).mpr (.refl h targetOffset)
        · rw [if_neg hend, ensures_bind]
          refine (h.unlink (show s.nodes.values = [] ++ a :: rest from hvalues)).mono ?_
          rintro removed s1 ⟨h1, hmem1, hhi1, hvalues1⟩
          cases removed with
          | false =>
            refine (ensures_pure ()).mpr ⟨h1, hmem1, hhi1, [], ?_, fun hne => absurd rfl hne,
              by simp⟩
            rw [hvalues1]
            rfl
          | true =>
            refine (ih h1).mono (fun _ s2 hfreed => ?_)
            obtain ⟨gone, hgone, hkept, hends⟩ := hfreed.values
            have hvalues1' : rest = gone ++ s2.nodes.values := hvalues1.symm.trans hgone
            refine ⟨hfreed.inv, hfreed.mem.trans hmem1, hfreed.inmemHi.trans hhi1, a :: gone,
              ?_, ?_, ?_⟩
            · rw [hvalues, hvalues1', cons_append]
            · intro _ hnil
              rw [hnil, append_nil] at hvalues1'
              exact hkept (hvalues1' ▸ hrest) hnil
            · exact forall_mem_cons.mpr ⟨by omega, hmem1 ▸ hends⟩

/-- What is held without the offsets of a range. -/
def unheld (range : Range) (m : ℤ → Option UInt8) (i : ℤ) : Option UInt8 :=
  if range.start ≤ i ∧ i < range.end_ then none else m i

/-- What is held from an offset on. -/
def heldFrom (lowestOffset : ℤ) (m : ℤ → Option UInt8) (i : ℤ) : Option UInt8 :=
  if i < lowestOffset then none else m i

/-- A byte of a node is at one of its offsets. -/
theorem MemNode.Wf.contains_of_byteAt {n : MemNode} (h : n.Wf) {i : ℤ} {b : UInt8}
    (hb : n.byteAt i = some b) : n.Contains i :=
  (h.isSome_byteAt i).mp (by simp [hb])

/-- Without a node, its range is no longer held. -/
theorem Holds.unlinked (hm : Holds s m) (h : Inv s) {a : ℕ}
    (hvalues : s.nodes.values = xs ++ a :: ys) (hvalues' : s'.nodes.values = xs ++ ys)
    (hmem : s'.mem = s.mem) : Holds s' (unheld (s.mem a).dataRange m) := by
  intro i b
  rw [hvalues', hmem, unheld]
  have hnodes : ∀ {x}, x ∈ s.nodes.values ↔ x = a ∨ x ∈ xs ++ ys := by
    rw [hvalues]
    exact perm_middle.mem_iff.trans mem_cons
  have hapart := hvalues ▸ h.apart
  obtain ⟨-, hcons, hcross⟩ := pairwise_append.mp hapart
  -- the other nodes have no offset in common with it
  have hothers : ∀ x ∈ xs ++ ys, (s.mem x).Contains i → ¬(s.mem a).Contains i := by
    intro x hx hxi hai
    unfold MemNode.Contains at hxi hai
    rcases mem_append.mp hx with hx | hx
    · have := hcross x hx a mem_cons_self
      omega
    · have := (pairwise_cons.mp hcons).1 x hx
      omega
  change (if (s.mem a).offset ≤ i ∧ i < (s.mem a).end_ then none else m i) = some b ↔ _
  by_cases hin : (s.mem a).offset ≤ i ∧ i < (s.mem a).end_
  · rw [if_pos hin]
    refine iff_of_false (by simp) ?_
    rintro ⟨x, hx, hbyte⟩
    exact hothers x hx ((h.wf x (hnodes.mpr (.inr hx))).contains_of_byteAt hbyte) hin
  · rw [if_neg hin, hm i b]
    constructor
    · rintro ⟨x, hx, hbyte⟩
      rcases hnodes.mp hx with rfl | hxy
      · exact absurd ((h.wf x hx).contains_of_byteAt hbyte) hin
      · exact ⟨x, hxy, hbyte⟩
    · rintro ⟨x, hx, hbyte⟩
      exact ⟨x, hnodes.mpr (.inr hx), hbyte⟩

/-- The last node is kept when there is one after the node that goes. -/
theorem HiExact.unlinked (hhi : HiExact s) {a : ℕ} (hvalues : s.nodes.values = xs ++ a :: ys)
    (hvalues' : s'.nodes.values = xs ++ ys) (hmem : s'.mem = s.mem)
    (hinmemHi : s'.inmemHi = s.inmemHi) (hys : ys ≠ []) : HiExact s' := by
  rw [HiExact, hinmemHi, hhi, hvalues', hmem, hvalues, getLast?_append_of_ne_nil _ hys,
    getLast?_append_of_ne_nil _ (cons_ne_nil a ys), getLast?_cons_of_ne_nil hys]

/-- The first offset of the data. -/
def lowest (s : MemHdr) : ℤ :=
  match s.nodes.values.head? with
  | some a => (s.mem a).offset
  | none => 0

/-- Nothing is held below the first node. -/
theorem Inv.lowest_le (h : Inv s) {a : ℕ} (ha : a ∈ s.nodes.values) :
    lowest s ≤ (s.mem a).offset := by
  unfold lowest
  have hapart := h.apart
  cases hvalues : s.nodes.values with
  | nil => simp [hvalues] at ha
  | cons first rest =>
    rw [hvalues] at ha hapart
    rcases mem_cons.mp ha with rfl | ha
    · exact le_rfl
    · have hle := (pairwise_cons.mp hapart).1 a ha
      show (s.mem first).offset ≤ _
      unfold end_ at hle
      omega

variable {targetOffset : ℤ}

section

variable (hfreed : FreedUpto targetOffset s s')
include hfreed

/-- What is left after freeing: all from the first offset of the data on. -/
theorem FreedUpto.holds (h : Inv s) (hm : Holds s m) : Holds s' (heldFrom (lowest s') m) := by
  obtain ⟨gone, hvalues, hkept, -⟩ := hfreed.values
  have hapart := hvalues ▸ h.apart
  obtain ⟨-, -, hcross⟩ := pairwise_append.mp hapart
  intro i b
  rw [heldFrom, hfreed.mem]
  have hleft : ∀ x ∈ s'.nodes.values, (s.mem x).byteAt i = some b → ¬i < lowest s' := by
    intro x hx hbyte
    have hx' : x ∈ s.nodes.values := hvalues ▸ mem_append_right gone hx
    have hcontains := (h.wf x hx').contains_of_byteAt hbyte
    have hle := hfreed.inv.lowest_le hx
    rw [hfreed.mem] at hle
    have := hcontains.1
    omega
  constructor
  · intro hb
    by_cases hlow : i < lowest s'
    · rw [if_pos hlow] at hb
      exact nomatch hb
    · rw [if_neg hlow] at hb
      obtain ⟨x, hx, hbyte⟩ := (hm i b).mp hb
      refine ⟨x, ?_, hbyte⟩
      rw [hvalues] at hx
      rcases mem_append.mp hx with hx | hx
      · -- a node that is gone ends before the first one that is left
        exfalso
        have hne := hkept (ne_nil_of_mem hx)
        obtain ⟨first, rest, hfirst⟩ := exists_cons_of_ne_nil hne
        have hfirst' : first ∈ s'.nodes.values := by simp [hfirst]
        have hle := hcross x hx first hfirst'
        have hx' : x ∈ s.nodes.values := hvalues ▸ mem_append_left _ hx
        have hcontains := (h.wf x hx').contains_of_byteAt hbyte
        have hlowest : lowest s' = (s.mem first).offset := by
          rw [lowest, hfirst, hfreed.mem]
          rfl
        have := hcontains.2
        omega
      · exact hx
  · rintro ⟨x, hx, hbyte⟩
    rw [if_neg (hleft x hx hbyte), hm i b]
    exact ⟨x, hvalues ▸ mem_append_right gone hx, hbyte⟩

/-- Nothing is freed from the target on. -/
theorem FreedUpto.heldFrom_eq (h : Inv s) (hm : Holds s m) {i : ℤ} (hi : targetOffset ≤ i) :
    heldFrom (lowest s') m i = m i := by
  obtain ⟨gone, hvalues, -, hends⟩ := hfreed.values
  unfold heldFrom
  split
  · rw [eq_comm, ← not_isSome_iff_eq_none, hm.isSome_iff h]
    rintro ⟨x, hx, hcontains⟩
    have hupper := hcontains.2
    have hlower := hcontains.1
    rw [hvalues] at hx
    rcases mem_append.mp hx with hx | hx
    · have := hends x hx
      omega
    · have hle := hfreed.inv.lowest_le hx
      rw [hfreed.mem] at hle
      omega
  · rfl

theorem FreedUpto.hiExact (hhi : HiExact s) : HiExact s' := by
  obtain ⟨gone, hvalues, hkept, -⟩ := hfreed.values
  cases gone with
  | nil =>
    rw [HiExact, hfreed.inmemHi, hhi, hfreed.mem, hvalues]
    rfl
  | cons a gone =>
    rw [HiExact, hfreed.inmemHi, hhi, hfreed.mem, hvalues,
      getLast?_append_of_ne_nil _ (hkept (cons_ne_nil a gone))]

end

/-- **`freeDataUpto`** frees data below the target, and reports the first offset that
is left. -/
theorem Inv.freeDataUpto (h : Inv s) (targetOffset : ℤ) : Ensures (freeDataUpto targetOffset)
      (fun lowestOffset s' => FreedUpto targetOffset s s' ∧ lowestOffset = lowest s') s := by
  simp only [Stmem.freeDataUpto, ensures_bind, ensures_get]
  refine (h.freeLoop targetOffset s.nodes.size).mono (fun _ s' hfreed => ?_)
  simp only [Stmem.lowestOffset, ensures_bind, ensures_get]
  rw [start_eq]
  cases hhead : s'.nodes.values.head? with
  | none => exact (ensures_pure _).mpr ⟨hfreed, by rw [lowest, hhead]⟩
  | some a => exact (ensures_pure _).mpr ⟨hfreed, by rw [lowest, hhead]⟩

end Freeing

/-! ## The end of the data -/

/-- **One past the largest offset that is held**, `0` if nothing is. -/
def IsEnd (m : ℤ → Option UInt8) (r : ℤ) : Prop :=
  (∀ i, (m i).isSome → i < r) ∧ ((m (r - 1)).isSome ∨ r = 0 ∧ ∀ i, ¬(m i).isSome)

/-- Every other node stands before the last. -/
theorem Inv.end_le_last {s : MemHdr} (h : Inv s) {a x : ℕ} {xs : List ℕ}
    (hvalues : s.nodes.values = xs ++ [a]) (hx : x ∈ s.nodes.values) :
    (s.mem x).end_ ≤ (s.mem a).end_ := by
  have hapart := hvalues ▸ h.apart
  rw [hvalues, mem_append, mem_singleton] at hx
  rcases hx with hx | rfl
  · have hle := (pairwise_append.mp hapart).2.2 x hx a mem_cons_self
    unfold end_ at *
    omega
  · exact le_rfl

/-- **`endOffset`** is right, and its assertion holds, while `inmem_hi` is right. -/
theorem Inv.endOffset {s : MemHdr} {m : ℤ → Option UInt8} (h : Inv s) (hm : Holds s m)
    (hhi : HiExact s) : Ensures endOffset (fun r s' => s' = s ∧ IsEnd m r) s := by
  simp only [Stmem.endOffset, ensures_bind, ensures_get, ensures_require, ensures_pure]
  rw [finish_eq]
  refine ⟨hhi.symm, trivial, ?_⟩
  cases hlast : s.nodes.values.getLast? with
  | none =>
    have hnil := getLast?_eq_none_iff.mp hlast
    have hnone : ∀ i, ¬(m i).isSome := by
      intro i hi
      obtain ⟨a, ha, -⟩ := (hm.isSome_iff h i).mp hi
      simp [hnil] at ha
    exact ⟨fun i hi => absurd hi (hnone i), .inr ⟨rfl, hnone⟩⟩
  | some a =>
    have ha := mem_of_getLast? hlast
    have hpos := (h.wf a ha).pos
    refine ⟨fun i hi => ?_, .inl ((hm.isSome_iff h _).mpr ⟨a, ha, ?_⟩)⟩
    · obtain ⟨x, hx, hcontains⟩ := (hm.isSome_iff h i).mp hi
      obtain ⟨init, hinit⟩ := getLast?_eq_some_iff.mp hlast
      exact hcontains.2.trans_le (h.end_le_last hinit hx)
    · show (s.mem a).offset ≤ (s.mem a).end_ - 1 ∧ (s.mem a).end_ - 1 < (s.mem a).end_
      unfold end_
      omega

/-! ## Histories -/

/-- **What a call leaves of what was held**, by what it reports. -/
def Effect.apply : Effect → (ℤ → Option UInt8) → ℤ → Option UInt8
  | .wrote offset data => written offset data
  | .freed lowestOffset => heldFrom lowestOffset
  | .unlinked range => unheld range
  | .cleared => fun _ _ => none
  | .nothing => id

/-- **What a history has left.** -/
def contents (effects : List Effect) : ℤ → Option UInt8 :=
  effects.foldl (fun m e => e.apply m) (fun _ => none)

/-- Something is held after a range that is unlinked. -/
def Effect.KeepsLast (m : ℤ → Option UInt8) : Effect → Prop
  | .unlinked range => ∃ i, range.end_ ≤ i ∧ (m i).isSome
  | _ => True

/-- **No call unlinks the last node.** -/
def KeepsLast : (ℤ → Option UInt8) → List Effect → Prop
  | _, [] => True
  | m, e :: effects => e.KeepsLast m ∧ KeepsLast (e.apply m) effects

/-- The offsets that a call writes. -/
def Call.Writes : Call → ℤ → Prop
  | .write offset data, i => offset ≤ i ∧ i < offset + data.length
  | _, _ => False

section Histories

variable {s : MemHdr} {m : ℤ → Option UInt8}

section

variable (h : Inv s)
include h

theorem Inv.nodeAt (hm : Holds s m) (location : ℤ) :
    Ensures (nodeAt location) (fun found s' => Same s s' ∧
      ∀ a, found = some a → a ∈ s.nodes.values ∧ (s.mem a).Contains location) s := by
  unfold Stmem.nodeAt
  split
  · exact (h.getBlockContainingLocation hm ‹_›).mono (fun _ _ hfound => ⟨hfound.1, hfound.2.1⟩)
  · rw [ensures_pure]
    exact ⟨Same.refl s, fun a ha => nomatch ha⟩

/-- What holds after a call that did `e`. -/
def After (s : MemHdr) (m : ℤ → Option UInt8) (e : Effect) (s' : MemHdr) : Prop :=
  Inv s' ∧ Holds s' (e.apply m) ∧ (HiExact s → e.KeepsLast m → HiExact s')

theorem after_same (hm : Holds s m) {s' : MemHdr} (hsame : Same s s') : After s m .nothing s' :=
  ⟨h.same hsame, hm.same hsame, fun hhi _ => hhi.same hsame⟩

theorem after_cleared : After s m .cleared { s with nodes := .empty, inmemHi := 0 } := by
  refine ⟨h.sublist ?_ rfl rfl rfl, fun i b => ?_, fun _ _ => rfl⟩
  · exact nil_sublist _
  · refine iff_of_false (by simp [Effect.apply]) ?_
    rintro ⟨a, ha, -⟩
    exact absurd ha not_mem_nil

/-- Whether a node is pending does not matter for its data. -/
theorem after_setPending (hm : Holds s m) {s1 : MemHdr} (hsame : Same s s1) (a : ℕ)
    (writePending : Bool) : After s m .nothing
      { s1 with mem := Function.update s1.mem a { s1.mem a with writePending } } := by
  have h1 := h.same hsame
  have hm1 := hm.same hsame
  let mem := Function.update s1.mem a { s1.mem a with writePending }
  have hdata : ∀ x, (mem x).offset = (s1.mem x).offset ∧ (mem x).length = (s1.mem x).length ∧
      (mem x).data = (s1.mem x).data := by
    intro x
    by_cases hx : x = a
    · subst hx
      simp [mem]
    · simp [mem, hx]
  have hend : ∀ x, (mem x).end_ = (s1.mem x).end_ := by
    intro x
    rw [end_, (hdata x).1, (hdata x).2.1, end_]
  have hbyte : ∀ x i, (mem x).byteAt i = (s1.mem x).byteAt i := by
    intro x i
    rw [byteAt, (hdata x).1, (hdata x).2.2, byteAt]
  refine ⟨⟨fun x hx => ?_, ?_, h1.fresh, h1.size⟩, fun i b => ?_, fun hhi _ => ?_⟩
  · obtain ⟨hoffset, hlength, hbytes⟩ := hdata x
    obtain ⟨hnonneg, hpos, hfull, hwf⟩ := h1.wf x hx
    refine ⟨?_, ?_, ?_, ?_⟩
    · rwa [hoffset]
    · rwa [hlength]
    · rwa [hlength]
    · rwa [hlength, hbytes]
  · refine h1.apart.imp (fun {x y} hxy => ?_)
    rw [hend, (hdata y).1]
    exact hxy
  · simp only [mem] at hbyte
    rw [show Effect.nothing.apply m i = m i from rfl, hm1 i b]
    simp only [hbyte]
  · have hhi1 := hhi.same hsame
    rw [HiExact] at hhi1 ⊢
    rw [show ({ s1 with mem := mem } : MemHdr).inmemHi = s1.inmemHi from rfl, hhi1]
    cases s1.nodes.values.getLast? with
    | none => rfl
    | some x => exact (hend x).symm

/-- A node that is not the last has nodes after it. -/
theorem Inv.ne_nil_of_keepsLast (hm : Holds s m) {a : ℕ} {xs ys : List ℕ}
    (hvalues : s.nodes.values = xs ++ a :: ys)
    (hkeeps : (Effect.unlinked (s.mem a).dataRange).KeepsLast m) : ys ≠ [] := by
  rintro rfl
  obtain ⟨i, hlower, hi⟩ := hkeeps
  change (s.mem a).end_ ≤ i at hlower
  obtain ⟨x, hx, hcontains⟩ := (hm.isSome_iff h i).mp hi
  exact hlower.not_gt (hcontains.2.trans_le (h.end_le_last hvalues hx))

/-- **One call.** -/
theorem Inv.runCall (hm : Holds s m) (call : Call)
    (hwrite : ∀ offset data, call = .write offset data → 0 ≤ offset)
    (hfree : ∀ i, call.Writes i → ¬(m i).isSome) :
    Ensures (runCall call) (fun e s' => After s m e s' ∧
      ∀ i, (e.apply m i).isSome → (m i).isSome ∨ call.Writes i) s := by
  cases call with
  | write offset data =>
    simp only [Stmem.runCall, ensures_bind]
    have hran := Inv.write h hm (fun hhi : HiExact s => hhi) (hwrite offset data rfl) data
      (fun i hlower hupper => hfree i ⟨hlower, hupper⟩)
    refine hran.mono (fun _ s' hs' => (ensures_pure _).mpr ?_)
    obtain ⟨h', hm', hhi'⟩ := hs'
    refine ⟨⟨h', hm', fun hhi _ => hhi' hhi⟩, fun i hi => ?_⟩
    by_cases hin : offset ≤ i ∧ i < offset + data.length
    · exact .inr hin
    · left
      change (written offset data m i).isSome at hi
      rwa [written, if_neg hin] at hi
  | freeDataUpto targetOffset =>
    simp only [Stmem.runCall, ensures_bind]
    refine (h.freeDataUpto targetOffset).mono ?_
    rintro lowestOffset s' ⟨hfreed, rfl⟩
    refine (ensures_pure _).mpr ⟨⟨hfreed.inv, hfreed.holds h hm,
      fun hhi _ => hfreed.hiExact hhi⟩, fun i hi => .inl ?_⟩
    change (heldFrom (lowest s') m i).isSome at hi
    unfold heldFrom at hi
    split at hi
    · simp at hi
    · exact hi
  | unlink location =>
    simp only [Stmem.runCall, ensures_bind]
    refine (h.nodeAt hm location).mono ?_
    rintro found s1 ⟨hsame, hfound⟩
    have h1 := h.same hsame
    have hm1 := hm.same hsame
    cases found with
    | none => exact (ensures_pure _).mpr ⟨after_same h hm hsame, fun _ => .inl⟩
    | some a =>
      obtain ⟨ha, -⟩ := hfound a rfl
      rw [← hsame.values] at ha
      obtain ⟨xs, ys, hvalues⟩ := append_of_mem ha
      simp only [ensures_bind, ensures_get]
      refine (h1.unlink hvalues).mono ?_
      rintro removed s2 ⟨h2, hmem2, hhi2, hvalues2⟩
      cases removed with
      | false =>
        refine (ensures_pure _).mpr ⟨⟨h2, hm1.congr hvalues2 hmem2, fun hhi _ => ?_⟩,
          fun _ => .inl⟩
        exact (hhi.same hsame).congr hvalues2 hmem2 hhi2
      | true =>
        refine (ensures_pure _).mpr ⟨⟨h2, hm1.unlinked h1 hvalues hvalues2 hmem2,
          fun hhi hkeeps => ?_⟩, fun i hi => .inl ?_⟩
        · exact (hhi.same hsame).unlinked hvalues hvalues2 hmem2 hhi2
            (h1.ne_nil_of_keepsLast hm1 hvalues hkeeps)
        · change (unheld (s1.mem a).dataRange m i).isSome at hi
          unfold unheld at hi
          split at hi
          · simp at hi
          · exact hi
  | freeContent =>
    simp only [Stmem.runCall, Stmem.freeContent, ensures_bind, ensures_modify, ensures_pure]
    exact ⟨after_cleared h, fun i hi => absurd hi (by simp [Effect.apply])⟩
  | setPending location writePending =>
    simp only [Stmem.runCall, ensures_bind]
    refine (h.nodeAt hm location).mono ?_
    rintro found s1 ⟨hsame, hfound⟩
    cases found with
    | none => exact (ensures_pure _).mpr ⟨after_same h hm hsame, fun _ => .inl⟩
    | some a =>
      simp only [ensures_bind, ensures_modify, ensures_pure]
      exact ⟨after_setPending h hm hsame a writePending, fun _ => .inl⟩
  | lookup location =>
    simp only [Stmem.runCall, ensures_bind]
    exact (h.nodeAt hm location).mono (fun _ s' hs' =>
      (ensures_pure _).mpr ⟨after_same h hm hs'.1, fun _ => .inl⟩)

end

/-- **All calls**, when they write to different offsets. -/
theorem Inv.runCalls (calls : List Call) (h : Inv s) (hm : Holds s m)
    (hwrite : ∀ offset data, .write offset data ∈ calls → 0 ≤ offset)
    (hfree : ∀ call ∈ calls, ∀ i, call.Writes i → ¬(m i).isSome)
    (hdisjoint : calls.Pairwise (fun c c' => ∀ i, ¬(c.Writes i ∧ c'.Writes i))) :
    Ensures (runCalls calls) (fun effects s' => Inv s' ∧
      Holds s' (effects.foldl (fun m e => e.apply m) m) ∧
      (HiExact s → KeepsLast m effects → HiExact s')) s := by
  induction calls generalizing s m with
  | nil => exact (ensures_pure _).mpr ⟨h, hm, fun hhi _ => hhi⟩
  | cons call calls ih =>
    obtain ⟨hfirst, hrest⟩ := pairwise_cons.mp hdisjoint
    simp only [Stmem.runCalls, ensures_bind]
    refine (h.runCall hm call (fun offset data hcall => hwrite offset data (by simp [hcall]))
      (hfree call mem_cons_self)).mono ?_
    rintro e s1 ⟨⟨h1, hm1, hhi1⟩, hheld⟩
    rw [ensures_bind]
    refine (ih h1 hm1 (fun offset data hcall => hwrite offset data (mem_cons_of_mem call hcall))
      ?_ hrest).mono ?_
    · intro call' hcall' i hi hsome
      rcases hheld i hsome with hsome | hboth
      · exact hfree call' (mem_cons_of_mem call hcall') i hi hsome
      · exact hfirst call' hcall' i ⟨hboth, hi⟩
    · rintro effects s2 ⟨h2, hm2, hhi2⟩
      exact (ensures_pure _).mpr ⟨h2, hm2, fun hhi hkeeps => hhi2 (hhi1 hhi hkeeps.1) hkeeps.2⟩

theorem inv_new (mem : ℕ → MemNode) : Inv (.new mem) :=
  ⟨nofun, List.Pairwise.nil, nofun, rfl⟩

theorem holds_new (mem : ℕ → MemNode) : Holds (.new mem) (fun _ => none) := by
  intro i b
  refine iff_of_false (by simp) ?_
  rintro ⟨a, ha, -⟩
  exact absurd ha not_mem_nil

/-- **The memory of an object refines a partial map from offsets to bytes.** After
any history whose calls write to different offsets, in any order, no assertion has
failed, `hasContigousContentRange` tells whether all of a range is held, `copy` from
an offset that is held gives the bytes of the longest run from there on, up to the
length, `unionNotEmpty` tells whether something of a range is held, `freeDataUpto`
leaves what is held from its target on, and, unless a call has unlinked the last node,
`endOffset` is one past the largest offset that is held. -/
theorem memHdr_refines (mem : ℕ → MemNode) (calls : List Call)
    (hwrite : ∀ offset data, .write offset data ∈ calls → 0 ≤ offset)
    (hdisjoint : calls.Pairwise (fun c c' => ∀ i, ¬(c.Writes i ∧ c'.Writes i))) :
    Ensures (runCalls calls) (fun effects s =>
      (∀ range : Range, 0 ≤ range.start →
        Ensures (hasContigousContentRange range) (fun found _ =>
          found = true ↔
            ∀ i, range.start ≤ i → i < range.end_ → (contents effects i).isSome) s) ∧
      (∀ offset length, (contents effects offset).isSome → 0 < length →
        Ensures (copy offset length)
          (fun bytes _ => bytes = heldRun (contents effects) length offset) s) ∧
      (∀ offset length, 0 ≤ offset →
        Ensures (unionNotEmpty offset length) (fun found _ =>
          found = true ↔ ∃ i, offset ≤ i ∧ i < offset + length ∧ (contents effects i).isSome) s) ∧
      (∀ targetOffset, Ensures (freeDataUpto targetOffset) (fun lowestOffset _ =>
        ∀ i, targetOffset ≤ i →
          heldFrom lowestOffset (contents effects) i = contents effects i) s) ∧
      (KeepsLast (fun _ => none) effects →
        Ensures endOffset (fun r _ => IsEnd (contents effects) r) s)) (.new mem) := by
  refine ((inv_new mem).runCalls calls (holds_new mem) hwrite (by simp) hdisjoint).mono ?_
  rintro effects s ⟨h, hm, hhi⟩
  refine ⟨fun range hstart => ?_, fun offset length hoffset hlength => ?_,
    fun offset length hoffset => ?_, fun targetOffset => ?_, fun hkeeps => ?_⟩
  · exact (h.hasContigousContentRange hm hstart).mono (fun _ _ hfound => hfound.2)
  · exact (h.copy hm hoffset hlength).mono (fun _ _ hbytes => hbytes.2)
  · exact (h.unionNotEmpty hm hoffset length).mono (fun _ _ hfound => hfound.2)
  · refine (h.freeDataUpto targetOffset).mono ?_
    rintro lowestOffset s' ⟨hfreed, rfl⟩
    exact fun i hi => hfreed.heldFrom_eq h hm hi
  · exact (h.endOffset hm (hhi rfl hkeeps)).mono (fun _ _ hend => hend.2)

/-- Two pieces that are written in the wrong order. -/
theorem memHdr_refines_sparse :
    Ensures (runCalls [.write 20 [7, 8], .write 0 [9], .freeDataUpto 5])
      (fun effects s => ∀ offset length, 0 ≤ offset →
        Ensures (unionNotEmpty offset length) (fun found _ =>
          found = true ↔ ∃ i, offset ≤ i ∧ i < offset + length ∧ (contents effects i).isSome) s)
      (.new fun _ => .new 0) := by
  refine (memHdr_refines _ [.write 20 [7, 8], .write 0 [9], .freeDataUpto 5] ?_ ?_).mono
    (fun _ _ h => h.2.2.1)
  · intro offset data hcall
    simp only [List.mem_cons, Call.write.injEq, List.not_mem_nil, or_false, reduceCtorEq] at hcall
    omega
  · refine List.pairwise_cons.mpr ⟨fun c hc i hi => ?_, List.pairwise_pair.mpr fun i hi => hi.2⟩
    rcases List.mem_pair.mp hc with rfl | rfl
    · simp only [Call.Writes, List.length_cons, List.length_nil] at hi
      omega
    · exact hi.2

/-- Writing one byte. -/
theorem runCall_write_singleton {s s1 s2 s3 : MemHdr} {a : ℕ} {location : ℤ} {b : UInt8}
    (hlocation : 0 ≤ location) (hunion : unionNotEmpty location 1 s = some (false, s1))
    (hnode : nodeToRecieve location s1 = some (a, s2))
    (hwrote : writeAvailable a location [b] s2 = some (1, s3)) :
    runCall (.write location [b]) s = some (.wrote location [b], s3) := by
  have hloop : writeLoop location [b] s1 = some ((), s3) := by
    rw [writeLoop, if_neg (cons_ne_nil b [])]
    refine bind_eq_some_iff.mpr ⟨(a, s2), hnode, bind_eq_some_iff.mpr ⟨(1, s3), hwrote, ?_⟩⟩
    show (if 1 = 0 then failure else writeLoop (location + (1 : ℕ)) []) s3 = _
    rw [if_neg Nat.one_ne_zero, writeLoop, if_pos rfl]
    rfl
  have hwrite : write location [b] s = some ((), s3) := by
    refine bind_eq_some_iff.mpr ⟨(false, s1), hunion, ?_⟩
    rw [require, if_pos hlocation]
    exact hloop
  exact bind_eq_some_iff.mpr ⟨((), s3), hwrite, rfl⟩

/-- **Unlinking the last node**: `inmem_hi` stays where it was, and `endOffset` fails
its assertion. -/
theorem endOffset_fails_of_unlink_last :
    ∃ effects s, runCalls [.write 0 [7], .unlink 0] (.new fun _ => .new 0) = some (effects, s) ∧
      endOffset s = none := by
  have hwrite := runCall_write_singleton (s := .new fun _ => .new 0) (b := 7)
    (le_refl 0) rfl rfl rfl
  exact ⟨_, _, bind_eq_some_iff.mpr ⟨_, hwrite, rfl⟩, rfl⟩

end Histories

end Stmem
