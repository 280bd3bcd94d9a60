import Revalle.Sbuf.SBuf

/-!
# What an operation on one buffer leaves alone

Buffers that share a blob cannot be told apart from buffers that do not,
because of one frame condition: an operation on `x` leaves the used part of a
blob alone as long as anyone else refers to it. It may use more of the blob,
or leave for a new one. `Frame x s s'` is this condition, and `Turns x l s s'`
adds that the content of `x` is now `l`.

An operation in place is a `Heap.revise`, and one lemma says when that is
sound.
-/

namespace Sbuf

open Memory Function Finset Heap
open Throwing

variable {V : Type}

/-- **What holds of the buffers and blobs between two operations.** -/
structure Inv (s : Heap V) : Prop where
  prototype_lt : storePrototype < s.nextBlob
  store_lt : ∀ v, s.store v < s.nextBlob
  lockers_lt : ∀ b ∈ s.lockers, b < s.nextBlob
  within : ∀ v, s.off v + s.length v ≤ (s.blob v).size
  short : ∀ v, s.length v ≤ maxSize
  size_le : ∀ b < s.nextBlob, (s.blobs b).size ≤ (s.blobs b).capacity
  capacity_le : ∀ b < s.nextBlob, (s.blobs b).capacity ≤ maxSize

/-- Someone else than buffer `x` refers to the blob. -/
def Shared (s : Heap V) (x : V) (b : ℕ) : Prop :=
  (∃ v, v ≠ x ∧ s.store v = b) ∨ b ∈ s.lockers ∨ b = storePrototype

/-- **What an operation on buffer `x` leaves alone**: the other buffers, the
lockers, and the used part of every blob that someone else refers to. -/
structure Frame (x : V) (s s' : Heap V) : Prop where
  sbufs : ∀ v, v ≠ x → s'.sbufs v = s.sbufs v
  lockers : s'.lockers = s.lockers
  nextBlob : s.nextBlob ≤ s'.nextBlob
  capacity : ∀ b < s.nextBlob, Shared s x b → (s'.blobs b).capacity = (s.blobs b).capacity
  size : ∀ b < s.nextBlob, Shared s x b → (s.blobs b).size ≤ (s'.blobs b).size
  mem : ∀ b < s.nextBlob, Shared s x b → ∀ i < (s.blobs b).size,
    (s'.blobs b).mem i = (s.blobs b).mem i

/-- **An operation on buffer `x` that leaves it with the content `l`.** -/
structure Turns (x : V) (l : List UInt8) (s s' : Heap V) : Prop extends Frame x s s' where
  inv : Inv s'
  content : s'.content x = l

section

variable {x : V} {l l' : List UInt8} {s s' s'' : Heap V}

@[simp] theorem length_content (s : Heap V) (x : V) : (s.content x).length = s.length x :=
  length_window _ _ _

theorem content_eq_nil (h : s.length x = 0) : s.content x = [] :=
  List.eq_nil_of_length_eq_zero ((length_content s x).trans h)

theorem Inv.blob_le (hs : Inv s) (x : V) : (s.blob x).size ≤ (s.blob x).capacity :=
  hs.size_le _ (hs.store_lt x)

theorem Inv.length_lt (hs : Inv s) (x : V) : s.length x < 2 ^ 32 := by
  have := hs.short x
  unfold maxSize at this
  omega

theorem Turns.length (h : Turns x l s s') : s'.length x = l.length := by
  rw [← length_content, h.content]

theorem Frame.store (h : Frame x s s') {v : V} (hv : v ≠ x) : s'.store v = s.store v :=
  congrArg SBuf.store (h.sbufs v hv)

theorem Frame.shared (h : Frame x s s') (b : ℕ) : Shared s' x b ↔ Shared s x b := by
  unfold Shared
  rw [h.lockers]
  refine or_congr_left (exists_congr fun v => and_congr_right fun hv => ?_)
  rw [h.store hv]

theorem Frame.refl (x : V) (s : Heap V) : Frame x s s :=
  ⟨fun _ _ => rfl, rfl, le_rfl, fun _ _ _ => rfl, fun _ _ _ => le_rfl, fun _ _ _ _ _ => rfl⟩

theorem Frame.trans (h : Frame x s s') (h' : Frame x s' s'') : Frame x s s'' where
  sbufs v hv := (h'.sbufs v hv).trans (h.sbufs v hv)
  lockers := h'.lockers.trans h.lockers
  nextBlob := h.nextBlob.trans h'.nextBlob
  capacity b hb hx :=
    (h'.capacity b (hb.trans_le h.nextBlob) ((h.shared b).mpr hx)).trans (h.capacity b hb hx)
  size b hb hx :=
    (h.size b hb hx).trans (h'.size b (hb.trans_le h.nextBlob) ((h.shared b).mpr hx))
  mem b hb hx i hi :=
    (h'.mem b (hb.trans_le h.nextBlob) ((h.shared b).mpr hx) i
      (hi.trans_le (h.size b hb hx))).trans (h.mem b hb hx i hi)

/-- The blob of another buffer is shared. -/
theorem shared_of_ne (s : Heap V) {v : V} (hv : v ≠ x) : Shared s x (s.store v) :=
  .inl ⟨v, hv, rfl⟩

/-- **Sharing a blob is no risk**: an operation on `x` does not change the
content of another buffer. -/
theorem Frame.content (h : Frame x s s') (hs : Inv s) {v : V} (hv : v ≠ x) :
    s'.content v = s.content v := by
  have hlt := hs.store_lt v
  have hin := hs.within v
  unfold Heap.content Heap.blob Heap.off Heap.length
  unfold off length blob at hin
  rw [h.store hv, h.sbufs v hv]
  exact window_congr fun i hi => h.mem _ hlt (shared_of_ne s hv) _ (by omega)

/-- **What is left to see to**: that `x` lies in its blob, and that no blob is too
large. -/
theorem Frame.inv (h : Frame x s s') (hs : Inv s) (hstore : s'.store x < s'.nextBlob)
    (hwithin : s'.off x + s'.length x ≤ (s'.blob x).size)
    (hblobs : ∀ b < s'.nextBlob, (s'.blobs b).size ≤ (s'.blobs b).capacity ∧
      (s'.blobs b).capacity ≤ maxSize) : Inv s' := by
  have hbuf : ∀ v, s'.store v < s'.nextBlob ∧ s'.off v + s'.length v ≤ (s'.blob v).size := by
    intro v
    by_cases hv : v = x
    · exact hv ▸ ⟨hstore, hwithin⟩
    · have hlt := hs.store_lt v
      have hin := (hs.within v).trans (h.size _ hlt (shared_of_ne s hv))
      unfold Heap.blob Heap.off Heap.length at *
      rw [h.store hv, h.sbufs v hv]
      exact ⟨hlt.trans_le h.nextBlob, hin⟩
  refine ⟨hs.prototype_lt.trans_le h.nextBlob, fun v => (hbuf v).1, fun b hb => ?_,
    fun v => (hbuf v).2, fun v => ?_, fun b hb => (hblobs b hb).1, fun b hb => (hblobs b hb).2⟩
  · exact (hs.lockers_lt b (h.lockers ▸ hb)).trans_le h.nextBlob
  · obtain ⟨hsize, hmax⟩ := hblobs _ (hbuf v).1
    exact (Nat.le_add_left _ _).trans ((hbuf v).2.trans (hsize.trans hmax))

theorem Turns.refl (hs : Inv s) (x : V) : Turns x (s.content x) s s := ⟨.refl x s, hs, rfl⟩

theorem Turns.trans (h : Turns x l s s') (h' : Turns x l' s' s'') : Turns x l' s s'' :=
  ⟨h.toFrame.trans h'.toFrame, h'.inv, h'.content⟩

end

/-! ## References -/

section

variable [Fintype V] {x : V} {s : Heap V} {b : ℕ}

/-- The only reference to its blob is that of `x`. -/
theorem not_shared_of_lockCount (h : s.lockCount (s.store x) = 1) : ¬ Shared s x (s.store x) := by
  have hx : x ∈ univ.filter fun v => s.store v = s.store x := by simp
  unfold lockCount at h
  rintro (⟨v, hv, hstore⟩ | hlock | hproto)
  · have hv' : v ∈ univ.filter fun v => s.store v = s.store x := by simp [hstore]
    have := one_lt_card.mpr ⟨v, hv', x, hx, hv⟩
    omega
  · have := card_pos.mpr ⟨x, hx⟩
    have := List.count_pos_iff.mpr hlock
    omega
  · have := card_pos.mpr ⟨x, hx⟩
    rw [if_pos hproto] at h
    omega

/-- A blob that someone refers to is alive. -/
theorem lockCount_pos (h : Shared s x b ∨ b = s.store x) : 0 < s.lockCount b := by
  have hpos : ∀ v, s.store v = b → 0 < (univ.filter fun v => s.store v = b).card :=
    fun v hv => card_pos.mpr ⟨v, by simp [hv]⟩
  unfold lockCount
  rcases h with (⟨v, -, hv⟩ | hlock | hproto) | hx
  · have := hpos v hv
    omega
  · have := List.count_pos_iff.mpr hlock
    omega
  · rw [if_pos hproto]
    omega
  · have := hpos x hx.symm
    omega

end

/-! ## Operations in place -/

section

variable [DecidableEq V] {x : V} {s : Heap V}

/-- The heap after an operation on `x` that keeps its blob: what the blob is
now, and which part of it `x` is. -/
def Heap.revise (x : V) (blob : MemBlob) (off len : ℕ) (s : Heap V) : Heap V :=
  { s with
    sbufs := Function.update s.sbufs x ⟨s.store x, off, len⟩
    blobs := Function.update s.blobs (s.store x) blob }

variable {blob : MemBlob} {off len : ℕ}

@[simp] theorem revise_store : (s.revise x blob off len).store x = s.store x := by
  simp [revise, store]

@[simp] theorem revise_off : (s.revise x blob off len).off x = off := by
  simp [Heap.revise, Heap.off]

@[simp] theorem revise_length : (s.revise x blob off len).length x = len := by
  simp [revise, length]

@[simp] theorem revise_blobs : (s.revise x blob off len).blobs (s.store x) = blob := by
  simp [revise]

@[simp] theorem revise_blob : (s.revise x blob off len).blob x = blob := by
  unfold Heap.blob
  rw [revise_store, revise_blobs]

@[simp] theorem revise_spaceSize :
    (s.revise x blob off len).spaceSize x = blob.capacity - blob.size := by
  rw [spaceSize, revise_blob, MemBlob.spaceSize]

theorem revise_sbufs_ne {v : V} (hv : v ≠ x) :
    (s.revise x blob off len).sbufs v = s.sbufs v := update_of_ne hv ..

theorem revise_store_eq (v : V) : (s.revise x blob off len).store v = s.store v := by
  by_cases hv : v = x
  · rw [hv, revise_store]
  · exact congrArg SBuf.store (revise_sbufs_ne hv)

@[simp] theorem revise_lockCount [Fintype V] (b : ℕ) :
    (s.revise x blob off len).lockCount b = s.lockCount b := by
  unfold lockCount
  simp only [revise_store_eq]
  rfl

@[simp] theorem revise_shared (b : ℕ) : Shared (s.revise x blob off len) x b ↔ Shared s x b := by
  unfold Shared
  simp only [revise_store_eq]
  rfl

@[simp] theorem setBlob_revise (f : MemBlob → MemBlob) :
    (s.revise x blob off len).setBlob (s.store x) f = s.revise x (f blob) off len := by
  unfold setBlob
  unfold revise
  simp

theorem revise_self (x : V) (s : Heap V) : s.revise x (s.blob x) (s.off x) (s.length x) = s := by
  show { s with
      sbufs := update s.sbufs x (s.sbufs x)
      blobs := update s.blobs (s.store x) (s.blobs (s.store x)) } = s
  rw [update_eq_self, update_eq_self]

theorem setBlob_eq_revise (x : V) (s : Heap V) (f : MemBlob → MemBlob) :
    s.setBlob (s.store x) f = s.revise x (f (s.blob x)) (s.off x) (s.length x) := by
  conv_lhs => rw [← revise_self x s, revise_store, setBlob_revise]

@[simp] theorem setBuf_revise (f : SBuf → SBuf) (h : (f ⟨s.store x, off, len⟩).store = s.store x) :
    (s.revise x blob off len).setBuf x f
      = s.revise x blob (f ⟨s.store x, off, len⟩).off (f ⟨s.store x, off, len⟩).len := by
  unfold setBuf revise
  simp only [update_self, update_idem]
  generalize f ⟨s.store x, off, len⟩ = buf at h
  rw [← h]

theorem setBuf_eq_revise (x : V) (s : Heap V) (f : SBuf → SBuf)
    (h : (f (s.sbufs x)).store = s.store x) :
    s.setBuf x f = s.revise x (s.blob x) (f (s.sbufs x)).off (f (s.sbufs x)).len := by
  conv_lhs => rw [← revise_self x s]
  exact setBuf_revise f h

/-- **An operation in place is sound** when `x` stays inside its blob, and the
blob stays as it was as far as others use it. -/
theorem turns_revise {l : List UInt8} (hs : Inv s) (hcapacity : blob.capacity = (s.blob x).capacity)
    (hsize : blob.size ≤ (s.blob x).capacity) (hwithin : off + len ≤ blob.size)
    (hkept : Shared s x (s.store x) → (s.blob x).size ≤ blob.size ∧
      ∀ i < (s.blob x).size, blob.mem i = (s.blob x).mem i)
    (hcontent : window blob.mem off len = l) : Turns x l s (s.revise x blob off len) := by
  set s' := s.revise x blob off len with hs'
  have hblobs : ∀ b, b ≠ s.store x → s'.blobs b = s.blobs b :=
    fun b hb => update_of_ne hb ..
  have hself : s'.blobs (s.store x) = blob := revise_blobs
  have hkept' : ∀ b, Shared s x b → (s'.blobs b).capacity = (s.blobs b).capacity ∧
      (s.blobs b).size ≤ (s'.blobs b).size ∧
      ∀ i < (s.blobs b).size, (s'.blobs b).mem i = (s.blobs b).mem i := by
    intro b hb
    by_cases hx : b = s.store x
    · subst hx
      rw [hself]
      exact ⟨hcapacity, hkept hb⟩
    · rw [hblobs b hx]
      exact ⟨rfl, le_rfl, fun _ _ => rfl⟩
  have hframe : Frame x s s' :=
    ⟨fun v hv => revise_sbufs_ne hv, rfl, le_rfl, fun b _ hb => (hkept' b hb).1,
      fun b _ hb => (hkept' b hb).2.1, fun b _ hb => (hkept' b hb).2.2⟩
  have hblob : ∀ b < s.nextBlob, (s'.blobs b).size ≤ (s'.blobs b).capacity ∧
      (s'.blobs b).capacity ≤ maxSize := by
    intro b hb
    by_cases hx : b = s.store x
    · subst hx
      rw [hself, hcapacity]
      exact ⟨hsize, hs.capacity_le _ hb⟩
    · rw [hblobs b hx]
      exact ⟨hs.size_le b hb, hs.capacity_le b hb⟩
  refine ⟨hframe, hframe.inv hs ?_ ?_ hblob, ?_⟩
  · rw [revise_store]
    exact hs.store_lt x
  · rwa [hs', revise_off, revise_length, revise_blob]
  · rw [content, hs', revise_blob, revise_off, revise_length, hcontent]

end

/-! ## Allocation -/

theorem grossSize_le {n : ℕ} (h : n ≤ maxSize) : grossSize n ≤ maxSize := by
  unfold grossSize
  cases hf : bufSizes.find? (n ≤ ·) with
  | none => exact h
  | some size =>
    have hall : ∀ size ∈ bufSizes, size ≤ maxSize := by decide
    exact hall size (List.mem_of_find?_eq_some hf)

section

variable [DecidableEq V] {x : V} {s s' : Heap V} {l : List UInt8}

@[simp] theorem setBuf_off_self (f : SBuf → SBuf) : (s.setBuf x f).off x = (f (s.sbufs x)).off := by
  simp [setBuf, off]

theorem setBuf_sbufs_ne (f : SBuf → SBuf) {v : V} (hv : v ≠ x) :
    (s.setBuf x f).sbufs v = s.sbufs v := update_of_ne hv _ _

omit [DecidableEq V] in
/-- **A buffer moves to a new blob** that holds its content and nothing
else. -/
theorem Turns.of_new (s' : Heap V) (blob : MemBlob) (hs : Inv s) {n : ℕ}
    (hbufs : ∀ v, v ≠ x → s'.sbufs v = s.sbufs v) (hlockers : s'.lockers = s.lockers)
    (hnext : s'.nextBlob = s.nextBlob + 1) (hbuf : s'.sbufs x = ⟨s.nextBlob, 0, n⟩)
    (hblobs : s'.blobs = update s.blobs s.nextBlob blob)
    (hsize : blob.size = n) (hcapacity : n ≤ blob.capacity) (hmax : blob.capacity ≤ maxSize)
    (hcontent : window blob.mem 0 n = l) :
    Turns x l s s' ∧ ¬ Shared s' x (s'.store x) ∧ s'.blob x = blob := by
  have hold : ∀ b < s.nextBlob, s'.blobs b = s.blobs b := fun b hb => by
    rw [hblobs, update_of_ne (Nat.ne_of_lt hb)]
  have hnew : s'.blobs s.nextBlob = blob := by rw [hblobs, update_self]
  have hframe : Frame x s s' :=
    ⟨hbufs, hlockers, by omega, fun b hb _ => by rw [hold b hb], fun b hb _ => by rw [hold b hb],
      fun b hb _ i _ => by rw [hold b hb]⟩
  have hblob' : ∀ b < s'.nextBlob, (s'.blobs b).size ≤ (s'.blobs b).capacity ∧
      (s'.blobs b).capacity ≤ maxSize := by
    intro b hb
    by_cases hb' : b < s.nextBlob
    · rw [hold b hb']
      exact ⟨hs.size_le b hb', hs.capacity_le b hb'⟩
    · have hb'' : b = s.nextBlob := by omega
      rw [hb'', hnew]
      exact ⟨by omega, hmax⟩
  refine ⟨⟨hframe, hframe.inv hs ?_ ?_ hblob', ?_⟩, ?_, ?_⟩
  · show (s'.sbufs x).store < s'.nextBlob
    rw [hbuf, hnext]
    exact Nat.lt_succ_self _
  · show (s'.sbufs x).off + (s'.sbufs x).len ≤ (s'.blobs (s'.sbufs x).store).size
    rw [hbuf, hnew, hsize]
    exact (Nat.zero_add n).le
  · show window (s'.blobs (s'.sbufs x).store).mem (s'.sbufs x).off (s'.sbufs x).len = l
    rw [hbuf, hnew]
    exact hcontent
  · rw [hframe.shared]
    show ¬ Shared s x (s'.sbufs x).store
    rw [hbuf]
    rintro (⟨v, -, hv⟩ | hlock | hproto)
    · exact absurd (hs.store_lt v) (by rw [hv]; exact lt_irrefl _)
    · exact absurd (hs.lockers_lt _ hlock) (lt_irrefl _)
    · exact absurd hs.prototype_lt (by rw [← hproto]; exact lt_irrefl _)
  · show s'.blobs (s'.sbufs x).store = blob
    rw [hbuf, hnew]

end

/-! ## Memory areas -/

section

variable [Fintype V] [DecidableEq V] {x : V} {s : Heap V}

/-- The bytes of an area. -/
def Area.bytes (s : Heap V) : Area → List UInt8
  | outside data => data
  | inside b off n => window (s.blobs b).mem off n

/-- The area can be read. -/
def Area.Readable (s : Heap V) : Area → Prop
  | outside _ => True
  | inside b off n => 0 < s.lockCount b ∧ off + n ≤ (s.blobs b).capacity

omit [Fintype V] [DecidableEq V] in
@[simp] theorem Area.length_bytes (s : Heap V) (area : Area) :
    (area.bytes s).length = area.size := by
  cases area with
  | outside data => rfl
  | inside b off n => exact length_window _ _ _

/-- The blob with more bytes in use. -/
def MemBlob.grow (data : List UInt8) (blob : MemBlob) : MemBlob :=
  { blob with mem := write blob.mem blob.size data, size := blob.size + data.length }

omit [Fintype V] [DecidableEq V] in
theorem setBlob_grow_nil (s : Heap V) (b : ℕ) : s.setBlob b (MemBlob.grow []) = s := by
  unfold setBlob MemBlob.grow
  simp

omit [DecidableEq V] in
theorem Area.Readable.inside {b off n : ℕ} (h : 0 < s.lockCount b)
    (hn : off + n ≤ (s.blobs b).capacity) : (Area.inside b off n).Readable s := ⟨h, hn⟩

omit [DecidableEq V] in
theorem Area.read_gives {area : Area} (h : area.Readable s) (Q : List UInt8 → Heap V → Prop)
    (E : Heap V → Prop) (hQ : Q (area.bytes s) s) : Gives area.read Q E s := by
  cases area with
  | outside data =>
    rw [Area.read, gives_pure]
    exact hQ
  | inside b off n =>
    simp only [Area.read, gives_bind, gives_get, gives_defined, gives_pure]
    exact ⟨h, hQ⟩

omit [Fintype V] [DecidableEq V] in
theorem poke_gives {b start : ℕ} {data : List UInt8} {Q : Unit → Heap V → Prop}
    {E : Heap V → Prop} (h : start + data.length ≤ (s.blobs b).capacity)
    (hQ : Q () (s.setBlob b fun blob => { blob with mem := write blob.mem start data })) :
    Gives (poke b start data) Q E s := by
  unfold poke
  simp only [gives_bind, gives_get, gives_defined, gives_modify]
  exact ⟨h, hQ⟩

omit [DecidableEq V] in
/-- `MemBlob::append` adds the bytes of the area, or throws when there is no
room. -/
theorem MemBlob.append_gives {b : ℕ} {area : Area} (hr : 0 < area.size → area.Readable s)
    (hb : (s.blobs b).size ≤ (s.blobs b).capacity) : Gives (MemBlob.append b area)
      (fun _ s' => s' = s.setBlob b (MemBlob.grow (area.bytes s)) ∧
        area.size ≤ (s.blobs b).spaceSize)
      (fun s' => s' = s ∧ (s.blobs b).spaceSize < area.size) s := by
  unfold MemBlob.append
  rw [gives_whenever]
  refine ⟨fun hn => ?_, fun hn => ?_⟩
  · simp only [gives_bind, gives_get, gives_must]
    simp only [MemBlob.willFit, decide_eq_true_eq]
    refine ⟨fun hfit => Area.read_gives (hr hn) _ _ ?_, fun h => ⟨trivial, by omega⟩⟩
    unfold MemBlob.spaceSize at hfit
    rw [gives_bind]
    refine poke_gives ?_ ?_
    · rw [Area.length_bytes]
      omega
    · rw [gives_modify]
      refine ⟨?_, hfit⟩
      unfold setBlob MemBlob.grow
      simp
  · have hnil : area.bytes s = [] := List.eq_nil_of_length_eq_zero (by simp; omega)
    rw [hnil, setBlob_grow_nil]
    exact ⟨rfl, by omega⟩

end

/-! ## Growing a buffer -/

section

variable [Fintype V] [DecidableEq V] {x : V} {s : Heap V}

/-- **`x` has the storage to append `n` bytes**, and others may look at what it
has appended but never write there. -/
structure Ready (x : V) (n : ℕ) (s : Heap V) : Prop where
  end_eq : s.off x + s.length x = (s.blob x).size
  space : n ≤ s.spaceSize x

theorem reAlloc_gives (hs : Inv s) (n : ℕ) (hn : s.length x ≤ n) : Gives (reAlloc x n)
      (fun _ s' => Turns x (s.content x) s s' ∧ ¬ Shared s' x (s'.store x) ∧
        Ready x (n - s.length x) s' ∧ n ≤ maxSize) (fun s' => s' = s ∧ maxSize < n) s := by
  have hlt := hs.store_lt x
  have hin := hs.within x
  have hle := hs.size_le _ hlt
  have hgross := le_grossSize n
  unfold blob at hin
  simp only [reAlloc, MemBlob.new, gives_bind, gives_must, gives_get, gives_modify, gives_pure]
  refine ⟨fun hmax => ?_, fun h => ⟨trivial, by omega⟩⟩
  generalize hnew : (⟨s.garbage s.nextBlob, grossSize n, 0⟩ : MemBlob) = new
  generalize hs1 : ({ s with
      nextBlob := s.nextBlob + 1
      blobs := update s.blobs s.nextBlob new } : Heap V) = s1
  have hbuf : s1.sbufs = s.sbufs := by rw [← hs1]
  have hnb : s1.blobs s.nextBlob = new := by rw [← hs1]; exact update_self ..
  have hold : s1.blobs (s.store x) = s.blobs (s.store x) := by
    rw [← hs1]; exact update_of_ne (Nat.ne_of_lt hlt) ..
  have harea : (Area.inside (s.store x) (s.off x) (s.length x)).bytes s1 = s.content x := by
    show window (s1.blobs (s.store x)).mem _ _ = _
    rw [hold]
    rfl
  have hstore : s1.store x = s.store x := congrArg SBuf.store (congrFun hbuf x)
  have hoff : s1.off x = s.off x := congrArg SBuf.off (congrFun hbuf x)
  have hlen : s1.length x = s.length x := congrArg SBuf.len (congrFun hbuf x)
  have hcopy : Gives (whenever (0 < s1.length x)
        (MemBlob.append s.nextBlob (.inside (s1.store x) (s1.off x) (s1.length x))))
      (fun _ s' => s' = s1.setBlob s.nextBlob (MemBlob.grow (s.content x)))
      (fun _ => False) s1 := by
    rw [hstore, hoff, hlen, gives_whenever]
    refine ⟨fun hpos => ?_, fun hzero => ?_⟩
    · have hr : (Area.inside (s.store x) (s.off x) (s.length x)).Readable s1 :=
          ⟨lockCount_pos (.inr hstore.symm), by rw [hold]; omega⟩
      have hroom : (s1.blobs s.nextBlob).size ≤ (s1.blobs s.nextBlob).capacity := by
        rw [hnb, ← hnew]
        exact Nat.zero_le _
      refine (MemBlob.append_gives (fun _ => hr) hroom).mono ?_ ?_
      · rintro - s' ⟨hs', -⟩
        rw [hs', harea]
      · rintro s' ⟨-, hfull⟩
        rw [hnb, ← hnew] at hfull
        simp only [Area.size, MemBlob.spaceSize] at hfull
        omega
    · rw [content_eq_nil (by omega), setBlob_grow_nil]
  refine hcopy.never ?_
  rintro - s' rfl
  rw [gives_modify]
  obtain ⟨hturns, halone, hblob⟩ := Turns.of_new
    ((s1.setBlob s.nextBlob (MemBlob.grow (s.content x))).setBuf x fun buf =>
      { buf with store := s.nextBlob, off := 0 })
    (MemBlob.grow (s.content x) new) (x := x) (l := s.content x) (n := s.length x) hs
    (fun v hv => by
      rw [setBuf_sbufs_ne _ hv]
      exact congrFun hbuf v) (by rw [← hs1]; rfl) (by rw [← hs1]; rfl)
    (by
      show update s1.sbufs x _ x = _
      rw [update_self]
      show SBuf.mk _ _ (s1.sbufs x).len = _
      rw [hbuf]
      rfl)
    (by
      show update s1.blobs s.nextBlob _ = _
      rw [hnb, ← hs1]
      exact update_idem ..)
    (by simp [MemBlob.grow, ← hnew]) (by simp [MemBlob.grow, ← hnew]; omega)
    (by simp only [MemBlob.grow, ← hnew]; exact grossSize_le hmax)
    (by
      have := window_write new.mem 0 (s.content x)
      simpa [MemBlob.grow, ← hnew] using this)
  refine ⟨hturns, halone, ⟨?_, ?_⟩, hmax⟩
  · rw [hblob, hturns.length, setBuf_off_self]
    simp [MemBlob.grow, ← hnew]
  · unfold spaceSize
    rw [hblob]
    simp only [MemBlob.grow, MemBlob.spaceSize, ← hnew, length_content]
    omega

/-- `MemBlob::consume` moves the content of the only user to the start. -/
theorem consume_gives {blob : MemBlob} {off len : ℕ} (hone : s.lockCount (s.store x) = 1)
    (hsize : blob.size = off + len) (hle : blob.size ≤ blob.capacity) (hoff : off ≠ 0) :
    Gives (MemBlob.consume (s.store x) off) (fun _ s' => s' = s.revise x
        { blob with mem := write blob.mem 0 (window blob.mem off len), size := len } off len)
      (fun _ => False) (s.revise x blob off len) := by
  have hmin : min off blob.size = off := by omega
  have hsub : blob.size - off = len := by omega
  simp only [MemBlob.consume, gives_bind, gives_get, gives_whenever, gives_must, gives_modify,
    revise_blobs, revise_lockCount, setBlob_revise, hmin, hsub]
  refine ⟨fun _ => ⟨fun _ => ⟨fun hlen => ?_, fun hlen => ?_⟩, absurd hone.le⟩,
    fun h => by omega⟩
  · refine Area.read_gives (.inside ?_ ?_) _ _ ?_
    · rw [revise_lockCount]
      omega
    · rw [revise_blobs]
      show off + len ≤ blob.capacity
      omega
    · refine poke_gives ?_ ?_
      · rw [Area.length_bytes, revise_blobs]
        show 0 + len ≤ blob.capacity
        omega
      · rw [setBlob_revise, Area.bytes, revise_blobs]
  · have hzero : len = 0 := not_not.mp hlen
    rw [hzero, window_zero, write_nil]

/-- **After `cow`, `x` alone refers to its blob** and has the storage asked
for. -/
theorem cow_gives (hs : Inv s) (n : ℕ) : Gives (cow x n)
      (fun _ s' => Turns x (s.content x) s s' ∧ ¬ Shared s' x (s'.store x) ∧
        Ready x (if n = npos then 0 else n - s.length x) s')
      (fun s' => Turns x (s.content x) s s' ∧ n ≠ npos ∧ maxSize < n) s := by
  have hshort := hs.short x
  generalize hm : (if n = npos ∨ n < s.length x then s.length x else n) = m
  have hlm : s.length x ≤ m := by grind
  have hmn : (if n = npos then 0 else n - s.length x) = m - s.length x := by grind
  have hmax : maxSize < m → n ≠ npos ∧ maxSize < n := by grind
  rw [hmn]
  have hreAlloc : ∀ s1, Turns x (s.content x) s s1 → Gives (reAlloc x m)
      (fun _ s' => Turns x (s.content x) s s' ∧ ¬ Shared s' x (s'.store x) ∧
        Ready x (m - s.length x) s')
      (fun s' => Turns x (s.content x) s s' ∧ n ≠ npos ∧ maxSize < n) s1 := by
    intro s1 h1
    have hlen : s1.length x = s.length x := by rw [h1.length, length_content]
    refine (reAlloc_gives h1.inv m (hlen.trans_le hlm)).mono ?_ ?_
    · rintro - s' ⟨hturns, halone, hready, -⟩
      rw [h1.content] at hturns
      rw [hlen] at hready
      exact ⟨h1.trans hturns, halone, hready⟩
    · rintro s' ⟨rfl, hbig⟩
      exact ⟨h1, hmax hbig⟩
  simp only [cow, gives_bind, gives_get, hm]
  split
  · next hone =>
      have halone := not_shared_of_lockCount hone
      have hin := hs.within x
      have hle := hs.blob_le x
      simp only [MemBlob.syncSize, gives_bind, gives_get, gives_must, gives_modify]
      refine ⟨fun _ => ⟨fun _ => ?_, absurd hin⟩, absurd hone.le⟩
      rw [setBlob_eq_revise]
      have hsync : Turns x (s.content x) s (s.revise x
          { s.blob x with size := s.off x + s.length x } (s.off x) (s.length x)) := by
        refine turns_revise hs ?_ ?_ ?_ ?_ ?_
        · rfl
        · exact hin.trans hle
        · exact le_rfl
        · exact fun h => absurd h halone
        · rfl
      simp only [revise_spaceSize, revise_length, revise_off, revise_store]
      split
      · next hfits =>
          rw [gives_pure]
          refine ⟨hsync, by rwa [revise_store, revise_shared], ⟨?_, ?_⟩⟩
          · rw [revise_off, revise_length, revise_blob]
          · rw [revise_spaceSize]
            exact hfits
      · split
        · next hshift =>
            simp only [gives_bind]
            refine (consume_gives hone rfl (hin.trans hle) (by omega)).never ?_
            rintro - s' rfl
            simp only [gives_bind, gives_modify, gives_get, gives_defined]
            simp only [hm, setBuf_revise, revise_spaceSize, revise_length]
            refine ⟨by omega, ?_, by rwa [revise_store, revise_shared], ⟨?_, ?_⟩⟩
            · have hmoved := window_write (s.blob x).mem 0 (s.content x)
              rw [length_content] at hmoved
              refine turns_revise hs ?_ ?_ ?_ ?_ ?_
              · rfl
              · exact ((Nat.le_add_left _ _).trans hin).trans hle
              · exact (Nat.zero_add _).le
              · exact fun h => absurd h halone
              · exact hmoved
            · rw [revise_off, revise_length, revise_blob, Nat.zero_add]
            · rw [revise_spaceSize]
              show m - s.length x ≤ (s.blob x).capacity - s.length x
              omega
        · exact hreAlloc _ hsync
  · exact hreAlloc s (.refl hs x)

end

end Sbuf
