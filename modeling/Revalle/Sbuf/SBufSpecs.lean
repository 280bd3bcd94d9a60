import Revalle.Sbuf.SBufFrame

/-!
# One specification for each operation

Each operation of a buffer is given by the content it leaves, as a `Turns`,
and by the reason for which it may throw. The interesting ones take a pointer.
What it points to may be a part of the very blob that the operation is about
to leave: a `Locker` keeps that blob, and with it the bytes to be appended.
-/

namespace Sbuf

open Ascii Memory List Heap Nat
open Throwing

variable {V : Type} [Fintype V] [DecidableEq V] {x : V} {s : Heap V}

/-! ## Appending -/

variable {n : ℕ} {area : Area} {data : List UInt8}

/-- **`rawSpace` makes room behind the content**, or throws when the buffer
would become too long. -/
theorem rawSpace_gives (hs : Inv s) (hn : n < 2 ^ 32) : Gives (rawSpace x n)
      (fun p s' => p = (s'.store x, s'.off x + s'.length x) ∧ Turns x (s.content x) s s' ∧
        (n ≠ 0 → s'.off x + s'.length x = (s'.blob x).size) ∧
        (s.length x + n < npos → n ≤ s'.spaceSize x))
      (fun s' => Turns x (s.content x) s s' ∧ maxSize < s.length x + n) s := by
  have hadd : add32 n (s.length x) ≤ s.length x + n := by
    unfold add32
    omega
  simp only [rawSpace, gives_bind, gives_get, gives_must, gives_whenever, gives_pure]
  refine ⟨fun _ => ⟨fun _ => ?_, fun h => ?_⟩, fun h => ⟨.refl hs x, ?_⟩⟩
  · refine (cow_gives hs _).mono ?_ ?_
    · rintro - s' ⟨hturns, -, hready⟩
      simp only [gives_bind, gives_get, gives_pure]
      refine ⟨trivial, hturns, fun _ => hready.end_eq, fun h => ?_⟩
      have hsp := hready.space
      unfold add32 at hsp
      unfold npos at *
      have hmod := mod_eq_of_lt (a := n + s.length x) (b := 2 ^ 32) (by omega)
      rw [hmod, if_neg (by omega)] at hsp
      omega
    · rintro s' ⟨hturns, -, hbig⟩
      exact ⟨hturns, by omega⟩
  · have hcan : ((s.blob x).isAppendOffset (s.off x + s.length x) && (s.blob x).willFit n) = true ∨
        n = 0 := by
      rw [not_not, MemBlob.canAppend, Bool.or_eq_true, decide_eq_true_eq] at h
      exact h
    refine ⟨trivial, .refl hs x, fun hn => ?_, fun _ => ?_⟩
    · rcases hcan with h | h
      · exact of_decide_eq_true (Bool.and_eq_true_iff.mp h).1
      · exact absurd h hn
    · rcases hcan with h | h
      · exact of_decide_eq_true (Bool.and_eq_true_iff.mp h).2
      · omega
  · unfold sub32 at h
    by_cases hle : n ≤ maxSize
    · rw [show maxSize + (2 ^ 32 - n) = maxSize - n + 2 ^ 32 by omega, add_mod_right,
        mod_eq_of_lt (by unfold maxSize at *; omega)] at h
      omega
    · omega

/-- Someone else than `x` refers to the blob of the area, so that it survives
whatever is done to `x`. -/
def Area.Stable (s : Heap V) (x : V) : Area → Prop
  | outside _ => True
  | inside b off n => n ≠ 0 → b < s.nextBlob ∧ off + n ≤ (s.blobs b).size ∧ Shared s x b

omit [Fintype V] [DecidableEq V] in
theorem Area.Stable.frame {s' : Heap V} (h : area.Stable s x) (hf : Frame x s s') :
    area.Stable s' x ∧ area.bytes s' = area.bytes s := by
  cases area with
  | outside data => exact ⟨trivial, rfl⟩
  | inside b off n =>
    by_cases hn : n = 0
    · exact ⟨fun h => absurd hn h, by rw [hn]; rfl⟩
    · obtain ⟨hb, hin, hsh⟩ := h hn
      refine ⟨fun _ => ⟨hb.trans_le hf.nextBlob, hin.trans (hf.size b hb hsh),
        (hf.shared b).mpr hsh⟩, ?_⟩
      exact window_congr fun i hi => hf.mem b hb hsh _ (by omega)

omit [DecidableEq V] in
theorem Area.Stable.readable (hs : Inv s) (h : area.Stable s x) (hn : 0 < area.size) :
    area.Readable s := by
  cases area with
  | outside data => trivial
  | inside b off n =>
    obtain ⟨hb, hin, hsh⟩ := h hn.ne'
    exact .inside (lockCount_pos (.inl hsh)) (hin.trans (hs.size_le b hb))

section

omit [Fintype V]

variable (hs : Inv s) (hend : s.off x + s.length x = (s.blob x).size)
include hs hend

/-- What is stored behind the content may be made part of it, or taken as used. -/
theorem turns_extend (rest : List UInt8) (hn : data.length ≤ n) (hfit : n ≤ s.spaceSize x) :
    Turns x (s.content x ++ data) s (s.revise x { s.blob x with
      mem := write (s.blob x).mem (s.off x + s.length x) (data ++ rest)
      size := (s.blob x).size + n } (s.off x) (s.length x + data.length)) := by
  have hle := hs.blob_le x
  unfold spaceSize MemBlob.spaceSize at hfit
  refine turns_revise hs ?_ ?_ ?_ ?_ ?_
  · rfl
  · show (s.blob x).size + n ≤ _
    omega
  · show _ ≤ (s.blob x).size + n
    omega
  · refine fun _ => ⟨le_add_right _ _, fun i hi => ?_⟩
    exact write_of_lt _ _ (by omega)
  · exact window_write_prefix ..

theorem turns_grow (data : List UInt8) (hfit : data.length ≤ s.spaceSize x) :
    Turns x (s.content x ++ data) s (s.revise x ((s.blob x).grow data) (s.off x)
      (s.length x + data.length)) := by
  have h := turns_extend hs hend [] le_rfl hfit
  rw [append_nil, hend] at h
  exact h

/-- What is stored behind the content may be taken as used or not. -/
theorem turns_beyond (hn : n ≤ data.length) (hfit : data.length ≤ s.spaceSize x) :
    Turns x (s.content x) s (s.revise x { s.blob x with
      mem := write (s.blob x).mem (s.off x + s.length x) data
      size := (s.blob x).size + n } (s.off x) (s.length x)) := by
  have h : Turns x (s.content x ++ []) s _ := turns_extend hs hend data (zero_le n) (hn.trans hfit)
  rw [append_nil] at h
  exact h

/-- `vsnprintf` behind the content, which it does not touch. -/
theorem vsnprintf_gives (hpos : 0 < s.spaceSize x) (out : List UInt8) :
    Gives (vsnprintf (s.store x, s.off x + s.length x) (s.spaceSize x) out)
      (fun sz s' => sz = out.length ∧ s' = s.revise x { s.blob x with
        mem := write (s.blob x).mem (s.off x + s.length x)
          (out.take (s.spaceSize x - 1) ++ [0]) } (s.off x) (s.length x))
      (fun s' => Turns x (s.content x) s s' ∧ 2 ^ 31 ≤ out.length) s := by
  have hle := hs.blob_le x
  have hfit : (out.take (s.spaceSize x - 1) ++ [0]).length ≤ s.spaceSize x := by
    rw [length_append, length_take, length_singleton]
    omega
  have hfit' := hfit
  unfold spaceSize MemBlob.spaceSize at hfit'
  simp only [vsnprintf, gives_bind, gives_whenever, gives_must, gives_pure]
  refine ⟨fun _ => poke_gives ?_ ?_, absurd hpos⟩
  · show s.off x + s.length x + _ ≤ (s.blob x).capacity
    unfold spaceSize MemBlob.spaceSize
    omega
  · simp only [gives_bind, gives_must, gives_pure]
    rw [setBlob_eq_revise x s]
    refine ⟨fun _ => ⟨trivial, rfl⟩, fun h => ⟨?_, by omega⟩⟩
    exact turns_beyond (n := 0) hs hend (zero_le _) hfit

/-- The end of `appendf`, when the text has fitted. -/
theorem appendf_finish (out : List UInt8) (hroom : out.length < s.spaceSize x) :
    Turns x (s.content x ++ out) s (s.revise x { s.blob x with
      mem := write (s.blob x).mem (s.off x + s.length x) (out.take (s.spaceSize x - 1) ++ [0])
      size := (s.blob x).size + out.length } (s.off x) (s.length x + out.length)) := by
  rw [take_of_length_le (by omega)]
  exact turns_extend hs hend [0] le_rfl hroom.le

end

/-- **`lowAppend` appends the bytes of an area that survives**, or throws when
the buffer would become too long. -/
theorem lowAppend_gives (hs : Inv s) (hsize : area.size < 2 ^ 32) (hst : area.Stable s x) :
    Gives (lowAppend x area) (fun _ => Turns x (s.content x ++ area.bytes s) s)
      (fun s' => Turns x (s.content x) s s' ∧ maxSize < s.length x + area.size) s := by
  unfold lowAppend
  rw [gives_bind]
  refine (rawSpace_gives hs hsize).mono ?_ fun s' h => h
  rintro - s1 ⟨-, h1, hend, hspace⟩
  obtain ⟨hst1, hbytes⟩ := hst.frame h1.toFrame
  simp only [gives_bind, gives_get]
  refine (MemBlob.append_gives (hst1.readable h1.inv) ?_).mono ?_ ?_
  · exact h1.inv.blob_le x
  · rintro - s2 ⟨rfl, hfit⟩
    rw [gives_modify, setBlob_eq_revise, setBuf_revise _ rfl]
    by_cases hn : area.size = 0
    · rw [← hbytes, eq_nil_of_length_eq_zero ((Area.length_bytes s1 area).trans hn), append_nil]
      rw [hn, show (s1.blob x).grow [] = s1.blob x by simp [MemBlob.grow], add_zero, revise_self]
      exact h1
    · have hgrow := turns_grow h1.inv (hend hn) (area.bytes s1)
        (by rw [Area.length_bytes]; exact hfit)
      rw [h1.content, hbytes, Area.length_bytes] at hgrow
      rw [hbytes]
      exact h1.trans hgrow
  · rintro s2 ⟨rfl, hfull⟩
    refine ⟨h1, ?_⟩
    by_contra hsmall
    have := hspace (by unfold npos maxSize at *; omega)
    exact absurd hfull (not_lt.mpr this)

/-! ## Lockers -/

/-- The area is readable now, but maybe only as long as `x` keeps its blob. -/
def Area.Valid (s : Heap V) (x : V) : Area → Prop
  | outside _ => True
  | inside b off n => n ≠ 0 →
      b < s.nextBlob ∧ off + n ≤ (s.blobs b).size ∧ (Shared s x b ∨ b = s.store x)

omit [Fintype V] [DecidableEq V] in
theorem Area.Stable.valid (h : area.Stable s x) : area.Valid s x := by
  cases area with
  | outside data => trivial
  | inside b off n => exact fun hn => ⟨(h hn).1, (h hn).2.1, .inl (h hn).2.2⟩

omit [Fintype V] [DecidableEq V] in
/-- Any part of the content of a buffer is a valid area. -/
theorem valid_content (hs : Inv s) (x y : V) (pos n : ℕ) (h : pos + n ≤ s.length y) :
    (Area.inside (s.store y) (s.off y + pos) n).Valid s x := by
  intro _
  have hin := hs.within y
  unfold blob at hin
  refine ⟨hs.store_lt y, by omega, ?_⟩
  by_cases hy : y = x
  · exact .inr (by rw [hy])
  · exact .inl (shared_of_ne s hy)

section Lockers

variable {b : ℕ} {s' : Heap V} {l : List UInt8}

omit [Fintype V] [DecidableEq V]

theorem shared_lock {b' : ℕ} (h : Shared s x b') : Shared (s.lock b) x b' := by
  rcases h with h | h | h
  · exact .inl h
  · exact .inr (.inl (mem_cons_of_mem b h))
  · exact .inr (.inr h)

theorem inv_lock (hs : Inv s) (hb : b < s.nextBlob) : Inv (s.lock b) :=
  { hs with lockers_lt := forall_mem_cons.mpr ⟨hb, hs.lockers_lt⟩ }

/-- What is done while a locker holds a blob is done all the same when the
locker is gone. -/
theorem Turns.unlock (h : Turns x l (s.lock b) s') : Turns x l s s'.unlock where
  sbufs := h.sbufs
  lockers := by
    show s'.lockers.tail = s.lockers
    rw [h.lockers]
    rfl
  nextBlob := h.nextBlob
  capacity b' hb' hx := h.capacity b' hb' (shared_lock hx)
  size b' hb' hx := h.size b' hb' (shared_lock hx)
  mem b' hb' hx := h.mem b' hb' (shared_lock hx)
  inv :=
    { h.inv with lockers_lt := fun b' hb' => h.inv.lockers_lt b' (mem_of_mem_tail hb') }
  content := h.content

end Lockers

omit [Fintype V] [DecidableEq V] in
/-- **A locker keeps the area alive**: in its scope a valid area is stable. -/
theorem withLocker_gives (hs : Inv s) (hv : area.Valid s x) {body : Run V Unit}
    {l l' : List UInt8} {P : Prop}
    (hbody : ∀ s1 : Heap V, Inv s1 → s1.content x = s.content x → area.bytes s1 = area.bytes s →
      area.Stable s1 x → Gives body (fun _ => Turns x l s1) (fun s' => Turns x l' s1 s' ∧ P) s1) :
    Gives (withLocker x area body) (fun _ => Turns x l s)
      (fun s' => Turns x l' s s' ∧ P) s := by
  unfold withLocker
  simp only [gives_bind, gives_get]
  cases area with
  | outside data => exact hbody s hs rfl rfl trivial
  | inside b off n =>
    dsimp only
    split
    · next hx =>
        rw [gives_bracket]
        have hb : b < s.nextBlob := hx.1 ▸ hs.store_lt x
        refine (hbody (s.lock b) (inv_lock hs hb) rfl rfl fun hn => ?_).mono ?_ ?_
        · exact ⟨hb, (hv hn).2.1, .inr (.inl mem_cons_self)⟩
        · exact fun _ s' h => h.unlock
        · exact fun s' h => ⟨h.1.unlock, h.2⟩
    · next hx =>
        refine hbody s hs rfl rfl fun hn => ?_
        obtain ⟨hb, hin, hsh⟩ := hv hn
        refine ⟨hb, hin, hsh.resolve_right fun hb' => hx ⟨hb', ?_⟩⟩
        have := hs.size_le b hb
        omega

section

variable (hs : Inv s)
include hs

/-- **Appending any valid area**, one of the own storage included. -/
theorem appendArea_gives (area : Area) (hsize : area.size < 2 ^ 32)
    (hv : area.Valid s x) : Gives (appendArea x area)
      (fun _ => Turns x (s.content x ++ area.bytes s) s)
      (fun s' => Turns x (s.content x) s s' ∧ maxSize < s.length x + area.size) s := by
  refine withLocker_gives hs hv fun s1 hs1 hcontent hbytes hst => ?_
  have h := lowAppend_gives hs1 hsize hst
  rwa [← length_content s1, hcontent, length_content, hbytes] at h

/-! ## Shortening -/

theorem clear_gives : Gives (clear x) (fun _ => Turns x [] s) (fun _ => False) s := by
  simp only [clear, gives_bind, gives_get, gives_whenever, gives_modify]
  constructor
  · intro hone
    refine turns_revise hs ?_ ?_ ?_ ?_ ?_
    · rfl
    · exact zero_le _
    · exact le_rfl
    · exact fun h => absurd h (not_shared_of_lockCount hone)
    · rfl
  · intro _
    rw [setBuf_eq_revise x s _ rfl]
    refine turns_revise hs ?_ ?_ ?_ ?_ ?_
    · rfl
    · exact hs.blob_le x
    · exact zero_le _
    · exact fun _ => ⟨le_rfl, fun _ _ => rfl⟩
    · rfl

omit [Fintype V] in
/-- A buffer may be narrowed to a part of its content. -/
theorem turns_narrow (pos n : ℕ) (h : pos + n ≤ s.length x) :
    Turns x (((s.content x).drop pos).take n) s (s.revise x (s.blob x) (s.off x + pos) n) := by
  have hin := hs.within x
  refine turns_revise hs ?_ ?_ ?_ ?_ ?_
  · rfl
  · exact hs.blob_le x
  · omega
  · exact fun _ => ⟨le_rfl, fun _ _ => rfl⟩
  · rw [content, drop_window _ _ _ _ (by omega), take_window _ _ _ _ (by omega)]

/-- **`chop` leaves the bytes asked for**, unless the sum of its arguments
overflows. -/
theorem chop_gives {pos : ℕ} (hpos : pos < 2 ^ 32)
    (hn : pos < s.length x → n = npos ∨ pos + n < 2 ^ 32) : Gives (chop x pos n)
      (fun _ => Turns x (((s.content x).drop pos).take n) s) (fun _ => False) s := by
  have hshort := hs.short x
  simp only [chop, gives_bind, gives_get]
  generalize hp : (if pos = npos ∨ s.length x < pos then s.length x else pos) = p
  generalize hm : (if n = npos ∨ s.length x < add32 p n then s.length x - p else n) = m
  split
  · next hnone =>
      have hnil : ((s.content x).drop pos).take n = [] := by
        refine eq_nil_of_length_eq_zero ?_
        rw [length_take, length_drop, length_content]
        unfold npos maxSize add32 at *
        grind
      rw [hnil]
      exact clear_gives hs
  · next hsome =>
      rw [gives_modify, setBuf_eq_revise x s _ rfl]
      have hp' : p = pos := by
        grind
      subst hp'
      have hlt : p < s.length x := by
        grind
      have hadd : n = npos ∨ add32 p n = p + n := by
        refine (hn hlt).imp_right fun h => ?_
        exact mod_eq_of_lt h
      have hm' : p + m ≤ s.length x := by grind
      have htake : ((s.content x).drop p).take n = ((s.content x).drop p).take m := by
        refine take_eq_take_iff.mpr ?_
        rw [length_drop, length_content]
        unfold npos maxSize at *
        grind
      rw [htake]
      exact turns_narrow hs _ _ hm'

/-! ## Assignment -/

omit [Fintype V] in
/-- A buffer may become any window of the used part of a blob. -/
theorem turns_setBuf (x : V) (buf : SBuf) (hstore : buf.store < s.nextBlob)
    (hin : buf.off + buf.len ≤ (s.blobs buf.store).size) :
    Turns x (window (s.blobs buf.store).mem buf.off buf.len) s (s.setBuf x fun _ => buf) := by
  have hself : (s.setBuf x fun _ => buf).sbufs x = buf := Function.update_self ..
  have hframe : Frame x s (s.setBuf x fun _ => buf) :=
    ⟨fun v hv => setBuf_sbufs_ne _ hv, rfl, le_rfl, fun _ _ _ => rfl, fun _ _ _ => le_rfl,
      fun _ _ _ _ _ => rfl⟩
  refine ⟨hframe, hframe.inv hs ?_ ?_ fun b hb => ⟨hs.size_le b hb, hs.capacity_le b hb⟩, ?_⟩
  · unfold store
    rw [hself]
    exact hstore
  · unfold Heap.blob Heap.store Heap.off Heap.length
    rw [hself]
    exact hin
  · unfold Heap.content Heap.blob Heap.store Heap.off Heap.length
    rw [hself]
    rfl

omit [Fintype V] in
theorem assign_gives (x y : V) :
    Gives (assign x y) (fun _ => Turns x (s.content y) s) (fun _ => False) s := by
  rw [assign, gives_modify]
  exact turns_setBuf hs x (s.sbufs y) (hs.store_lt y) (hs.within y)

/-- **Appending a buffer**, to itself included. -/
theorem append_gives (x y : V) : Gives (append x y)
      (fun _ => Turns x (s.content x ++ s.content y) s)
      (fun s' => Turns x (s.content x) s s' ∧ maxSize < s.length x + s.length y) s := by
  simp only [append, gives_bind, gives_get]
  split
  · next hnew =>
      rw [content_eq_nil (of_decide_eq_true hnew.1), nil_append]
      exact (assign_gives hs x y).never fun _ _ h => h
  · exact appendArea_gives hs (.inside (s.store y) (s.off y) (s.length y)) (hs.length_lt y)
      (valid_content hs x y 0 _ (by omega))

theorem assignArea_gives (hsize : area.size < 2 ^ 32) (hv : area.Valid s x) :
    Gives (assignArea x area) (fun _ => Turns x (area.bytes s) s)
      (fun s' => Turns x [] s s' ∧ maxSize < area.size) s := by
  refine withLocker_gives hs hv fun s1 hs1 _ hbytes hst => ?_
  rw [gives_bind]
  refine (clear_gives hs1).never ?_
  intro _ s2 h2
  obtain ⟨hst2, hbytes2⟩ := hst.frame h2.toFrame
  have hlen : s2.length x = 0 := h2.length
  refine (appendArea_gives h2.inv _ hsize hst2.valid).mono ?_ ?_
  · intro _ s3 h3
    rw [h2.content, hbytes2, hbytes, nil_append] at h3
    exact h2.trans h3
  · rintro s3 ⟨h3, hbig⟩
    rw [h2.content] at h3
    rw [hlen, zero_add] at hbig
    exact ⟨h2.trans h3, hbig⟩

theorem substr_gives (rv x : V) {pos : ℕ} (hpos : pos < 2 ^ 32)
    (hn : pos < s.length x → n = npos ∨ pos + n < 2 ^ 32) : Gives (substr rv x pos n)
      (fun _ => Turns rv (((s.content x).drop pos).take n) s) (fun _ => False) s := by
  rw [substr, gives_bind]
  refine (assign_gives hs rv x).never ?_
  intro _ s1 h1
  have hlen : s1.length rv = s.length x := by rw [h1.length, length_content]
  refine (chop_gives h1.inv hpos (by rwa [hlen])).imp ?_
  intro _ s2 h2
  rw [h1.content] at h2
  exact h1.trans h2

/-- **`consume` splits the content**: its first bytes go to the result and the
others stay. -/
theorem consume_splits (rv x : V) (hne : x ≠ rv) (n : ℕ) : Gives (consume rv x n)
      (fun _ s' => ∃ s1, Turns rv ((s.content x).take n) s s1 ∧
        Turns x ((s.content x).drop n) s1 s') (fun _ => False) s := by
  have hshort := hs.short x
  simp only [consume, gives_bind, gives_get]
  generalize hm : (if n = npos then s.length x else min n (s.length x)) = m
  have hle : m ≤ s.length x := by grind
  have htake : (s.content x).take n = (s.content x).take m := by
    refine take_eq_take_iff.mpr ?_
    rw [length_content]
    unfold npos maxSize at *
    grind
  have hdrop : (s.content x).drop n = (s.content x).drop m := by
    by_cases h : n ≤ s.length x
    · rw [show m = n by unfold npos maxSize at *; grind]
    · rw [drop_eq_nil_of_le (by rw [length_content]; omega),
        drop_eq_nil_of_le (by rw [length_content]; grind)]
  rw [htake, hdrop]
  have hlt := hs.length_lt x
  refine (substr_gives hs rv x (by omega) fun _ => .inr (by omega)).imp ?_
  intro _ s1 h1
  have hc := h1.toFrame.content hs hne
  refine (chop_gives h1.inv (by omega) fun _ => .inl rfl).imp ?_
  intro _ s2 h2
  refine ⟨s1, h1, ?_⟩
  rw [hc, take_of_length_le
    (by rw [length_drop, length_content]; unfold npos maxSize at *; omega)] at h2
  exact h2

/-! ## Storage -/

theorem reserveCapacity_gives (n : ℕ) :
    Gives (reserveCapacity x n) (fun _ => Turns x (s.content x) s)
      (fun s' => Turns x (s.content x) s s' ∧ maxSize < n) s := by
  simp only [reserveCapacity, gives_bind, gives_must]
  refine ⟨fun _ => (cow_gives hs n).mono ?_ ?_, fun h => ⟨.refl hs x, by omega⟩⟩
  · exact fun _ s' h => h.1
  · exact fun s' h => ⟨h.1, h.2.2⟩

theorem reserveSpace_gives (n : ℕ) :
    Gives (reserveSpace x n) (fun _ => Turns x (s.content x) s)
      (fun s' => Turns x (s.content x) s s' ∧ maxSize < s.length x + n) s := by
  simp only [reserveSpace, gives_bind, gives_must, gives_get]
  refine ⟨fun hn => ⟨fun hlen => ?_, fun h => ⟨.refl hs x, by omega⟩⟩,
    fun h => ⟨.refl hs x, by omega⟩⟩
  exact reserveCapacity_gives hs _

theorem reserve_gives (req : Requirements) :
    Gives (reserve x req) (fun _ => Turns x (s.content x) s) (fun _ => False) s := by
  have hshort := hs.short x
  simp only [reserve, gives_bind, gives_get]
  split
  · rw [gives_pure]
    exact .refl hs x
  · split
    · rw [gives_pure]
      exact .refl hs x
    · simp only [gives_bind]
      refine (reserveCapacity_gives hs _).mono ?_ ?_
      · intro _ s' h
        simp only [gives_bind, gives_get, gives_pure]
        exact h
      · rintro s' ⟨-, hbig⟩
        omega

/-! ## Writing -/

/-- **`setAt` changes one byte** of a blob that only `x` refers to then. -/
theorem setAt_gives (pos : ℕ) (c : UInt8) :
    Gives (setAt x pos c) (fun _ => Turns x ((s.content x).set pos c) s)
      (fun s' => s' = s ∧ s.length x ≤ pos) s := by
  simp only [setAt, gives_bind, gives_get, gives_must]
  refine ⟨fun hpos => (cow_gives hs npos).mono ?_ fun _ h => absurd rfl h.2.1,
    fun h => ⟨trivial, by omega⟩⟩
  rintro - s1 ⟨h1, halone, hready⟩
  have hlen : s1.length x = s.length x := by rw [h1.length, length_content]
  have hle := h1.inv.blob_le x
  have hend := hready.end_eq
  simp only [gives_bind, gives_get]
  refine poke_gives ?_ ?_
  · show s1.off x + pos + 1 ≤ (s1.blob x).capacity
    omega
  · rw [setBlob_eq_revise, ← h1.content]
    refine h1.trans (turns_revise h1.inv ?_ ?_ ?_ ?_ ?_)
    · rfl
    · exact hle
    · exact hend.le
    · exact fun h => absurd h halone
    · refine Eq.trans ?_ (window_update (s1.blob x).mem (s1.off x) (s1.length x) pos c)
      exact congrArg (fun mem => window mem _ _) (write_singleton ..)

/-- **`c_str` does not change the content.** -/
theorem c_str_gives : Gives (c_str x) (fun _ => Turns x (s.content x) s)
      (fun s' => Turns x (s.content x) s s' ∧ maxSize < s.length x + 1) s := by
  have hshort := hs.short x
  rw [c_str, gives_bind]
  refine (rawSpace_gives hs (by omega)).imp ?_
  rintro p s1 ⟨rfl, h1, hend, hspace⟩
  have hend' := hend one_ne_zero
  have hroom := hspace (by unfold npos maxSize at *; omega)
  have hroom' := hroom
  unfold spaceSize MemBlob.spaceSize at hroom'
  rw [gives_bind]
  refine poke_gives ?_ ?_
  · show s1.off x + s1.length x + 1 ≤ (s1.blob x).capacity
    omega
  · simp only [gives_bind, gives_get, gives_modify]
    rw [setBlob_eq_revise x s1, revise_store, setBlob_revise, ← h1.content]
    exact h1.trans (turns_beyond h1.inv hend' le_rfl hroom)

/-- **A raw append adds the bytes stored in the space**, when the space was
asked for. -/
theorem rawAppend_gives (hpos : n ≠ 0) (hn : s.length x + n < npos) (hdata : data.length ≤ n) :
    Gives (rawAppend x n data) (fun _ => Turns x (s.content x ++ data) s)
      (fun s' => Turns x (s.content x) s s' ∧ maxSize < s.length x + n) s := by
  rw [rawAppend, gives_bind]
  refine (rawSpace_gives hs (by unfold npos at hn; omega)).imp ?_
  rintro p s1 ⟨rfl, h1, hend, hspace⟩
  have hend' := hend hpos
  have hroom := hdata.trans (hspace hn)
  have hle := h1.inv.blob_le x
  have hmax : (s1.blob x).capacity ≤ maxSize := h1.inv.capacity_le _ (h1.inv.store_lt x)
  have hroom' := hroom
  unfold spaceSize MemBlob.spaceSize at hroom'
  rw [gives_bind]
  refine poke_gives ?_ ?_
  · show s1.off x + s1.length x + data.length ≤ (s1.blob x).capacity
    omega
  · simp only [rawAppendFinish, gives_bind, gives_get, gives_must, gives_modify]
    rw [setBlob_eq_revise x s1]
    simp only [revise_store, revise_off, revise_length, revise_blob, setBuf_revise, setBlob_revise]
    have hcan : MemBlob.canAppend { s1.blob x with
        mem := write (s1.blob x).mem (s1.off x + s1.length x) data } (s1.off x + s1.length x)
        data.length = true := by
      simp [MemBlob.canAppend, MemBlob.isAppendOffset, MemBlob.willFit, MemBlob.spaceSize, hend',
        hroom']
    refine ⟨fun _ => ⟨fun _ => ⟨fun _ => ?_, fun h => absurd ?_ h⟩, absurd hcan⟩,
      absurd trivial⟩
    · have hx := turns_extend h1.inv hend' [] le_rfl hroom
      rw [h1.content, append_nil, ← hend', add_assoc] at hx
      exact h1.trans hx
    · omega

/-- **`appendf` appends the formatted text**, when the format is not empty and
neither it nor the text is too long to be counted. -/
theorem appendf_gives {fmtLen : ℕ} {out : List UInt8} (hfmt : fmtLen ≠ 0)
    (hfmt' : s.length x + 2 * fmtLen < npos) (hout : s.length x + 2 * out.length < npos) :
    Gives (appendf x fmtLen out) (fun _ => Turns x (s.content x ++ out) s)
      (fun s' => Turns x (s.content x) s s' ∧
        (maxSize < s.length x + 2 * fmtLen ∨ maxSize < s.length x + 2 * out.length)) s := by
  have hmod : 2 * fmtLen % 2 ^ 32 = 2 * fmtLen :=
    mod_eq_of_lt (by unfold npos at hfmt'; omega)
  simp only [appendf, gives_bind, gives_get, hmod]
  have hv := valid_content hs x x 0 (s.length x) (by omega)
  refine withLocker_gives hs hv fun s1 hs1 hcontent _ _ => ?_
  have hlen : s1.length x = s.length x := by rw [← length_content, hcontent, length_content]
  rw [← hlen] at hfmt' hout ⊢
  rw [← hcontent, gives_bind]
  refine (rawSpace_gives hs1 (by omega)).mono ?_ fun _ h => ⟨h.1, .inl h.2⟩
  rintro p s2 ⟨rfl, h2, hend2, hspace2⟩
  have hend := hend2 (by omega)
  simp only [gives_bind, gives_get]
  refine (vsnprintf_gives h2.inv hend (by omega) out).mono ?_ ?_
  · rintro - s3 ⟨rfl, rfl⟩
    simp only [gives_bind, gives_whenever]
    refine ⟨fun hlong => ?_, fun hshort => ?_⟩
    · -- the text did not fit the first time
      have hfit : (out.take (s2.spaceSize x - 1) ++ [0]).length ≤ s2.spaceSize x := by
        rw [length_append, length_take, length_singleton]
        omega
      have h3 := h2.trans (turns_beyond (n := 0) h2.inv hend (zero_le _) hfit)
      rw [h2.content] at h3
      have hlen3 := h3.length
      rw [length_content] at hlen3
      refine (rawSpace_gives h3.inv (by unfold npos at hout; omega)).mono ?_ ?_
      · rintro p s4 ⟨rfl, h4, hend4, hspace4⟩
        rw [h3.content] at h4
        have hend' := hend4 (by omega)
        simp only [gives_bind, gives_get]
        refine (vsnprintf_gives h4.inv hend' (by omega) out).mono ?_ ?_
        · rintro - s5 ⟨-, rfl⟩
          simp only [gives_bind, gives_pure, gives_modify, gives_get]
          have h := appendf_finish h4.inv hend' out (by omega)
          rw [h4.content] at h
          rw [setBuf_revise _ rfl, revise_store, setBlob_revise]
          exact (h3.trans h4).trans h
        · rintro s5 ⟨h5, hlong⟩
          rw [h4.content] at h5
          exact ⟨(h3.trans h4).trans h5, .inr (by unfold maxSize; omega)⟩
      · rintro s4 ⟨h4, hbig⟩
        rw [h3.content] at h4
        exact ⟨h3.trans h4, .inr (by omega)⟩
    · simp only [gives_bind, gives_modify, gives_get]
      have h := appendf_finish h2.inv hend _ (not_le.mp hshort)
      rw [h2.content] at h
      rw [setBuf_revise _ rfl, revise_store, setBlob_revise]
      exact h2.trans h
  · rintro s3 ⟨h3, hlong⟩
    rw [h2.content] at h3
    exact ⟨h2.trans h3, .inr (by unfold maxSize; omega)⟩

end

/-! ## Loops -/

/-- The loop of the case changes, from byte `j` on. -/
theorem changeCase_gives (applies : UInt8 → Bool) (change : UInt8 → UInt8) {fuel j : ℕ}
    (hs : Inv s) (hj : j + fuel = s.length x) : Gives (changeCase x applies change fuel j)
      (fun _ => Turns x ((s.content x).take j ++
        ((s.content x).drop j).map fun c => if applies c then change c else c) s)
      (fun _ => False) s := by
  induction fuel generalizing s j with
  | zero =>
    rw [changeCase, gives_pure, take_of_length_le (by rw [length_content]; omega),
      drop_eq_nil_of_le (by rw [length_content]; omega), map_nil, append_nil]
    exact .refl hs x
  | succ fuel ih =>
    have hlt : j < (s.content x).length := by rw [length_content]; omega
    have hchar : (s.content x)[j] = s.charAt x j := by
      have h := getElem?_window (s.blob x).mem (s.off x) (s.length x) j
      rw [if_pos (by omega)] at h
      exact (getElem_eq_iff hlt).mpr h
    simp only [changeCase, gives_bind, gives_get, gives_whenever]
    refine ⟨fun _ => ?_, fun h => absurd (by omega) h⟩
    rw [drop_eq_getElem_cons hlt, map_cons, hchar]
    refine ⟨fun happ => ?_, fun happ => ?_⟩
    · -- the byte is changed, and the loop goes on behind it
      refine (setAt_gives hs j _).mono ?_ ?_
      · intro _ s1 h1
        have hlen : s1.length x = s.length x := by
          rw [h1.length, length_set, length_content]
        refine (ih h1.inv (by omega)).imp ?_
        intro _ s2 h2
        rw [h1.content, take_set, drop_set_of_lt (lt_succ_self j),
          take_succ_eq_append_getElem hlt, set_append_right _ _ (by
            rw [length_take]; omega)] at h2
        rw [if_pos happ]
        rw [length_take, Nat.min_eq_left hlt.le, Nat.sub_self, set_cons_zero,
          append_assoc, singleton_append] at h2
        exact h1.trans h2
      · rintro s1 ⟨-, h⟩
        omega
    · refine (ih hs (by omega)).imp ?_
      intro _ s2 h2
      rw [take_succ_eq_append_getElem hlt, hchar, append_assoc, singleton_append] at h2
      rw [if_neg happ]
      exact h2

theorem toLower_gives (hs : Inv s) :
    Gives (toLower x) (fun _ => Turns x ((s.content x).map tolower) s)
      (fun _ => False) s := by
  refine (changeCase_gives isupper tolower hs (zero_add _)).imp ?_
  intro _ s' h
  convert h using 3
  unfold tolower
  grind

theorem toUpper_gives (hs : Inv s) :
    Gives (toUpper x) (fun _ => Turns x ((s.content x).map toupper) s)
      (fun _ => False) s := by
  refine (changeCase_gives islower toupper hs (zero_add _)).imp ?_
  intro _ s' h
  convert h using 3
  unfold toupper
  grind

section Trim

variable {y : V} {p : UInt8 → Bool}

omit [Fintype V] [DecidableEq V] in
/-- Which of its own bytes are to be removed does not change while a buffer
gets shorter, even if they are taken from the buffer itself. -/
theorem hasChar_of_shorter {s' : Heap V} {l : List UInt8} (hs : Inv s) (h : Turns x l s s')
    (hl : l ⊆ s.content x) (hp : ∀ c ∈ s.content x, s.hasChar y c = p c) :
    ∀ c ∈ s'.content x, s'.hasChar y c = p c := by
  intro c hc
  rw [h.content] at hc
  rw [← hp c (hl hc)]
  unfold hasChar
  by_cases hy : y = x
  · rw [hy, h.content, contains_iff_mem.mpr hc, contains_iff_mem.mpr (hl hc)]
  · rw [h.toFrame.content hs hy]

section

omit [Fintype V]

theorem turns_dropLast (hs : Inv s) :
    Turns x (s.content x).dropLast s (s.setBuf x fun buf => { buf with len := buf.len - 1 }) := by
  rw [setBuf_eq_revise x s _ rfl]
  have h := turns_narrow (x := x) hs 0 (s.length x - 1) (by omega)
  rw [dropLast_eq_take, length_content]
  exact h

theorem turns_tail (hs : Inv s) (hpos : 0 < s.length x) : Turns x (s.content x).tail s
      (s.setBuf x fun buf => { buf with len := buf.len - 1, off := buf.off + 1 }) := by
  rw [setBuf_eq_revise x s _ rfl]
  have h := turns_narrow (x := x) hs 1 (s.length x - 1) (by omega)
  rw [take_of_length_le (by rw [length_drop, length_content]), drop_one] at h
  exact h

/-- **A loop that takes bytes off one end.** `pos` is the place of the byte that
it looks at, `next` is what one turn leaves, and `done` what the loop does. -/
theorem trimLoop_gives {loop : ℕ → Run V Unit} (pos : ℕ → ℕ) {cut : SBuf → SBuf}
    (next done : List UInt8 → List UInt8) (hzero : loop 0 = pure ())
    (hsucc : ∀ fuel, loop (fuel + 1) = do
      let s ← get
      whenever (s.isEmpty x = false ∧ s.hasChar y (s.charAt x (pos (s.length x)))) do
        modify (Heap.setBuf x cut)
        loop fuel)
    (hpos : ∀ n, 0 < n → pos n < n) (hnil : done [] = [])
    (hdone : ∀ l c, l[pos l.length]? = some c → done l = if p c then done (next l) else l)
    (hnext : ∀ l, next l ⊆ l ∧ (next l).length = l.length - 1)
    (hcut : ∀ {s}, Inv s → 0 < s.length x → Turns x (next (s.content x)) s (s.setBuf x cut))
    {fuel : ℕ} (hs : Inv s) (hlen : s.length x ≤ fuel)
    (hp : ∀ c ∈ s.content x, s.hasChar y c = p c) :
    Gives (loop fuel) (fun _ => Turns x (done (s.content x)) s) (fun _ => False) s := by
  induction fuel generalizing s with
  | zero =>
    have hempty : s.content x = [] := content_eq_nil (by omega)
    rw [hzero, gives_pure, hempty, hnil, ← hempty]
    exact .refl hs x
  | succ fuel ih =>
    simp only [hsucc, gives_bind, gives_get, gives_whenever, gives_modify]
    by_cases hempty : s.length x = 0
    · rw [content_eq_nil hempty, hnil, ← content_eq_nil hempty]
      refine ⟨fun h => ?_, fun _ => .refl hs x⟩
      simp [Heap.isEmpty, hempty] at h
    · have hchar := getElem?_window (s.blob x).mem (s.off x) (s.length x) (pos (s.length x))
      rw [if_pos (hpos _ (by omega))] at hchar
      change (s.content x)[_]? = some (s.charAt x _) at hchar
      have hstep := hdone (s.content x) _ (by rwa [length_content])
      rw [hp _ (mem_of_getElem? hchar)]
      refine ⟨fun h => ?_, fun h => ?_⟩
      · have h1 := hcut hs (by omega)
        refine (ih h1.inv ?_ (hasChar_of_shorter hs h1 (hnext _).1 hp)).imp ?_
        · rw [h1.length, (hnext _).2, length_content]
          omega
        · intro _ s2 h2
          rw [h1.content] at h2
          rw [hstep, if_pos h.2]
          exact h1.trans h2
      · rw [hstep, if_neg fun hpc => h ⟨by simp [Heap.isEmpty, hempty], hpc⟩]
        exact .refl hs x

theorem trimEnd_gives {fuel : ℕ} (hs : Inv s) (hlen : s.length x ≤ fuel)
    (hp : ∀ c ∈ s.content x, s.hasChar y c = p c) : Gives (trimEnd x y fuel)
      (fun _ => Turns x ((s.content x).rdropWhile p) s) (fun _ => False) s := by
  refine trimLoop_gives (· - 1) dropLast (rdropWhile p) rfl (fun _ => rfl) (fun n h => by omega)
    (rdropWhile_nil p) ?_ (fun l => ⟨dropLast_subset l, length_dropLast⟩)
    (fun hs _ => turns_dropLast hs) hs hlen hp
  intro l c hc
  obtain ⟨l', rfl⟩ := getLast?_eq_some_iff.mp (getLast?_eq_getElem?.trans hc)
  rw [rdropWhile_concat, dropLast_concat]

theorem trimBeginning_gives {fuel : ℕ} (hs : Inv s) (hlen : s.length x ≤ fuel)
    (hp : ∀ c ∈ s.content x, s.hasChar y c = p c) : Gives (trimBeginning x y fuel)
      (fun _ => Turns x ((s.content x).dropWhile p) s) (fun _ => False) s := by
  refine trimLoop_gives (fun _ => 0) tail (dropWhile p) rfl (fun _ => rfl) (fun _ h => h)
    dropWhile_nil ?_ (fun l => ⟨tail_subset l, length_tail⟩) turns_tail hs hlen hp
  intro l c hc
  obtain ⟨l', rfl⟩ := head?_eq_some_iff.mp (head?_eq_getElem?.trans hc)
  exact dropWhile_cons

end

/-- The bytes `trim` leaves when `p` says which ones it removes. -/
def trimmed (p : UInt8 → Bool) (atBeginning atEnd : Bool) (l : List UInt8) : List UInt8 :=
  let l := if atEnd then l.rdropWhile p else l
  if atBeginning then l.dropWhile p else l

/-- **`trim` removes the bytes of the other buffer** from the ends asked
for. -/
theorem trim_gives (hs : Inv s) (x y : V) (atBeginning atEnd : Bool) :
    Gives (trim x y atBeginning atEnd)
      (fun _ => Turns x (trimmed (s.content y).contains atBeginning atEnd (s.content x)) s)
      (fun _ => False) s := by
  rw [trim, gives_bind]
  generalize hend : (if atEnd then (s.content x).rdropWhile (s.content y).contains
    else s.content x) = l
  have hl : l ⊆ s.content x := by
    cases atEnd
    · exact hend ▸ List.Subset.refl _
    · exact hend ▸ (List.rdropWhile_prefix _ _).subset
  have hfirst : Gives (whenever atEnd do
        let s ← get
        trimEnd x y (s.length x))
      (fun _ => Turns x l s) (fun _ => False) s := by
    rw [gives_whenever, ← hend]
    refine ⟨fun h => ?_, fun h => ?_⟩
    · simp only [gives_bind, gives_get, h, if_true]
      exact trimEnd_gives hs le_rfl fun _ _ => rfl
    · rw [if_neg h]
      exact .refl hs x
  refine hfirst.imp ?_
  intro _ s1 h1
  have hp := hasChar_of_shorter (y := y) hs h1 hl fun _ _ => rfl
  unfold trimmed
  rw [gives_bind]
  rw [hend]
  generalize hstart : (if atBeginning then l.dropWhile (s.content y).contains else l) = l'
  have hsecond : Gives (whenever atBeginning do
        let s ← get
        trimBeginning x y (s.length x))
      (fun _ => Turns x l' s) (fun _ => False) s1 := by
    rw [gives_whenever, ← hstart]
    refine ⟨fun h => ?_, fun h => ?_⟩
    · simp only [gives_bind, gives_get, h, if_true]
      refine (trimBeginning_gives h1.inv le_rfl hp).imp ?_
      intro _ s2 h2
      rw [h1.content] at h2
      exact h1.trans h2
    · rw [if_neg h]
      exact h1
  refine hsecond.imp ?_
  intro _ s2 h2
  simp only [gives_bind, gives_get, gives_whenever]
  refine ⟨fun h => ?_, fun _ => h2⟩
  have hnil : l' = [] := by
    refine eq_nil_of_length_eq_zero ?_
    rw [← h2.length]
    exact of_decide_eq_true h
  subst hnil
  exact (clear_gives h2.inv).imp fun _ _ => h2.trans

end Trim

end Sbuf
