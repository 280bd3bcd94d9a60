import Revalle.Ipc.Queue

/-!
# A queue is first in, first out

The positions of a queue are counters of 32 bits that are never reduced:
the cell of the `i`-th item is found from `i` modulo `2 ^ 32` modulo the
capacity. That is `i` modulo the capacity when the capacity divides
`2 ^ 32` (`cell_ofNat`), so the positions may wrap any number of times and
the argument can be about the `i`-th item of the history.

The size of the queue is its only shared counter, and each end only learns
one side of it: a writer that has found room keeps it, since only the writer
adds items, and a reader that has found an item keeps it. The phases say
what an end has learnt and how far it has come; `Good` relates them to the
history, and the lemmas of that namespace say what each access does.

## The offset

The offset of a cell is a product of 32 bits. A queue whose buffer has more
than `2 ^ 32` bytes has cells that share an offset, whatever its capacity
(`not_fifo_of_overflow`).
-/

namespace Ipc.OneToOneUniQueue

open Shm Function List Prog UInt32 Option

/-! ## Cells -/

/-- **The shapes whose positions are exact**: positions may wrap around
`2 ^ 32` because the capacity divides it, and the offset of every cell is
computed without overflow. -/
structure Exact (shape : QueueShape) : Prop where
  pos : 0 < shape.theCapacity.toNat
  dvd : shape.theCapacity.toNat ∣ 2 ^ 32
  bytes : shape.theCapacity.toNat * shape.theMaxItemSize.toNat ≤ 2 ^ 32

/-- The offset of the cell of the `i`-th item. -/
def cellAt (shape : QueueShape) (i : ℕ) : ℕ :=
  i % shape.theCapacity.toNat * shape.theMaxItemSize.toNat

variable {shape : QueueShape} {size : ℕ}

/-- The arithmetic of the source finds the cell of an item, however often its
position has wrapped. -/
theorem cell_ofNat (he : Exact shape) (i : ℕ) : cell shape (UInt32.ofNat i) = cellAt shape i := by
  have hlt : i % shape.theCapacity.toNat * shape.theMaxItemSize.toNat < 2 ^ 32 := by
    rcases Nat.eq_zero_or_pos shape.theMaxItemSize.toNat with h | h
    · rw [h, Nat.mul_zero]
      exact Nat.two_pow_pos 32
    · exact (Nat.mul_lt_mul_of_pos_right (Nat.mod_lt _ he.pos) h).trans_le he.bytes
  unfold cell cellAt
  rw [UInt32.toNat_mul, UInt32.toNat_mod, UInt32.toNat_ofNat', Nat.mod_mod_of_dvd _ he.dvd,
    Nat.mod_eq_of_lt hlt]

/-- Items that are in the queue together have different cells, which do not
overlap. -/
theorem cellAt_add_ne {i n j k : ℕ} (hin : i < n) (hni : n < i + shape.theCapacity.toNat)
    (hj : j < shape.theMaxItemSize.toNat) (hk : k < shape.theMaxItemSize.toNat) :
    cellAt shape i + j ≠ cellAt shape n + k := by
  intro heq
  have hdiv : ∀ a b, b < shape.theMaxItemSize.toNat →
      (a * shape.theMaxItemSize.toNat + b) / shape.theMaxItemSize.toNat = a := by
    intro a b hb
    rw [Nat.add_comm, Nat.add_mul_div_right _ _ (Nat.zero_lt_of_lt hb),
      Nat.div_eq_of_lt hb, Nat.zero_add]
  have hmod : i % shape.theCapacity.toNat = n % shape.theCapacity.toNat := by
    rw [← hdiv (i % shape.theCapacity.toNat) j hj, ← hdiv (n % shape.theCapacity.toNat) k hk]
    exact congrArg (· / shape.theMaxItemSize.toNat) heq
  have hdvd := (Nat.modEq_iff_dvd' hin.le).mp hmod
  have := Nat.le_of_dvd (Nat.sub_pos_of_lt hin) hdvd
  omega

/-- The first `k` bytes of a value are at an offset of the buffer. -/
def Stored (buffer : ℕ → UInt8) (offset : ℕ) (value : List UInt8) (k : ℕ) : Prop :=
  ∀ j < k, value[j]? = some (buffer (offset + j))

/-! ## The invariant -/

/-- What an end of the queue has under way. -/
inductive Phase where
  /-- Nothing. -/
  | quiet
  /-- The writer has found room. -/
  | room
  /-- The writer has advanced `theIn` and copied `k` bytes of a value. -/
  | writing (value : List UInt8) (k : ℕ)
  /-- The writer has handed over a value. -/
  | published (value : List UInt8)
  /-- The reader has found an item, which is this value. -/
  | present (value : List UInt8)
  /-- The reader has advanced `theOut`. -/
  | reading (value : List UInt8)
  /-- The reader has removed the item. -/
  | removed (value : List UInt8)

namespace Phase

/-- The value that is in the history but not yet in the log of the process. -/
def handed : Phase → List (List UInt8)
  | published v | removed v => [v]
  | _ => []

/-- How far the position is ahead of the log. -/
def ahead : Phase → ℕ
  | writing _ _ | published _ | reading _ | removed _ => 1
  | _ => 0

/-- Whether the writer counts on there being room. -/
def hasRoom : Phase → Prop
  | room | writing _ _ => True
  | _ => False

/-- The item the reader counts on. -/
def item : Phase → Option (List UInt8)
  | present v | reading v => some v
  | _ => none

end Phase

/-- **The invariant of a queue**, given the log and the phase of either
end. -/
structure Good (shape : QueueShape) (size : ℕ) (q : OneToOneUniQueue)
    (wlog : List (List UInt8)) (φw : Phase) (rlog : List (List UInt8)) (φr : Phase) : Prop where
  pushed : q.pushed = wlog ++ φw.handed
  popped : q.popped = rlog ++ φr.handed
  theIn : q.theIn = UInt32.ofNat (wlog.length + φw.ahead)
  theOut : q.theOut = UInt32.ofNat (rlog.length + φr.ahead)
  popped_le : q.popped <+: q.pushed
  theSize : q.theSize.toNat + q.popped.length = q.pushed.length
  theSize_le : q.theSize.toNat ≤ shape.theCapacity.toNat
  length_eq : ∀ v ∈ q.pushed, v.length = size
  /-- The items in the queue are in their cells. -/
  cells : ∀ i v, q.popped.length ≤ i → q.pushed[i]? = some v →
    Stored q.theBuffer (cellAt shape i) v size
  hasRoom : φw.hasRoom → q.theSize.toNat < shape.theCapacity.toNat
  /-- What the writer has copied is in the cell of the next item. -/
  written : ∀ v k, φw = .writing v k → Stored q.theBuffer (cellAt shape wlog.length) v k
  /-- The item the reader counts on is the next one. -/
  item : ∀ v, φr.item = some v → q.pushed[q.popped.length]? = some v

/-- **The invariant, as a protocol of the two ends.** -/
def protocol (shape : QueueShape) (size : ℕ) : Protocol Channel End (List (List UInt8)) Phase where
  Inv s o φs :=
    Good shape size s.queue (o .writer).held (φs .writer) (o .reader).held (φs .reader)
  Ok _ := True

section

variable {α : Type} {log : List (List UInt8)} {φ : Phase} {Q : α → Phase → Prop}

/-- The rule of an access of the writer. -/
theorem safe_writer {upd : Channel → Channel} {k : Channel → Prog Channel α}
    (hstep : ∀ s rlog φr, Good shape size s.queue log φ rlog φr →
      ∃ φ', Good shape size (upd s).queue log φ' rlog φr
        ∧ (protocol shape size).SafeIn .writer log (k s) φ' Q) :
    (protocol shape size).SafeIn .writer log (.act upd k) φ Q := by
  intro s o φs hI _ ho hφ
  obtain rfl : (o .writer).held = log := congrArg _ ho
  subst hφ
  exact hstep s _ _ hI

/-- The rule of an access of the reader. -/
theorem safe_reader {upd : Channel → Channel} {k : Channel → Prog Channel α}
    (hstep : ∀ s wlog φw, Good shape size s.queue wlog φw log φ →
      ∃ φ', Good shape size (upd s).queue wlog φw log φ'
        ∧ (protocol shape size).SafeIn .reader log (k s) φ' Q) :
    (protocol shape size).SafeIn .reader log (.act upd k) φ Q := by
  intro s o φs hI _ ho hφ
  obtain rfl : (o .reader).held = log := congrArg _ ho
  subst hφ
  exact hstep s _ _ hI

end

/-! ## What each access does -/

namespace Good

variable {q : OneToOneUniQueue} {wlog rlog : List (List UInt8)} {φw φr : Phase}
  {v : List UInt8} {k : ℕ}

/-- The writer finds room. -/
theorem find_room (hg : Good shape size q wlog .quiet rlog φr)
    (hne : q.theSize ≠ shape.theCapacity) : Good shape size q wlog .room rlog φr :=
  { hg with
    hasRoom := fun _ => lt_of_le_of_ne hg.theSize_le fun h => hne (UInt32.toNat_inj.mp h)
    written := nofun }

/-- `theIn++`. -/
theorem advance_in (hg : Good shape size q wlog .room rlog φr) (v : List UInt8) :
    Good shape size { q with theIn := q.theIn + 1 } wlog (.writing v 0) rlog φr := by
  refine { hg with theIn := ?_, written := fun _ k h j hj => ?_ }
  · rw [ofNat_add, hg.theIn]
    rfl
  · cases h
    exact absurd hj (Nat.not_lt_zero j)

/-- One byte is copied in. -/
theorem copy (hg : Good shape size q wlog (.writing v k) rlog φr) {b : UInt8}
    (hb : v[k]? = some b) (hv : v.length = size) (hs : size ≤ shape.theMaxItemSize.toNat) :
    Good shape size { q with theBuffer := update q.theBuffer (cellAt shape wlog.length + k) b }
      wlog (.writing v (k + 1)) rlog φr := by
  have hk : k < shape.theMaxItemSize.toNat := by
    have := (List.getElem?_eq_some_iff.mp hb).1
    omega
  have hp : q.pushed = wlog := hg.pushed.trans (append_nil wlog)
  refine { hg with cells := fun i w hi hw j hj => ?_, written := fun _ _ h j hj => ?_ }
  · have hroom := hg.hasRoom trivial
    have hsz := hg.theSize
    have hlt := (List.getElem?_eq_some_iff.mp hw).1
    dsimp only at hi
    rw [hp] at hsz hlt
    have hne : cellAt shape i + j ≠ cellAt shape wlog.length + k :=
      cellAt_add_ne hlt (by omega) (by omega) hk
    show w[j]? = some (update q.theBuffer _ b _)
    rw [update_of_ne hne]
    exact hg.cells i w hi hw j hj
  · cases h
    show v[j]? = some (update q.theBuffer _ b _)
    rcases Nat.lt_succ_iff_lt_or_eq.mp hj with hlt | rfl
    · rw [update_of_ne (by omega)]
      exact hg.written v k rfl j hlt
    · rw [update_self]
      exact hb

/-- `theSize++`: the item is handed over. -/
theorem publish (hg : Good shape size q wlog (.writing v size) rlog φr) (hv : v.length = size) :
    Good shape size { q with theSize := q.theSize + 1, pushed := q.pushed ++ [v] } wlog
      (.published v) rlog φr := by
  have hroom := hg.hasRoom trivial
  have hp : q.pushed = wlog := hg.pushed.trans (append_nil wlog)
  have hsz : (q.theSize + 1).toNat = q.theSize.toNat + 1 := by
    rw [UInt32.toNat_add, UInt32.toNat_one, Nat.mod_eq_of_lt]
    exact Nat.lt_of_le_of_lt hroom shape.theCapacity.toNat_lt
  refine { hg with
    pushed := by rw [hp]; rfl
    popped_le := hg.popped_le.trans (prefix_append _ _)
    theSize := ?_
    theSize_le := by rw [hsz]; exact hroom
    length_eq := ?_
    cells := fun i w hi hw => ?_
    hasRoom := fun h => h.elim
    written := nofun
    item := fun w hw => ?_ }
  · show (q.theSize + 1).toNat + q.popped.length = _
    rw [hsz, length_append, length_singleton, ← hg.theSize]
    omega
  · exact forall_mem_append.mpr ⟨hg.length_eq, forall_mem_singleton.mpr hv⟩
  · rcases Nat.lt_or_ge i q.pushed.length with hlt | hge
    · rw [getElem?_append_left hlt] at hw
      exact hg.cells i w hi hw
    · rw [getElem?_append_right hge] at hw
      obtain ⟨h0, rfl⟩ : i - q.pushed.length = 0 ∧ v = w := by
        simpa [getElem?_singleton] using hw
      rw [show i = wlog.length by rw [← hp]; omega]
      exact hg.written v size rfl
  · have hw' := hg.item w hw
    rw [List.getElem?_append_left (List.getElem?_eq_some_iff.mp hw').1]
    exact hw'

/-- The reader finds an item. -/
theorem find_item (hg : Good shape size q wlog φw rlog .quiet) (hne : q.theSize ≠ 0) :
    ∃ v, Good shape size q wlog φw rlog (.present v) := by
  have hpos : q.theSize.toNat ≠ 0 := fun h => hne (UInt32.toNat_inj.mp h)
  have hlt : q.popped.length < q.pushed.length := by
    have := hg.theSize
    omega
  refine ⟨q.pushed[q.popped.length], { hg with item := fun w hw => ?_ }⟩
  cases hw
  exact getElem?_eq_getElem hlt

/-- `theOut++`. -/
theorem advance_out (hg : Good shape size q wlog φw rlog (.present v)) :
    Good shape size { q with theOut := q.theOut + 1 } wlog φw rlog (.reading v) := by
  refine { hg with theOut := ?_ }
  rw [ofNat_add, hg.theOut]
  rfl

variable (hg : Good shape size q wlog φw rlog (.reading v))
include hg

/-- The item the reader counts on is in its cell. -/
theorem stored_item : Stored q.theBuffer (cellAt shape rlog.length) v size ∧ v.length = size := by
  have hp : q.popped = rlog := hg.popped.trans (append_nil rlog)
  have hi := hg.item v rfl
  have hc := hg.cells _ v le_rfl hi
  rw [hp] at hc
  exact ⟨hc, hg.length_eq v (mem_of_getElem? hi)⟩

/-- `--theSize`: the item is removed. -/
theorem remove :
    Good shape size { q with theSize := q.theSize - 1, popped := q.popped ++ [v] } wlog φw rlog
      (.removed v) := by
  have hp : q.popped = rlog := hg.popped.trans (List.append_nil rlog)
  have hi := hg.item v rfl
  have hlt := (List.getElem?_eq_some_iff.mp hi).1
  have hsz : (q.theSize - 1).toNat + 1 = q.theSize.toNat := by
    have h := hg.theSize
    rw [UInt32.toNat_sub_of_le _ _ (UInt32.le_iff_toNat_le.mpr (by rw [UInt32.toNat_one]; omega)),
      toNat_one]
    omega
  refine { hg with
    popped := by rw [hp]; rfl
    popped_le := ?_
    theSize := ?_
    theSize_le := ?_
    cells := fun i w hle hw => hg.cells i w (Nat.le_of_succ_le ?_) hw
    hasRoom := fun h => ?_
    item := fun w hw => nomatch hw }
  · obtain ⟨t, ht⟩ := hg.popped_le
    rw [← ht, List.getElem?_append_right le_rfl, Nat.sub_self] at hi
    cases t with
    | nil => cases hi
    | cons w t =>
      obtain rfl : w = v := some.inj hi
      exact ⟨t, by rw [List.append_assoc]; exact ht⟩
  · show (q.theSize - 1).toNat + (q.popped ++ [v]).length = q.pushed.length
    rw [List.length_append, List.length_singleton, ← hg.theSize]
    omega
  · have := hg.theSize_le
    show (q.theSize - 1).toNat ≤ _
    omega
  · rwa [List.length_append, List.length_singleton] at hle
  · have := hg.hasRoom h
    show (q.theSize - 1).toNat < _
    omega

end Good

/-! ## The operations -/

section

variable {α : Type} {log : List (List UInt8)} {φ : Phase} {Q : α → Phase → Prop} {v : List UInt8}

/-- An access to the flags of the reader does not concern the queue. -/
theorem safe_writer_flag {upd : Channel → Channel} {k : Channel → Prog Channel α}
    (hq : ∀ s, (upd s).queue = s.queue)
    (hk : ∀ s, (protocol shape size).SafeIn .writer log (k s) φ Q) :
    (protocol shape size).SafeIn .writer log (.act upd k) φ Q :=
  safe_writer fun s _ _ hg => ⟨φ, by rw [hq]; exact hg, hk s⟩

/-- An access to the flags of the reader does not concern the queue. -/
theorem safe_reader_flag {upd : Channel → Channel} {k : Channel → Prog Channel α}
    (hq : ∀ s, (upd s).queue = s.queue)
    (hk : ∀ s, (protocol shape size).SafeIn .reader log (k s) φ Q) :
    (protocol shape size).SafeIn .reader log (.act upd k) φ Q :=
  safe_reader fun s _ _ hg => ⟨φ, by rw [hq]; exact hg, hk s⟩

/-- A signal does not concern the queue. -/
theorem raiseSignal_safe : (protocol shape size).SafeIn .writer log QueueReader.raiseSignal φ
      (fun _ φ' => φ' = φ) := by
  unfold QueueReader.raiseSignal
  simp only [load_bind, rmw_bind]
  refine safe_writer_flag (fun _ => rfl) fun s => ?_
  split
  · exact safe_writer_flag (fun _ => rfl) fun s => .ret rfl
  · exact .ret rfl

/-- The bytes of a value are copied in one after the other. -/
theorem copyIn_safe (hv : v.length = size) (hs : size ≤ shape.theMaxItemSize.toNat)
    (before bs : List UInt8) (hbs : before ++ bs = v) :
    (protocol shape size).SafeIn .writer log
      (copyIn (cellAt shape log.length + before.length) bs) (.writing v before.length)
      (fun _ φ => φ = .writing v size) := by
  induction bs generalizing before with
  | nil =>
    rw [append_nil] at hbs
    exact .ret (by rw [hbs, hv])
  | cons b bs ih =>
    have hb : v[before.length]? = some b := by
      rw [← hbs, getElem?_append_right le_rfl, Nat.sub_self]
      rfl
    refine safe_writer fun s rlog φr hg => ⟨_, hg.copy hb hv hs, ?_⟩
    have := ih (before ++ [b]) (by rw [append_assoc]; exact hbs)
    rwa [length_append, length_singleton] at this

/-- A value is handed over. -/
theorem put_safe (he : Exact shape) (hv : v.length = size)
    (hs : size ≤ shape.theMaxItemSize.toNat) (reader : Bool) :
    (protocol shape size).SafeIn .writer log (put shape v reader) .room
      (fun _ φ => φ = .published v) := by
  unfold put
  simp only [load_bind, store_bind, rmw_bind]
  refine safe_writer fun s rlog φr hg => ⟨_, hg, ?_⟩
  have hi : s.queue.theIn = ofNat log.length := hg.theIn
  rw [hi]
  refine safe_writer fun s rlog φr hg => ⟨.writing v 0, ?_, ?_⟩
  · have := hg.advance_in v
    rwa [show s.queue.theIn = ofNat log.length from hg.theIn] at this
  rw [cell_ofNat he]
  refine (copyIn_safe hv hs [] v rfl).bind ?_
  rintro _ φ rfl
  refine safe_writer fun s rlog φr hg => ⟨_, hg.publish hv, ?_⟩
  split
  · cases reader with
    | false => exact .ret rfl
    | true => exact raiseSignal_safe
  · exact .ret rfl

/-- **`push` hands a value over or changes nothing.** -/
theorem push_safe (he : Exact shape) (hv : v.length = size) (reader : Bool) :
    (protocol shape size).SafeIn .writer log (push shape v reader) .quiet (fun r φ => match r with
        | .ok _ => φ = .published v
        | .error _ => φ = .quiet) := by
  unfold push
  by_cases hs : shape.theMaxItemSize.toNat < v.length
  · rw [if_pos hs]
    exact .ret rfl
  · rw [if_neg hs]
    simp only [load_bind]
    refine safe_writer fun s rlog φr hg => ?_
    by_cases hf : s.queue.theSize = shape.theCapacity
    · refine ⟨_, hg, ?_⟩
      rw [if_pos hf]
      exact .ret rfl
    · refine ⟨_, hg.find_room hf, ?_⟩
      rw [if_neg hf]
      refine (put_safe he hv (by omega) reader).bind ?_
      rintro _ φ rfl
      exact .ret rfl

/-- The bytes of the item are copied out one after the other. -/
theorem copyOut_safe {n k : ℕ} (hv : v.length = k + n) (hn : k + n = size) :
    (protocol shape size).SafeIn .reader log (copyOut (cellAt shape log.length + k) n) (.reading v)
      (fun bs φ => φ = .reading v ∧ bs = v.drop k) := by
  induction n generalizing k with
  | zero => exact .ret ⟨rfl, (drop_eq_nil_of_le hv.le).symm⟩
  | succ n ih =>
    simp only [copyOut, load_bind]
    refine safe_reader fun s wlog φw hg => ⟨_, hg, ?_⟩
    refine (ih (k := k + 1) (by omega) (by omega)).bind ?_
    rintro bs φ ⟨rfl, rfl⟩
    refine .ret ⟨rfl, ?_⟩
    obtain ⟨hlt, hb⟩ := List.getElem?_eq_some_iff.mp (hg.stored_item.1 k (by omega))
    rw [drop_eq_getElem_cons hlt, hb]

/-- The next item is removed. -/
theorem take_safe (he : Exact shape) (reader : Bool) :
    (protocol shape size).SafeIn .reader log (take shape size reader) (.present v)
      (fun w φ => w = v ∧ φ = .removed v) := by
  have main : (protocol shape size).SafeIn .reader log (take shape size false) (.present v)
      (fun w φ => w = v ∧ φ = .removed v) := by
    simp only [take, load_bind, store_bind]
    refine safe_reader fun s wlog φw hg => ⟨_, hg, ?_⟩
    have hi : s.queue.theOut = ofNat log.length := hg.theOut
    have hv : v.length = size := hg.advance_out.stored_item.2
    rw [hi]
    refine safe_reader fun s wlog φw hg => ⟨.reading v, ?_, ?_⟩
    · have := hg.advance_out
      rwa [show s.queue.theOut = ofNat log.length from hg.theOut] at this
    rw [cell_ofNat he]
    refine (copyOut_safe (k := 0) (n := size) (by rw [hv, zero_add]) (zero_add size)).bind ?_
    rintro bs φ ⟨rfl, rfl⟩
    exact safe_reader fun s wlog φw hg => ⟨_, hg.remove, .ret ⟨rfl, rfl⟩⟩
  cases reader with
  | false => exact main
  | true => exact safe_reader_flag (fun _ => rfl) fun _ => main

/-- **`pop` removes the next item or changes nothing.** -/
theorem pop_safe (he : Exact shape) (reader : Bool) :
    (protocol shape size).SafeIn .reader log (pop shape size reader) .quiet (fun r φ => match r with
        | .ok (some w) => φ = .removed w
        | _ => φ = .quiet) := by
  -- the reader looks at the size, and `x` follows if it is zero
  have look : ∀ {Q : Except QueueError (Option (List UInt8)) → Phase → Prop} x,
      (∀ w, Q (.ok (some w)) (.removed w)) → (protocol shape size).SafeIn .reader log x .quiet Q →
      (protocol shape size).SafeIn .reader log (.act id fun s => if s.queue.theSize = 0 then x
        else do return .ok (some (← take shape size reader))) .quiet Q := by
    intro Q x hQ hx
    refine safe_reader fun s wlog φw hg => ?_
    by_cases hz : s.queue.theSize = 0
    · rw [if_pos hz]
      exact ⟨_, hg, hx⟩
    · rw [if_neg hz]
      obtain ⟨w, hg⟩ := hg.find_item hz
      refine ⟨_, hg, (take_safe he reader).bind ?_⟩
      rintro w φ ⟨rfl, rfl⟩
      exact .ret (hQ w)
  unfold pop
  by_cases hs : shape.theMaxItemSize.toNat < size
  · rw [if_pos hs]
    exact .ret rfl
  · rw [if_neg hs]
    refine look _ (fun _ => rfl) ?_
    cases reader with
    | false => exact .ret rfl
    | true => exact safe_reader_flag (fun _ => rfl) fun _ => look _ (fun _ => rfl) (.ret rfl)

end

/-! ## Every run -/

namespace Good

variable {q : OneToOneUniQueue} {wlog rlog : List (List UInt8)} {φw φr : Phase}
  {v : List UInt8}

/-- A `push` returns. -/
theorem return_push (hg : Good shape size q wlog (.published v) rlog φr) :
    Good shape size q (wlog ++ [v]) .quiet rlog φr :=
  { hg with
    pushed := hg.pushed.trans (append_nil _).symm
    theIn := by
      rw [hg.theIn, length_append, length_singleton]
      rfl
    hasRoom := fun h => h.elim
    written := nofun }

/-- A `pop` returns. -/
theorem return_pop (hg : Good shape size q wlog φw rlog (.removed v)) :
    Good shape size q wlog φw (rlog ++ [v]) .quiet :=
  { hg with
    popped := hg.popped.trans (append_nil _).symm
    theOut := by
      rw [hg.theOut, length_append, length_singleton]
      rfl
    item := nofun }

/-- A new queue. -/
theorem new (buffer : ℕ → UInt8) :
    Good shape size (OneToOneUniQueue.new buffer) [] .quiet [] .quiet where
  pushed := rfl
  popped := rfl
  theIn := rfl
  theOut := rfl
  popped_le := prefix_refl _
  theSize := rfl
  theSize_le := Nat.zero_le _
  length_eq _ h := nomatch h
  cells _ _ _ h := nomatch h
  hasRoom h := h.elim
  written _ _ h := nomatch h
  item _ h := nomatch h

end Good

/-- **What a queue promises at an instant.** The log of an end is what its
completed operations have pushed or were returned. -/
structure Fifo (shape : QueueShape) (c : Config Channel End (List (List UInt8))) : Prop where
  /-- What `pop` has returned is, in order, what was handed to the queue. -/
  returned_le : (c.outline .reader).held <+: c.mem.queue.pushed
  /-- What was handed to the queue is what was successfully pushed, up to a
  `push` that has not returned yet. -/
  pushed_eq : (c.outline .writer).held <+: c.mem.queue.pushed
    ∧ ((c.outline .writer).busy = false → c.mem.queue.pushed = (c.outline .writer).held)
  /-- What was taken from the queue is what was returned, up to a `pop` that
  has not returned yet. -/
  popped_eq : (c.outline .reader).held <+: c.mem.queue.popped
    ∧ ((c.outline .reader).busy = false → c.mem.queue.popped = (c.outline .reader).held)
  /-- A `push` that looks at the queue now throws `Full` only if as many items
  as the capacity are present. -/
  full : c.mem.queue.theSize = shape.theCapacity →
    c.mem.queue.popped.length + shape.theCapacity.toNat = c.mem.queue.pushed.length
  /-- The cells of the items that are present hold these items. -/
  intact : ∀ i v, c.mem.queue.popped.length ≤ i → c.mem.queue.pushed[i]? = some v →
    ∀ j < v.length, v[j]? = some (c.mem.queue.theBuffer (cell shape (UInt32.ofNat i) + j))

/-- **The invariant holds in every run.** -/
theorem reachable_good (he : Exact shape) {reader : Bool} {buffer : ℕ → UInt8} {rd : QueueReader}
    {c : Config Channel End (List (List UInt8))}
    (hc : (system shape size reader ⟨new buffer, rd⟩).Reachable c) :
    ∃ φs, (protocol shape size).Inv c.mem c.outline φs
      ∧ ∀ p, (protocol shape size).ThreadOk .quiet p (c.thread p) (φs p) := by
  refine System.ReachableIn.invariant (S := system shape size reader ⟨new buffer, rd⟩)
    (π := protocol shape size) (Good.new buffer) ?_ hc
  intro p op s log log' x hcall o φs hI _ ho hφ
  -- a call changes neither the log nor the phase
  have enter : log' = log → (protocol shape size).Inv s
      (update o p ⟨log', true⟩) (update φs p .quiet) := by
    rintro rfl
    have held : ∀ q, (update o p ⟨log', true⟩ q).held = (o q).held := by
      intro q
      by_cases hq : q = p
      · rw [hq, update_self, ho]
      · rw [update_of_ne hq]
    rw [← hφ, update_eq_self]
    show Good shape size s.queue _ _ _ _
    rw [held, held]
    exact hI
  cases p with
  | writer =>
    cases op with
    | pop => cases hcall
    | push v =>
      obtain ⟨hv, hcall⟩ := ite_some_none_eq_some.mp hcall
      obtain ⟨rfl, rfl⟩ := Prod.mk.inj hcall
      refine ⟨.quiet, enter rfl, (push_safe he hv reader).bind ?_⟩
      rintro (e | b) φ hφ
      all_goals
        refine .ret fun s o φs hI _ ho hφs => ?_
        rw [hφ] at hφs
        simp only [protocol, update_self, hφs, ho] at hI ⊢
      · exact hI
      · exact hI.return_push
  | reader =>
    cases op with
    | push v => cases hcall
    | pop =>
      obtain ⟨rfl, rfl⟩ := Prod.mk.inj (some.inj hcall)
      refine ⟨.quiet, enter rfl, (pop_safe he reader).bind ?_⟩
      rintro (e | (_ | w)) φ hφ
      all_goals
        refine .ret fun s o φs hI _ ho hφs => ?_
        rw [hφ] at hφs
        simp only [protocol, update_self, hφs, ho] at hI ⊢
      · exact hI
      · exact hI
      · exact hI.return_pop

/-- **A queue whose capacity divides `2 ^ 32` and whose buffer has at most
`2 ^ 32` bytes is first in, first out**, in every interleaving and however
often its positions wrap. -/
theorem fifo_of_exact (he : Exact shape) {reader : Bool} {buffer : ℕ → UInt8} {rd : QueueReader}
    {c : Config Channel End (List (List UInt8))}
    (hc : (system shape size reader ⟨new buffer, rd⟩).Reachable c) : Fifo shape c := by
  obtain ⟨φs, hI, ht⟩ := reachable_good he hc
  have hg : Good shape size c.mem.queue (c.outline .writer).held (φs .writer)
    (c.outline .reader).held (φs .reader) := hI
  have quiet : ∀ p, (c.outline p).busy = false → φs p = .quiet := by
    intro p hb
    have htp := ht p
    unfold Config.outline at hb
    cases hth : c.thread p with
    | idle h => rw [hth] at htp; exact htp
    | running h x => rw [hth] at hb; cases hb
  have hr : (c.outline .reader).held <+: c.mem.queue.popped := by
    rw [hg.popped]
    exact List.prefix_append _ _
  refine ⟨hr.trans hg.popped_le, ⟨?_, fun hb => ?_⟩, ⟨hr, fun hb => ?_⟩, fun hf => ?_, ?_⟩
  · rw [hg.pushed]
    exact List.prefix_append _ _
  · rw [hg.pushed, quiet _ hb]
    exact List.append_nil _
  · rw [hg.popped, quiet _ hb]
    exact List.append_nil _
  · rw [← hf, Nat.add_comm]
    exact hg.theSize
  · intro i v hi hv j hj
    rw [cell_ofNat he]
    rw [hg.length_eq v (List.mem_of_getElem? hv)] at hj
    exact hg.cells i v hi hv j hj

/-- For instance a queue of two cells of three bytes, whose writer fails on a
full queue while its reader is in the middle of a copy. -/
theorem fifo_of_exact_two :
    ∃ c, (system ⟨3, 2⟩ 2 true ⟨new fun _ => 0, .new⟩).Reachable c
      ∧ c.mem.queue.theSize = 2 ∧ (c.outline .reader).busy = true ∧ Fifo ⟨3, 2⟩ c := by
  have hc : (system ⟨3, 2⟩ 2 true ⟨new fun _ => 0, .new⟩).Reachable _ :=
    (System.ReachableIn.init trivial).run
      (.invoke .writer (.push [1, 2]) :: List.replicate 8 (.advance .writer 0)
        ++ .invoke .writer (.push [3, 4]) :: List.replicate 7 (.advance .writer 0)
        ++ .invoke .reader .pop :: List.replicate 5 (.advance .reader 0)
        ++ .invoke .writer (.push [5, 6]) :: List.replicate 2 (.advance .writer 0)) rfl
  exact ⟨_, hc, rfl, rfl, fifo_of_exact ⟨by decide, by decide, by decide⟩ hc⟩

/-! ## The offset of a cell overflows -/

/-- In a queue of four cells of `2 ^ 31` bytes the first and the third cell
have the same offset, and the third item overwrites the first. -/
theorem not_fifo_of_overflow :
    ¬ ∀ (shape : QueueShape) (size : ℕ) (reader : Bool) (buffer : ℕ → UInt8) (rd : QueueReader)
      (c : Config Channel End (List (List UInt8))),
      0 < shape.theCapacity.toNat → shape.theCapacity.toNat ∣ 2 ^ 32 →
      (system shape size reader ⟨new buffer, rd⟩).Reachable c → Fifo shape c := by
  intro hall
  have hc : (system ⟨2 ^ 31, 4⟩ 1 false ⟨new fun _ => 0, .new⟩).Reachable _ :=
    (System.ReachableIn.init trivial).run
      (.invoke .writer (.push [1]) :: List.replicate 6 (.advance .writer 0)
        ++ .invoke .writer (.push [2]) :: List.replicate 6 (.advance .writer 0)
        ++ .invoke .writer (.push [3]) :: List.replicate 6 (.advance .writer 0)
        ++ .invoke .reader .pop :: List.replicate 6 (.advance .reader 0)) rfl
  have hf : [[3]] <+: ([[1], [2], [3]] : List (List UInt8)) :=
    (hall _ _ _ _ _ _ (by decide) (by decide) hc).returned_le
  exact nomatch hf

end Ipc.OneToOneUniQueue
