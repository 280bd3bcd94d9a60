import Revalle.Sbuf.SBufSpecs

/-!
# Programs over buffers, and the same programs over byte strings

A program calls the operations of any number of buffers, in any order. On one
side it runs on the heap, where buffers share blobs. On the other it runs on
byte strings that have nothing to do with each other. The two agree after
every operation: a buffer always has the bytes of its byte string.

Three kinds of call are left out, since the code is wrong about them. `chop`
and `substr` compare an overflowing sum with the length. An empty `appendf`
format and an empty raw append make `rawSpace` grant space that another buffer
may be using: the first then stores a zero there, and the second gives the
used part of the blob a new end. Requests of almost the whole range of
`size_type` wrap around in the check of the size limit.
-/

namespace Sbuf

open Ascii Throwing Function

variable {V : Type}

/-- Bytes that a `size_type` can count. -/
structure Chars where
  data : List UInt8
  length_lt : data.length < 2 ^ 32

/-- What the pointer given to a buffer points to: bytes outside of all blobs,
or a range of the content of a buffer. -/
inductive Source (V : Type) where
  | chars (s : Chars)
  | range (y : V) (pos n : ℕ)

/-- **The operations of a program** with the buffers `V`. -/
inductive Op (V : Type) where
  | construct (x : V)
  | copy (x y : V)
  | assign (x : V) (source : Source V)
  | append (x y : V)
  | appendArea (x : V) (source : Source V)
  | appendf (x : V) (fmtLen : ℕ) (out : List UInt8)
  | consume (r x : V) (n : UInt32)
  | chop (x : V) (pos n : UInt32)
  | substr (r x : V) (pos n : UInt32)
  | trim (x toRemove : V) (atBeginning atEnd : Bool)
  | setAt (x : V) (pos : UInt32) (toset : UInt8)
  | clear (x : V)
  | c_str (x : V)
  | reserveSpace (x : V) (minSpace : UInt32)
  | reserveCapacity (x : V) (minCapacity : UInt32)
  | reserve (x : V) (req : Requirements)
  | toLower (x : V)
  | toUpper (x : V)
  | rawAppend (x : V) (anticipatedSize : UInt32) (data : List UInt8)

/-! ## What a program does to byte strings -/

section Bytes

variable [DecidableEq V]

def Source.bytes (c : V → List UInt8) : Source V → List UInt8
  | chars s => s.data
  | range y pos n => ((c y).drop pos).take n

/-- **The operation on byte strings**, when it does not throw. -/
def Op.apply (c : V → List UInt8) : Op V → V → List UInt8
  | construct x => update c x []
  | copy x y => update c x (c y)
  | assign x source => update c x (source.bytes c)
  | append x y => update c x (c x ++ c y)
  | appendArea x source => update c x (c x ++ source.bytes c)
  | appendf x _ out => update c x (c x ++ out)
  | consume r x n =>
    update (update c x ((c x).drop n.toNat)) r ((c x).take n.toNat)
  | chop x pos n => update c x (((c x).drop pos.toNat).take n.toNat)
  | substr r x pos n => update c r (((c x).drop pos.toNat).take n.toNat)
  | trim x y atBeginning atEnd =>
    update c x (trimmed (c y).contains atBeginning atEnd (c x))
  | setAt x pos toset => update c x ((c x).set pos.toNat toset)
  | clear x => update c x []
  | toLower x => update c x ((c x).map tolower)
  | toUpper x => update c x ((c x).map toupper)
  | rawAppend x _ data => update c x (c x ++ data)
  | c_str _ | reserveSpace _ _ | reserveCapacity _ _ | reserve _ _ => c

/-- What is left when the operation throws: everything, except that `assign`
has already cleared its buffer. -/
def Op.onThrow (c : V → List UInt8) : Op V → V → List UInt8
  | assign x _ => update c x []
  | _ => c

/-- The operation stays within the size limit of a buffer and within the
buffer, and so has no reason to throw. -/
def Op.Fits (c : V → List UInt8) : Op V → Prop
  | assign _ source => (source.bytes c).length ≤ maxSize
  | append x y => (c x).length + (c y).length ≤ maxSize
  | appendArea x source => (c x).length + (source.bytes c).length ≤ maxSize
  | appendf x fmtLen out =>
    (c x).length + 2 * fmtLen ≤ maxSize ∧ (c x).length + 2 * out.length ≤ maxSize
  | setAt x pos _ => pos.toNat < (c x).length
  | c_str x => (c x).length + 1 ≤ maxSize
  | reserveSpace x n => (c x).length + n.toNat ≤ maxSize
  | reserveCapacity _ n => n.toNat ≤ maxSize
  | rawAppend x n _ => (c x).length + n.toNat ≤ maxSize
  | _ => True

/-- **What the caller has to see to**: a range lies in the content of its
buffer, and no more bytes are stored in raw space than were asked for. -/
def Op.Legal (c : V → List UInt8) : Op V → Prop
  | assign _ (.range y pos n) | appendArea _ (.range y pos n) => pos + n ≤ (c y).length
  | rawAppend _ n data => data.length ≤ n.toNat
  | _ => True

/-- **Where the code is right.** The arguments of `chop` and `substr` have no
overflowing sum. Raw space and formatted text are not empty requests, which
`rawSpace` grants without looking whose bytes come next, and not so long that
the length wraps around. -/
def Op.Safe (c : V → List UInt8) : Op V → Prop
  | chop x pos n | substr _ x pos n =>
    pos.toNat < (c x).length → n.toNat = npos ∨ pos.toNat + n.toNat < 2 ^ 32
  | appendf x fmtLen out =>
    fmtLen ≠ 0 ∧ (c x).length + 2 * fmtLen < npos ∧ (c x).length + 2 * out.length < npos
  | rawAppend x n _ => n ≠ 0 ∧ (c x).length + n.toNat < npos
  | _ => True

end Bytes

/-! ## What it does to buffers -/

variable [Fintype V] [DecidableEq V]

/-- The area a source is, now. -/
def Source.area (s : Heap (Option V)) : Source V → Area
  | chars s => .outside s.data
  | range y pos n => .inside (s.store (some y)) (s.off (some y) + pos) n

/-- `x = SBuf()`, and also what a buffer out of scope counts for. -/
def construct {W : Type} [DecidableEq W] (x : W) : Run W Unit :=
  modify (Heap.setBuf x fun _ => SBuf.empty)

/-- **The operation on buffers.** The buffer `none` is the temporary that
`consume` and `substr` return. -/
def Op.exec : Op V → Run (Option V) Unit
  | construct x => Sbuf.construct (some x)
  | copy x y => Sbuf.assign (some x) (some y)
  | assign x source => do
    let s ← get
    assignArea (some x) (source.area s)
  | append x y => Sbuf.append (some x) (some y)
  | appendArea x source => do
    let s ← get
    Sbuf.appendArea (some x) (source.area s)
  | appendf x fmtLen out => Sbuf.appendf (some x) fmtLen out
  | consume r x n => do
    Sbuf.consume none (some x) n.toNat
    Sbuf.assign (some r) none
    Sbuf.construct none
  | chop x pos n => Sbuf.chop (some x) pos.toNat n.toNat
  | substr r x pos n => do
    Sbuf.substr none (some x) pos.toNat n.toNat
    Sbuf.assign (some r) none
    Sbuf.construct none
  | trim x y atBeginning atEnd => Sbuf.trim (some x) (some y) atBeginning atEnd
  | setAt x pos toset => Sbuf.setAt (some x) pos.toNat toset
  | clear x => Sbuf.clear (some x)
  | c_str x => Sbuf.c_str (some x)
  | reserveSpace x n => Sbuf.reserveSpace (some x) n.toNat
  | reserveCapacity x n => Sbuf.reserveCapacity (some x) n.toNat
  | reserve x req => do
    let _ ← Sbuf.reserve (some x) req
    pure ()
  | toLower x => Sbuf.toLower (some x)
  | toUpper x => Sbuf.toUpper (some x)
  | rawAppend x n data => Sbuf.rawAppend (some x) n.toNat data

/-- The start: all buffers share the empty prototype. -/
def start (garbage : ℕ → ℕ → UInt8) : Heap (Option V) where
  sbufs _ := SBuf.empty
  blobs b := ⟨garbage b, grossSize 0, 0⟩
  nextBlob := 1
  lockers := []
  garbage := garbage

/-- **The heap and the byte strings that one program leads to**, when each of
its operations is legal and safe. A program may go on after an exception. -/
inductive Reached (garbage : ℕ → ℕ → UInt8) : Heap (Option V) → (V → List UInt8) → Prop
  | start : Reached garbage (start garbage) fun _ => []
  | done {s s' : Heap (Option V)} {c : V → List UInt8} {op : Op V} (h : Reached garbage s c)
      (hlegal : op.Legal c) (hsafe : op.Safe c) (hrun : op.exec.run s = some (.ok (), s')) :
      Reached garbage s' (op.apply c)
  | threw {s s' : Heap (Option V)} {c : V → List UInt8} {op : Op V} (h : Reached garbage s c)
      (hlegal : op.Legal c) (hsafe : op.Safe c) (hrun : op.exec.run s = some (.error (), s')) :
      Reached garbage s' (op.onThrow c)

/-- The heap holds these byte strings. -/
structure Holds (s : Heap (Option V)) (c : V → List UInt8) : Prop where
  inv : Inv s
  content : ∀ v, s.content (some v) = c v

section

variable {s s' : Heap (Option V)} {c : V → List UInt8} {x : V} {l : List UInt8}

omit [Fintype V] in
theorem Holds.turns (h : Holds s c) (ht : Turns (some x) l s s') : Holds s' (update c x l) := by
  refine ⟨ht.inv, fun v => ?_⟩
  by_cases hv : v = x
  · rw [hv, update_self, ht.content]
  · rw [update_of_ne hv, ht.toFrame.content h.inv (by simpa using hv), h.content]

omit [Fintype V] in
theorem Holds.keeps (h : Holds s c) (ht : Turns (some x) (s.content (some x)) s s') :
    Holds s' c := by
  have h' := h.turns ht
  rwa [h.content, update_eq_self] at h'

omit [Fintype V] [DecidableEq V] in
theorem Holds.temporary (h : Holds s c) (ht : Turns none l s s') : Holds s' c :=
  ⟨ht.inv, fun v => by rw [ht.toFrame.content h.inv (by simp), h.content]⟩

omit [Fintype V] [DecidableEq V] in
theorem Holds.length (h : Holds s c) (v : V) : (c v).length = s.length (some v) := by
  rw [← h.content, length_content]

theorem construct_gives {W : Type} [DecidableEq W] {s : Heap W} (hs : Inv s) (x : W) :
    Gives (construct x) (fun _ => Turns x [] s) (fun _ => False) s := by
  rw [construct, gives_modify]
  exact turns_setBuf hs x SBuf.empty hs.prototype_lt (Nat.zero_le _)

omit [Fintype V] in
/-- The result of `consume` or `substr` moves to its buffer. -/
theorem move_gives (h : Holds s c) (hl : s.content none = l) (r : V) :
    Gives (do assign (some r) none; construct none)
      (fun _ s' => Holds s' (update c r l)) (fun _ => False) s := by
  rw [gives_bind]
  refine (assign_gives h.inv (some r) none).imp ?_
  intro _ s1 h1
  rw [hl] at h1
  exact (construct_gives h1.inv none).imp fun _ _ h2 => (h.turns h1).temporary h2

omit [Fintype V] [DecidableEq V] in
theorem Source.area_valid (h : Holds s c) {source : Source V}
    (hlegal : (Op.assign x source).Legal c) :
    (source.area s).Valid s (some x) ∧ (source.area s).bytes s = source.bytes c ∧
      (source.area s).size < 2 ^ 32 := by
  cases source with
  | chars data => exact ⟨trivial, rfl, data.length_lt⟩
  | range y pos n =>
    have hle : pos + n ≤ (c y).length := hlegal
    have hshort := h.inv.short (some y)
    rw [h.length] at hle
    refine ⟨valid_content h.inv (some x) (some y) _ _ hle, ?_, ?_⟩
    · show Memory.window _ _ _ = ((c y).drop pos).take n
      rw [← h.content, Heap.content, Memory.drop_window _ _ _ _ (by omega),
        Memory.take_window _ _ _ _ (by omega)]
      rfl
    · show n < _
      unfold maxSize at hshort
      omega

omit [Fintype V] in
/-- A refused operation changes no byte string. -/
theorem Holds.refused {P R : Prop} (h : Holds s c) (hPR : P → ¬ R) (s' : Heap (Option V))
    (hs' : Turns (some x) (s.content (some x)) s s' ∧ P) : Holds s' c ∧ ¬ R :=
  ⟨h.keeps hs'.1, hPR hs'.2⟩

/-- **Each operation does to the buffers what it does to byte strings.** -/
theorem exec_gives (h : Holds s c) {op : Op V} (hlegal : op.Legal c) (hsafe : op.Safe c) :
    Gives op.exec (fun _ s' => Holds s' (op.apply c))
      (fun s' => Holds s' (op.onThrow c) ∧ ¬ op.Fits c) s := by
  have hlen := h.length
  -- the byte strings are the contents
  obtain rfl : (fun v => s.content (some v)) = c := funext h.content
  cases op with
  | construct x =>
    exact (construct_gives h.inv (some x)).never fun _ _ => h.turns
  | copy x y =>
    exact (assign_gives h.inv (some x) (some y)).never fun _ _ => h.turns
  | assign x source =>
    obtain ⟨hv, hbytes, hsize⟩ := Source.area_valid h hlegal
    simp only [Op.exec, gives_bind, gives_get]
    refine (assignArea_gives h.inv hsize hv).mono (fun _ _ ht => ?_) ?_
    · rw [hbytes] at ht
      exact h.turns ht
    · rintro s' ⟨ht, hbig⟩
      refine ⟨h.turns ht, fun hfit => ?_⟩
      rw [Op.Fits, ← hbytes, Area.length_bytes] at hfit
      omega
  | append x y =>
    refine (append_gives h.inv (some x) (some y)).mono (fun _ _ => h.turns)
      (h.refused fun hbig hfit => ?_)
    rw [Op.Fits, hlen, hlen] at hfit
    omega
  | appendArea x source =>
    obtain ⟨hv, hbytes, hsize⟩ := Source.area_valid h
      (show (Op.assign x source).Legal _ by cases source <;> exact hlegal)
    simp only [Op.exec, gives_bind, gives_get]
    refine (appendArea_gives h.inv _ hsize hv).mono (fun _ _ ht => ?_)
      (h.refused fun hbig hfit => ?_)
    · rw [hbytes] at ht
      exact h.turns ht
    · rw [Op.Fits, ← hbytes, Area.length_bytes, hlen] at hfit
      omega
  | appendf x fmtLen out =>
    obtain ⟨hfmt, hfmt', hout⟩ := hsafe
    rw [hlen] at hfmt' hout
    refine (appendf_gives h.inv hfmt hfmt' hout).mono (fun _ _ => h.turns)
      (h.refused fun hbig hfit => ?_)
    rw [Op.Fits, hlen] at hfit
    omega
  | consume r x n =>
    rw [Op.exec, gives_bind]
    refine (consume_splits h.inv none (some x) (by simp) n.toNat).never ?_
    rintro - s2 ⟨s1, h1, h2⟩
    have hrv := h2.toFrame.content h1.inv (v := none) (by simp)
    rw [h1.content] at hrv
    exact (move_gives ((h.temporary h1).turns h2) hrv r).never fun _ _ hm => hm
  | chop x pos n =>
    exact (chop_gives h.inv pos.toNat_lt (hlen x ▸ hsafe)).never fun _ _ => h.turns
  | substr r x pos n =>
    rw [Op.exec, gives_bind]
    refine (substr_gives h.inv none (some x) pos.toNat_lt (hlen x ▸ hsafe)).never ?_
    intro _ s1 h1
    exact (move_gives (h.temporary h1) h1.content r).never fun _ _ hm => hm
  | trim x y atBeginning atEnd =>
    exact (trim_gives h.inv (some x) (some y) atBeginning atEnd).never fun _ _ => h.turns
  | setAt x pos toset =>
    refine (setAt_gives h.inv pos.toNat toset).mono (fun _ _ => h.turns) ?_
    rintro s' ⟨rfl, hout⟩
    refine ⟨h, fun hfit => ?_⟩
    rw [Op.Fits, hlen] at hfit
    omega
  | clear x =>
    exact (clear_gives h.inv).never fun _ _ => h.turns
  | c_str x =>
    refine (c_str_gives h.inv).mono (fun _ _ => h.keeps) (h.refused fun hbig hfit => ?_)
    rw [Op.Fits, hlen] at hfit
    omega
  | reserveSpace x n =>
    refine (reserveSpace_gives h.inv n.toNat).mono (fun _ _ => h.keeps)
      (h.refused fun hbig hfit => ?_)
    rw [Op.Fits, hlen] at hfit
    omega
  | reserveCapacity x n =>
    exact (reserveCapacity_gives h.inv n.toNat).mono (fun _ _ => h.keeps)
      (h.refused Nat.not_le.mpr)
  | reserve x req =>
    rw [Op.exec, gives_bind]
    refine (reserve_gives h.inv req).never fun _ _ ht => ?_
    rw [gives_pure]
    exact h.keeps ht
  | toLower x =>
    exact (toLower_gives h.inv).never fun _ _ => h.turns
  | toUpper x =>
    exact (toUpper_gives h.inv).never fun _ _ => h.turns
  | rawAppend x n data =>
    obtain ⟨hpos, hn⟩ := hsafe
    rw [hlen] at hn
    have hpos' : n.toNat ≠ 0 := fun h0 => hpos (UInt32.toNat_inj.mp h0)
    refine (rawAppend_gives h.inv hpos' hn hlegal).mono (fun _ _ => h.turns)
      (h.refused fun hbig hfit => ?_)
    rw [Op.Fits, hlen] at hfit
    omega

omit [Fintype V] [DecidableEq V] in
theorem holds_start (garbage : ℕ → ℕ → UInt8) :
    Holds (start garbage : Heap (Option V)) fun _ => [] := by
  refine ⟨⟨one_pos, fun _ => one_pos, nofun, fun _ => le_rfl,
    fun _ => Nat.zero_le _, fun _ _ => Nat.zero_le _, fun _ _ => ?_⟩, fun _ => rfl⟩
  exact grossSize_le (Nat.zero_le _)

theorem holds_reached {garbage : ℕ → ℕ → UInt8} (h : Reached garbage s c) : Holds s c := by
  induction h with
  | start => exact holds_start garbage
  | done _ hlegal hsafe hrun ih =>
    obtain ⟨r, s', hrun', hpost⟩ := exec_gives ih hlegal hsafe
    cases hrun.symm.trans hrun'
    exact hpost
  | threw _ hlegal hsafe hrun ih =>
    obtain ⟨r, s', hrun', hpost⟩ := exec_gives ih hlegal hsafe
    cases hrun.symm.trans hrun'
    exact hpost.1

end

/-- **Buffers are byte strings.** Whatever a program has done with its
buffers, by operations that are legal and safe, each has the content that the
same program computes on independent byte strings. Every next such operation
has an outcome, and throws only for what does not fit. -/
theorem content_eq_of_reached {garbage : ℕ → ℕ → UInt8} {s : Heap (Option V)}
    {c : V → List UInt8} (h : Reached garbage s c) :
    (∀ v, s.content (some v) = c v) ∧ ∀ op : Op V, op.Legal c → op.Safe c →
      ∃ r s', op.exec.run s = some (r, s') ∧ (op.Fits c → r = .ok ()) := by
  have hholds := holds_reached h
  refine ⟨hholds.content, fun op hlegal hsafe => ?_⟩
  obtain ⟨r, s', hrun, hpost⟩ := exec_gives hholds hlegal hsafe
  refine ⟨r, s', hrun, fun hfit => ?_⟩
  cases r with
  | ok u => rfl
  | error u => exact absurd hfit hpost.2

/-- A program, run to its end. -/
def execAll (ops : List (Op V)) (s : Heap (Option V)) : Option (Heap (Option V)) :=
  ops.foldlM (fun s op => (op.exec.run s).map Prod.snd) s

/-- The program on byte strings. -/
def applyAll (ops : List (Op V)) : V → List UInt8 :=
  ops.foldl (fun c op => op.apply c) fun _ => []

/-- `"abc"`. -/
def abc : Source V := .chars ⟨[97, 98, 99], by decide⟩

/-- The first buffer holds `"abc"`, and the second its first two bytes. -/
def shareTwo : List (Op (Fin 2)) := [.appendArea 0 abc, .copy 1 0, .chop 1 0 2]

/-- Then the second is appended to itself, and a byte to it in raw space. -/
def shareAndAppend : List (Op (Fin 2)) :=
  shareTwo ++ [.appendArea 1 (.range 1 0 2), .rawAppend 1 4 [100]]

/-- A program of operations that are legal, safe and fit. -/
def Orderly : (V → List UInt8) → List (Op V) → Prop
  | _, [] => True
  | c, op :: ops => (op.Legal c ∧ op.Safe c ∧ op.Fits c) ∧ Orderly (op.apply c) ops

/-- An orderly program comes to its end. -/
theorem exists_reached {garbage : ℕ → ℕ → UInt8} {ops : List (Op V)} {s : Heap (Option V)}
    {c : V → List UInt8} (h : Reached garbage s c) (hops : Orderly c ops) :
    ∃ s', Reached garbage s' (ops.foldl (fun c op => op.apply c) c) := by
  induction ops generalizing s c with
  | nil => exact ⟨s, h⟩
  | cons op ops ih =>
    obtain ⟨⟨hlegal, hsafe, hfits⟩, hops⟩ := hops
    obtain ⟨r, s', hrun, hpost⟩ := exec_gives (holds_reached h) hlegal hsafe
    cases r with
    | ok u => exact ih (.done h hlegal hsafe hrun) hops
    | error u => exact absurd hfits hpost.2

theorem content_eq_of_shareAndAppend : ∃ s : Heap (Option (Fin 2)),
    Reached (fun _ _ => 0) s (applyAll shareAndAppend) ∧
      s.content (some 0) = [97, 98, 99] ∧ s.content (some 1) = [97, 98, 97, 98, 100] := by
  obtain ⟨s, hreached⟩ := exists_reached (V := Fin 2)
    (.start : Reached (fun _ _ => 0) (start fun _ _ => 0) fun _ => [])
    (show Orderly _ shareAndAppend from
      ⟨⟨trivial, trivial, show 3 ≤ maxSize by decide⟩, ⟨trivial, trivial, trivial⟩,
        ⟨trivial, fun _ => .inr (by decide), trivial⟩,
        ⟨show 0 + 2 ≤ 2 by decide, trivial, show 2 + 2 ≤ maxSize by decide⟩,
        ⟨show 1 ≤ 4 by decide, ⟨by decide, show 4 + 4 < npos by decide⟩,
          show 4 + 4 ≤ maxSize by decide⟩, trivial⟩)
  exact ⟨s, hreached, (content_eq_of_reached hreached).1 0, (content_eq_of_reached hreached).1 1⟩

/-- **The unsafe operations do break buffers.** An empty format overwrites a
byte of the other buffer, so does what is appended after an empty raw append,
and a sum that overflows makes a buffer longer than its blob. -/
theorem not_content_eq_of_unsafe :
    ((execAll (shareTwo ++ [.appendf 1 0 []]) (start fun _ _ => 0)).map (·.content (some 0))
        = some [97, 98, 0] ∧
      applyAll (shareTwo ++ [.appendf 1 0 []]) 0 = [97, 98, 99]) ∧
    ((execAll (shareTwo ++ [.rawAppend 1 0 [], .appendArea 1 abc]) (start fun _ _ => 0)).map
        (·.content (some 0)) = some [97, 98, 97] ∧
      applyAll (shareTwo ++ [.rawAppend 1 0 [], .appendArea 1 abc]) 0 = [97, 98, 99]) ∧
    ((execAll [.appendArea (0 : Fin 2) abc, .chop 0 2 0xfffffffe] (start fun _ _ => 0)).map
        (·.length (some 0)) = some 0xfffffffe ∧
      applyAll [.appendArea (0 : Fin 2) abc, .chop 0 2 0xfffffffe] 0 = [99]) := by
  decide +kernel

end Sbuf
