import Revalle.Ipc.ReadWriteLock

/-!
# What the shared-exclusive lock guarantees

The fields of the lock never say directly who holds it: in the middle of an
operation `readLevel` counts somebody who is about to withdraw, and
`appending` may have been cleared by a writer that has not left. What they
do say is a sum. Every process has a *stake* in the lock – how much of each
counter is due to it and which roles it plays – made of what it holds and of
what it has under way, and the fields are what the stakes of all processes
add up to (`Matches`). The stake of what is under way is the phase of the
process.

An access changes one field and the stake of one process, so it is enough to
look at a process and the sum of the others: `View` is what a process knows
at an instant, and the lemmas of that namespace say what each access of the
source does to it. The operations then follow line by line, and
`sound_of_fits` is the conclusion.

## The counters

The three counters have 32 bits. As long as the number of locks held plus
the number of operations under way stays below `2 ^ 32` (`Fits`), they do
not wrap. Beyond that they do (`not_sound_of_wrap`).
-/

namespace Ipc.ReadWriteLock

open Shm Function Prog Finset Option Bool

/-! ## Stakes -/

/-- **What one process has in the lock at an instant**: how much of each
counter is due to it, and which of the roles of the lock it plays. -/
@[ext] structure Stake where
  /-- Its part of `readLevel`. -/
  readLevel : ℕ := 0
  /-- Its part of `readers`. -/
  readers : ℕ := 0
  /-- How many times it has been let in as a reader. -/
  joined : ℕ := 0
  /-- Its part of `writeLevel`. -/
  writeLevel : ℕ := 0
  /-- Whether it is the one that found `writeLevel` at zero. -/
  first : ℕ := 0
  /-- Whether `writing` is set because of it. -/
  writing : ℕ := 0
  /-- Whether `appending` is set because of it. -/
  appending : ℕ := 0
  /-- Whether it has made sure that there are no readers. -/
  sole : ℕ := 0
  /-- Whether `updating` is set because of it. -/
  updating : ℕ := 0

namespace Stake

instance : Zero Stake := ⟨{}⟩

instance : Add Stake :=
  ⟨fun a b => ⟨a.readLevel + b.readLevel, a.readers + b.readers, a.joined + b.joined,
    a.writeLevel + b.writeLevel, a.first + b.first, a.writing + b.writing,
    a.appending + b.appending, a.sole + b.sole, a.updating + b.updating⟩⟩

theorem zero_def : (0 : Stake) = {} := rfl

theorem add_def (a b : Stake) :
    a + b = ⟨a.readLevel + b.readLevel, a.readers + b.readers, a.joined + b.joined,
      a.writeLevel + b.writeLevel, a.first + b.first, a.writing + b.writing,
      a.appending + b.appending, a.sole + b.sole, a.updating + b.updating⟩ := rfl

instance : AddCommMonoid Stake where
  add_assoc a b c := by ext <;> simp only [add_def, add_assoc]
  zero_add a := by ext <;> simp only [add_def, zero_def, zero_add]
  add_zero a := by ext <;> simp only [add_def, zero_def, add_zero]
  add_comm a b := by ext <;> simp only [add_def, add_comm]
  nsmul := nsmulRec

/-- **A stake is coherent**: a process counts as a reader only where it has
been let in, and plays the roles of a writer only where it found
`writeLevel` at zero. -/
structure Wf (a : Stake) : Prop where
  readers_le : a.readers ≤ a.joined
  joined_le : a.joined ≤ a.readLevel
  first_le : a.first ≤ a.writeLevel
  writing_le : a.writing ≤ a.first
  appending_le : a.appending ≤ a.first
  sole_le : a.sole ≤ a.first

theorem Wf.add {a b : Stake} (ha : a.Wf) (hb : b.Wf) : (a + b).Wf := by
  obtain ⟨a1, a2, a3, a4, a5, a6⟩ := ha
  obtain ⟨b1, b2, b3, b4, b5, b6⟩ := hb
  constructor <;> simp only [add_def] <;> omega

theorem Wf.frame {a b c : Stake} (ha : (a + b).Wf) (hc : c.Wf) : (a + (b + c)).Wf := by
  rw [← add_assoc]
  exact ha.add hc

theorem Wf.zero : (0 : Stake).Wf := by
  constructor <;> simp only [zero_def, le_refl]

/-- The stakes of several processes are coherent together. -/
theorem Wf.sum {P : Type} {f : P → Stake} (A : Finset P) (h : ∀ p, (f p).Wf) : (∑ p ∈ A, f p).Wf :=
  sum_induction f Wf (fun _ _ => Wf.add) Wf.zero (fun p _ => h p)

/-- Somebody who has announced itself as a reader. -/
def announced : Stake := { readLevel := 1 }

/-- Somebody who has found that it may read. -/
def admitted : Stake := { readLevel := 1, joined := 1 }

/-- A reader. -/
def reader : Stake := { readLevel := 1, readers := 1, joined := 1 }

/-- Somebody who has announced itself as a writer. It may have found
`writeLevel` at zero, and then may have made sure that there are no
readers. -/
def attempt (first sole : ℕ) : Stake := { writeLevel := 1, first := first, sole := sole }

/-- A writer, which may be appending, or may have made sure that there are no
readers. -/
def writer (appending sole : ℕ) : Stake :=
  { writeLevel := 1, first := 1, writing := 1, appending := appending, sole := sole }

theorem announced_wf : announced.Wf := by constructor <;> decide

theorem reader_wf : reader.Wf := by constructor <;> decide

theorem attempt_wf {first sole : ℕ} (hf : first ≤ 1) (hs : sole ≤ first) :
    (attempt first sole).Wf := by
  constructor <;> simp only [attempt, le_refl, Nat.zero_le, hf, hs]

theorem writer_wf {appending sole : ℕ} (ha : appending ≤ 1) (hs : sole ≤ 1) :
    (writer appending sole).Wf := by
  constructor <;> simp only [writer, le_refl, ha, hs]

end Stake

open Stake

/-- The stake that comes with what a process holds. -/
def Holds.stake (h : Holds) : Stake where
  readLevel := h.readCount
  readers := h.readCount
  joined := h.readCount
  writeLevel := if h.exclusive = .none then 0 else 1
  first := if h.exclusive = .none then 0 else 1
  writing := if h.exclusive = .none then 0 else 1
  appending := if h.exclusive = .appending then 1 else 0
  sole := if h.exclusive = .sole then 1 else 0
  updating := h.headers.toNat

open Holds

/-- What a process holds is a coherent stake. -/
theorem Holds.stake_wf (h : Holds) : h.stake.Wf := by
  constructor <;> simp only [stake] <;> cases h.exclusive <;> simp

/-- So it is with nothing under way. -/
theorem Holds.stake_add_zero_wf (h : Holds) : (h.stake + 0).Wf := by
  exact h.stake_wf

/-! ## The invariant -/

/-- **The fields of the lock are what the stakes add up to.** -/
structure Matches (s : ReadWriteLock) (T : Stake) : Prop where
  readLevel : s.readLevel.toNat = T.readLevel
  readers : s.readers.toNat = T.readers
  writeLevel : s.writeLevel.toNat = T.writeLevel
  writing : s.writing = true ↔ 0 < T.writing
  appending : s.appending = true ↔ 0 < T.appending
  updating : s.updating = true ↔ 0 < T.updating
  /-- At most one process found `writeLevel` at zero. -/
  first_le : T.first ≤ 1
  /-- At most one process has set `updating`. -/
  updating_le : T.updating ≤ 1
  /-- A writer that has made sure there are no readers has none. -/
  sole_alone : 0 < T.sole → T.joined = 0 ∧ T.appending = 0

/-- How many locks a process holds, plus one if it is inside an operation. -/
def load (v : Outline Holds) : ℕ :=
  v.held.readCount + (if v.held.exclusive = .none then 0 else 1) + v.busy.toNat

section

variable {P : Type} [Fintype P]

/-- **The number of locks held plus the number of operations under way fits
the counters.** -/
def Fits (o : P → Outline Holds) : Prop := ∑ p, load (o p) < 2 ^ 32

/-- The stake of a process: that of what it holds, and what it has under
way. -/
def stakeOf (o : P → Outline Holds) (φs : P → Stake) (p : P) : Stake :=
  (o p).held.stake + φs p

/-- **A process that has `φ` under way is coherent**, and adds at most one to
either level. -/
structure Admissible (v : Outline Holds) (φ : Stake) : Prop where
  wf : (v.held.stake + φ).Wf
  readLevel_le : φ.readLevel ≤ v.busy.toNat
  writeLevel_le : φ.writeLevel ≤ v.busy.toNat

/-- **The invariant of the lock.** -/
def protocol (P : Type) [Fintype P] : Protocol ReadWriteLock P Holds Stake where
  Inv s o φs := Matches s (∑ p, stakeOf o φs p) ∧ ∀ p, Admissible (o p) (φs p)
  Ok := Fits

end

/-! ## One access -/

section

variable {P : Type} [Fintype P] [DecidableEq P] {p : P}

/-- **What a process knows of the lock at an instant**: the others have the
stake `R`, and one more lock would still fit the counters. -/
structure View (s : ReadWriteLock) (R : Stake) (h : Holds) (φ : Stake) : Prop where
  rest : R.Wf
  own : (h.stake + φ).Wf
  readLevel_le : φ.readLevel ≤ 1
  writeLevel_le : φ.writeLevel ≤ 1
  total : Matches s (R + (h.stake + φ))
  readRoom : R.readLevel + h.readCount + 1 < 2 ^ 32
  writeRoom : R.writeLevel + h.stake.writeLevel + 1 < 2 ^ 32

/-- The others, seen from one process. -/
def others (o : P → Outline Holds) (φs : P → Stake) (p : P) : Stake :=
  ∑ q ∈ Finset.univ.erase p, stakeOf o φs q

/-- Everybody is one process and the others. -/
theorem sum_stakeOf (o : P → Outline Holds) (φs : P → Stake) (p : P) :
    ∑ q, stakeOf o φs q = others o φs p + stakeOf o φs p :=
  (sum_erase_add _ _ (mem_univ p)).symm

variable {φs : P → Stake} {o : P → Outline Holds} {s : ReadWriteLock} {app sole : ℕ} {h' : Holds}

omit [Fintype P] [DecidableEq P] in
/-- The levels are at most the number of locks held and operations under
way. -/
theorem levels_le (A : Finset P) (h : ∀ p, Admissible (o p) (φs p)) :
    (∑ q ∈ A, stakeOf o φs q).readLevel ≤ ∑ q ∈ A, load (o q)
      ∧ (∑ q ∈ A, stakeOf o φs q).writeLevel ≤ ∑ q ∈ A, load (o q) := by
  refine sum_hom_rel (r := fun (R : Stake) n => R.readLevel ≤ n ∧ R.writeLevel ≤ n)
    ⟨le_rfl, le_rfl⟩ fun q R n hR => ?_
  have hr := (h q).readLevel_le
  have hw := (h q).writeLevel_le
  simp only [stakeOf, add_def, stake, load]
  omega

/-- What the invariant tells a process inside an operation. -/
theorem View.of_inv {h : Holds} {φ : Stake} (hI : (protocol P).Inv s o φs) (hok : Fits o)
    (ho : o p = ⟨h, true⟩) (hφ : φs p = φ) : View s (others o φs p) h φ := by
  have hsum : ∑ q ∈ univ.erase p, load (o q) + load (o p) < 2 ^ 32 := by
    rw [sum_erase_add _ _ (mem_univ p)]
    exact hok
  have hle := levels_le (univ.erase p) hI.2
  have hown := hI.2 p
  have htot := hI.1
  rw [sum_stakeOf o φs p] at htot
  unfold stakeOf at htot
  rw [ho, hφ] at htot hown
  rw [ho, show load ⟨h, true⟩ = h.readCount + h.stake.writeLevel + 1 from rfl] at hsum
  refine ⟨Stake.Wf.sum _ fun q => (hI.2 q).wf, hown.wf, hown.readLevel_le, hown.writeLevel_le,
    htot, ?_, ?_⟩
  · have : (others o φs p).readLevel ≤ _ := hle.1
    omega
  · have : (others o φs p).writeLevel ≤ _ := hle.2
    omega

/-- **The invariant after one process has changed the lock, what it holds
and what it has under way.** -/
theorem inv_update {s' : ReadWriteLock} {v : Outline Holds} {φ : Stake}
    (hI : (protocol P).Inv s o φs) (hv : Admissible v φ)
    (hm : Matches s' (others o φs p + (v.held.stake + φ))) :
    (protocol P).Inv s' (update o p v) (update φs p φ) := by
  refine ⟨?_, fun q => ?_⟩
  · have hothers : others (update o p v) (update φs p φ) p = others o φs p := by
      refine sum_congr rfl fun q hq => ?_
      unfold stakeOf
      rw [update_of_ne (ne_of_mem_erase hq), update_of_ne (ne_of_mem_erase hq)]
    rw [sum_stakeOf _ _ p, hothers]
    unfold stakeOf
    rw [update_self, update_self]
    exact hm
  · by_cases hq : q = p
    · subst hq
      rw [update_self, update_self]
      exact hv
    · rw [update_of_ne hq, update_of_ne hq]
      exact hI.2 q

variable {α : Type} {h : Holds} {φ : Stake} {Q : α → Stake → Prop}

variable {k : ReadWriteLock → Prog ReadWriteLock α}

/-- **The rule of one access**: the process chooses what it has under way
afterwards, and the lock must match. -/
theorem safe_act {upd : ReadWriteLock → ReadWriteLock} (hstep : ∀ s R, View s R h φ →
      ∃ φ', View (upd s) R h φ' ∧ (protocol P).SafeIn p h (k s) φ' Q) :
    (protocol P).SafeIn p h (.act upd k) φ Q := by
  intro s o φs hI hok ho hφ
  obtain ⟨φ', hv, hk⟩ := hstep s _ (View.of_inv hI hok ho hφ)
  refine ⟨φ', ?_, hk⟩
  have := inv_update (p := p) (v := ⟨h, true⟩) hI
    ⟨hv.own, hv.readLevel_le, hv.writeLevel_le⟩ hv.total
  rwa [← ho, update_eq_self] at this

/-- **The rule of a load**: nothing changes, and the process learns what it
has read. -/
theorem safe_load (hstep : ∀ s R, View s R h φ → (protocol P).SafeIn p h (k s) φ Q) :
    (protocol P).SafeIn p h (.act id k) φ Q :=
  safe_act fun s R hv => ⟨φ, hv, hstep s R hv⟩

/-! ## What each access does to the view -/

omit [Fintype P] [DecidableEq P] in
/-- Counting up, where there is room. -/
theorem toNat_add_one {a : UInt32} (ha : a.toNat + 1 < 2 ^ 32) : (a + 1).toNat = a.toNat + 1 := by
  rw [UInt32.toNat_add, UInt32.toNat_one, Nat.mod_eq_of_lt ha]

/-- Counting down, where there is something. -/
theorem toNat_sub_one {a : UInt32} (ha : 0 < a.toNat) : (a - 1).toNat = a.toNat - 1 := by
  rw [UInt32.toNat_sub_of_le, UInt32.toNat_one]
  exact ha

namespace View

variable {s : ReadWriteLock} {R : Stake}

/-- `++readLevel`. -/
theorem add_readLevel (hv : View s R h φ) (h0 : φ.readLevel = 0) :
    View { s with readLevel := s.readLevel + 1 } R h (φ + announced) := by
  have hl := hv.total.readLevel
  have hr := hv.readRoom
  simp only [add_def, stake] at hl
  refine { hv with
    own := hv.own.frame announced_wf
    readLevel_le := ?_
    total := { hv.total with readLevel := ?_ } }
  · simp only [add_def, announced, h0]
    exact le_rfl
  · simp only [add_def, announced, stake]
    rw [toNat_add_one] <;> omega

/-- A reader finds `readers` positive. -/
theorem readers_pos (hv : View s R h (φ + reader)) : 0 < s.readers := by
  rw [UInt32.lt_iff_toNat_lt, UInt32.toNat_zero, hv.total.readers]
  simp only [add_def, reader]
  omega

/-- `++writeLevel`, by somebody who is the first if it finds zero there. -/
theorem add_writeLevel (hv : View s R h φ) (h0 : φ.writeLevel = 0) :
    View { s with writeLevel := s.writeLevel + 1 } R h
      (φ + attempt (if s.writeLevel = 0 then 1 else 0) 0) := by
  have hl := hv.total.writeLevel
  have hr := hv.writeRoom
  have h1 := hv.own.first_le
  have h2 := hv.rest.first_le
  have h3 := hv.total.first_le
  simp only [add_def] at hl h1 h3
  refine { hv with
    own := hv.own.frame (attempt_wf (by split <;> omega) (Nat.zero_le _))
    writeLevel_le := ?_
    total := { hv.total with writeLevel := ?_, first_le := ?_ } }
  · simp only [add_def, attempt, h0]
    exact le_rfl
  · simp only [add_def, attempt]
    rw [toNat_add_one] <;> omega
  · simp only [add_def, attempt]
    split
    · rename_i hz
      rw [hz, UInt32.toNat_zero] at hl
      omega
    · omega

variable {sole app : ℕ}

/-- Nobody plays the roles of a writer next to the first. -/
theorem rest_eq_zero (hv : View s R h φ) (hf : 0 < h.stake.first + φ.first) :
    R.writing = 0 ∧ R.appending = 0 ∧ R.sole = 0 := by
  have h0 := hv.total.first_le
  have h1 := hv.rest.writing_le
  have h2 := hv.rest.appending_le
  have h3 := hv.rest.sole_le
  simp only [add_def] at h0
  omega

/-- Whoever becomes the first did not hold the exclusive lock. -/
theorem exclusive_eq_none (hv : View s R h φ) (hf : φ.first = 1) : h.exclusive = .none := by
  have h0 := hv.total.first_le
  by_contra he
  simp only [add_def, stake, if_neg he, hf] at h0
  omega

/-- Whoever sets `updating` did not hold the headers lock. -/
theorem headers_eq_false (hv : View s R h φ) (hu : φ.updating = 1) : h.headers = false := by
  have h0 := hv.total.updating_le
  by_contra he
  rw [not_eq_false] at he
  simp only [add_def, stake, he, hu, toNat_true] at h0
  omega

/-- Nobody has been let in as a reader when `readLevel` is zero. -/
theorem joined_eq_zero (hv : View s R h φ) (hz : s.readLevel = 0) :
    (R + (h.stake + φ)).joined = 0 := by
  have hl := hv.total.readLevel
  rw [hz, UInt32.toNat_zero] at hl
  have := (hv.rest.add hv.own).joined_le
  omega

/-- Who holds the exclusive lock finds `writing` set. -/
theorem writing_of_held (hv : View s R h φ) (he : h.exclusive ≠ .none) : s.writing = true := by
  refine hv.total.writing.mpr ?_
  simp only [add_def, stake, if_neg he]
  omega

/-- `updating` is set by somebody who finds it clear. -/
theorem set_updating (hv : View s R h φ) (hz : s.updating = false) :
    View { s with updating := true } R h (φ + { updating := 1 }) := by
  have h0 : (R + (h.stake + φ)).updating = 0 := by
    by_contra hne
    exact absurd (hv.total.updating.mpr (pos_of_ne_zero hne)) (by rw [hz]; exact nofun)
  refine { hv with
    own := hv.own.frame (by constructor <;> decide)
    total := { hv.total with updating := iff_of_true rfl ?_, updating_le := ?_ } }
  all_goals
    simp only [add_def] at h0 ⊢
    omega

/-- `updating` is set where it is set already. -/
theorem keep_updating (hv : View s R h φ) (hu : s.updating = true) :
    View { s with updating := true } R h φ := by
  rw [show ({ s with updating := true } : ReadWriteLock) = s by rw [← hu]]
  exact hv

section

variable (hφ : (h.stake + φ).Wf)
include hφ

/-- `--readLevel`. -/
theorem sub_readLevel (hv : View s R h (φ + announced)) :
    View { s with readLevel := s.readLevel - 1 } R h φ := by
  have hl := hv.total.readLevel
  simp only [add_def, announced] at hl
  refine { hv with
    own := hφ
    readLevel_le := (Nat.le_add_right _ _).trans hv.readLevel_le
    total := { hv.total with readLevel := ?_ } }
  simp only [add_def]
  rw [toNat_sub_one] <;> omega

/-- Somebody who has announced itself as a reader may read when no writer
counts on being alone. -/
theorem let_in (hv : View s R h (φ + announced))
    (hs : (R + (h.stake + φ)).sole = 0) : View s R h (φ + admitted) :=
  { hv with
    own := hφ.frame (by constructor <;> decide)
    total := { hv.total with sole_alone := fun h0 => absurd hs h0.ne' } }

/-- `++readers`. -/
theorem add_readers (hv : View s R h (φ + admitted)) :
    View { s with readers := s.readers + 1 } R h (φ + reader) := by
  have hr := hv.total.readers
  have hl := hv.readRoom
  have h1 := hv.rest.readers_le
  have h2 := hv.rest.joined_le
  have h3 := hφ.readers_le
  have h4 := hv.own.joined_le
  have h5 := hv.readLevel_le
  simp only [add_def, admitted, stake] at hr h3 h4 h5
  refine { hv with
    own := hφ.frame reader_wf
    total := { hv.total with readers := ?_ } }
  simp only [add_def, reader, stake]
  rw [toNat_add_one] <;> omega

/-- `--readers`. -/
theorem sub_readers (hv : View s R h (φ + reader)) :
    View { s with readers := s.readers - 1 } R h (φ + announced) := by
  have hr := hv.total.readers
  simp only [add_def, reader] at hr
  refine { hv with
    own := hφ.frame announced_wf
    total := { hv.total with readers := ?_, sole_alone := fun h0 => ?_ } }
  · simp only [add_def, announced]
    rw [toNat_sub_one] <;> omega
  · obtain ⟨hj, -⟩ := hv.total.sole_alone h0
    simp only [add_def, reader] at hj
    omega

/-- `--writeLevel`. -/
theorem sub_writeLevel {first : ℕ} (hv : View s R h (φ + attempt first sole)) :
    View { s with writeLevel := s.writeLevel - 1 } R h φ := by
  have hl := hv.total.writeLevel
  have hf := hv.total.first_le
  simp only [add_def, attempt] at hl hf
  refine { hv with
    own := hφ
    writeLevel_le := (Nat.le_add_right _ _).trans hv.writeLevel_le
    total := { hv.total with writeLevel := ?_, first_le := ?_, sole_alone := fun h0 => ?_ } }
  · simp only [add_def]
    rw [toNat_sub_one] <;> omega
  · simp only [add_def]
    omega
  · refine hv.total.sole_alone ?_
    simp only [add_def] at h0 ⊢
    omega

/-- Whoever becomes the first plays no role of a writer elsewhere. -/
theorem frame_eq_zero {ψ : Stake} (hv : View s R h (φ + ψ)) (hf : ψ.first = 1) :
    (R + (h.stake + φ)).writing = 0 ∧ (R + (h.stake + φ)).appending = 0
      ∧ (R + (h.stake + φ)).sole = 0 := by
  have h0 := hv.total.first_le
  have h1 := hφ.writing_le
  have h2 := hφ.appending_le
  have h3 := hφ.sole_le
  have hz := hv.rest_eq_zero (by simp only [add_def]; omega)
  simp only [add_def] at h0 h1 h2 h3 ⊢
  omega

/-- The first that finds `readLevel` at zero is alone. -/
theorem become_sole (hv : View s R h (φ + attempt 1 0)) (hz : s.readLevel = 0) :
    View s R h (φ + attempt 1 1) := by
  refine { hv with
    own := hφ.frame (attempt_wf le_rfl le_rfl)
    total := { hv.total with
      sole_alone := fun _ => ⟨hv.joined_eq_zero hz, (hv.frame_eq_zero hφ rfl).2.1⟩ } }

/-- `writing = true`. -/
theorem set_writing (hs : sole ≤ 1) (hv : View s R h (φ + attempt 1 sole)) :
    View { s with writing := true } R h (φ + writer 0 sole) := by
  refine { hv with
    own := hφ.frame (writer_wf (Nat.zero_le _) hs)
    total := { hv.total with writing := iff_of_true rfl ?_ } }
  simp only [add_def, writer]
  omega

/-- `appending = false`, by the writer. -/
theorem clear_appending (hs : sole ≤ 1) (hv : View s R h (φ + writer app sole)) :
    View { s with appending := false } R h (φ + writer 0 sole) := by
  have hz := (hv.frame_eq_zero hφ rfl).2.1
  refine { hv with
    own := hφ.frame (writer_wf (Nat.zero_le _) hs)
    total := { hv.total with
      appending := iff_of_false nofun hz.not_gt
      sole_alone := fun h0 => ⟨(hv.total.sole_alone h0).1, hz⟩ } }

/-- `writing = false`. -/
theorem clear_writing (hs : sole ≤ 1) (hv : View s R h (φ + writer 0 sole)) :
    View { s with writing := false } R h (φ + attempt 1 sole) :=
  { hv with
    own := hφ.frame (attempt_wf le_rfl hs)
    total := { hv.total with
      writing := iff_of_false nofun (hv.frame_eq_zero hφ rfl).1.not_gt } }

/-- A writer may stop counting on being alone. -/
theorem relax (ha : app ≤ 1) (hv : View s R h (φ + writer app sole)) :
    View s R h (φ + writer app 0) := by
  refine { hv with
    own := hφ.frame (writer_wf ha (Nat.zero_le _))
    total := { hv.total with sole_alone := fun h0 => hv.total.sole_alone ?_ } }
  simp only [add_def, writer] at h0 ⊢
  omega

/-- `updating = false`, by the one who has set it. -/
theorem clear_updating (hv : View s R h (φ + { updating := 1 })) :
    View { s with updating := false } R h φ := by
  have hle := hv.total.updating_le
  simp only [add_def] at hle
  refine { hv with
    own := hφ
    total := { hv.total with updating := iff_of_false nofun ?_, updating_le := ?_ } }
  all_goals
    simp only [add_def]
    omega

end

/-- What a process that keeps the exclusive lock, but does not count on being
alone, may have under way is coherent. -/
theorem contended_wf (he : h.exclusive = .contended) (ha : app ≤ 1) (hs : sole ≤ 1) :
    (h.stake + { appending := app, sole := sole }).Wf := by
  constructor <;> simp only [add_def, stake, he] <;> simp [ha, hs]

/-- Nobody else appends or counts on being alone then. -/
theorem contended_rest (hv : View s R h φ) (he : h.exclusive = .contended) :
    (R + h.stake).appending = 0 ∧ (R + h.stake).sole = 0 := by
  have hf : h.stake.first = 1 := by simp [stake, he]
  obtain ⟨-, ha, hs⟩ := hv.rest_eq_zero (by omega)
  simp [add_def, stake, he, ha, hs]

variable (he : h.exclusive = .contended)
include he

/-- `appending = true`. -/
theorem set_appending (hv : View s R h { appending := app, sole := sole }) :
    View { s with appending := true } R h { appending := 1 } := by
  obtain ⟨-, hs⟩ := hv.contended_rest he
  refine { hv with
    own := contended_wf he le_rfl (Nat.zero_le _)
    total := { hv.total with
      appending := iff_of_true rfl ?_
      sole_alone := fun h0 => absurd hs h0.ne' } }
  simp only [add_def]
  omega

/-- `appending = false`, by a writer that stops appending. -/
theorem stop_appending (hv : View s R h { appending := 1 }) :
    View { s with appending := false } R h 0 := by
  obtain ⟨ha, hs⟩ := hv.contended_rest he
  exact { hv with
    own := h.stake_add_zero_wf
    total := { hv.total with
      appending := iff_of_false nofun ha.not_gt
      sole_alone := fun h0 => absurd hs h0.ne' } }

/-- A writer that has stopped appending and finds `readLevel` at zero is alone
again. -/
theorem restore_sole (hv : View s R h 0) (hz : s.readLevel = 0) : View s R h { sole := 1 } := by
  obtain ⟨ha, -⟩ := hv.contended_rest he
  refine { hv with
    own := contended_wf he (Nat.zero_le _) le_rfl
    total := { hv.total with sole_alone := fun _ => ⟨hv.joined_eq_zero hz, ha⟩ } }

end View

/-! ## The operations -/

/-- The lock is a reader's to give up. -/
theorem unlockShared_safe (hφ : (h.stake + φ).Wf) :
    (protocol P).SafeIn p h unlockShared (φ + reader) (fun _ φ' => φ' = φ) := by
  unfold unlockShared
  simp only [load_bind, assert_bind, store_bind]
  refine safe_load fun s R hv => ?_
  rw [if_pos hv.readers_pos]
  refine safe_act fun s R hv => ⟨_, hv.sub_readers hφ, ?_⟩
  exact safe_act fun s R hv => ⟨_, hv.sub_readLevel hφ, .ret rfl⟩

/-- `lockShared` makes a reader or leaves no trace. -/
theorem lockShared_safe : (protocol P).SafeIn p h lockShared 0
      (fun ok φ => φ = if ok then reader else 0) := by
  have hφ := h.stake_add_zero_wf
  -- both ways in lead to the same access, and so does the way back
  have enter : (protocol P).SafeIn p h
      (.act (fun s => { s with readers := s.readers + 1 }) (fun _ => .ret true))
      (0 + admitted) (fun ok φ => φ = if ok then reader else 0) :=
    safe_act fun s R hv => ⟨_, hv.add_readers hφ, .ret (by rw [zero_add, if_pos rfl])⟩
  have back : (protocol P).SafeIn p h
      (.act (fun s => { s with readLevel := s.readLevel - 1 }) (fun _ => .ret false))
      (0 + announced) (fun ok φ => φ = if ok then reader else 0) :=
    safe_act fun s R hv => ⟨_, hv.sub_readLevel hφ, .ret rfl⟩
  unfold lockShared
  simp only [load_bind, store_bind]
  refine safe_act fun s R hv => ⟨_, hv.add_readLevel rfl, ?_⟩
  refine safe_act fun s R hv => ?_
  by_cases hwl : s.writeLevel = 0
  · refine ⟨_, hv.let_in hφ ?_, ?_⟩
    · -- nobody is writing, so nobody counts on being alone
      have hl := hv.total.writeLevel
      rw [hwl, UInt32.toNat_zero] at hl
      have h1 := (hv.rest.add hv.own).sole_le
      have h2 := (hv.rest.add hv.own).first_le
      simp only [add_def, announced] at hl h1 h2 ⊢
      omega
    · rw [if_pos hwl]
      exact enter
  · refine ⟨_, hv, ?_⟩
    rw [if_neg hwl]
    refine safe_act fun s R hv => ?_
    cases happ : s.appending with
    | true =>
      refine ⟨_, hv.let_in hφ ?_, ?_⟩
      · -- whoever has set `appending` is the only one who could
        have h1 := hv.total.appending.mp happ
        have h2 := hv.total.sole_alone
        simp only [add_def, announced] at h1 h2 ⊢
        omega
      · exact enter
    | false => exact ⟨_, hv, back⟩

/-- `finalizeExclusive`, called by the first to increment `writeLevel`, makes
a writer that is alone or leaves no trace. -/
theorem finalizeExclusive_safe : (protocol P).SafeIn p h finalizeExclusive (attempt 1 0)
      (fun ok φ => φ = if ok then writer 0 1 else 0) := by
  have hφ := h.stake_add_zero_wf
  have h0 : ∀ k, attempt 1 k = 0 + attempt 1 k := fun k => (zero_add _).symm
  unfold finalizeExclusive
  simp only [load_bind, assert_bind, store_bind]
  refine safe_load fun s R hv => ?_
  have hwl : s.writeLevel ≠ 0 := by
    intro hwl
    have hl := hv.total.writeLevel
    rw [hwl, UInt32.toNat_zero] at hl
    simp only [add_def, attempt] at hl
    omega
  rw [if_pos hwl, h0]
  refine safe_load fun s R hv => ?_
  have happ : s.appending = false := by
    have hz := (hv.frame_eq_zero hφ rfl).2.1
    exact eq_false_iff.mpr fun ht => (hv.total.appending.mp ht).ne' hz
  rw [if_pos happ]
  refine safe_act fun s R hv => ?_
  by_cases hrl : s.readLevel = 0
  · refine ⟨_, hv.become_sole hφ hrl, ?_⟩
    rw [if_pos hrl]
    refine safe_act fun s R hv => ⟨_, hv.set_writing hφ le_rfl, .ret ?_⟩
    rw [if_pos rfl, zero_add]
  · refine ⟨_, hv, ?_⟩
    rw [if_neg hrl]
    exact safe_act fun s R hv => ⟨_, hv.sub_writeLevel hφ, .ret rfl⟩

/-- `lockExclusive` makes a writer that is alone or leaves no trace. -/
theorem lockExclusive_safe : (protocol P).SafeIn p h lockExclusive 0
      (fun ok φ => φ = if ok then writer 0 1 else 0) := by
  unfold lockExclusive
  simp only [rmw_bind, store_bind]
  refine safe_act fun s R hv => ⟨_, hv.add_writeLevel rfl, ?_⟩
  by_cases hwl : s.writeLevel = 0
  · rw [if_pos hwl, if_pos hwl, zero_add]
    exact finalizeExclusive_safe
  · rw [if_neg hwl, if_neg hwl]
    exact safe_act fun s R hv => ⟨_, hv.sub_writeLevel h.stake_add_zero_wf, .ret rfl⟩

/-- `lockHeaders` makes a reader that has set `updating`, or leaves no
trace. -/
theorem lockHeaders_safe : (protocol P).SafeIn p h lockHeaders 0
      (fun ok φ => φ = if ok then reader + { updating := 1 } else 0) := by
  refine lockShared_safe.bind ?_
  rintro (_ | _) φ rfl
  · exact .ret rfl
  · simp only [rmw_bind, if_true]
    refine safe_act fun s R hv => ?_
    cases hu : s.updating with
    | false => exact ⟨_, hv.set_updating hu, .ret rfl⟩
    | true =>
      refine ⟨_, hv.keep_updating hu, ?_⟩
      exact (unlockShared_safe h.stake_add_zero_wf).bind fun _ _ h => .ret h

/-- `unlockHeaders` gives up what `lockHeaders` has made. -/
theorem unlockHeaders_safe : (protocol P).SafeIn p h unlockHeaders (reader + { updating := 1 })
      (fun _ φ => φ = 0) := by
  have hr : (h.stake + reader).Wf := h.stake_wf.add reader_wf
  unfold unlockHeaders
  simp only [rmw_bind, assert_bind, store_bind]
  refine safe_act fun s R hv => ?_
  have hu : s.updating = true := hv.total.updating.mpr (by simp only [add_def]; omega)
  refine ⟨_, hv.keep_updating hu, ?_⟩
  rw [if_pos hu]
  refine safe_act fun s R hv => ⟨_, hv.clear_updating hr, ?_⟩
  exact unlockShared_safe h.stake_add_zero_wf

/-- `unlockExclusive` gives up what a writer has in the lock. -/
theorem unlockExclusive_safe (hs : sole ≤ 1) (hφ : (h.stake + φ).Wf) :
    (protocol P).SafeIn p h unlockExclusive (φ + writer app sole) (fun _ φ' => φ' = φ) := by
  unfold unlockExclusive
  simp only [load_bind, assert_bind, store_bind]
  refine safe_load fun s R hv => ?_
  have hw : s.writing = true :=
    hv.total.writing.mpr (by simp only [add_def, writer]; omega)
  rw [if_pos hw]
  refine safe_act fun s R hv => ⟨_, hv.clear_appending hφ hs, ?_⟩
  refine safe_act fun s R hv => ⟨_, hv.clear_writing hφ hs, ?_⟩
  exact safe_act fun s R hv => ⟨_, hv.sub_writeLevel hφ, .ret rfl⟩

/-- `switchExclusiveToShared` turns a writer into a reader. -/
theorem switchExclusiveToShared_safe (ha : app ≤ 1) :
    (protocol P).SafeIn p h switchExclusiveToShared (0 + writer app sole)
      (fun _ φ' => φ' = reader) := by
  have hw : (h.stake + (0 + writer app 0)).Wf :=
    h.stake_add_zero_wf.frame (writer_wf ha (Nat.zero_le _))
  unfold switchExclusiveToShared
  simp only [load_bind, assert_bind, store_bind]
  refine safe_act fun s R hv => ⟨_, hv.relax h.stake_add_zero_wf ha, ?_⟩
  have hwr : s.writing = true :=
    hv.total.writing.mpr (by simp only [add_def, writer]; omega)
  rw [if_pos hwr]
  refine safe_act fun s R hv => ⟨_, hv.add_readLevel rfl, ?_⟩
  refine safe_act fun s R hv => ?_
  have hv' := hv.let_in hw (by
    have h1 := hv.total.first_le
    have h2 := hv.rest.sole_le
    have h3 := h.stake_wf.sole_le
    simp only [add_def, writer, zero_def] at h1 ⊢
    omega)
  refine ⟨_, hv'.add_readers hw, ?_⟩
  exact unlockExclusive_safe (Nat.zero_le _) (h.stake_wf.add reader_wf)

/-- `unlockSharedAndSwitchToExclusive` turns a reader into a writer that is
alone, or just gives up what the reader has. -/
theorem unlockSharedAndSwitchToExclusive_safe :
    (protocol P).SafeIn p h unlockSharedAndSwitchToExclusive (0 + reader)
      (fun ok φ => φ = if ok then writer 0 1 else 0) := by
  unfold unlockSharedAndSwitchToExclusive
  simp only [load_bind, assert_bind, rmw_bind]
  refine safe_load fun s R hv => ?_
  rw [if_pos hv.readers_pos]
  refine safe_act fun s R hv => ⟨_, hv.add_writeLevel rfl, ?_⟩
  have hwf : ∀ k ≤ 1, (h.stake + attempt k 0).Wf := fun k hk =>
    h.stake_wf.add (attempt_wf hk (Nat.zero_le _))
  by_cases hwl : s.writeLevel = 0
  · rw [if_pos hwl, if_pos hwl]
    refine (unlockShared_safe (hwf 1 le_rfl)).bind ?_
    rintro _ φ rfl
    exact finalizeExclusive_safe
  · rw [if_neg hwl, if_neg hwl]
    refine (unlockShared_safe (hwf 0 (Nat.zero_le _))).bind ?_
    rintro _ φ rfl
    rw [← zero_add (attempt 0 0)]
    exact safe_act fun s R hv => ⟨_, hv.sub_writeLevel h.stake_add_zero_wf, .ret rfl⟩

/-- `startAppending` lets readers in. -/
theorem startAppending_safe (he : h.exclusive = .contended) :
    (protocol P).SafeIn p h startAppending { appending := app, sole := sole }
      (fun _ φ => φ = { appending := 1 }) := by
  unfold startAppending
  simp only [load_bind, assert_bind]
  refine safe_load fun s R hv => ?_
  rw [if_pos (hv.writing_of_held (by rw [he]; exact Exclusive.noConfusion))]
  exact safe_act fun s R hv => ⟨_, hv.set_appending he, .ret rfl⟩

/-- `stopAppendingAndRestoreExclusive` tells whether the writer is alone
again. -/
theorem stopAppendingAndRestoreExclusive_safe (he : h.exclusive = .contended) :
    (protocol P).SafeIn p h stopAppendingAndRestoreExclusive { appending := 1 }
      (fun ok φ => φ = if ok then { sole := 1 } else 0) := by
  unfold stopAppendingAndRestoreExclusive
  simp only [load_bind, assert_bind, store_bind]
  refine safe_load fun s R hv => ?_
  rw [if_pos (hv.writing_of_held (by rw [he]; exact Exclusive.noConfusion))]
  refine safe_load fun s R hv => ?_
  have happ : s.appending = true :=
    hv.total.appending.mpr (by simp only [add_def]; omega)
  rw [if_pos happ]
  refine safe_act fun s R hv => ⟨_, hv.stop_appending he, ?_⟩
  refine safe_act fun s R hv => ?_
  by_cases hrl : s.readLevel = 0
  · exact ⟨_, hv.restore_sole he hrl, .ret (by simp [hrl])⟩
  · exact ⟨_, hv, .ret (by simp [hrl])⟩

/-! ## Every run -/

/-- Leaving an operation moves stakes from what is under way to what is held. -/
theorem return_of_stake (hst : ∀ s R, View s R h φ → h'.stake = h.stake + φ) :
    (protocol P).Return p ⟨h, true⟩ 0 h' φ := by
  intro s o φs hI hok ho hφ
  have hv := View.of_inv hI hok ho hφ
  refine inv_update hI ⟨h'.stake_add_zero_wf, Nat.zero_le _, Nat.zero_le _⟩ ?_
  rw [add_zero, hst s _ hv]
  exact hv.total

/-- An operation that obtains something or leaves no trace. -/
theorem obtain_safe {x : Prog ReadWriteLock Bool} {gain : Stake}
    (hx : (protocol P).SafeIn p h x φ (fun ok φ' => φ' = if ok then gain else 0))
    (hg : ∀ s R, View s R h gain → h'.stake = h.stake + gain) :
    (protocol P).SafeIn p h (do return if (← x) then h' else h) φ
      ((protocol P).Return p ⟨h, true⟩ 0) := by
  refine hx.bind ?_
  rintro (_ | _) φ rfl
  · exact .ret (return_of_stake fun _ _ _ => (add_zero _).symm)
  · exact .ret (return_of_stake hg)

/-- An operation that cannot fail. -/
theorem finish_safe {x : Prog ReadWriteLock Unit} {gain : Stake}
    (hx : (protocol P).SafeIn p h x φ (fun _ φ' => φ' = gain))
    (hg : h'.stake = h.stake + gain) :
    (protocol P).SafeIn p h (do x; return h') φ ((protocol P).Return p ⟨h, true⟩ 0) := by
  refine hx.bind ?_
  rintro _ φ rfl
  exact .ret (return_of_stake fun _ _ _ => hg)

namespace Holds

theorem stake_shared_add_one (h : Holds) :
    ({ h with shared := h.shared + 1 } : Holds).stake = h.stake + reader := by
  ext <;> simp [add_def, reader, stake, readCount] <;> omega

theorem stake_shared_sub_one (h : Holds) (h0 : h.shared ≠ 0) :
    ({ h with shared := h.shared - 1 } : Holds).stake + reader = h.stake := by
  rw [← stake_shared_add_one]
  simp only [Nat.sub_add_cancel (Nat.pos_of_ne_zero h0)]

theorem stake_headers (h : Holds) (h0 : h.headers = false) :
    ({ h with headers := true } : Holds).stake = h.stake + (reader + { updating := 1 }) := by
  ext <;> simp [add_def, reader, stake, readCount, h0]

theorem stake_exclusive (h : Holds) (h0 : h.exclusive = .none) :
    ({ h with exclusive := .sole } : Holds).stake = h.stake + writer 0 1 := by
  ext <;> simp [add_def, writer, stake, readCount, h0]

theorem stake_no_exclusive (h : Holds) (h0 : h.exclusive ≠ .none) :
    ({ h with exclusive := .none } : Holds).stake
      + writer h.stake.appending h.stake.sole = h.stake := by
  ext <;> simp [add_def, writer, stake, readCount, h0]

end Holds

/-- **Every operation that a process may call is safe.** -/
theorem call_safe {op : Op} {h' : Holds} {x : Prog ReadWriteLock Holds}
    (hc : call op h = some (h', x)) :
    ∃ φ, h'.stake + φ = h.stake ∧ φ.readLevel ≤ 1 ∧ φ.writeLevel ≤ 1
      ∧ (protocol P).SafeIn p h' x φ ((protocol P).Return p ⟨h', true⟩ 0) := by
  cases op with
  | lockShared =>
    cases hc
    exact ⟨0, add_zero _, Nat.zero_le _, Nat.zero_le _,
      obtain_safe lockShared_safe fun _ _ _ => h.stake_shared_add_one⟩
  | lockExclusive =>
    cases hc
    exact ⟨0, add_zero _, Nat.zero_le _, Nat.zero_le _,
      obtain_safe lockExclusive_safe fun _ _ hv => h.stake_exclusive (hv.exclusive_eq_none rfl)⟩
  | lockHeaders =>
    cases hc
    exact ⟨0, add_zero _, Nat.zero_le _, Nat.zero_le _,
      obtain_safe lockHeaders_safe fun _ _ hv => h.stake_headers (hv.headers_eq_false rfl)⟩
  | unlockShared =>
    obtain ⟨h0, hc⟩ := ite_none_left_eq_some.mp hc
    cases hc
    refine ⟨0 + reader, ?_, le_rfl, Nat.zero_le _,
      finish_safe (unlockShared_safe (stake_add_zero_wf _)) (add_zero _).symm⟩
    exact h.stake_shared_sub_one h0
  | unlockExclusive =>
    obtain ⟨h0, hc⟩ := ite_none_left_eq_some.mp hc
    cases hc
    refine ⟨0 + writer h.stake.appending h.stake.sole, ?_, Nat.zero_le _, le_rfl,
      finish_safe (unlockExclusive_safe (by simp only [stake]; split <;> omega)
        (stake_add_zero_wf _)) (add_zero _).symm⟩
    rw [zero_add]
    exact h.stake_no_exclusive h0
  | unlockHeaders =>
    obtain ⟨h0, hc⟩ := ite_none_left_eq_some.mp hc
    cases hc
    refine ⟨reader + { updating := 1 }, ?_, le_rfl, Nat.zero_le _,
      finish_safe unlockHeaders_safe (add_zero _).symm⟩
    rw [← stake_headers _ rfl, ← (not_eq_false _).mp h0]
  | switchExclusiveToShared =>
    obtain ⟨h0, hc⟩ := ite_none_left_eq_some.mp hc
    cases hc
    refine ⟨0 + writer h.stake.appending h.stake.sole, ?_, Nat.zero_le _, le_rfl,
      finish_safe (switchExclusiveToShared_safe (by simp only [stake]; split <;> omega))
        (stake_shared_add_one _)⟩
    rw [zero_add]
    exact h.stake_no_exclusive h0
  | unlockSharedAndSwitchToExclusive =>
    obtain ⟨h0, hc⟩ := ite_none_left_eq_some.mp hc
    cases hc
    refine ⟨0 + reader, ?_, le_rfl, Nat.zero_le _,
      obtain_safe unlockSharedAndSwitchToExclusive_safe fun _ _ hv =>
        stake_exclusive _ (hv.exclusive_eq_none rfl)⟩
    exact h.stake_shared_sub_one h0
  | startAppending =>
    obtain ⟨h0, hc⟩ := ite_none_left_eq_some.mp hc
    cases hc
    refine ⟨{ appending := h.stake.appending, sole := h.stake.sole }, ?_, Nat.zero_le _,
      Nat.zero_le _, finish_safe (startAppending_safe rfl) ?_⟩
    all_goals ext <;> simp [add_def, stake, readCount, h0]
  | stopAppendingAndRestoreExclusive =>
    obtain ⟨h0, ⟨⟩⟩ := ite_some_none_eq_some.mp hc
    refine ⟨{ appending := 1 }, ?_, Nat.zero_le _, Nat.zero_le _,
      obtain_safe (stopAppendingAndRestoreExclusive_safe rfl) fun _ _ _ => ?_⟩
    all_goals ext <;> simp [add_def, stake, readCount, h0]

omit [DecidableEq P] in
/-- It holds of a new lock. -/
theorem inv_new : (protocol P).Inv new (fun _ => ⟨nothing, false⟩) fun _ => 0 := by
  refine ⟨?_, fun p => ⟨stake_add_zero_wf _, Nat.zero_le _, Nat.zero_le _⟩⟩
  have : ∀ p : P, stakeOf (fun _ => ⟨nothing, false⟩) (fun _ => 0) p = 0 := fun p => rfl
  rw [sum_congr rfl fun p _ => this p, sum_const_zero]
  show Matches new 0
  constructor <;> decide

/-- **The invariant holds in every run whose locks fit the counters.** -/
theorem reachable_inv {c : Config ReadWriteLock P Holds}
    (hc : (system P).ReachableIn (fun c => Fits c.outline) c) :
    ∃ φs, (protocol P).Inv c.mem c.outline φs
      ∧ ∀ p, (protocol P).ThreadOk 0 p (c.thread p) (φs p) := by
  refine System.ReachableIn.invariant (S := system P) (π := protocol P) inv_new ?_ hc
  intro p op s h h' x hcall o φs hI _ ho hφ
  obtain ⟨φ, hst, hr, hw, hx⟩ := call_safe (P := P) (p := p) hcall
  -- entering moves stakes from what is held to what is under way
  have htot := hI.1
  rw [sum_stakeOf o φs p, stakeOf, ho, hφ, add_zero, ← hst] at htot
  refine ⟨φ, inv_update hI ⟨?_, hr, hw⟩ htot, hx⟩
  rw [hst]
  exact h.stake_wf

/-! ## The guarantees -/

/-- Two processes and the rest. -/
theorem sum_eq_pair (f : P → Stake) {q : P} (hpq : p ≠ q) : ∃ R, ∑ r, f r = R + (f p + f q) := by
  refine ⟨∑ r ∈ (univ.erase p).erase q, f r, ?_⟩
  have hq : q ∈ univ.erase p := mem_erase.mpr ⟨hpq.symm, mem_univ q⟩
  rw [add_comm (f p), ← add_assoc, sum_erase_add _ _ hq, sum_erase_add _ _ (mem_univ p)]

section

variable {s : ReadWriteLock} {o : P → Outline Holds} {φs : P → Stake} {q : P}

variable (hI : (protocol P).Inv s o φs)
include hI

/-- At most one process holds the exclusive lock. -/
theorem inv_exclusive_unique (hp : (o p).held.exclusive ≠ .none)
    (hq : (o q).held.exclusive ≠ .none) : p = q := by
  by_contra hne
  obtain ⟨R, hR⟩ := sum_eq_pair (stakeOf o φs) hne
  have hf := hI.1.first_le
  rw [hR] at hf
  simp only [add_def, stakeOf, stake, if_neg hp, if_neg hq] at hf
  omega

/-- Next to an exclusive lock that is not appending nobody holds the shared
lock. -/
theorem inv_sole_alone (hp : (o p).held.exclusive = .sole) (q : P) : (o q).held.readCount = 0 := by
  have hsum := sum_stakeOf o φs
  have hs : 0 < (∑ r, stakeOf o φs r).sole := by
    rw [hsum p]
    simp only [add_def, stakeOf, stake, if_pos hp]
    omega
  have hj := (hI.1.sole_alone hs).1
  rw [hsum q] at hj
  simp only [add_def, stakeOf, stake] at hj
  omega

/-- At most one process holds the headers lock. -/
theorem inv_headers_unique (hp : (o p).held.headers = true) (hq : (o q).held.headers = true) :
    p = q := by
  by_contra hne
  obtain ⟨R, hR⟩ := sum_eq_pair (stakeOf o φs) hne
  have hu := hI.1.updating_le
  rw [hR] at hu
  simp only [add_def, stakeOf, stake, hp, hq, toNat_true] at hu
  omega

end

/-- **What the lock promises at an instant.** -/
structure Sound (c : Config ReadWriteLock P Holds) : Prop where
  /-- At most one process holds the exclusive lock. -/
  exclusive_unique : ∀ p q, (c.outline p).held.exclusive ≠ .none →
    (c.outline q).held.exclusive ≠ .none → p = q
  /-- Next to an exclusive lock that is not appending nobody holds the shared
  lock. -/
  sole_alone : ∀ p q, (c.outline p).held.exclusive = .sole → (c.outline q).held.readCount = 0
  /-- At most one process holds the headers lock. -/
  headers_unique : ∀ p q, (c.outline p).held.headers = true →
    (c.outline q).held.headers = true → p = q
  /-- No assertion has failed. -/
  not_aborted : ∀ p, (c.thread p).aborted = false
  /-- The counters are zero when nobody holds or does anything. -/
  quiescent : (∀ p, c.thread p = .idle Holds.nothing) →
    c.mem.readers = 0 ∧ c.mem.readLevel = 0 ∧ c.mem.writeLevel = 0

/-- **The lock is safe in every interleaving in which the number of locks
held plus the number of operations under way stays below `2 ^ 32`.** -/
theorem sound_of_fits {c : Config ReadWriteLock P Holds}
    (hc : (system P).ReachableIn (fun c => Fits c.outline) c) : Sound c := by
  obtain ⟨φs, hI, ht⟩ := reachable_inv hc
  refine ⟨fun p q => inv_exclusive_unique hI, fun p q hp => inv_sole_alone hI hp q,
    fun p q => inv_headers_unique hI, fun p => (ht p).not_aborted id, fun hidle => ?_⟩
  have hM := hI.1
  have hz : ∀ p, stakeOf c.outline φs p = 0 := by
    intro p
    have hφ := ht p
    rw [hidle p] at hφ
    rw [stakeOf, Config.outline, hidle p, show φs p = 0 from hφ]
    rfl
  rw [Finset.sum_congr rfl fun p _ => hz p, Finset.sum_const_zero] at hM
  exact ⟨UInt32.toNat_inj.mp hM.readers, UInt32.toNat_inj.mp hM.readLevel,
    UInt32.toNat_inj.mp hM.writeLevel⟩

end

instance {P : Type} [Fintype P] (o : P → Outline Holds) : Decidable (Fits o) :=
  inferInstanceAs (Decidable (_ < _))

/-- For instance where one of two processes has taken the exclusive lock
while the other has failed to take the shared one. -/
theorem sound_of_fits_writer :
    ∃ c, (system (Fin 2)).ReachableIn (fun c => Fits c.outline) c
      ∧ (c.outline 1).held.exclusive = .sole ∧ (c.outline 0).busy = true ∧ Sound c := by
  have hc : (system (Fin 2)).ReachableIn (fun c => Fits c.outline) _ :=
    (System.ReachableIn.init (by decide)).run
      [.invoke 1 .lockExclusive, .advance 1 0, .invoke 0 .lockShared, .advance 1 0,
        .advance 1 0, .advance 1 0, .advance 1 0, .advance 0 0, .advance 0 0, .advance 0 0,
        .advance 1 0] rfl
  exact ⟨_, hc, rfl, rfl, sound_of_fits hc⟩

/-! ## The counters wrap -/

/-- `lockShared` succeeds on a lock that nobody is writing to. -/
theorem lockShared_runs {s : ReadWriteLock} (hs : s.writeLevel = 0) : lockShared.Runs s true
      { s with readLevel := s.readLevel + 1, readers := s.readers + 1 } := by
  refine .of_exec [] ?_
  simp [lockShared, Prog.exec, Prog.store, Prog.load, hs]

/-- The lock after `n` shared locks. -/
def manyReaders (n : ℕ) : ReadWriteLock :=
  { new with readers := UInt32.ofNat n, readLevel := UInt32.ofNat n }

/-- One process may take the shared lock any number of times. -/
theorem reachable_manyReaders (n : ℕ) : ∃ c, (system (Fin 2)).Reachable c ∧ c.mem = manyReaders n
      ∧ c.thread 0 = .idle ⟨n, false, .none⟩ ∧ c.thread 1 = .idle nothing := by
  induction n with
  | zero => exact ⟨_, .init trivial, rfl, rfl, rfl⟩
  | succ n ih =>
    obtain ⟨c, hr, hm, h0, h1⟩ := ih
    have hx := (lockShared_runs (s := c.mem) (by rw [hm]; rfl)).bind (β := Holds)
      (f := fun ok => .ret (if ok then ⟨n + 1, false, .none⟩ else ⟨n, false, .none⟩)) (.ret _ _)
    refine ⟨_, hr.solo (o := .lockShared) h0 rfl hx, ?_, ?_, ?_⟩
    · rw [hm]
      simp only [manyReaders, new, UInt32.ofNat_add]
      rfl
    · simp
    · simpa using h1

/-- With `2 ^ 32` shared locks `readLevel` is zero again, and the exclusive
lock is there for the taking. -/
theorem not_sound_of_wrap :
    ¬ ∀ c : Config ReadWriteLock (Fin 2) Holds, (system (Fin 2)).Reachable c → Sound c := by
  intro hall
  obtain ⟨c, hr, hm, h0, h1⟩ := reachable_manyReaders (2 ^ 32)
  have hm' : c.mem = new := by
    rw [hm]
    rfl
  have hx : lockExclusive.Runs c.mem true { new with writing := true, writeLevel := 1 } := by
    rw [hm']
    exact .of_exec [] rfl
  have hx := hx.bind (β := Holds)
      (f := fun ok => .ret (if ok then ⟨0, false, .sole⟩ else Holds.nothing)) (.ret _ _)
  have hs := hall _ (hr.solo (o := .lockExclusive) h1 rfl hx)
  have := hs.sole_alone 1 0 rfl
  simp [Config.outline, h0, Thread.outline, Holds.readCount] at this

end Ipc.ReadWriteLock
