import Mathlib

/-!
# Delay buckets

A bucket is filled at the rate of its pool, and what is received is taken out of it. Its
level is an `int`. The configuration says what the rate and the limit are, and its parser
has no bounds for them. The level is that of a token bucket as long as no refill is past
an `int`, before it is compared with the limit (`tokenBucket_iff`).
-/

namespace DelayBucket

open List

structure DelaySpec where
  restoreBps : ℤ
  maxBytes : ℤ

/-- The value of an `int` expression, if it is defined. -/
def int (n : ℤ) : Option ℤ := if -2 ^ 31 ≤ n ∧ n < 2 ^ 31 then some n else none

def update (rate : DelaySpec) (incr level : ℤ) : Option ℤ :=
  if rate.restoreBps ≠ -1 then do
    let level ← int (level + (← int (rate.restoreBps * incr)))
    -- `max_bytes` has 64 bits
    if level > rate.maxBytes then some (rate.maxBytes.bmod (2 ^ 32)) else some level
  else some level

def bytesWanted (minimum maximum level : ℤ) : ℤ := max minimum (min maximum level)

def bytesIn (qty level : ℤ) : Option ℤ := int (level - qty)

/-- The calls that change the level. -/
inductive Call
  | update (incr : ℤ)
  | bytesIn (qty : ℤ)

variable (rate : DelaySpec) (level : ℤ)

namespace Call

def run : Call → Option ℤ
  | update incr => DelayBucket.update rate incr level
  | bytesIn qty => DelayBucket.bytesIn qty level

/-- The level without the bounds of an `int`. -/
def ideal : Call → ℤ
  | update incr => min (level + rate.restoreBps * incr) rate.maxBytes
  | bytesIn qty => level - qty

/-- Time does not go back, and no more is received than is wanted. -/
def Legal : Call → Prop
  | update incr => 0 ≤ incr
  | bytesIn qty => 0 ≤ qty ∧ ∃ maximum, qty ≤ bytesWanted 0 maximum level

/-- The refill is an `int`. -/
def Fits : Call → Prop
  | update incr => level + rate.restoreBps * incr < 2 ^ 31
  | bytesIn _ => True

def elapsed : Call → ℤ
  | update incr => incr
  | bytesIn _ => 0

def received : Call → ℤ
  | update _ => 0
  | bytesIn qty => qty

end Call

/-- Every call of a history meets a condition at the level of the token bucket. -/
def Along (P : ℤ → Call → Prop) : ℤ → List Call → Prop
  | _, [] => True
  | level, call :: calls => P level call ∧ Along P (call.ideal rate level) calls

/-- **The level is that of a token bucket** all along a history. It is within the limit, and
what is received in a period is at most the level before it and what is restored. -/
def TokenBucket : ℤ → List Call → Prop
  | level, calls => (0 ≤ level ∧ level ≤ rate.maxBytes) ∧
    (∀ period, period <+: calls → (period.map Call.received).sum ≤
      level + rate.restoreBps * (period.map Call.elapsed).sum) ∧
    match calls with
    | [] => True
    | call :: calls =>
      call.run rate level = some (call.ideal rate level) ∧ TokenBucket (call.ideal rate level) calls

variable {rate level}

theorem int_eq_some_iff {n k : ℤ} : int n = some k ↔ (-2 ^ 31 ≤ n ∧ n < 2 ^ 31) ∧ n = k := by
  simp [int]

/-- **One call**: a refill that is no `int` is undefined, and else the level is right. -/
theorem Call.step {call : Call} (hrate : 0 ≤ rate.restoreBps) (hlevel : 0 ≤ level)
    (hmax : level ≤ rate.maxBytes) (hint : level < 2 ^ 31) (hlegal : call.Legal level) :
    (call.run rate level = some (call.ideal rate level) ↔ call.Fits rate level) ∧
      0 ≤ call.ideal rate level ∧ call.ideal rate level ≤ rate.maxBytes ∧
      (call.Fits rate level → call.ideal rate level < 2 ^ 31) ∧
      call.ideal rate level + call.received ≤ level + rate.restoreBps * call.elapsed := by
  cases call with
  | update incr =>
    have hrefill := mul_nonneg hrate hlegal
    simp only [run, DelayBucket.update, ideal, Fits, received, elapsed]
    rw [if_pos (by omega)]
    generalize rate.restoreBps * incr = refill at *
    refine ⟨⟨fun hrun => ?_, fun hfits => ?_⟩, by omega, by omega, by omega, by omega⟩
    · obtain ⟨_, hproduct, hrun⟩ := Option.bind_eq_some_iff.mp hrun
      obtain ⟨_, hsum, -⟩ := Option.bind_eq_some_iff.mp hrun
      obtain ⟨-, rfl⟩ := int_eq_some_iff.mp hproduct
      exact (int_eq_some_iff.mp hsum).1.2
    · rw [int_eq_some_iff.mpr ⟨by omega, rfl⟩]
      show (int (level + refill)).bind _ = _
      rw [int_eq_some_iff.mpr ⟨by omega, rfl⟩, Option.bind_some]
      split
      · rw [Int.bmod_eq_of_le (by omega) (by omega), min_eq_right (by omega)]
      · rw [min_eq_left (by omega)]
  | bytesIn qty =>
    obtain ⟨hqty, maximum, hwanted⟩ := hlegal
    unfold bytesWanted at hwanted
    simp only [run, DelayBucket.bytesIn, ideal, Fits, received, elapsed, mul_zero]
    exact ⟨iff_of_true (if_pos (by omega)) trivial, by omega⟩

/-- **A delay bucket is a token bucket** iff no refill is past an `int`. -/
theorem tokenBucket_iff {calls : List Call} (hrate : 0 ≤ rate.restoreBps) (hlevel : 0 ≤ level)
    (hmax : level ≤ rate.maxBytes) (hint : level < 2 ^ 31)
    (hlegal : Along rate Call.Legal level calls) :
    TokenBucket rate level calls ↔ Along rate (Call.Fits rate) level calls := by
  induction calls generalizing level with
  | nil =>
    refine iff_of_true ⟨⟨hlevel, hmax⟩, fun period hperiod => ?_, trivial⟩ trivial
    simpa [prefix_nil.mp hperiod] using hlevel
  | cons call calls ih =>
    obtain ⟨hrun, h0, hle, hlt, hreceived⟩ := Call.step hrate hlevel hmax hint hlegal.1
    constructor
    · rintro ⟨-, -, hideal, hrest⟩
      have hfits := hrun.mp hideal
      exact ⟨hfits, (ih h0 hle (hlt hfits) hlegal.2).mp hrest⟩
    · rintro ⟨hfits, hrest⟩
      have hbucket := (ih h0 hle (hlt hfits) hlegal.2).mpr hrest
      refine ⟨⟨hlevel, hmax⟩, fun period hperiod => ?_, hrun.mpr hfits, hbucket⟩
      cases period with
      | nil => simpa using hlevel
      | cons first period =>
        obtain ⟨rfl, htail⟩ := cons_prefix_cons.mp hperiod
        unfold TokenBucket at hbucket
        have hrest := hbucket.2.1 period htail
        rw [map_cons, sum_cons, map_cons, sum_cons, mul_add]
        omega

/-- A full bucket is emptied and refilled. -/
theorem tokenBucket_refill : TokenBucket ⟨1000, 64000⟩ 64000 [.bytesIn 64000, .update 2] := by
  refine (tokenBucket_iff (by decide) (by decide) (by decide) (by decide) ?_).mpr ?_
  · exact ⟨⟨by decide, 64000, by decide⟩, Int.natCast_nonneg 2, trivial⟩
  · refine ⟨trivial, ?_, trivial⟩
    show (0 : ℤ) + 1000 * 2 < 2 ^ 31
    decide

/-- **A refill is undefined** although the limit is an `int`. -/
theorem update_overflows : ¬TokenBucket ⟨600000000, 2000000000⟩ 1700000000 [.update 1] := by
  rintro ⟨-, -, hrun, -⟩
  cases hrun

end DelayBucket
