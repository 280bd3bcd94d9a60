import Mathlib

/-!
# Counters that are reset lazily

A counter of a fixed window keeps the number of hits and the time at which its window
was opened. The window is not closed by a clock: the next check that finds it to be longer
than `len` opens a new one. Such a counter with a `limit` bounds the hits of every window
it opens, and with them the hits of any longer time that starts where the first window
does.

The hits are a log of pairs, of the time of a hit and the time at which its window was
opened.
-/

/-- A number of hits, and the opening of their window. -/
structure WindowCounter where
  count : ℕ
  start : ℤ
  deriving DecidableEq, Repr

namespace WindowCounter

open List

/-- A new window, if the old one is over. -/
def refresh (len : ℕ) (now : ℤ) (c : WindowCounter) : WindowCounter :=
  if now - c.start > len then ⟨0, now⟩ else c

def hit (c : WindowCounter) : WindowCounter := { c with count := c.count + 1 }

@[simp]
theorem hit_start (c : WindowCounter) : c.hit.start = c.start := rfl

theorem refresh_start_le (len : ℕ) {now : ℤ} {c : WindowCounter} (h : c.start ≤ now) :
    (c.refresh len now).start ≤ now := by
  unfold refresh
  split
  · exact le_rfl
  · exact h

/-- What a log of hits shows: no window has more than `limit` of them, and from `t₀` on there
are no more than `limit` for each `len`. -/
structure Bounded (len limit : ℕ) (t₀ : ℤ) (log : List (ℤ × ℤ)) : Prop where
  window : ∀ w, log.countP (fun x => x.2 = w) ≤ limit
  horizon : ∀ d : ℕ, log.countP (fun x => x.1 ≤ t₀ + (d + 1) * len) ≤ (d + 1) * limit

/-- **The invariant** of a counter and its log: the counter counts the hits of the last
window, and the `n` windows before it had `limit` hits at most, each. -/
structure Accounts (len limit : ℕ) (t₀ : ℤ) (c : WindowCounter) (log : List (ℤ × ℤ)) : Prop
    extends Bounded len limit t₀ log where
  count_le : c.count ≤ limit
  current : log.countP (fun x => x.2 = c.start) = c.count
  opened_le : ∀ x ∈ log, x.2 ≤ c.start
  total : ∃ n : ℕ, log.length ≤ n * limit + c.count ∧ t₀ + n * (len + 1) ≤ c.start

section

variable {len limit : ℕ} {t₀ : ℤ} {c : WindowCounter} {log : List (ℤ × ℤ)}

theorem accounts_nil : Accounts len limit t₀ ⟨0, t₀⟩ [] where
  window _ := Nat.zero_le _
  horizon _ := Nat.zero_le _
  count_le := Nat.zero_le _
  current := rfl
  opened_le _ hx := absurd hx (not_mem_nil)
  total := ⟨0, by simp⟩

theorem Accounts.refresh (h : Accounts len limit t₀ c log) (now : ℤ) :
    Accounts len limit t₀ (c.refresh len now) log := by
  unfold WindowCounter.refresh
  split
  · obtain ⟨n, hn, hstart⟩ := h.total
    refine { toBounded := h.toBounded, count_le := Nat.zero_le _, current := ?_,
             opened_le := fun x hx => ?_, total := ⟨n + 1, ?_, ?_⟩ }
    · -- no hit of the log is in the window that was opened now
      refine countP_eq_zero.mpr (fun x hx => ?_)
      have := h.opened_le x hx
      simp only [decide_eq_true_eq]
      omega
    · have := h.opened_le x hx
      show x.2 ≤ now
      omega
    · have := h.count_le
      calc log.length ≤ n * limit + c.count := hn
        _ ≤ (n + 1) * limit + 0 := by rw [Nat.add_mul]; omega
    · push_cast
      linarith
  · exact h

theorem Accounts.hit (h : Accounts len limit t₀ c log) {now : ℤ} (hlt : c.count < limit)
    (hstart : c.start ≤ now) : Accounts len limit t₀ c.hit (log ++ [(now, c.start)]) := by
  obtain ⟨n, hn, hopen⟩ := h.total
  refine { window := fun w => ?_, horizon := fun d => ?_, count_le := hlt, current := ?_,
           opened_le := forall_mem_append.mpr ⟨h.opened_le, forall_mem_singleton.mpr le_rfl⟩
           total := ⟨n, ?_, hopen⟩ }
  · rw [countP_append]
    by_cases hw : c.start = w
    · have hcurrent := h.current
      rw [hw] at hcurrent
      rw [hcurrent]
      simp [hw]
      exact hlt
    · simp [hw]
      exact h.window w
  · rw [countP_append]
    by_cases hnow : now ≤ t₀ + (d + 1) * len
    · have hnd : n ≤ d := by
        have hle : (n : ℤ) * (len + 1) ≤ (d + 1) * len := by linarith
        by_contra hlt
        nlinarith
      calc log.countP (fun x => x.1 ≤ t₀ + (d + 1) * len) + _
          ≤ log.length + 1 := Nat.add_le_add countP_le_length countP_le_length
        _ ≤ n * limit + limit := by omega
        _ = (n + 1) * limit := by ring
        _ ≤ (d + 1) * limit := Nat.mul_le_mul_right _ (by omega)
    · simp [hnow]
      exact h.horizon d
  · rw [countP_append, hit_start, h.current]
    simp [WindowCounter.hit]
  · rw [length_append]
    show log.length + 1 ≤ n * limit + (c.count + 1)
    omega

end

end WindowCounter
