import Mathlib

/-!
# Windows of a memory

A memory is a function of an address. `window mem off len` lists the `len`
cells from `off` on, and `write mem start data` stores a list of cells. A window
does not see what is written beside it.
-/

namespace Memory

open List

variable {α : Type}

/-- The `len` cells of the memory from `off` on. -/
def window (mem : ℕ → α) (off len : ℕ) : List α := (List.range len).map fun i => mem (off + i)

/-- The memory after `data` is stored from address `start` on. -/
def write (mem : ℕ → α) (start : ℕ) (data : List α) : ℕ → α := fun i =>
  if start ≤ i then (data[i - start]?).getD (mem i) else mem i

variable (mem : ℕ → α) (off len n start : ℕ) (data : List α)

@[simp] theorem length_window : (window mem off len).length = len := by
  rw [window, length_map, length_range]

@[simp] theorem window_zero : window mem off 0 = [] := rfl

theorem getElem?_window (i : ℕ) :
    (window mem off len)[i]? = if i < len then some (mem (off + i)) else none := by
  rw [window, getElem?_map]
  split
  · next h => rw [getElem?_range h, Option.map_some]
  · next h => rw [getElem?_eq_none (by rw [length_range]; omega), Option.map_none]

/-- Windows of cells that agree are equal. -/
theorem window_congr {mem mem' : ℕ → α} {off off' len : ℕ}
    (h : ∀ i < len, mem (off + i) = mem' (off' + i)) : window mem off len = window mem' off' len :=
  map_congr_left fun i hi => h i (mem_range.mp hi)

/-- A window is a window of its first cells and one of the others. -/
theorem window_add : window mem off (len + n) = window mem off len ++ window mem (off + len) n := by
  unfold window
  rw [range_add, map_append, map_map]
  congr 1
  refine map_congr_left fun i _ => ?_
  show mem (off + (len + i)) = mem (off + len + i)
  rw [Nat.add_assoc]

theorem drop_window (h : n ≤ len) :
    (window mem off len).drop n = window mem (off + n) (len - n) := by
  conv_lhs => rw [← Nat.add_sub_cancel' h, window_add]
  rw [drop_left' (length_window mem off n)]

theorem take_window (h : n ≤ len) : (window mem off len).take n = window mem off n := by
  conv_lhs => rw [← Nat.add_sub_cancel' h, window_add]
  rw [take_left' (length_window mem off n)]

theorem write_of_lt {start i : ℕ} (h : i < start) : write mem start data i = mem i :=
  if_neg (Nat.not_le.mpr h)

@[simp] theorem write_nil : write mem start [] = mem := by
  funext i
  rw [write, getElem?_nil, Option.getD_none, ite_self]

/-- A window that ends before the cells written does not change. -/
theorem window_write_of_le {off len start : ℕ} (h : off + len ≤ start) :
    window (write mem start data) off len = window mem off len :=
  window_congr fun _ _ => write_of_lt mem data (by omega)

/-- The cells written are the data. -/
theorem window_write : window (write mem start data) start data.length = data := by
  refine ext_getElem? fun i => ?_
  rw [getElem?_window]
  split
  · next h =>
      rw [write, if_pos (Nat.le_add_right start i), Nat.add_sub_cancel_left,
        getElem?_eq_getElem h, Option.getD_some]
  · next h => exact (getElem?_eq_none (by omega)).symm

/-- Data written behind a window extends it, as much of it as is taken. -/
theorem window_write_prefix (rest : List α) :
    window (write mem (off + len) (data ++ rest)) off (len + data.length)
      = window mem off len ++ data := by
  have h := window_write mem (off + len) (data ++ rest)
  rw [length_append, window_add] at h
  rw [window_add, window_write_of_le mem _ le_rfl, (append_inj h (length_window ..)).1]

theorem write_singleton (a : α) : write mem start [a] = Function.update mem start a := by
  funext i
  by_cases hi : i = start
  · subst hi
    simp [write]
  · rw [Function.update_of_ne hi, write]
    split
    · rw [getElem?_eq_none (by rw [length_singleton]; omega), Option.getD_none]
    · rfl

/-- A cell written inside a window changes that cell of it. -/
theorem window_update (pos : ℕ) (a : α) :
    window (Function.update mem (off + pos) a) off len = (window mem off len).set pos a := by
  refine ext_getElem? fun i => ?_
  rw [getElem?_window, getElem?_set, getElem?_window, length_window]
  by_cases hi : i = pos
  · subst hi
    simp only [Function.update_self, ↓reduceIte]
  · rw [Function.update_of_ne (by omega), if_neg (Ne.symm hi)]

end Memory
