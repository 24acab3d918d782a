/-
V12.Lib.Windows — windows of a shared stack.

A window is `n` cells from a base. The rules say which windows an operation on the
stack leaves alone: growing it, cutting it above the window, and writing a cell outside.
-/
import Mathlib.Data.List.Basic

namespace Lib

variable {α : Type*}
variable {stack : List α} {base n : Nat}

/-- `n` cells of the stack from `base`. -/
def window (stack : List α) (base n : Nat) : List α := (stack.drop base).take n

/-- Cut or filled up to a length, as `Vec::resize` does. -/
def resize (stack : List α) (n : Nat) (fill : α) : List α :=
  stack.take n ++ List.replicate (n - stack.length) fill

def writeAt (stack : List α) (i : Nat) (v fill : α) : List α :=
  (if stack.length ≤ i then resize stack (i + 1) fill else stack).set i v

theorem length_window (h : base + n ≤ stack.length) :
    (window stack base n).length = n := by
  simp only [window, List.length_take, List.length_drop]
  omega

@[simp] theorem length_resize (stack : List α) (n : Nat) (fill : α) :
    (resize stack n fill).length = n := by
  simp only [resize, List.length_append, List.length_take, List.length_replicate]
  omega

theorem resize_of_length_eq (h : stack.length = n) (fill : α) :
    resize stack n fill = stack := by
  simp [resize, ← h]

theorem getElem?_window (stack : List α) (base n i : Nat) :
    (window stack base n)[i]? = if i < n then stack[base + i]? else none := by
  simp only [window, List.getElem?_take, List.getElem?_drop]

theorem window_append (h : base + n ≤ stack.length) (rest : List α) :
    window (stack ++ rest) base n = window stack base n := by
  refine List.ext_getElem? fun i => ?_
  simp only [getElem?_window]
  by_cases hi : i < n
  · rw [if_pos hi, if_pos hi, List.getElem?_append_left (by omega)]
  · rw [if_neg hi, if_neg hi]

theorem window_append_self (stack w : List α) : window (stack ++ w) stack.length w.length = w := by
  simp [window]

theorem window_take {m : Nat} (h : base + n ≤ m) :
    window (stack.take m) base n = window stack base n := by
  refine List.ext_getElem? fun i => ?_
  simp only [getElem?_window]
  by_cases hi : i < n
  · rw [if_pos hi, if_pos hi, List.getElem?_take, if_pos (by omega)]
  · rw [if_neg hi, if_neg hi]

theorem length_writeAt (stack : List α) (i : Nat) (v fill : α) :
    stack.length ≤ (writeAt stack i v fill).length := by
  simp only [writeAt, List.length_set]
  split
  · rw [length_resize]
    omega
  · exact Nat.le_refl _

theorem resize_append (stack rest : List α) (n : Nat) (fill : α) :
    resize (stack ++ rest) (stack.length + n) fill = stack ++ resize rest n fill := by
  simp [resize, List.take_length_add_append, Nat.add_sub_add_left]

end Lib
