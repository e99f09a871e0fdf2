import Mathlib.Data.List.Basic
import Mathlib.Tactic.Ring

/-! Overwriting part of a list in place, and the list of the values of a function on an interval,
`span f start n`. -/

namespace Splice

variable {α : Type} {start len : Nat}

def slice (xs : List α) (start len : Nat) : List α := (xs.drop start).take len

/-- `xs` with the elements from `start` on overwritten by `ys`. -/
def splice (xs : List α) (start : Nat) (ys : List α) : List α :=
  xs.take start ++ ys ++ xs.drop (start + ys.length)

theorem length_slice {xs : List α} (h : start + len ≤ xs.length) :
    (slice xs start len).length = len := by
  simp only [slice, List.length_take, List.length_drop]
  omega

variable {xs ys : List α} {f : Nat → α}

theorem length_splice {start : Nat} (h : start + ys.length ≤ xs.length) :
    (splice xs start ys).length = xs.length := by
  simp only [splice, List.length_append, List.length_take, List.length_drop]
  omega

theorem getElem?_splice {start : Nat} (h : start + ys.length ≤ xs.length) (k : Nat) :
    (splice xs start ys)[k]? =
      if start ≤ k ∧ k < start + ys.length then ys[k - start]? else xs[k]? := by
  have hmin : min start xs.length = start := by omega
  simp only [splice]
  by_cases low : k < start
  · rw [List.append_assoc, List.getElem?_append_left (by simp; omega), List.getElem?_take,
      if_pos low, if_neg (by omega)]
  · by_cases inside : k < start + ys.length
    · rw [List.append_assoc, List.getElem?_append_right (by simp; omega),
        List.getElem?_append_left (by simp; omega), if_pos ⟨by omega, inside⟩]
      simp [hmin]
    · rw [List.getElem?_append_right (by simp; omega), if_neg (by omega),
        List.getElem?_drop]
      congr 1
      simp only [List.length_append, List.length_take, hmin]
      omega

theorem getElem?_slice (xs : List α) (start len k : Nat) :
    (slice xs start len)[k]? = if k < len then xs[start + k]? else none := by
  simp [slice, List.getElem?_take]

theorem slice_add (xs : List α) (start a b : Nat) :
    slice xs start (a + b) = slice xs start a ++ slice xs (start + a) b := by
  rw [slice, slice, slice, List.take_add, List.drop_drop]

theorem slice_all (xs : List α) : slice xs 0 xs.length = xs := by simp [slice]

theorem take_splice {start n : Nat} (h : start + ys.length ≤ n) (hn : n ≤ xs.length) :
    (splice xs start ys).take n = splice (xs.take n) start ys := by
  apply List.ext_getElem?
  intro k
  rw [List.getElem?_take, getElem?_splice (by omega),
    getElem?_splice (by simp only [List.length_take]; omega), List.getElem?_take]
  split <;> split <;> first | rfl | omega

theorem slice_take {xs : List α} {start len n : Nat} (h : start + len ≤ n) :
    slice (xs.take n) start len = slice xs start len := by
  apply List.ext_getElem?
  intro k
  simp only [getElem?_slice, List.getElem?_take]
  split
  · rw [if_pos (by omega)]
  · rfl

def span (f : Nat → α) (start len : Nat) : List α := (List.range len).map fun k => f (start + k)

@[simp] theorem length_span (f : Nat → α) (start len : Nat) : (span f start len).length = len := by
  simp [span]

theorem getElem?_span (f : Nat → α) (start len k : Nat) :
    (span f start len)[k]? = if k < len then some (f (start + k)) else none := by
  by_cases h : k < len
  · simp [span, h]
  · simp [span, h]

theorem span_add (f : Nat → α) (start a b : Nat) :
    span f start (a + b) = span f start a ++ span f (start + a) b := by
  simp only [span, List.range_add, List.map_append, List.map_map, Function.comp_def]
  congr 1
  simp [Nat.add_assoc]

theorem slice_span (f : Nat → α) {start n k len : Nat} (h : k + len ≤ n) :
    slice (span f start n) k len = span f (start + k) len := by
  apply List.ext_getElem?
  intro j
  rw [getElem?_slice, getElem?_span, getElem?_span]
  split
  · rw [if_pos (by omega), Nat.add_assoc]
  · rfl

theorem span_congr {f g : Nat → α} (h : ∀ p, start ≤ p → p < start + len → f p = g p) :
    span f start len = span g start len := by
  apply List.map_congr_left
  intro k hk
  exact h _ (by omega) (by have := List.mem_range.mp hk; omega)

/-- `f` with the positions from `start` on overwritten by `ys`. -/
def overwrite (f : Nat → α) (start : Nat) (ys : List α) : Nat → α := fun p =>
  if start ≤ p then (ys[p - start]?).getD (f p) else f p

theorem overwrite_outside {start p : Nat} {ys : List α} (h : p < start ∨ start + ys.length ≤ p) :
    overwrite f start ys p = f p := by
  simp only [overwrite]
  split
  · rw [List.getElem?_eq_none (by omega)]
    rfl
  · rfl

theorem overwrite_inside {start k : Nat} {ys : List α} (h : k < ys.length) :
    overwrite f start ys (start + k) = ys[k] := by
  simp [overwrite, h]

theorem overwrite_nil (f : Nat → α) (start : Nat) : overwrite f start [] = f := by
  funext p
  exact overwrite_outside (by simp; omega)

theorem overwrite_append (f : Nat → α) (start : Nat) (xs ys : List α) :
    overwrite f start (xs ++ ys) = overwrite (overwrite f start xs) (start + xs.length) ys := by
  funext p
  by_cases low : p < start
  · rw [overwrite_outside (Or.inl low), overwrite_outside (Or.inl (by omega)),
      overwrite_outside (Or.inl low)]
  · obtain ⟨k, rfl⟩ : ∃ k, p = start + k := ⟨p - start, by omega⟩
    by_cases inside : k < xs.length
    · rw [overwrite_inside (by simp; omega), overwrite_outside (Or.inl (by omega)),
        overwrite_inside inside, List.getElem_append_left inside]
    · by_cases upper : k < xs.length + ys.length
      · obtain ⟨j, rfl⟩ : ∃ j, k = xs.length + j := ⟨k - xs.length, by omega⟩
        rw [overwrite_inside (by simp; omega), ← Nat.add_assoc, overwrite_inside (by omega),
          List.getElem_append_right (by omega)]
        congr 1
        omega
      · rw [overwrite_outside (Or.inr (by simp; omega)), overwrite_outside (Or.inr (by omega)),
          overwrite_outside (Or.inr (by omega))]

theorem splice_span (f : Nat → α) {start n k : Nat} {ys : List α} (h : k + ys.length ≤ n) :
    splice (span f start n) k ys = span (overwrite f (start + k) ys) start n := by
  apply List.ext_getElem?
  intro j
  rw [getElem?_splice (by simpa using h), getElem?_span, getElem?_span]
  by_cases inside : k ≤ j ∧ j < k + ys.length
  · obtain ⟨i, rfl⟩ : ∃ i, j = k + i := ⟨j - k, by omega⟩
    rw [if_pos inside, if_pos (by omega), Nat.add_sub_cancel_left, ← Nat.add_assoc,
      overwrite_inside (by omega), List.getElem?_eq_getElem (by omega)]
  · rw [if_neg inside, overwrite_outside (by omega)]

end Splice
