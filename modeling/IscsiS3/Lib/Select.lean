import Mathlib.Data.List.AList

/-! Choosing an element of least key, and the keys of an association list. -/

namespace Select

variable {α : Type} {key : α → Nat} {xs : List α}

/-- The first element of least key, as an iterator's `min_by_key` returns it. -/
def minByKey (key : α → Nat) : List α → Option α
  | [] => none
  | x :: xs => match minByKey key xs with
    | none => some x
    | some y => if key x ≤ key y then some x else some y

theorem minByKey_eq_none : minByKey key xs = none ↔ xs = [] := by
  cases xs with
  | nil => simp [minByKey]
  | cons x xs =>
    simp only [minByKey, reduceCtorEq, iff_false]
    cases minByKey key xs with
    | none => simp
    | some y =>
      simp only
      split <;> simp

theorem minByKey_spec {x : α} (h : minByKey key xs = some x) :
    x ∈ xs ∧ ∀ y ∈ xs, key x ≤ key y := by
  induction xs generalizing x with
  | nil => simp [minByKey] at h
  | cons z xs ih =>
    simp only [minByKey] at h
    cases hrest : minByKey key xs with
    | none =>
      rw [hrest] at h
      cases h
      obtain rfl := minByKey_eq_none.mp hrest
      simp
    | some y =>
      rw [hrest] at h
      obtain ⟨hmem, hle⟩ := ih hrest
      simp only at h
      split at h
      · rename_i hzy
        cases h
        refine ⟨List.mem_cons_self, fun u hu => ?_⟩
        rcases List.mem_cons.mp hu with rfl | hu
        · exact Nat.le_refl _
        · exact Nat.le_trans hzy (hle u hu)
      · rename_i hzy
        cases h
        refine ⟨List.mem_cons_of_mem _ hmem, fun u hu => ?_⟩
        rcases List.mem_cons.mp hu with rfl | hu
        · omega
        · exact hle u hu

end Select
