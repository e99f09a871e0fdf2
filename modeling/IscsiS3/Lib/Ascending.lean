import Mathlib.Data.List.Sort
import Mathlib.Data.Finset.Sort

/-! Lists of numbers in ascending order without repetitions: sorting followed by the removal of
equal neighbours. -/

namespace Ascending

def dedup : List Nat → List Nat
  | [] => []
  | [a] => [a]
  | a :: b :: rest => if a = b then dedup (b :: rest) else a :: dedup (b :: rest)

def sortDedup (xs : List Nat) : List Nat := dedup (xs.insertionSort (· ≤ ·))

theorem mem_dedup (xs : List Nat) (x : Nat) : x ∈ dedup xs ↔ x ∈ xs := by
  fun_induction dedup xs with
  | case1 | case2 _ => rfl
  | case3 b rest ih => rw [ih]; simp
  | case4 a b rest hne ih => rw [List.mem_cons, ih, List.mem_cons (a := x) (b := a)]

theorem dedup_pairwise {xs : List Nat} (h : xs.Pairwise (· ≤ ·)) : (dedup xs).Pairwise (· < ·) := by
  fun_induction dedup xs with
  | case1 => exact List.Pairwise.nil
  | case2 a => exact List.pairwise_singleton _ _
  | case3 b rest ih => exact ih h.tail
  | case4 a b rest hne ih =>
    refine List.pairwise_cons.mpr ⟨fun x hx => ?_, ih h.tail⟩
    have hmem := (mem_dedup _ x).mp hx
    obtain ⟨hle, htail⟩ := List.pairwise_cons.mp h
    have hab : a ≤ b := hle b (by simp)
    rcases List.mem_cons.mp hmem with rfl | hx'
    · omega
    · have := (List.pairwise_cons.mp htail).1 x hx'
      omega

@[simp] theorem mem_sortDedup (xs : List Nat) (x : Nat) : x ∈ sortDedup xs ↔ x ∈ xs := by
  rw [sortDedup, mem_dedup, List.mem_insertionSort]

theorem sortDedup_pairwise (xs : List Nat) : (sortDedup xs).Pairwise (· < ·) :=
  dedup_pairwise (List.pairwise_insertionSort _ xs)

theorem eq_of_mem_iff {xs ys : List Nat} (hx : xs.Pairwise (· < ·)) (hy : ys.Pairwise (· < ·))
    (h : ∀ x, x ∈ xs ↔ x ∈ ys) : xs = ys := by
  refine List.Perm.eq_of_pairwise (fun a b _ _ hab hba => absurd hab (Nat.lt_asymm hba)) hx hy ?_
  exact (List.perm_ext_iff_of_nodup (hx.imp Nat.ne_of_lt) (hy.imp Nat.ne_of_lt)).mpr h

theorem sortDedup_congr {xs ys : List Nat} (h : ∀ x, x ∈ xs ↔ x ∈ ys) :
    sortDedup xs = sortDedup ys :=
  eq_of_mem_iff (sortDedup_pairwise xs) (sortDedup_pairwise ys) fun x => by
    rw [mem_sortDedup, mem_sortDedup, h]

end Ascending
