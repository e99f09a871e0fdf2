import Mathlib.Algebra.GroupWithZero.Nat
import Mathlib.Data.List.AList

/-! The sum of a size over the entries of a finite map, and how an insertion and a removal change
it. -/

namespace Tally

variable {κ : Type} {β : κ → Type}

def total (size : Sigma β → Nat) (m : AList β) : Nat := (m.entries.map size).sum

variable {size : Sigma β → Nat} {m : AList β} {k : κ}

theorem total_of_entries (h : m.entries = []) : total size m = 0 := by
  simp [total, h]

variable [DecidableEq κ]

theorem total_insert (v : β k) : total size (m.insert k v) = size ⟨k, v⟩ + total size
    (m.erase k) := by
  rw [total, AList.entries_insert, List.map_cons, List.sum_cons]
  rfl

theorem erase_of_lookup (h : m.lookup k = none) : m.erase k = m :=
  AList.ext (List.kerase_of_notMem_keys (AList.lookup_eq_none.mp h))

theorem total_eq {v : β k} (h : m.lookup k = some v) :
    total size m = size ⟨k, v⟩ + total size (m.erase k) := by
  have hmem : k ∈ m.entries.keys := AList.lookup_isSome.mp (by simp [h])
  obtain ⟨v', before, after, -, hentries, herase⟩ := List.exists_of_kerase hmem
  have hv' : m.lookup k = some v' := AList.mem_lookup_iff.mpr (by simp [hentries])
  obtain rfl : v' = v := Option.some.inj (hv'.symm.trans h)
  have hrest : (m.erase k).entries = before ++ after := herase
  simp only [total, hentries, hrest, List.map_append, List.map_cons, List.sum_append, List.sum_cons]
  omega

end Tally
