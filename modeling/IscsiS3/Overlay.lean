import IscsiS3.Flat

/-! An array that lies over another one: some chunks are kept apart, and the other chunks are those
of the array below. -/

namespace IscsiS3

open Splice Flat

/-- The chunks of `f` are those that `kept` has, and for the others those of `g`. -/
structure Overlaid (kept : Nat → Option Bytes) (g f : Flat) : Prop extends Alike g f where
  proper : f.Proper
  below : g.Proper
  chunk : ∀ i, f.chunk i = (kept i).getD (g.chunk i)
  present : ∀ i, i ∈ f.present ↔ i ∈ g.present ∨ (kept i).isSome
  inside : ∀ i, (kept i).isSome → i * f.chunkSize < f.capacity

def Flat.clip (f : Flat) (i : Nat) (data : Bytes) : Bytes :=
  data.take (min (f.capacity - i * f.chunkSize) data.length)

namespace Flat

variable {f : Flat} {i : Nat} {data : Bytes}

theorem length_clip (f : Flat) (i : Nat) (data : Bytes) :
    (f.clip i data).length = min (f.capacity - i * f.chunkSize) data.length := by
  rw [clip, List.length_take, Nat.min_assoc, Nat.min_self]

theorem clip_fits (hi : i * f.chunkSize < f.capacity) (data : Bytes) :
    i * f.chunkSize + (f.clip i data).length ≤ f.capacity := by
  rw [length_clip]
  omega

theorem chunk_put (hf : f.Proper) (hlen : data.length = f.chunkSize)
    (above : ∀ k, f.capacity ≤ i * f.chunkSize + k → data[k]?.getD 0 = 0) :
    (f.write (i * f.chunkSize) (f.clip i data)).chunk i = data := by
  apply List.ext_getElem?
  intro k
  have hbyte : (f.write (i * f.chunkSize) (f.clip i data)).byte (i * f.chunkSize + k) =
      ((f.clip i data)[k]?).getD (f.byte (i * f.chunkSize + k)) := by
    change (if _ then _ else _) = _
    rw [if_pos (Nat.le_add_right _ _), Nat.add_sub_cancel_left]
  have hchunk : (f.write (i * f.chunkSize) (f.clip i data)).chunk i =
      span (f.write (i * f.chunkSize) (f.clip i data)).byte (i * f.chunkSize) f.chunkSize := rfl
  rw [hchunk, getElem?_span]
  split
  · rename_i hk
    have hget : data[k]? = some data[k] := List.getElem?_eq_getElem _
    rw [hbyte, clip, List.getElem?_take, hget]
    split
    · rfl
    · rename_i hout
      have hzero := above k (by omega)
      rw [hget] at hzero
      rw [Option.getD_none, hf.above _ (by omega)]
      exact congrArg some hzero.symm
  · exact (List.getElem?_eq_none (by omega)).symm

theorem chunk_put_other (hc : 0 < f.chunkSize) (hlen : data.length ≤ f.chunkSize) {j : Nat}
    (hj : j ≠ i) : (f.write (i * f.chunkSize) (f.clip i data)).chunk j = f.chunk j := by
  have honly := f.onlyIn_write (i * f.chunkSize) (f.clip i data)
  refine span_congr fun pos hlow hhigh => honly.byte_other hc ?_ fun heq => hj ?_
  · rw [length_clip]
    omega
  · rw [← heq]
    exact ((div_eq_iff hc).mpr ⟨hlow, hhigh⟩).symm

theorem present_put (hi : i * f.chunkSize < f.capacity) (hc : 0 < f.chunkSize)
    (hlen : data.length = f.chunkSize) (j : Nat) :
    j ∈ (f.write (i * f.chunkSize) (f.clip i data)).present ↔ j ∈ f.present ∨ j = i := by
  have hshort : (f.clip i data).length ≤ f.chunkSize := by
    rw [length_clip]
    omega
  refine or_congr_right ⟨eq_of_mem_touched hc hshort, ?_⟩
  rintro rfl
  refine ⟨j * f.chunkSize, Nat.le_refl _, ?_, Nat.mul_div_cancel _ hc⟩
  rw [length_clip]
  omega

theorem Proper.chunk_above (hf : f.Proper) {k : Nat} (hk : f.capacity ≤ i * f.chunkSize + k) :
    (f.chunk i)[k]?.getD 0 = 0 := by
  rw [Flat.chunk, getElem?_span]
  split
  · exact hf.above _ hk
  · rfl

end Flat

namespace Overlaid

variable {kept : Nat → Option Bytes} {f g : Flat} {i : Nat} {data : Bytes}

section

variable (h : Overlaid kept g f)

include h

theorem congr {kept' : Nat → Option Bytes} (same : ∀ i, kept' i = kept i) :
    Overlaid kept' g f := by
  obtain rfl : kept' = kept := funext same
  exact h

theorem chunk_some (hi : kept i = some data) : f.chunk i = data := by
  rw [h.chunk, hi]
  rfl

theorem chunk_none (hi : kept i = none) : f.chunk i = g.chunk i := by
  rw [h.chunk, hi]
  rfl

theorem length (hi : kept i = some data) : data.length = f.chunkSize := by
  rw [← h.chunk_some hi, length_chunk]

theorem eq_of_none (hnone : ∀ i, kept i = none) : f = g := by
  refine Flat.ext h.capacity h.chunkSize h.blockSize ?_ ?_
  · exact byte_ext h.below.chunkSize_pos h.chunkSize fun i => h.chunk_none (hnone i)
  · ext i
    rw [h.present, hnone]
    simp

end

theorem refl (hf : f.Proper) (hnone : ∀ i, kept i = none) : Overlaid kept f f where
  toAlike := .refl f
  proper := hf
  below := hf
  chunk := fun i => by rw [hnone]; rfl
  present := fun i => by simp [hnone]
  inside := fun i hi => by simp [hnone] at hi

section

variable (h : Overlaid kept g f)

include h

theorem put (hi : kept i = some data) :
    Overlaid (Function.update kept i none) (g.write (i * f.chunkSize) (f.clip i data)) f := by
  have hin := h.inside i (by simp [hi])
  have hlen := h.length hi
  have hclip : f.clip i data = g.clip i data := by rw [clip, clip, h.capacity, h.chunkSize]
  have hpos := h.below.chunkSize_pos
  rw [hclip, h.chunkSize]
  rw [h.chunkSize] at hlen hin
  rw [h.capacity] at hin
  refine ⟨⟨h.capacity, h.chunkSize, h.blockSize⟩, h.proper, h.below.write (clip_fits hin data),
    fun j => ?_, fun j => ?_, fun j hj => ?_⟩
  · by_cases hji : j = i
    · subst hji
      rw [Function.update_self, Option.getD_none, h.chunk_some hi]
      refine (chunk_put h.below hlen fun k hk => ?_).symm
      rw [← h.chunk_some hi]
      refine h.proper.chunk_above ?_
      rwa [h.capacity, h.chunkSize]
    · rw [Function.update_of_ne hji, chunk_put_other hpos (by omega) hji]
      exact h.chunk j
  · rw [present_put hin hpos hlen, h.present]
    by_cases hji : j = i
    · subst hji
      simp [hi]
    · simp [hji]
  · by_cases hji : j = i
    · subst hji
      simp at hj
    · rw [Function.update_of_ne hji] at hj
      exact h.inside j hj

theorem putOld (hi : (kept i).isSome) (hlen : data.length = f.chunkSize) :
    Overlaid kept (g.write (i * f.chunkSize) (f.clip i data)) f := by
  have hin := h.inside i hi
  have hclip : f.clip i data = g.clip i data := by rw [clip, clip, h.capacity, h.chunkSize]
  have hpos := h.below.chunkSize_pos
  rw [hclip, h.chunkSize]
  rw [h.chunkSize] at hlen hin
  rw [h.capacity] at hin
  refine ⟨⟨h.capacity, h.chunkSize, h.blockSize⟩, h.proper, h.below.write (clip_fits hin data),
    fun j => ?_, fun j => ?_, h.inside⟩
  · by_cases hji : j = i
    · subst hji
      obtain ⟨bytes, hbytes⟩ := Option.isSome_iff_exists.mp hi
      rw [h.chunk_some hbytes, hbytes]
      rfl
    · rw [chunk_put_other hpos (by omega) hji]
      exact h.chunk j
  · rw [present_put hin hpos hlen, h.present]
    by_cases hji : j = i
    · subst hji
      simp [hi]
    · simp [hji]

theorem write {within : Nat} {bytes : Bytes} (hbytes : 0 < bytes.length)
    (hfit : within + bytes.length ≤ f.chunkSize)
    (hcap : i * f.chunkSize + within + bytes.length ≤ f.capacity) :
    Overlaid (Function.update kept i (some (splice (f.chunk i) within bytes))) g
      (f.write (i * f.chunkSize + within) bytes) := by
  have hputs := h.proper.puts_write hbytes hfit hcap
  refine ⟨⟨h.capacity, h.chunkSize, h.blockSize⟩, hputs.proper, h.below, fun j => ?_, fun j => ?_,
    fun j hj => ?_⟩
  · by_cases hji : j = i
    · subst hji
      rw [Function.update_self, chunk_write_within hfit]
      rfl
    · rw [Function.update_of_ne hji, ← h.chunk j]
      exact hputs.other j hji
  · rw [hputs.present, h.present]
    by_cases hji : j = i
    · simp [hji]
    · simp [hji]
  · by_cases hji : j = i
    · subst hji
      change j * f.chunkSize < f.capacity
      omega
    · rw [Function.update_of_ne hji] at hj
      exact h.inside j hj

theorem delete (i : Nat) :
    Overlaid (Function.update kept i none) (g.delete i) (f.delete i) := by
  refine ⟨⟨h.capacity, h.chunkSize, h.blockSize⟩, h.proper.delete i, h.below.delete i, fun j => ?_,
    fun j => ?_, fun j hj => ?_⟩
  · rw [chunk_delete h.proper.chunkSize_pos, chunk_delete h.below.chunkSize_pos]
    by_cases hji : j = i
    · subst hji
      rw [Function.update_self, if_pos rfl, if_pos rfl, h.chunkSize]
      rfl
    · rw [Function.update_of_ne hji, if_neg hji, if_neg hji]
      exact h.chunk j
  · change j ∈ f.present ∧ j ≠ i ↔ (j ∈ g.present ∧ j ≠ i) ∨ _
    rw [h.present]
    by_cases hji : j = i
    · subst hji
      simp
    · simp [hji]
  · by_cases hji : j = i
    · subst hji
      simp at hj
    · rw [Function.update_of_ne hji] at hj
      exact h.inside j hj

end

end Overlaid

end IscsiS3
