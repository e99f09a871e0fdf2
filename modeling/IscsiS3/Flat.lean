import Mathlib.Data.Set.Basic
import IscsiS3.Store

/-! What a block store is for: an array of bytes, in chunks of which some are present.  A chunk that
is not present is zero. -/

namespace IscsiS3

open Splice

@[ext] structure Flat where
  capacity : Nat
  chunkSize : Nat
  blockSize : Nat
  byte : Nat → UInt8
  present : Set Nat

namespace Flat

variable {f g h : Flat} {offset len pos i : Nat} {data : Bytes} {within : Nat} {j : Nat}

def Sparse (f : Flat) : Prop :=
  ∀ pos < f.capacity, pos / f.chunkSize ∉ f.present → f.byte pos = 0

def touched (f : Flat) (offset len : Nat) : Set Nat :=
  { i | ∃ pos, offset ≤ pos ∧ pos < offset + len ∧ pos / f.chunkSize = i }

def write (f : Flat) (offset : Nat) (data : Bytes) : Flat :=
  { f with
    byte := overwrite f.byte offset data
    present := f.present ∪ f.touched offset data.length }

def delete (f : Flat) (i : Nat) : Flat :=
  { f with
    byte := fun pos => if pos / f.chunkSize = i then 0 else f.byte pos
    present := f.present \ {i} }

def resize (f : Flat) (capacity : Nat) : Flat := { f with capacity := capacity }

def chunk (f : Flat) (i : Nat) : Bytes := span f.byte (i * f.chunkSize) f.chunkSize

/-- An array that a store can hold: positions are `u64` values, and there is nothing above the
capacity or in a chunk that is not present. -/
structure Proper (f : Flat) : Prop where
  chunkSize_pos : 0 < f.chunkSize
  capacity_lt : f.capacity < u64Size
  above : ∀ pos, f.capacity ≤ pos → f.byte pos = 0
  absent : ∀ pos, pos / f.chunkSize ∉ f.present → f.byte pos = 0

/-- Two arrays of the same shape. -/
structure Alike (f g : Flat) : Prop where
  capacity : g.capacity = f.capacity
  chunkSize : g.chunkSize = f.chunkSize
  blockSize : g.blockSize = f.blockSize

/-- The second array differs from the first at most in these `len` bytes and their chunks. -/
structure OnlyIn (f g : Flat) (offset len : Nat) : Prop extends Alike f g where
  byte : ∀ pos, pos < offset ∨ offset + len ≤ pos → g.byte pos = f.byte pos
  present : ∀ i ∉ f.touched offset len, i ∈ g.present ↔ i ∈ f.present

structure Puts (f g : Flat) (i : Nat) : Prop extends Alike f g where
  proper : g.Proper
  other : ∀ j, j ≠ i → g.chunk j = f.chunk j
  present : ∀ j, j ∈ g.present ↔ j ∈ f.present ∨ j = i

theorem Alike.refl (f : Flat) : Alike f f := ⟨rfl, rfl, rfl⟩

theorem Alike.trans (hg : Alike f g) (hh : Alike g h) : Alike f h :=
  ⟨hh.capacity.trans hg.capacity, hh.chunkSize.trans hg.chunkSize, hh.blockSize.trans hg.blockSize⟩

theorem write_append (f : Flat) (offset : Nat) (xs ys : Bytes) :
    (f.write offset xs).write (offset + xs.length) ys = f.write offset (xs ++ ys) := by
  refine Flat.ext rfl rfl rfl (overwrite_append f.byte offset xs ys).symm ?_
  ext i
  simp only [write, touched, Set.mem_union, Set.mem_ofPred_eq, List.length_append, or_assoc]
  refine or_congr_right ⟨?_, ?_⟩
  · rintro (⟨pos, hlow, hhigh, hi⟩ | ⟨pos, hlow, hhigh, hi⟩)
    · exact ⟨pos, hlow, by omega, hi⟩
    · exact ⟨pos, by omega, by omega, hi⟩
  · rintro ⟨pos, hlow, hhigh, hi⟩
    by_cases hpos : pos < offset + xs.length
    · exact .inl ⟨pos, hlow, hpos, hi⟩
    · exact .inr ⟨pos, by omega, by omega, hi⟩

@[simp] theorem write_nil (f : Flat) (offset : Nat) : f.write offset [] = f := by
  refine Flat.ext rfl rfl rfl (overwrite_nil f.byte offset) ?_
  ext i
  simp only [write, touched, Set.mem_union, Set.mem_ofPred_eq, List.length_nil]
  refine or_iff_left ?_
  rintro ⟨pos, hlow, hhigh, -⟩
  omega

theorem alike_write (f : Flat) (offset : Nat) (data : Bytes) : Alike f (f.write offset data) :=
  ⟨rfl, rfl, rfl⟩

theorem alike_delete (f : Flat) (i : Nat) : Alike f (f.delete i) := ⟨rfl, rfl, rfl⟩

theorem onlyIn_refl (f : Flat) (offset len : Nat) : OnlyIn f f offset len :=
  ⟨.refl f, fun _ _ => rfl, fun _ _ => Iff.rfl⟩

theorem onlyIn_write (f : Flat) (offset : Nat) (data : Bytes) :
    OnlyIn f (f.write offset data) offset data.length where
  toAlike := f.alike_write offset data
  byte := fun _ hpos => overwrite_outside hpos
  present := fun _ hi => ⟨fun h => h.resolve_right hi, .inl⟩

theorem div_eq_iff (hc : 0 < f.chunkSize) :
    pos / f.chunkSize = i ↔ i * f.chunkSize ≤ pos ∧ pos < i * f.chunkSize + f.chunkSize := by
  rw [Nat.div_eq_iff hc]
  constructor
  · rintro ⟨hlow, hhigh⟩
    exact ⟨hlow, by omega⟩
  · rintro ⟨hlow, hhigh⟩
    exact ⟨hlow, by omega⟩

theorem eq_of_mem_touched (hc : 0 < f.chunkSize) (hlen : len ≤ f.chunkSize)
    (hj : j ∈ f.touched (i * f.chunkSize) len) : j = i := by
  obtain ⟨pos, hlow, hhigh, rfl⟩ := hj
  exact (div_eq_iff hc).mpr ⟨hlow, by omega⟩

theorem mem_touched (hlow : offset ≤ pos) (hhigh : pos < offset + len) :
    pos / f.chunkSize ∈ f.touched offset len := ⟨pos, hlow, hhigh, rfl⟩

theorem div_mod_chunk (pos : Nat) :
    pos / f.chunkSize * f.chunkSize + pos % f.chunkSize = pos := by
  rw [Nat.mul_comm]
  exact Nat.div_add_mod pos f.chunkSize

@[simp] theorem length_chunk (f : Flat) (i : Nat) : (f.chunk i).length = f.chunkSize :=
  length_span ..

section

variable (hc : 0 < f.chunkSize)

include hc

theorem getElem?_chunk (pos : Nat) :
    (f.chunk (pos / f.chunkSize))[pos % f.chunkSize]? = some (f.byte pos) := by
  rw [chunk, getElem?_span, if_pos (Nat.mod_lt _ hc), div_mod_chunk]

theorem byte_ext (hsize : g.chunkSize = f.chunkSize) (h : ∀ i, g.chunk i = f.chunk i) :
    g.byte = f.byte := by
  funext pos
  have hg := getElem?_chunk (f := g) (hsize ▸ hc) pos
  rw [hsize, h, getElem?_chunk hc] at hg
  exact (Option.some.inj hg).symm

theorem chunk_write {p : Patch} (hp : p ∈ patches f.chunkSize offset data) :
    (f.write offset data).chunk p.idx = p.apply (f.chunk p.idx) :=
  span_overwrite_patch f.byte hc hp

theorem chunk_write_other (h : ∀ p ∈ patches f.chunkSize offset data, p.idx ≠ i) :
    (f.write offset data).chunk i = f.chunk i :=
  span_overwrite_no_patch f.byte hc h

theorem chunk_delete (i j : Nat) :
    (f.delete i).chunk j = if j = i then zeros f.chunkSize else f.chunk j := by
  have inside : ∀ pos, j * f.chunkSize ≤ pos → pos < j * f.chunkSize + f.chunkSize →
      pos / f.chunkSize = j := fun pos hlow hhigh => (div_eq_iff hc).mpr ⟨hlow, hhigh⟩
  by_cases hj : j = i
  · rw [if_pos hj]
    apply List.ext_getElem?
    intro k
    rw [chunk, getElem?_span, zeros, List.getElem?_replicate]
    split
    · rename_i hk
      change k < f.chunkSize at hk
      rw [if_pos hk]
      exact congrArg some (if_pos ((inside _ (by simp [delete]) (by simp [delete]; omega)).trans
        hj))
    · rename_i hk
      exact (if_neg hk).symm
  · rw [if_neg hj]
    exact span_congr fun pos hlow hhigh => if_neg fun heq => hj
      ((inside pos hlow hhigh).symm.trans heq)

end

section

variable (hf : f.Proper)

include hf

theorem Proper.fill (i : Nat) :
    span f.byte (i * f.chunkSize) (min (f.capacity - i * f.chunkSize) f.chunkSize) ++
      zeros (f.chunkSize - min (f.capacity - i * f.chunkSize) f.chunkSize) = f.chunk i := by
  have hle := Nat.min_le_right (f.capacity - i * f.chunkSize) f.chunkSize
  have hsplit : f.chunk i = span f.byte (i * f.chunkSize)
      (min (f.capacity - i * f.chunkSize) f.chunkSize +
        (f.chunkSize - min (f.capacity - i * f.chunkSize) f.chunkSize)) := by
    rw [Nat.add_sub_cancel' hle]
    rfl
  rw [hsplit, span_add]
  congr 1
  apply List.ext_getElem?
  intro k
  rw [getElem?_span, zeros, List.getElem?_replicate]
  split
  · rw [hf.above _ (by omega)]
  · rfl

theorem Proper.write (hin : offset + data.length ≤ f.capacity) :
    (f.write offset data).Proper where
  chunkSize_pos := hf.chunkSize_pos
  capacity_lt := hf.capacity_lt
  above := fun pos hpos => by
    have hout : offset + data.length ≤ pos := Nat.le_trans hin hpos
    exact (overwrite_outside (.inr hout)).trans (hf.above pos hpos)
  absent := fun pos hpos => by
    have hout : pos < offset ∨ offset + data.length ≤ pos := by
      by_contra hin
      exact hpos (.inr (mem_touched (by omega) (by omega)))
    exact (overwrite_outside hout).trans (hf.absent pos fun h => hpos (.inl h))

theorem Proper.delete (i : Nat) : (f.delete i).Proper where
  chunkSize_pos := hf.chunkSize_pos
  capacity_lt := hf.capacity_lt
  above := fun pos hpos => by
    change (if _ then _ else _) = _
    split
    · rfl
    · exact hf.above pos hpos
  absent := fun pos hpos => by
    change (if _ then _ else _) = _
    split
    · rfl
    · rename_i hne
      exact hf.absent pos fun h => hpos ⟨h, hne⟩

theorem Proper.resize {capacity : Nat} (hle : f.capacity ≤ capacity) (hlt : capacity < u64Size) :
    (f.resize capacity).Proper :=
  ⟨hf.chunkSize_pos, hlt, fun pos hpos => hf.above pos (Nat.le_trans hle hpos), hf.absent⟩

theorem Proper.puts_write (hdata : 0 < data.length) (hfit : within + data.length ≤ f.chunkSize)
    (hcap : i * f.chunkSize + within + data.length ≤ f.capacity) :
    Puts f (f.write (i * f.chunkSize + within) data) i := by
  have hidx : ∀ pos, i * f.chunkSize + within ≤ pos → pos < i * f.chunkSize + within + data.length →
      pos / f.chunkSize = i := fun pos hlow hhigh =>
    (div_eq_iff hf.chunkSize_pos).mpr ⟨by omega, by omega⟩
  refine ⟨f.alike_write _ _, hf.write hcap, fun j hj => ?_, fun j => or_congr_right ⟨?_, ?_⟩⟩
  · refine span_congr fun pos hlow hhigh => overwrite_outside ?_
    by_contra hin
    exact hj (((div_eq_iff hf.chunkSize_pos).mpr ⟨hlow, hhigh⟩).symm.trans
      (hidx pos (by omega) (by omega)))
  · rintro ⟨pos, hlow, hhigh, rfl⟩
    exact hidx pos hlow hhigh
  · rintro rfl
    exact ⟨_, Nat.le_refl _, by omega, hidx _ (Nat.le_refl _) (by omega)⟩

end

theorem chunk_write_within (hfit : within + data.length ≤ f.chunkSize) :
    (f.write (i * f.chunkSize + within) data).chunk i = splice (f.chunk i) within data :=
  (splice_span f.byte hfit).symm

section

variable (honly : OnlyIn f g (i * f.chunkSize) len) (hc : 0 < f.chunkSize)
variable (hlen : len ≤ f.chunkSize)

include honly hc hlen

theorem OnlyIn.byte_other (hpos : pos / f.chunkSize ≠ i) : g.byte pos = f.byte pos := by
  apply honly.byte
  by_contra hin
  exact hpos ((div_eq_iff hc).mpr ⟨by omega, by omega⟩)

theorem OnlyIn.present_other (hj : j ≠ i) : j ∈ g.present ↔ j ∈ f.present :=
  honly.present j fun hmem => hj (eq_of_mem_touched hc hlen hmem)

end

end Flat

end IscsiS3
