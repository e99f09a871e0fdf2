import Mathlib.Data.List.AList
import IscsiS3.Lib.Ascending
import IscsiS3.Calls
import IscsiS3.Flat

/-! `MemoryStore`, the block store in memory: chunks in a map, and zeros where there is none.  It is
a flat array. -/

namespace IscsiS3

open Splice

structure MemoryStore where
  capacity : Nat
  blockSize : Nat
  chunkSize : Nat
  chunks : AList fun _ : Nat => Bytes
  pos : 0 < chunkSize
  sized : ∀ i chunk, chunks.lookup i = some chunk → chunk.length = chunkSize

namespace MemoryStore

def new (capacity blockSize chunkSize : Nat) : Except StoreError MemoryStore :=
  if h : blockSize = 0 ∨ chunkSize = 0 ∨ chunkSize % blockSize ≠ 0 then
    .error (.geometryMismatch "invalid block_size/chunk_size")
  else if capacity = 0 ∨ capacity % blockSize ≠ 0 then
    .error (.geometryMismatch "capacity must be multiple of block_size")
  else .ok ⟨capacity, blockSize, chunkSize, ∅, by omega, fun _ _ h => by simp at h⟩

def chunkAt (s : MemoryStore) (i : Nat) : Bytes := (s.chunks.lookup i).getD (zeros s.chunkSize)

/-- One turn of the loop of `read_at`: the buffer is zero where there is no chunk. -/
def readPiece (s : MemoryStore) (p : Piece) : Bytes :=
  match s.chunks.lookup p.idx with
  | some chunk => slice chunk p.within p.take
  | none => zeros p.take

theorem length_chunkAt (s : MemoryStore) (i : Nat) : (s.chunkAt i).length = s.chunkSize := by
  unfold chunkAt
  cases h : s.chunks.lookup i with
  | none => exact List.length_replicate
  | some chunk => exact s.sized i chunk h

/-- One turn of the loop of `write_at`.  The part of a write that falls into a chunk fits there. -/
def patch (s : MemoryStore) (p : Patch) : MemoryStore :=
  if h : p.within + p.bytes.length ≤ s.chunkSize then
    { s with
      chunks := s.chunks.insert p.idx (p.apply (s.chunkAt p.idx))
      sized := fun i chunk hlook => by
        by_cases hi : i = p.idx
        · subst hi
          rw [AList.lookup_insert] at hlook
          obtain rfl := Option.some.inj hlook
          rw [Patch.apply, length_splice (by rwa [length_chunkAt]), length_chunkAt]
        · rw [AList.lookup_insert_ne hi] at hlook
          exact s.sized i chunk hlook }
  else s

def write (s : MemoryStore) (offset : Nat) (data : Bytes) : MemoryStore :=
  (patches s.chunkSize offset data).foldl patch s

def erase (s : MemoryStore) (i : Nat) : MemoryStore :=
  { s with
    chunks := s.chunks.erase i
    sized := fun j chunk hlook => by
      by_cases hj : j = i
      · subst hj
        simp at hlook
      · rw [AList.lookup_erase_ne hj] at hlook
        exact s.sized j chunk hlook }

section Calls

variable {Req : Type} {Reply : Req → Type}

def readAt (offset len : Nat) : StoreM Reply MemoryStore Bytes := do
  let s ← StoreM.get
  StoreM.lift (checkRange s.capacity offset len)
  pure ((pieces s.chunkSize offset len).map s.readPiece).flatten

def writeAt (offset : Nat) (data : Bytes) : StoreM Reply MemoryStore Unit := do
  let s ← StoreM.get
  StoreM.lift (checkRange s.capacity offset data.length)
  StoreM.modify fun s => s.write offset data

def setCapacity (newCapacity : Nat) : StoreM Reply MemoryStore Unit := do
  let s ← StoreM.get
  if newCapacity % s.blockSize ≠ 0 then
    StoreM.throw (.geometryMismatch "capacity must be multiple of block_size")
  else if newCapacity < s.capacity then
    StoreM.throw (.shrinkRefused s.capacity newCapacity)
  else StoreM.modify fun s => { s with capacity := newCapacity }

def presentChunks : StoreM Reply MemoryStore (List Nat) := do
  let s ← StoreM.get
  pure (s.chunks.keys.insertionSort (· ≤ ·))

def deleteChunk (index : Nat) : StoreM Reply MemoryStore Unit :=
  StoreM.modify fun s => s.erase index

instance : BlockStore Reply MemoryStore where
  readAt := readAt
  writeAt := writeAt
  capacity := capacity
  setCapacity := setCapacity
  flush := pure ()
  blockSize := blockSize
  chunkSize := chunkSize
  presentChunks := presentChunks
  deleteChunk := deleteChunk

end Calls

def flat (s : MemoryStore) : Flat where
  capacity := s.capacity
  chunkSize := s.chunkSize
  blockSize := s.blockSize
  byte pos := ((s.chunkAt (pos / s.chunkSize))[pos % s.chunkSize]?).getD 0
  present := { i | i ∈ s.chunks }

variable (s : MemoryStore)

theorem sparse_flat : s.flat.Sparse := by
  intro pos _ habsent
  have hnone : s.chunks.lookup (pos / s.chunkSize) = none := AList.lookup_eq_none.mpr habsent
  simp only [flat, chunkAt, hnone, Option.getD_none, getD_zeros]

theorem chunkAt_eq_span (i : Nat) :
    s.chunkAt i = span s.flat.byte (i * s.chunkSize) s.chunkSize := by
  apply List.ext_getElem?
  intro k
  rw [getElem?_span]
  split
  · rename_i hk
    have hdiv : (i * s.chunkSize + k) / s.chunkSize = i := by
      rw [Nat.mul_comm, Nat.mul_add_div s.pos, Nat.div_eq_of_lt hk, Nat.add_zero]
    have hmod : (i * s.chunkSize + k) % s.chunkSize = k := by
      rw [Nat.mul_comm, Nat.mul_add_mod, Nat.mod_eq_of_lt hk]
    have hlen : k < (s.chunkAt i).length := by rwa [length_chunkAt]
    simp only [flat, hdiv, hmod, List.getElem?_eq_getElem hlen, Option.getD_some]
  · rw [List.getElem?_eq_none]
    rw [length_chunkAt]
    omega

theorem readPiece_eq {p : Piece} (h : p.within + p.take ≤ s.chunkSize) :
    s.readPiece p = slice (span s.flat.byte (p.idx * s.chunkSize) s.chunkSize) p.within p.take := by
  rw [← chunkAt_eq_span]
  unfold readPiece chunkAt
  cases s.chunks.lookup p.idx with
  | some chunk => rfl
  | none =>
    rw [Option.getD_none]
    apply List.ext_getElem?
    intro k
    rw [getElem?_slice]
    simp only [zeros, List.getElem?_replicate]
    split
    · rw [if_pos (by omega)]
    · rfl

theorem flatten_readPiece (offset len : Nat) :
    ((pieces s.chunkSize offset len).map s.readPiece).flatten = span s.flat.byte offset len := by
  rw [← flatten_pieces s.pos s.flat.byte offset len]
  congr 1
  apply List.map_congr_left
  intro p hp
  exact s.readPiece_eq (mem_pieces s.pos hp).2.1

structure Patched (s : MemoryStore) (ps : List Patch) (s' : MemoryStore) : Prop where
  capacity : s'.capacity = s.capacity
  blockSize : s'.blockSize = s.blockSize
  chunkSize : s'.chunkSize = s.chunkSize
  patched : ∀ p ∈ ps, s'.chunkAt p.idx = p.apply (s.chunkAt p.idx)
  other : ∀ i, (∀ p ∈ ps, p.idx ≠ i) → s'.chunkAt i = s.chunkAt i
  present : ∀ i, i ∈ s'.chunks ↔ i ∈ s.chunks ∨ ∃ p ∈ ps, p.idx = i

variable {s} in
theorem patched_patch {p : Patch} (h : p.within + p.bytes.length ≤ s.chunkSize) :
    Patched s [p] (s.patch p) := by
  rw [patch, dif_pos h]
  refine ⟨rfl, rfl, rfl, fun q hq => ?_, fun i hi => ?_, fun i => ?_⟩
  · obtain rfl := List.mem_singleton.mp hq
    simp [chunkAt]
  · have hne : i ≠ p.idx := fun heq => hi p (by simp) heq.symm
    simp only [chunkAt, AList.lookup_insert_ne hne]
  · simp only [AList.mem_insert, List.mem_singleton, exists_eq_left]
    rw [or_comm, eq_comm]

theorem patched_foldl {ps : List Patch} (hnodup : (ps.map Patch.idx).Nodup)
    (hfit : ∀ p ∈ ps, p.within + p.bytes.length ≤ s.chunkSize) :
      Patched s ps (ps.foldl patch s) := by
  induction ps generalizing s with
  | nil => exact ⟨rfl, rfl, rfl, by simp, fun _ _ => rfl, by simp⟩
  | cons p ps ih =>
    obtain ⟨hnotin, hnodup⟩ := List.nodup_cons.mp hnodup
    have hfirst := patched_patch (hfit p (by simp))
    have hrest := ih (s.patch p) hnodup fun q hq => by
      rw [hfirst.chunkSize]
      exact hfit q (List.mem_cons_of_mem _ hq)
    have hne : ∀ q ∈ ps, q.idx ≠ p.idx := fun q hq heq => hnotin (List.mem_map.mpr ⟨q, hq, heq⟩)
    refine ⟨hrest.capacity.trans hfirst.capacity, hrest.blockSize.trans hfirst.blockSize,
      hrest.chunkSize.trans hfirst.chunkSize, fun q hq => ?_, fun i hi => ?_, fun i => ?_⟩
    · rcases List.mem_cons.mp hq with rfl | hq
      · exact (hrest.other _ hne).trans (hfirst.patched q (by simp))
      · rw [List.foldl_cons, hrest.patched q hq, hfirst.other]
        exact fun r hr => List.mem_singleton.mp hr ▸ (hne q hq).symm
    · rw [List.foldl_cons, hrest.other i fun q hq => hi q (List.mem_cons_of_mem _ hq)]
      exact hfirst.other i fun r hr => List.mem_singleton.mp hr ▸ hi p (by simp)
    · rw [List.foldl_cons, hrest.present, hfirst.present]
      simp [or_assoc]

theorem patched_write (offset : Nat) (data : Bytes) :
    Patched s (patches s.chunkSize offset data) (s.write offset data) :=
  s.patched_foldl (patches_nodup s.pos offset data) fun _ hp => (mem_patches s.pos hp).2.1

theorem byte_eq_of_chunkAt {f : Nat → UInt8}
    (h : ∀ i, s.chunkAt i = span f (i * s.chunkSize) s.chunkSize) : s.flat.byte = f := by
  funext pos
  simp only [flat, h, getElem?_span, if_pos (Nat.mod_lt pos s.pos), Option.getD_some]
  rw [Nat.mul_comm, Nat.div_add_mod]

theorem flat_write (offset : Nat) (data : Bytes) :
    (s.write offset data).flat = s.flat.write offset data := by
  have hpatched := s.patched_write offset data
  have hbyte : (s.write offset data).flat.byte = overwrite s.flat.byte offset data := by
    refine byte_eq_of_chunkAt _ fun i => ?_
    rw [hpatched.chunkSize]
    by_cases hi : ∃ p ∈ patches s.chunkSize offset data, p.idx = i
    · obtain ⟨p, hp, rfl⟩ := hi
      rw [hpatched.patched p hp, span_overwrite_patch _ s.pos hp, chunkAt_eq_span]
    · have hother : ∀ p ∈ patches s.chunkSize offset data, p.idx ≠ i := fun p hp heq =>
        hi ⟨p, hp, heq⟩
      rw [hpatched.other i hother, span_overwrite_no_patch _ s.pos hother, chunkAt_eq_span]
  refine Flat.ext hpatched.capacity hpatched.chunkSize hpatched.blockSize hbyte ?_
  ext i
  exact (hpatched.present i).trans (or_congr_right (exists_patch_iff s.pos))

theorem flat_erase (i : Nat) : (s.erase i).flat = s.flat.delete i := by
  refine Flat.ext rfl rfl rfl ?_ ?_
  · funext pos
    change ((s.erase i).chunkAt (pos / s.chunkSize))[pos % s.chunkSize]?.getD 0 =
      if pos / s.chunkSize = i then 0 else s.flat.byte pos
    split
    · rename_i heq
      subst heq
      simp only [chunkAt, erase, AList.lookup_erase, Option.getD_none, getD_zeros]
    · rename_i hne
      simp only [chunkAt, erase, AList.lookup_erase_ne hne]
      rfl
  · ext j
    change j ∈ s.chunks.erase i ↔ j ∈ s.chunks ∧ j ≠ i
    rw [AList.mem_erase, and_comm]

theorem listed_flat : (s.chunks.keys.insertionSort (· ≤ ·)).Pairwise (· < ·) ∧
    ∀ i, i ∈ s.chunks.keys.insertionSort (· ≤ ·) ↔ i ∈ s.flat.present := by
  refine ⟨?_, fun i => (List.mem_insertionSort _).trans AList.mem_keys⟩
  have hsorted := List.pairwise_insertionSort (· ≤ ·) s.chunks.keys
  have hnodup : (s.chunks.keys.insertionSort (· ≤ ·)).Nodup :=
    (List.perm_insertionSort _ _).nodup_iff.mpr s.chunks.nodupKeys
  exact hsorted.imp₂ (fun a b hle hne => lt_of_le_of_ne hle hne) hnodup

end MemoryStore

end IscsiS3
