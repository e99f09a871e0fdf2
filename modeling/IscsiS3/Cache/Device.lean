import IscsiS3.Cache.Store

/-! A block device as an array of bytes that a store reads and writes by requests, and the chunks of
such an array.  A request can fail; a write that fails may have written some of its chunks. -/

namespace IscsiS3

open Splice Request

structure Device where
  capacity : Nat
  chunkSize : Nat
  blockSize : Nat
  deriving DecidableEq

inductive DeviceReq where
  | read (offset len : Nat)
  | write (offset : Nat) (data : Bytes)
  | setCapacity (newCapacity : Nat)
  | flush
  | presentChunks
  | delete (index : Nat)

abbrev DeviceReply : DeviceReq → Type
  | .read _ _ => Except StoreError Bytes
  | .presentChunks => Except StoreError (List Nat)
  | _ => Except StoreError Unit

namespace Device

def readAt (offset len : Nat) : StoreM DeviceReply Device Bytes := do
  let r ← StoreM.request (.read offset len)
  StoreM.lift r

def writeAt (offset : Nat) (data : Bytes) : StoreM DeviceReply Device Unit := do
  let r ← StoreM.request (.write offset data)
  StoreM.lift r

def setCapacity (newCapacity : Nat) : StoreM DeviceReply Device Unit := do
  let r ← StoreM.request (.setCapacity newCapacity)
  StoreM.lift r
  StoreM.modify fun d => { d with capacity := newCapacity }

def flush : StoreM DeviceReply Device Unit := do
  let r ← StoreM.request .flush
  StoreM.lift r

def presentChunks : StoreM DeviceReply Device (List Nat) := do
  let r ← StoreM.request .presentChunks
  StoreM.lift r

def deleteChunk (index : Nat) : StoreM DeviceReply Device Unit := do
  let r ← StoreM.request (.delete index)
  StoreM.lift r

instance : BlockStore DeviceReply Device where
  readAt := readAt
  writeAt := writeAt
  capacity d := d.capacity
  setCapacity := setCapacity
  flush := flush
  blockSize d := d.blockSize
  chunkSize d := d.chunkSize
  presentChunks := presentChunks
  deleteChunk := deleteChunk

variable (d : Device) (w : Nat → UInt8)

def valid (i : Nat) : Nat := min (d.capacity - i * d.chunkSize) d.chunkSize

/-- Chunk `i` as a reader of whole chunks gets it, with zeros above the capacity. -/
def chunk (i : Nat) : Bytes := span w (i * d.chunkSize) (d.valid i) ++
    zeros (d.chunkSize - d.valid i)

def erase (i : Nat) : Nat → UInt8 := overwrite w (i * d.chunkSize) (zeros (d.valid i))

def inside : Nat → UInt8 := fun pos => if pos < d.capacity then w pos else 0

variable {d w}

theorem chunk_eq_span (i : Nat) :
    d.chunk w i = span (d.inside w) (i * d.chunkSize) d.chunkSize := by
  have hvalid : d.valid i ≤ d.chunkSize := Nat.min_le_right _ _
  have hsplit : d.chunkSize = d.valid i + (d.chunkSize - d.valid i) := by omega
  have habove : ∀ len, len ≤ d.chunkSize - d.valid i →
      span (d.inside w) (i * d.chunkSize + d.valid i) len = zeros len := fun len hlen => by
    apply List.ext_getElem?
    intro k
    rw [getElem?_span, zeros, List.getElem?_replicate]
    split
    · rename_i hk
      have : d.valid i = min (d.capacity - i * d.chunkSize) d.chunkSize := rfl
      rw [inside, if_neg (by omega)]
    · rfl
  rw [chunk]
  conv_rhs => rw [hsplit, span_add, ← hsplit, habove _ (Nat.le_refl _)]
  congr 1
  apply span_congr
  intro pos hlow hhigh
  have : d.valid i = min (d.capacity - i * d.chunkSize) d.chunkSize := rfl
  rw [inside, if_pos (by omega)]

@[simp] theorem length_chunk (i : Nat) : (d.chunk w i).length = d.chunkSize := by
  rw [chunk_eq_span, length_span]

theorem div_of_chunk {i pos : Nat} (hlow : i * d.chunkSize ≤ pos)
    (hhigh : pos < i * d.chunkSize + d.chunkSize) : pos / d.chunkSize = i := by
  rw [Nat.div_eq_of_lt_le hlow]
  rw [Nat.succ_mul]
  exact hhigh

variable {data : Bytes} {offset : Nat}

theorem inside_overwrite (h : offset + data.length ≤ d.capacity) :
    d.inside (overwrite w offset data) = overwrite (d.inside w) offset data := by
  funext pos
  by_cases hin : offset ≤ pos ∧ pos < offset + data.length
  · obtain ⟨k, rfl⟩ : ∃ k, pos = offset + k := ⟨pos - offset, by omega⟩
    rw [inside, if_pos (by omega), overwrite_inside (by omega), overwrite_inside (by omega)]
  · rw [overwrite_outside (by omega)]
    simp only [inside]
    rw [overwrite_outside (by omega)]

theorem chunk_overwrite (hc : 0 < d.chunkSize) (h : offset + data.length ≤ d.capacity) {p : Patch}
    (hp : p ∈ patches d.chunkSize offset data) :
    d.chunk (overwrite w offset data) p.idx = p.apply (d.chunk w p.idx) := by
  obtain ⟨-, hfit, -⟩ := mem_patches hc hp
  rw [chunk_eq_span, chunk_eq_span, Patch.apply, splice_span _ hfit, inside_overwrite h]
  apply span_congr
  intro pos hlow hhigh
  exact overwrite_patch _ hc hp (div_of_chunk hlow hhigh)

theorem chunk_overwrite_of_ne {offset i : Nat} (hc : 0 < d.chunkSize)
    (h : offset + data.length ≤ d.capacity)
    (hi : ∀ p ∈ patches d.chunkSize offset data, p.idx ≠ i) :
    d.chunk (overwrite w offset data) i = d.chunk w i := by
  rw [chunk_eq_span, chunk_eq_span, inside_overwrite h]
  apply span_congr
  intro pos hlow hhigh
  exact overwrite_no_patch _ hc (by rw [div_of_chunk hlow hhigh]; exact hi)

theorem chunk_overwrite_other {i j start : Nat} (hlow : i * d.chunkSize ≤ start)
    (hhigh : start + data.length ≤ i * d.chunkSize + d.chunkSize) (h : j ≠ i) :
    d.chunk (overwrite w start data) j = d.chunk w j := by
  unfold chunk
  congr 1
  apply span_congr
  intro pos hlow' hhigh'
  have hj : d.valid j ≤ d.chunkSize := Nat.min_le_right _ _
  apply overwrite_outside
  rcases Nat.lt_or_gt_of_ne h with hlt | hlt
  · have := Nat.mul_le_mul_right d.chunkSize (show j + 1 ≤ i by omega)
    rw [Nat.succ_mul] at this
    omega
  · have := Nat.mul_le_mul_right d.chunkSize (show i + 1 ≤ j by omega)
    rw [Nat.succ_mul] at this
    omega

theorem chunk_erase_of_ne {i j : Nat} (h : j ≠ i) : d.chunk (d.erase w i) j = d.chunk w j := by
  have hvalid : d.valid i ≤ d.chunkSize := Nat.min_le_right _ _
  refine chunk_overwrite_other (Nat.le_refl _) ?_ h
  rw [zeros, List.length_replicate]
  omega

end Device

end IscsiS3
