import IscsiS3.Cache.Store
import IscsiS3.S3.Snapshots
import IscsiS3.WriteCache.Calls

/-! The store of a volume as the daemon serves it, a write cache over a read cache over a volume in
S3, and the operations on whole volumes, which work on any block stores. -/

namespace IscsiS3

/-- A write cache with what its worker will do: one list of turns for each write to come. -/
structure Scheduled (S : Type) where
  store : WriteCachedStore S
  schedule : List (List (List Turn))

namespace Scheduled

variable {Req : Type} {Reply : Req → Type} {S α : Type}

def withStore (s : Scheduled S) (store : WriteCachedStore S) : Scheduled S :=
  { s with store := store }

def onStore (m : StoreM Reply (WriteCachedStore S) α) : StoreM Reply (Scheduled S) α :=
  m.within store withStore

variable [BlockStore Reply S]

def writeAt (offset : Nat) (data : Bytes) : StoreM Reply (Scheduled S) Unit := do
  let s ← StoreM.get
  StoreM.modify fun s => { s with schedule := s.schedule.tail }
  onStore (WriteCachedStore.writeAt (s.schedule.headD []) offset data)

instance : BlockStore Reply (Scheduled S) where
  readAt offset len := onStore (WriteCachedStore.readAt offset len)
  writeAt := writeAt
  capacity s := BlockStore.capacity Reply s.store.inner
  setCapacity newCapacity := onStore (WriteCachedStore.setCapacity newCapacity)
  flush := onStore WriteCachedStore.flush
  blockSize s := BlockStore.blockSize Reply s.store.inner
  chunkSize s := BlockStore.chunkSize Reply s.store.inner
  presentChunks := onStore WriteCachedStore.presentChunks
  deleteChunk index := onStore (WriteCachedStore.deleteChunk index)

end Scheduled

namespace Admin

open Request StoreM

variable {Req : Type} {Reply : Req → Type} {S T X α : Type} {K : X → Prop} {m : StoreM Reply X α}

structure View (X S : Type) where
  get : X → S
  set : X → S → X

def View.on (view : View X S) (m : StoreM Reply S α) : StoreM Reply X α :=
  m.within view.get view.set

def mapErr (before : String) (m : StoreM Reply X α) (after : String) : StoreM Reply X α := do
  match ← m.attempt with
  | .ok a => pure a
  | .error e => StoreM.throw (.other (before ++ e.text ++ after))

theorem mapErr_keeps {W : Type} {env : Env Req Reply W} {K : X → W → Prop} {x : X} {w : W}
    {R : α → X → W → Prop} (h : m.Keeps env K x w R) (before after : String) :
    (mapErr before m after).Keeps env K x w R := by
  refine Keeps.bind ((Keeps.attempt (R := fun r x' w' => ∀ a, r = .ok a → R a x' w')
    (h.mono fun a x' w' _ hR b hb => ?_) fun _ _ _ _ => nofun).mono fun r x' w' hK hR => ?_)
  · obtain rfl := Except.ok.inj hb
    exact hR
  · cases r with
    | ok a => exact Keeps.pure hK (hR a rfl)
    | error e => exact Keeps.throw hK

theorem mapErr_preserves (h : Preserves K m) (before after : String) :
    Preserves K (mapErr before m after) := fun x hx => mapErr_keeps (h x hx) before after

structure CopyVolumeResult where
  chunksCopied : Nat
  chunksDeleted : Nat
  bytesCopied : Nat
  chunksSkipped : Nat
  deriving DecidableEq, Repr

variable [BlockStore Reply S] [BlockStore Reply T]

def copyChunks (source : View X S) (dest : View X T) (resumeFrom : Option Nat)
    (capacity chunkSize : Nat) : List Nat → CopyVolumeResult → StoreM Reply X CopyVolumeResult
  | [], r => pure r
  | idx :: rest, r =>
    if resumeFrom.any fun start => decide (idx < start) then
      copyChunks source dest resumeFrom capacity chunkSize rest
        { r with chunksSkipped := r.chunksSkipped + 1 }
    else if u64Size ≤ idx * chunkSize then
      StoreM.throw (.other ("chunk index " ++ toString idx ++ " overflows with chunk_size " ++
        toString chunkSize))
    else if capacity ≤ idx * chunkSize then
      copyChunks source dest resumeFrom capacity chunkSize rest r
    else do
      let len := min (capacity - idx * chunkSize) chunkSize
      let resume := " (resume with --resume-from " ++ toString idx ++ ")"
      let bytes ← mapErr ("read source chunk " ++ toString idx ++ ": ")
        (source.on (BlockStore.readAt (idx * chunkSize) len)) resume
      mapErr ("write destination chunk " ++ toString idx ++ ": ")
        (dest.on (BlockStore.writeAt (idx * chunkSize) bytes)) resume
      copyChunks source dest resumeFrom capacity chunkSize rest
        { r with chunksCopied := r.chunksCopied + 1, bytesCopied := r.bytesCopied + len }

def deleteChunks (dest : View X T) (label : String) : List Nat → StoreM Reply X Unit :=
  StoreM.each fun idx =>
    mapErr (label ++ toString idx ++ ": ") (dest.on (BlockStore.deleteChunk idx)) ""

def mismatch (what : String) (source dest : Nat) (note : String) : StoreError :=
  .other (what ++ " mismatch: source " ++ toString source ++ " != destination " ++ toString dest ++
    note)

def copyVolume (source : View X S) (dest : View X T) (resumeFrom : Option Nat) :
    StoreM Reply X CopyVolumeResult := do
  let x ← StoreM.get
  let src := source.get x
  let dst := dest.get x
  let chunkSize := BlockStore.chunkSize Reply src
  let capacity := BlockStore.capacity Reply src
  if chunkSize ≠ BlockStore.chunkSize Reply dst then
    StoreM.throw (mismatch "chunk_size" chunkSize (BlockStore.chunkSize Reply dst) "")
  else if BlockStore.blockSize Reply src ≠ BlockStore.blockSize Reply dst then
    StoreM.throw (mismatch "block_size" (BlockStore.blockSize Reply src)
      (BlockStore.blockSize Reply dst) "")
  else if capacity ≠ BlockStore.capacity Reply dst then
    StoreM.throw (mismatch "capacity" capacity (BlockStore.capacity Reply dst)
      " (1:1 copy requires equal capacity)")
  else if chunkSize = 0 then StoreM.throw (.other "invalid chunk_size 0")
  else do
    let srcChunks ← mapErr "list source chunks: " (source.on BlockStore.presentChunks) ""
    let dstChunks ← mapErr "list destination chunks: " (dest.on BlockStore.presentChunks) ""
    let copied ← copyChunks source dest resumeFrom capacity chunkSize srcChunks ⟨0, 0, 0, 0⟩
    let gone := dstChunks.filter fun idx => idx ∉ srcChunks
    deleteChunks dest "delete destination chunk " gone
    mapErr "flush destination after copy: " (dest.on BlockStore.flush) ""
    pure { copied with chunksDeleted := gone.length }

structure WipeVolumeResult where
  chunksDeleted : Nat
  deriving DecidableEq, Repr

def wipeVolume (view : View X S) : StoreM Reply X WipeVolumeResult := do
  let chunks ← mapErr "list chunks: " (view.on BlockStore.presentChunks) ""
  deleteChunks view "delete chunk " chunks
  mapErr "flush after wipe: " (view.on BlockStore.flush) ""
  pure ⟨chunks.length⟩

structure ExportImageResult where
  bytesSent : Nat
  chunksRead : Nat
  deriving DecidableEq, Repr

/-- What `write_all` answers when it is given the bytes from an offset on. -/
abbrev Writer := Nat → Except String Unit

/-- The loop of `export_image_to_writer`, with what it writes. -/
def exportChunks (view : View X S) (writer : Writer) (chunkSize : Nat) :
    (turns offset remaining : Nat) → StoreM Reply X (List Bytes)
  | 0, _, _ => pure []
  | turns + 1, offset, remaining =>
    if remaining = 0 then pure []
    else do
      let n := min remaining chunkSize
      let bytes ← mapErr ("read at offset " ++ toString offset ++ ": ")
        (view.on (BlockStore.readAt offset n)) ""
      StoreM.lift ((writer offset).mapError fun e =>
        .other ("write export body at offset " ++ toString offset ++ ": " ++ e))
      let rest ← exportChunks view writer chunkSize turns (offset + n) (remaining - n)
      pure (bytes :: rest)

/-- Every turn sends a byte at least. -/
def exportImageToWriter (view : View X S) (writer : Writer) (size : Nat) :
    StoreM Reply X (Bytes × ExportImageResult) := do
  let x ← StoreM.get
  let chunkSize := BlockStore.chunkSize Reply (view.get x)
  let capacity := BlockStore.capacity Reply (view.get x)
  if chunkSize = 0 then StoreM.throw (.other "invalid chunk_size 0")
  else if capacity < size then
    StoreM.throw (.other ("export size " ++ toString size ++ " exceeds volume capacity " ++
      toString capacity))
  else do
    let parts ← exportChunks view writer chunkSize size 0 size
    pure (parts.flatten, ⟨size, parts.length⟩)

end Admin

end IscsiS3
