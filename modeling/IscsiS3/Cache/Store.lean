import IscsiS3.Calls
import IscsiS3.Cache.Pool

/-! `CachedStore`, call by call: whole chunks are read through the pool, writes go to the inner
store first and then patch the pool, and a lock refuses every call.  The inner store is any block
store. -/

namespace IscsiS3

open Splice

/-- The store.  Of its labels only the volume's name is used. -/
structure CachedStore (S : Type) where
  inner : S
  cache : ChunkCache
  volume : Str
  ioLocked : Bool

namespace CachedStore

variable {Req : Type} {Reply : Req → Type} {S : Type}

def withInner (s : CachedStore S) (inner : S) : CachedStore S := { s with inner := inner }

def withCache (s : CachedStore S) (cache : ChunkCache) : CachedStore S := { s with cache := cache }

def lockIo (s : CachedStore S) : CachedStore S :=
  { s with ioLocked := true, cache := s.cache.invalidateVolume s.volume }

def unlockIo (s : CachedStore S) : CachedStore S := { s with ioLocked := false }

def onInner {α : Type} (m : StoreM Reply S α) : StoreM Reply (CachedStore S) α :=
  m.within inner withInner

def lockedError (volume : Str) : StoreError :=
  .other ("volume " ++ String.ofList volume ++
    " is locked (migration in progress); wait for migrate-cow to finish")

def ensureUnlocked : StoreM Reply (CachedStore S) Unit := do
  let s ← StoreM.get
  if s.ioLocked then StoreM.throw (lockedError s.volume) else pure ()

def cacheGet (idx : Nat) : StoreM Reply (CachedStore S) (Option Bytes) := fun s =>
  .ret (.ok (s.cache.get s.volume idx).1, s.withCache (s.cache.get s.volume idx).2)

def cachePut (idx : Nat) (data : Bytes) : StoreM Reply (CachedStore S) Unit :=
  StoreM.modify fun s => s.withCache (s.cache.put s.volume idx data)

def cacheInvalidate (idx : Nat) : StoreM Reply (CachedStore S) Unit :=
  StoreM.modify fun s => s.withCache (s.cache.invalidate s.volume idx)

variable [BlockStore Reply S]

/-- A chunk from the inner store, for a cache miss; the last chunk is read up to the capacity. -/
def fillChunk (idx : Nat) : StoreM Reply (CachedStore S) Bytes := do
  let s ← StoreM.get
  let chunkSize := BlockStore.chunkSize Reply s.inner
  let capacity := BlockStore.capacity Reply s.inner
  let offset := idx * chunkSize
  if capacity ≤ offset then StoreM.throw (.outOfRange offset chunkSize capacity)
  else
    let valid := min (capacity - offset) chunkSize
    let buf ← onInner (BlockStore.readAt offset valid)
    let chunk := buf ++ zeros (chunkSize - valid)
    cachePut idx chunk
    pure chunk

def loadChunk (idx : Nat) : StoreM Reply (CachedStore S) Bytes := do
  ensureUnlocked
  match ← cacheGet idx with
  | some data => pure data
  | none => fillChunk idx

/-- One turn of the loop of `read_at`.  The slice of a chunk that is too short would panic. -/
def readPiece (p : Piece) : StoreM Reply (CachedStore S) Bytes := do
  let chunk ← loadChunk p.idx
  if chunk.length < p.within + p.take then StoreM.done .panic
  else pure (slice chunk p.within p.take)

def readAt (offset len : Nat) : StoreM Reply (CachedStore S) Bytes := do
  ensureUnlocked
  let s ← StoreM.get
  StoreM.lift (checkRange (BlockStore.capacity Reply s.inner) offset len)
  let parts ← StoreM.collect readPiece (pieces (BlockStore.chunkSize Reply s.inner) offset len)
  pure parts.flatten

/-- One turn of the loop of `write_at`: a cached chunk is patched, and one that is not cached is
dropped. -/
def patchCache (p : Patch) : StoreM Reply (CachedStore S) Unit := do
  match ← cacheGet p.idx with
  | some cached =>
    if cached.length < p.within + p.bytes.length then StoreM.done .panic
    else cachePut p.idx (p.apply cached)
  | none => cacheInvalidate p.idx

def writeAt (offset : Nat) (data : Bytes) : StoreM Reply (CachedStore S) Unit := do
  ensureUnlocked
  onInner (BlockStore.writeAt offset data)
  let s ← StoreM.get
  StoreM.each patchCache (patches (BlockStore.chunkSize Reply s.inner) offset data)

def setCapacity (newCapacity : Nat) : StoreM Reply (CachedStore S) Unit := do
  ensureUnlocked
  onInner (BlockStore.setCapacity newCapacity)

def flush : StoreM Reply (CachedStore S) Unit := do
  ensureUnlocked
  onInner BlockStore.flush

def presentChunks : StoreM Reply (CachedStore S) (List Nat) := do
  ensureUnlocked
  onInner BlockStore.presentChunks

def deleteChunk (index : Nat) : StoreM Reply (CachedStore S) Unit := do
  ensureUnlocked
  onInner (BlockStore.deleteChunk index)
  cacheInvalidate index

instance : BlockStore Reply (CachedStore S) where
  readAt := readAt
  writeAt := writeAt
  capacity s := BlockStore.capacity Reply s.inner
  setCapacity := setCapacity
  flush := flush
  blockSize s := BlockStore.blockSize Reply s.inner
  chunkSize s := BlockStore.chunkSize Reply s.inner
  presentChunks := presentChunks
  deleteChunk := deleteChunk

end CachedStore

end IscsiS3
