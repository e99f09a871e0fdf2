import IscsiS3.Lib.Ascending
import IscsiS3.S3.Keys

/-! `S3ChunkStore`: a volume in a bucket, in the legacy layout with one object per chunk or in the
copy-on-write layout with live pointers into a pool of objects named by their hash.  Every operation
is a program of requests. -/

namespace IscsiS3.S3

open Splice

inductive StorageMode where
  | legacy
  | cow
  deriving DecidableEq, Repr

def StorageMode.asStr : StorageMode → String
  | .legacy => "legacy"
  | .cow => "cow"

structure VolumeMeta where
  version : Nat
  capacityBytes : Nat
  chunkSize : Nat
  blockSize : Nat
  compression : Compression
  storage : StorageMode
  deriving DecidableEq, Repr

def metaVersion : Nat := 1

inductive SnapshotState where
  | creating
  | ready
  | deleting
  deriving DecidableEq, Repr

def SnapshotState.text : SnapshotState → String
  | .creating => "Creating"
  | .ready => "Ready"
  | .deleting => "Deleting"

structure SnapshotManifest where
  id : Str
  createdAtUnix : Nat
  parent : Option Str
  sourceVolume : Str
  capacityBytes : Nat
  chunkSize : Nat
  blockSize : Nat
  compression : Compression
  chunkCount : Nat
  chunksObject : Str
  hashAlgo : Str
  state : SnapshotState
  formatVersion : Nat
  deriving DecidableEq, Repr

def SnapshotManifest.newCreating (now : Nat) (id sourceVolume : Str)
    (capacityBytes chunkSize blockSize : Nat) (compression : Compression) : SnapshotManifest where
  id := id
  createdAtUnix := now
  parent := none
  sourceVolume := sourceVolume
  capacityBytes := capacityBytes
  chunkSize := chunkSize
  blockSize := blockSize
  compression := compression
  chunkCount := 0
  chunksObject := "chunks.bin".toList
  hashAlgo := "blake3".toList
  state := .creating
  formatVersion := 1

/-- The external functions: the codecs, BLAKE3, and the JSON of the two kinds of metadata. -/
class External where
  codecs : Codecs
  blake3 : Bytes → Hash
  metaJson : VolumeMeta → Bytes
  parseMeta : Bytes → Except String VolumeMeta
  manifestJson : SnapshotManifest → Bytes
  parseManifest : Bytes → Except String SnapshotManifest

structure S3StoreConfig where
  family : Str
  capacity : Nat
  blockSize : Nat
  chunkSize : Nat
  compression : Compression
  storage : StorageMode
  volume : Str
  deriving DecidableEq, Repr

/-- An opened volume; `volume` is the name in its labels. -/
structure S3ChunkStore where
  family : Str
  blockSize : Nat
  chunkSize : Nat
  compression : Compression
  storage : StorageMode
  capacity : Nat
  volume : Str
  deriving DecidableEq, Repr

def trimSlashes (s : Str) : Str :=
  ((s.dropWhile (· = '/')).reverse.dropWhile (· = '/')).reverse

def planCapacity (existing : Option VolumeMeta) (configCapacity chunkSize blockSize : Nat)
    (compression : Compression) (storage : StorageMode) :
    Except StoreError (Nat × Option VolumeMeta) :=
  match existing with
  | none => .ok (configCapacity,
      some ⟨metaVersion, configCapacity, chunkSize, blockSize, compression, storage⟩)
  | some m =>
    if m.chunkSize ≠ chunkSize then
      .error (.geometryMismatch ("chunk_size config " ++ toString chunkSize ++ " != meta " ++
        toString m.chunkSize))
    else if m.blockSize ≠ blockSize then
      .error (.geometryMismatch ("block_size config " ++ toString blockSize ++ " != meta " ++
        toString m.blockSize))
    else if m.compression ≠ compression then
      .error (.geometryMismatch ("compression config " ++ compression.asStr.quote ++ " != meta " ++
        m.compression.asStr.quote))
    else if m.storage ≠ storage then
      .error (.geometryMismatch ("storage config " ++ storage.asStr ++ " != meta " ++
        m.storage.asStr))
    else if configCapacity < m.capacityBytes then
      .error (.shrinkRefused m.capacityBytes configCapacity)
    else if m.capacityBytes < configCapacity then
      .ok (configCapacity, some { m with capacityBytes := configCapacity })
    else .ok (m.capacityBytes, none)

def contains (text part : String) : Bool := decide (part.toList <:+: text.toList)

def notFoundText (msg : String) : Bool :=
  contains msg "NoSuchKey" || contains msg "404" || contains msg "Not Found"

def isPreconditionFailed : StoreError → Bool
  | .s3 msg => contains msg "PreconditionFailed" || contains msg "412" ||
      contains msg "At least one of the pre-conditions"
  | _ => false

open External

abbrev VolM (α : Type) : Type := StoreM Reply S3ChunkStore α

def getBytes (key : Key) : VolM (Option (Bytes × Option Str)) := do
  let reply : Except S3Error (Bytes × Option Str) ← StoreM.request (Req.get key)
  match reply with
  | .ok found => pure (some found)
  | .error .noSuchKey => pure none
  | .error (.failed msg) => if notFoundText msg then pure none else StoreM.throw (.s3 msg)
  | .error e => StoreM.throw e.toStore

def putBytes (key : Key) (body : Bytes) (ifMatch : Option Str) : VolM Unit := do
  let reply : Except S3Error Unit ← StoreM.request (Req.put key body ifMatch)
  match reply with
  | .ok () => pure ()
  | .error e => StoreM.throw e.toStore

def deleteObjectKey (key : Key) : VolM Unit := do
  let reply : Except S3Error Unit ← StoreM.request (Req.delete key)
  match reply with
  | .ok () => pure ()
  | .error e => StoreM.throw e.toStore

def listKeys (front : Key) : VolM (List Key) := do
  let reply : Except S3Error (List Key) ← StoreM.request (Req.list front)
  match reply with
  | .ok keys => pure keys
  | .error e => StoreM.throw e.toStore

def listChunkIndices (chunksFront : Key) : VolM (List Nat) := do
  let keys ← listKeys chunksFront
  pure (Ascending.sortDedup (keys.filterMap (parseChunkIndexFromKey chunksFront)))

namespace S3ChunkStore

def metaKey (s : S3ChunkStore) : Key :=
  match s.storage with
  | .legacy => flatMetaKey s.family
  | .cow => liveMetaKey s.family

def chunksFront (s : S3ChunkStore) : Key :=
  match s.storage with
  | .legacy => areaFront s.family .legacyChunks
  | .cow => areaFront s.family .liveChunks

def chunkKey (s : S3ChunkStore) (index : Nat) : Key :=
  match s.storage with
  | .legacy => legacyChunkKey s.family index
  | .cow => liveChunkKey s.family index

end S3ChunkStore

section Programs

variable [External]

def getMetaAt (key : Key) : VolM (Option VolumeMeta) := do
  match ← getBytes key with
  | none => pure none
  | some (bytes, _) => match parseMeta bytes with
    | .error e => StoreM.throw (.metadata e)
    | .ok m =>
      if m.version ≠ metaVersion then
        StoreM.throw (.metadata ("unsupported meta version " ++ toString m.version))
      else pure (some m)

def putMeta (m : VolumeMeta) : VolM Unit := do
  let s ← StoreM.get
  putBytes s.metaKey (metaJson m) none

/-- The layout that the metadata in the bucket shows, with that metadata. -/
def probeLayout (config : StorageMode) : VolM (StorageMode × Option VolumeMeta) := do
  let s ← StoreM.get
  let live ← getMetaAt (liveMetaKey s.family)
  let flat ← getMetaAt (flatMetaKey s.family)
  match live, flat with
  | some m, _ =>
    if m.storage ≠ .cow then
      StoreM.throw (.metadata "live/meta.json present but storage is not cow")
    else if config ≠ .cow then
      StoreM.throw (.geometryMismatch
        "volume meta is storage=cow; set volumes[].storage = \"cow\"")
    else pure (.cow, some m)
  | none, some m =>
    if m.storage = .cow then
      StoreM.throw (.metadata "flat meta.json claims storage=cow; expected live/ layout")
    else if config = .cow then
      StoreM.throw (.geometryMismatch ("volume is storage=legacy on S3; run " ++
        "`iscsi-s3-ctl volume migrate-cow` then set storage=\"cow\" and restart"))
    else pure (.legacy, some m)
  | none, none => pure (config, none)

def resolveMeta (configCapacity : Nat) (existing : Option VolumeMeta) : VolM Nat := do
  let s ← StoreM.get
  let (effective, toWrite) ← StoreM.lift
    (planCapacity existing configCapacity s.chunkSize s.blockSize s.compression s.storage)
  match toWrite with
  | some m => do
    putMeta m
    pure effective
  | none => pure effective

def hasMigrationMarker : VolM Bool := do
  let s ← StoreM.get
  let found ← getBytes (migratingKey s.family)
  pure found.isSome

/-- `get_legacy_chunk`: the sharded key first, then the flat one; only the sharded object's etag is
passed on. -/
def getLegacyChunk (index : Nat) : VolM (Bytes × Option Str) := do
  let s ← StoreM.get
  match ← getBytes (legacyChunkKey s.family index) with
  | some (bytes, etag) => do
    let plain ← StoreM.lift (decodeChunk codecs s.compression bytes s.chunkSize)
    pure (plain, etag)
  | none => match ← getBytes (legacyFlatChunkKey s.family index) with
    | some (bytes, _) => do
      let plain ← StoreM.lift (decodeChunk codecs s.compression bytes s.chunkSize)
      pure (plain, none)
    | none => pure (zeros s.chunkSize, none)

def getObject (hash : Hash) : VolM (Option (Bytes × Option Str)) := do
  let s ← StoreM.get
  getBytes (objectKey s.family hash)

def getChunk (index : Nat) : VolM (Bytes × Option Str) := do
  let s ← StoreM.get
  match s.storage with
  | .legacy => getLegacyChunk index
  | .cow => match ← getBytes (s.chunkKey index) with
    | none => pure (zeros s.chunkSize, none)
    | some (ptr, etag) => do
      let hash ← StoreM.lift (decodePointer ptr)
      match ← getObject hash with
      | none => StoreM.throw (.other ("missing cow object for chunk " ++ toString index))
      | some (body, _) => do
        let plain ← StoreM.lift (decodeChunk codecs s.compression body s.chunkSize)
        pure (plain, etag)

def putChunk (index : Nat) (data : Bytes) (ifMatch : Option Str) : VolM Unit := do
  let s ← StoreM.get
  if data.length ≠ s.chunkSize then
    StoreM.throw (.other ("put_chunk length " ++ toString data.length ++ " != chunk_size " ++
      toString s.chunkSize))
  else match s.storage with
    | .legacy => do
      let body ← StoreM.lift (encodeChunk codecs s.compression data)
      putBytes (legacyChunkKey s.family index) body ifMatch
      let _ ← (deleteObjectKey (legacyFlatChunkKey s.family index)).attempt
      pure ()
    | .cow => do
      let body ← StoreM.lift (encodeChunk codecs s.compression data)
      let hash := blake3 body
      putBytes (objectKey s.family hash) body none
      putBytes (s.chunkKey index) (encodePointer hash) ifMatch

def readPointerHash (index : Nat) : VolM (Option Hash) := do
  let s ← StoreM.get
  match ← getBytes (s.chunkKey index) with
  | none => pure none
  | some (bytes, _) => do
    let hash ← StoreM.lift (decodePointer bytes)
    pure (some hash)

def putPointer (index : Nat) (hash : Hash) : VolM Unit := do
  let s ← StoreM.get
  putBytes (s.chunkKey index) (encodePointer hash) none

def deleteChunkObject (index : Nat) : VolM Unit := do
  let s ← StoreM.get
  match s.storage with
  | .legacy => do
    deleteObjectKey (legacyChunkKey s.family index)
    deleteObjectKey (legacyFlatChunkKey s.family index)
  | .cow => deleteObjectKey (s.chunkKey index)

def readPiece (p : Piece) : VolM Bytes := do
  let (chunk, _) ← getChunk p.idx
  pure (slice chunk p.within p.take)

def readAt (offset len : Nat) : VolM Bytes := do
  let s ← StoreM.get
  StoreM.lift (checkRange s.capacity offset len)
  let parts ← StoreM.collect readPiece (pieces s.chunkSize offset len)
  pure parts.flatten

/-- The chunk that a piece is written over, with the etag to match; a whole chunk is not read
first. -/
def baseChunk (p : Piece) : VolM (Bytes × Option Str) := do
  let s ← StoreM.get
  if p.within = 0 ∧ p.take = s.chunkSize then pure (zeros s.chunkSize, none) else getChunk p.idx

/-- The loop that tries again when the object has changed in between; only a failed put is tried
again. -/
def writePieceLoop (p : Piece) (bytes : Bytes) : (retries : Nat) → VolM Unit
  | 0 => do
    let (chunk, etag) ← baseChunk p
    putChunk p.idx (splice chunk p.within bytes) etag
  | retries + 1 => do
    let (chunk, etag) ← baseChunk p
    match ← (putChunk p.idx (splice chunk p.within bytes) etag).attempt with
    | .ok () => pure ()
    | .error e =>
      if isPreconditionFailed e then writePieceLoop p bytes retries else StoreM.throw e

def maxCasAttempts : Nat := 8

def writePiece (offset : Nat) (data : Bytes) (p : Piece) : VolM Unit := do
  let s ← StoreM.get
  let done := p.idx * s.chunkSize + p.within - offset
  writePieceLoop p (slice data done p.take) (maxCasAttempts - 1)

def writeAt (offset : Nat) (data : Bytes) : VolM Unit := do
  let s ← StoreM.get
  StoreM.lift (checkRange s.capacity offset data.length)
  StoreM.each (writePiece offset data) (pieces s.chunkSize offset data.length)

def setCapacity (newCapacity : Nat) : VolM Unit := do
  let s ← StoreM.get
  if newCapacity % s.blockSize ≠ 0 then
    StoreM.throw (.geometryMismatch "capacity must be multiple of block_size")
  else if newCapacity < s.capacity then
    StoreM.throw (.shrinkRefused s.capacity newCapacity)
  else if newCapacity = s.capacity then pure ()
  else do
    putMeta ⟨metaVersion, newCapacity, s.chunkSize, s.blockSize, s.compression, s.storage⟩
    StoreM.modify fun s => { s with capacity := newCapacity }

def presentChunks : VolM (List Nat) := do
  let s ← StoreM.get
  listChunkIndices s.chunksFront

instance : BlockStore Reply S3ChunkStore where
  readAt := readAt
  writeAt := writeAt
  capacity := S3ChunkStore.capacity
  setCapacity := setCapacity
  flush := pure ()
  blockSize := S3ChunkStore.blockSize
  chunkSize := S3ChunkStore.chunkSize
  presentChunks := presentChunks
  deleteChunk := deleteChunkObject

end Programs

end IscsiS3.S3
