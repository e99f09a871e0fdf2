import IscsiS3.S3.Volume

/-! The calls on a volume that are not those of a block store: snapshots, the sweep of the pool,
restore, clone, the migration to the copy-on-write layout, and opening. -/

namespace IscsiS3.S3

open External

section Programs

variable [External] {referenced : Finset Hash} {family : Str}

def requireCow : VolM Unit := do
  let s ← StoreM.get
  match s.storage with
  | .cow => pure ()
  | .legacy => StoreM.throw (.other ("volume " ++ String.ofList s.volume ++ " uses storage=" ++
      s.storage.asStr ++ "; set storage=\"cow\" (and migrate) to use snapshots"))

def isIdChar (c : Char) : Bool := c.isAlphanum || c = '-' || c = '_' || c = '.'

def validateSnapshotId (id : Str) : Except StoreError Unit :=
  if id = [] ∨ 128 < id.length ∨ !id.all isIdChar then
    .error (.other "snapshot id must be 1-128 chars of [A-Za-z0-9._-]")
  else .ok ()

def readPointers : List Nat → VolM (List ChunkRef)
  | [] => pure []
  | idx :: rest => do
    let hash ← readPointerHash idx
    let refs ← readPointers rest
    match hash with
    | some hash => pure (⟨idx, hash⟩ :: refs)
    | none => pure refs

def collectLiveRefs : VolM (List ChunkRef) := do
  requireCow
  let indices ← presentChunks
  StoreM.done (reserve indices.length)
  let refs ← readPointers indices
  pure (refs.insertionSort fun a b => a.index ≤ b.index)

/-- `snapshot_create`, at the time `now`. -/
def snapshotCreate (now : Nat) (id sourceVolume : Str) : VolM SnapshotManifest := do
  requireCow
  StoreM.lift (validateSnapshotId id)
  let s ← StoreM.get
  let existing ← getBytes (snapshotManifestKey s.family id)
  if existing.isSome then
    StoreM.throw (.other ("snapshot " ++ String.ofList id ++ " already exists"))
  else do
    let manifest := SnapshotManifest.newCreating now id sourceVolume s.capacity s.chunkSize
      s.blockSize s.compression
    putBytes (snapshotManifestKey s.family id) (manifestJson manifest) none
    let refs ← collectLiveRefs
    putBytes (snapshotChunksKey s.family id) (writeChunksBin refs) none
    let manifest := { manifest with chunkCount := refs.length, state := .ready }
    putBytes (snapshotManifestKey s.family id) (manifestJson manifest) none
    pure manifest

def readManifests : List Key → VolM (List SnapshotManifest)
  | [] => pure []
  | key :: rest => do
    match ← getBytes key with
    | none => readManifests rest
    | some (bytes, _) => match parseManifest bytes with
      | .error e => StoreM.throw (.metadata e)
      | .ok m => do
        let ms ← readManifests rest
        pure (m :: ms)

def snapshotList : VolM (List SnapshotManifest) := do
  requireCow
  let s ← StoreM.get
  let keys ← listKeys (areaFront s.family .snapshots)
  let out ← readManifests (keys.filter fun k => "/manifest.json".toList.isSuffixOf k)
  pure (out.insertionSort fun a b => a.id ≤ b.id)

def snapshotGet (id : Str) : VolM SnapshotManifest := do
  requireCow
  let s ← StoreM.get
  match ← getBytes (snapshotManifestKey s.family id) with
  | none => StoreM.throw (.other ("snapshot " ++ String.ofList id ++ " not found"))
  | some (bytes, _) => match parseManifest bytes with
    | .error e => StoreM.throw (.metadata e)
    | .ok m => pure m

def loadSnapshotRefs (id : Str) : VolM (List ChunkRef) := do
  let s ← StoreM.get
  match ← getBytes (snapshotChunksKey s.family id) with
  | none => StoreM.throw (.other ("snapshot " ++ String.ofList id ++ " chunks.bin missing"))
  | some (bytes, _) => StoreM.done (readChunksBin bytes)

structure GcStats where
  objectsDeleted : Nat
  objectsReferenced : Nat
  deriving DecidableEq, Repr

def gcPointers : List Nat → Finset Hash → VolM (Finset Hash)
  | [], referenced => pure referenced
  | idx :: rest, referenced => do
    match ← readPointerHash idx with
    | some hash => gcPointers rest (insert hash referenced)
    | none => gcPointers rest referenced

/-- The hashes that the snapshots name; an index that cannot be read is passed over. -/
def gcSnapshots : List SnapshotManifest → Finset Hash → VolM (Finset Hash)
  | [], referenced => pure referenced
  | m :: rest, referenced => do
    match ← (loadSnapshotRefs m.id).attempt with
    | .ok refs => gcSnapshots rest (refs.foldl (fun set r => insert r.hash set) referenced)
    | .error _ => gcSnapshots rest referenced

/-- The loop that deletes the objects whose hash nothing names. -/
def gcSweep (front : Key) (referenced : Finset Hash) : List Key → (deleted : Nat) → VolM Nat
  | [], deleted => pure deleted
  | key :: rest, deleted => match stripFront front key with
    | none => gcSweep front referenced rest deleted
    | some rel => do
      match ← StoreM.done (hashFromObjectRelpath rel) with
      | none => gcSweep front referenced rest deleted
      | some hash =>
        if hash ∈ referenced then gcSweep front referenced rest deleted
        else do
          deleteObjectKey key
          gcSweep front referenced rest (deleted + 1)

/-- The key is that of an object whose hash is not in the set. -/
def Unreferenced (front : Key) (referenced : Finset Hash) (key : Key) : Prop :=
  ∃ rel hash, stripFront front key = some rel ∧ hashFromObjectRelpath rel = .ok (some hash) ∧
    hash ∉ referenced

omit [External] in
theorem Unreferenced.inArea {key : Key}
    (h : Unreferenced (areaFront family .objects) referenced key) : InArea family .objects key := by
  obtain ⟨rel, hash, hrel, -⟩ := h
  rw [stripFront_eq_some hrel]
  exact List.prefix_append _ _

omit [External] in
theorem unreferenced_objectKey {x : Hash} :
    Unreferenced (areaFront family .objects) referenced (objectKey family x) ↔ x ∉ referenced := by
  have hstrip : stripFront (areaFront family .objects) (objectKey family x) =
      some (objectRelpath x) := stripFront_append _ _
  constructor
  · rintro ⟨rel, hash, hrel, hhash, href⟩
    rw [hstrip] at hrel
    obtain rfl := Option.some.inj hrel
    rw [hashFromObjectRelpath_objectRelpath] at hhash
    obtain rfl := Option.some.inj (Outcome.ok.inj hhash)
    exact href
  · exact fun href => ⟨_, x, hstrip, hashFromObjectRelpath_objectRelpath x, href⟩

/-- The part of `gc_unreferenced_objects` that reads: the references, and the keys of the pool. -/
def gcReads : VolM (Finset Hash × List Key) := do
  requireCow
  let indices ← presentChunks
  let referenced ← gcPointers indices ∅
  let manifests ← snapshotList
  let referenced ← gcSnapshots manifests referenced
  let s ← StoreM.get
  let keys ← listKeys (areaFront s.family .objects)
  pure (referenced, keys)

def gcUnreferencedObjects : VolM GcStats := do
  let (referenced, keys) ← gcReads
  let s ← StoreM.get
  let deleted ← gcSweep (areaFront s.family .objects) referenced keys 0
  pure ⟨deleted, referenced.card⟩

def deletePrefix (front : Key) : VolM Nat := do
  let keys ← listKeys front
  StoreM.each deleteObjectKey keys
  pure keys.length

def wipeObjectsAndSnapshots : VolM (Nat × Nat) := do
  let s ← StoreM.get
  let objects ← deletePrefix (areaFront s.family .objects)
  let snapshots ← deletePrefix (areaFront s.family .snapshots)
  pure (objects, snapshots)

def snapshotDelete (id : Str) : VolM GcStats := do
  requireCow
  let _ ← snapshotGet id
  let s ← StoreM.get
  deleteObjectKey (snapshotChunksKey s.family id)
  deleteObjectKey (snapshotManifestKey s.family id)
  gcUnreferencedObjects

structure RestoreStats where
  pointersWritten : Nat
  pointersDeleted : Nat
  capacity : Nat
  deriving DecidableEq, Repr

def growTo (capacityBytes : Nat) : VolM Unit := do
  let s ← StoreM.get
  if s.capacity < capacityBytes then setCapacity capacityBytes else pure ()

/-- The second half of `snapshot_restore`: put the pointers of the snapshot, and delete the live
ones that it does not have. -/
def restorePointers (id : Str) : VolM RestoreStats := do
  let refs ← loadSnapshotRefs id
  let live ← presentChunks
  let gone := live.filter fun idx => idx ∉ refs.map ChunkRef.index
  StoreM.each (fun r => putPointer r.index r.hash) refs
  StoreM.each deleteChunkObject gone
  let s ← StoreM.get
  pure ⟨refs.length, gone.length, s.capacity⟩

def snapshotRestore (id : Str) : VolM RestoreStats := do
  requireCow
  let manifest ← snapshotGet id
  let s ← StoreM.get
  if manifest.state ≠ .ready then
    StoreM.throw (.other ("snapshot " ++ String.ofList id ++ " is not ready (" ++
      manifest.state.text ++ ")"))
  else if manifest.chunkSize ≠ s.chunkSize ∨ manifest.blockSize ≠ s.blockSize then
    StoreM.throw (.geometryMismatch "snapshot geometry does not match live volume")
  else if manifest.compression ≠ s.compression then
    StoreM.throw (.geometryMismatch "snapshot compression does not match live volume")
  else do
    growTo manifest.capacityBytes
    restorePointers id

structure CloneStats where
  pointersWritten : Nat
  objectsCopied : Nat
  deriving DecidableEq, Repr

/-- A call on the source of a clone, or on its destination. -/
def onSource {α : Type} (m : VolM α) : StoreM Reply (S3ChunkStore × S3ChunkStore) α :=
  m.within Prod.fst fun p s => (s, p.2)

def onDest {α : Type} (m : VolM α) : StoreM Reply (S3ChunkStore × S3ChunkStore) α :=
  m.within Prod.snd fun p s => (p.1, s)

/-- One record of a clone: the object unless the destination has it, then the pointer.  The result
says whether the object was copied. -/
def cloneRef (r : ChunkRef) : StoreM Reply (S3ChunkStore × S3ChunkStore) Bool := do
  let (_, dest) ← StoreM.get
  let there ← onDest (getObject r.hash)
  if there.isSome then do
    onDest (putPointer r.index r.hash)
    pure false
  else
    match ← onSource (getObject r.hash) with
    | none => StoreM.throw (.other ("missing object for hash " ++ String.ofList (hashHex r.hash)))
    | some (body, _) => do
      onDest (putBytes (objectKey dest.family r.hash) body none)
      onDest (putPointer r.index r.hash)
      pure true

/-- The second half of `snapshot_clone_into`, for an empty destination. -/
def clonePointers (id : Str) : StoreM Reply (S3ChunkStore × S3ChunkStore) CloneStats := do
  let existing ← onDest presentChunks
  if existing ≠ [] then
    StoreM.throw (.other "clone destination must be empty (no live chunk pointers)")
  else do
    let refs ← onSource (loadSnapshotRefs id)
    let copied ← StoreM.collect cloneRef refs
    pure ⟨refs.length, copied.count true⟩

def snapshotCloneInto (id : Str) : StoreM Reply (S3ChunkStore × S3ChunkStore) CloneStats := do
  onSource requireCow
  onDest requireCow
  let (source, dest) ← StoreM.get
  if source.family = dest.family then
    StoreM.throw (.other "clone destination must be a different volume prefix")
  else if dest.chunkSize ≠ source.chunkSize ∨ dest.blockSize ≠ source.blockSize ∨
      dest.compression ≠ source.compression then
    StoreM.throw (.geometryMismatch
      "clone destination geometry/compression must match snapshot source")
  else do
    let manifest ← onSource (snapshotGet id)
    if manifest.state ≠ .ready then
      StoreM.throw (.other ("snapshot " ++ String.ofList id ++ " is not ready"))
    else do
      onDest (growTo manifest.capacityBytes)
      clonePointers id

structure MigrateStats where
  chunksMigrated : Nat
  chunksDeleted : Nat
  note : String
  deriving DecidableEq, Repr

def migrateNote : String :=
  "set volumes[].storage = \"cow\" before next restart; " ++
    "legacy chunks were deleted as they migrated"

def legacyBody (idx : Nat) : VolM (Option Bytes) := do
  let s ← StoreM.get
  match ← getBytes (legacyChunkKey s.family idx) with
  | some (body, _) => pure (some body)
  | none => do
    let found ← getBytes (legacyFlatChunkKey s.family idx)
    pure (found.map Prod.fst)

/-- A chunk moves: object, pointer, and then the legacy objects go. -/
def migrateBody (idx : Nat) (body : Bytes) : VolM Unit := do
  let s ← StoreM.get
  let hash := blake3 body
  putBytes (objectKey s.family hash) body none
  putBytes (liveChunkKey s.family idx) (encodePointer hash) none
  let _ ← (deleteObjectKey (legacyChunkKey s.family idx)).attempt
  let _ ← (deleteObjectKey (legacyFlatChunkKey s.family idx)).attempt
  pure ()

/-- One turn of the migration; the result says whether there was a chunk. -/
def migrateChunk (idx : Nat) : VolM Bool := do
  match ← legacyBody idx with
  | none => pure false
  | some body => do
    migrateBody idx body
    pure true

def migrateToCow : VolM MigrateStats := do
  let s ← StoreM.get
  if s.storage ≠ .legacy then do
    let _ ← (deleteObjectKey (migratingKey s.family)).attempt
    StoreM.throw (.other "volume is already storage=cow")
  else do
    putBytes (migratingKey s.family) ("\x7b\"state\":\"migrating\"\x7d".toUTF8.toList) none
    let indices ← listChunkIndices (areaFront s.family .legacyChunks)
    let migrated ← StoreM.collect migrateChunk indices
    putBytes (liveMetaKey s.family)
      (metaJson ⟨metaVersion, s.capacity, s.chunkSize, s.blockSize, s.compression, .cow⟩) none
    StoreM.modify fun s => { s with storage := .cow }
    let _ ← (deleteObjectKey (flatMetaKey s.family)).attempt
    let _ ← (deleteObjectKey (migratingKey s.family)).attempt
    pure ⟨migrated.count true, migrated.count true, migrateNote⟩

def S3ChunkStore.initial (cfg : S3StoreConfig) : S3ChunkStore where
  family := trimSlashes cfg.family
  blockSize := cfg.blockSize
  chunkSize := cfg.chunkSize
  compression := cfg.compression
  storage := cfg.storage
  capacity := cfg.capacity
  volume := cfg.volume

/-- `open`, run from `S3ChunkStore.initial cfg`: an interrupted migration is finished first. -/
def openVolume (cfg : S3StoreConfig) : VolM Unit := do
  let (mode, existing) ← probeLayout cfg.storage
  StoreM.modify fun s => { s with storage := mode }
  let effective ← resolveMeta cfg.capacity existing
  StoreM.modify fun s => { s with capacity := effective }
  if mode = .legacy then
    if ← hasMigrationMarker then
      let _ ← migrateToCow
      pure ()

end Programs

end IscsiS3.S3
