import IscsiS3.Admin.Store

/-! The operations of the admin socket on the volumes of a daemon, which share the pool of the read
cache. Of what an operation reports only the error is modelled; the number of sessions of a volume
is an argument. -/

namespace IscsiS3.Admin

open S3

variable [External] {V α : Type} [DecidableEq V] {v : V}

abbrev VolumeStore : Type := Scheduled (CachedStore S3ChunkStore)

namespace VolumeStore

def cached (s : VolumeStore) : CachedStore S3ChunkStore := s.store.inner

def s3 (s : VolumeStore) : S3ChunkStore := s.cached.inner

def withCached (s : VolumeStore) (inner : CachedStore S3ChunkStore) : VolumeStore :=
  s.withStore (s.store.withInner inner)

def withCache (s : VolumeStore) (cache : ChunkCache) : VolumeStore :=
  s.withCached (s.cached.withCache cache)

/-- A call of the volume in S3, past both caches and the lock. -/
def onS3 (m : VolM α) : StoreM Reply VolumeStore α :=
  m.within s3 fun s inner => s.withCached (s.cached.withInner inner)

def flush : StoreM Reply VolumeStore Unit := Scheduled.onStore WriteCachedStore.flush

def discardDirty : StoreM Reply VolumeStore Unit := Scheduled.onStore WriteCachedStore.discardDirty

/-- `lock_io`: a failed flush is only logged. -/
def lockIo : StoreM Reply VolumeStore Unit := do
  let _ ← flush.attempt
  StoreM.modify fun s => s.withCached s.cached.lockIo

def unlockIo : StoreM Reply VolumeStore Unit :=
  StoreM.modify fun s => s.withCached s.cached.unlockIo

def invalidateVolume : StoreM Reply VolumeStore Unit :=
  StoreM.modify fun s => s.withCache (s.cached.cache.invalidateVolume s.cached.volume)

end VolumeStore

structure AdminState (V : Type) where
  cache : ChunkCache
  volumeStores : V → VolumeStore

def storeOf (v : V) : View (AdminState V) VolumeStore where
  get st := (st.volumeStores v).withCache st.cache
  set st s := ⟨s.cached.cache, Function.update st.volumeStores v s⟩

omit [External] in
theorem storeOf_set (st : AdminState V) (s : VolumeStore) :
    ((storeOf v).set st s).volumeStores v = s := Function.update_self ..

omit [External] in
theorem storeOf_get_set (st : AdminState V) (s : VolumeStore) :
    (storeOf v).get ((storeOf v).set st s) = s := by
  change (((storeOf v).set st s).volumeStores v).withCache _ = s
  rw [storeOf_set]
  rfl

def onVolume (v : V) (m : StoreM Reply VolumeStore α) : StoreM Reply (AdminState V) α :=
  (storeOf v).on m

def onS3 (v : V) (m : VolM α) : StoreM Reply (AdminState V) α :=
  mapErr "" (onVolume v (VolumeStore.onS3 m)) ""

def onCache (f : ChunkCache → ChunkCache) : StoreM Reply (AdminState V) Unit :=
  StoreM.modify fun st => { st with cache := f st.cache }

def cacheDisable : StoreM Reply (AdminState V) Unit := onCache ChunkCache.disable

def cacheEnable (maxBytes : Option Nat) : StoreM Reply (AdminState V) Unit :=
  onCache fun c => c.enable maxBytes

def cacheSet (maxBytes : Nat) : StoreM Reply (AdminState V) Unit :=
  if maxBytes = 0 then cacheDisable else cacheEnable (some maxBytes)

def volumeCopy (source dest : V) (resumeFrom : Option Nat) : StoreM Reply (AdminState V) Unit :=
  if source = dest then StoreM.throw (.other "source and destination must be different volumes")
  else do
    let _ ← copyVolume (storeOf source) (storeOf dest) resumeFrom
    pure ()

def volumeExport (v : V) (writer : Writer) (size : Option Nat) :
    StoreM Reply (AdminState V) Bytes := do
  let st ← StoreM.get
  let capacity := BlockStore.capacity Reply ((storeOf v).get st)
  let size := size.getD capacity
  if size = 0 then StoreM.throw (.other "size must be greater than 0")
  else if capacity < size then
    StoreM.throw (.other ("export size " ++ toString size ++ " exceeds volume capacity " ++
      toString capacity))
  else do
    let (bytes, _) ← exportImageToWriter (storeOf v) writer size
    pure bytes

/-- The lock is released also when the wipe fails. -/
def volumeWipe (v : V) : StoreM Reply (AdminState V) Unit := do
  mapErr "discard write cache: " (onVolume v VolumeStore.discardDirty) ""
  onVolume v VolumeStore.lockIo
  let result ← StoreM.attempt do
    let _ ← wipeVolume (storeOf v)
    let _ ← onS3 v wipeObjectsAndSnapshots
    pure ()
  onVolume v VolumeStore.unlockIo
  StoreM.lift result

/-- The lock is released also when the collection fails. -/
def volumeGc (v : V) : StoreM Reply (AdminState V) Unit := do
  onVolume v VolumeStore.lockIo
  let gc ← (onS3 v gcUnreferencedObjects).attempt
  onVolume v VolumeStore.unlockIo
  let _ ← StoreM.lift gc
  pure ()

def volumeGrow (v : V) (newCapacity : Nat) : StoreM Reply (AdminState V) Unit := do
  if newCapacity = 0 then StoreM.throw (.other "capacity must be greater than 0")
  else do
    let st ← StoreM.get
    let oldCapacity := BlockStore.capacity Reply ((storeOf v).get st)
    if newCapacity < oldCapacity then
      StoreM.throw (.other ("cannot shrink capacity from " ++ toString oldCapacity ++ " to " ++
        toString newCapacity))
    else if newCapacity = oldCapacity then pure ()
    else mapErr "" ((storeOf v).on (BlockStore.setCapacity newCapacity)) ""

def requireQuiesced (volume : Str) (sessions : Nat) (force : Bool) :
    StoreM Reply (AdminState V) Unit :=
  if force ∨ sessions = 0 then pure ()
  else StoreM.throw (.other ("volume " ++ String.ofList volume ++ " has " ++ toString sessions ++
    " active FullFeature session(s); disconnect first or pass force=true for crash-consistent " ++
    "best-effort"))

def requireId (id : Option Str) : StoreM Reply (AdminState V) Str :=
  match id with
  | some id => pure id
  | none => StoreM.throw (.other "snapshot id is required")

def nameOf (v : V) (st : AdminState V) : Str := (st.volumeStores v).cached.volume

def volumeSnapshotCreate (v : V) (sessions : Nat) (force : Bool) (now : Nat)
    (id name : Option Str) : StoreM Reply (AdminState V) Unit := do
  let st ← StoreM.get
  requireQuiesced (nameOf v st) sessions force
  let id := (id.or name).getD ("snap-" ++ toString now).toList
  mapErr "flush write cache: " (onVolume v VolumeStore.flush) ""
  onVolume v VolumeStore.invalidateVolume
  let _ ← onS3 v (snapshotCreate now id (nameOf v st))
  pure ()

def volumeSnapshotList (v : V) : StoreM Reply (AdminState V) (List SnapshotManifest) :=
  onS3 v snapshotList

def volumeSnapshotDelete (v : V) (id : Option Str) : StoreM Reply (AdminState V) Unit := do
  let id ← requireId id
  let _ ← onS3 v (snapshotDelete id)
  pure ()

def volumeSnapshotRestore (v : V) (sessions : Nat) (force : Bool) (id : Option Str) :
    StoreM Reply (AdminState V) Unit := do
  let st ← StoreM.get
  requireQuiesced (nameOf v st) sessions force
  let id ← requireId id
  mapErr "discard write cache: " (onVolume v VolumeStore.discardDirty) ""
  onVolume v VolumeStore.invalidateVolume
  let _ ← onS3 v (snapshotRestore id)
  onVolume v VolumeStore.invalidateVolume

def bothS3 (source dest : V) : View (AdminState V) (S3ChunkStore × S3ChunkStore) where
  get st := ((st.volumeStores source).s3, (st.volumeStores dest).s3)
  set st p :=
    let put (v : V) (s : S3ChunkStore) (stores : V → VolumeStore) : V → VolumeStore :=
      Function.update stores v ((stores v).withCached ((stores v).cached.withInner s))
    { st with volumeStores := put dest p.2 (put source p.1 st.volumeStores) }

def volumeSnapshotClone (source dest : V) (id : Option Str) : StoreM Reply (AdminState V) Unit := do
  if source = dest then StoreM.throw (.other "clone source and destination must differ")
  else do
    let id ← requireId id
    mapErr "flush source write cache: " (onVolume source VolumeStore.flush) ""
    mapErr "discard dest write cache: " (onVolume dest VolumeStore.discardDirty) ""
    onVolume dest VolumeStore.invalidateVolume
    let _ ← mapErr "" ((bothS3 source dest).on (snapshotCloneInto id)) ""
    pure ()

/-- The first half of `volume_migrate_cow`: the volume is locked, with nothing left in its
caches. -/
def lockForMigration (v : V) (sessions : Nat) : StoreM Reply (AdminState V) Unit := do
  let st ← StoreM.get
  requireQuiesced (nameOf v st) sessions false
  if (st.volumeStores v).s3.storage ≠ .legacy then
    StoreM.throw (.other ("volume " ++ String.ofList (nameOf v st) ++ " is already storage=cow"))
  else do
    onVolume v VolumeStore.invalidateVolume
    onVolume v VolumeStore.lockIo

/-- The second half: the volume stays locked if the migration fails. -/
def migrateLocked (v : V) : StoreM Reply (AdminState V) Unit := do
  let _ ← mapErr "" (onVolume v (VolumeStore.onS3 migrateToCow))
    (" (volume remains I/O-locked; re-run migrate-cow to resume, or restart the daemon to " ++
      "auto-resume)")
  onVolume v VolumeStore.unlockIo

def volumeMigrateCow (v : V) (sessions : Nat) : StoreM Reply (AdminState V) Unit := do
  lockForMigration v sessions
  migrateLocked v

/-- What the admin socket, the initiators and the workers of the write caches do. -/
inductive Op (V : Type) where
  | cacheDisable
  | cacheEnable (maxBytes : Option Nat)
  | cacheSet (maxBytes : Nat)
  | copy (source dest : V) (resumeFrom : Option Nat)
  | exportImage (v : V) (writer : Writer) (size : Option Nat)
  | wipe (v : V)
  | gc (v : V)
  | grow (v : V) (newCapacity : Nat)
  | snapshotCreate (v : V) (sessions : Nat) (force : Bool) (now : Nat) (id name : Option Str)
  | snapshotList (v : V)
  | snapshotDelete (v : V) (id : Option Str)
  | snapshotRestore (v : V) (sessions : Nat) (force : Bool) (id : Option Str)
  | snapshotClone (source dest : V) (id : Option Str)
  | migrateCow (v : V) (sessions : Nat)
  | readAt (v : V) (offset len : Nat)
  | writeAt (v : V) (offset : Nat) (data : Bytes)
  | flush (v : V)
  | workerTurn (v : V) (turn : Turn)

def Op.prog : Op V → StoreM Reply (AdminState V) Unit
  | .cacheDisable => Admin.cacheDisable
  | .cacheEnable maxBytes => Admin.cacheEnable maxBytes
  | .cacheSet maxBytes => Admin.cacheSet maxBytes
  | .copy source dest resumeFrom => volumeCopy source dest resumeFrom
  | .exportImage v writer size => do
    let _ ← volumeExport v writer size
    pure ()
  | .wipe v => volumeWipe v
  | .gc v => volumeGc v
  | .grow v newCapacity => volumeGrow v newCapacity
  | .snapshotCreate v sessions force now id name => volumeSnapshotCreate v sessions
      force now id name
  | .snapshotList v => do
    let _ ← volumeSnapshotList v
    pure ()
  | .snapshotDelete v id => volumeSnapshotDelete v id
  | .snapshotRestore v sessions force id => volumeSnapshotRestore v sessions force id
  | .snapshotClone source dest id => volumeSnapshotClone source dest id
  | .migrateCow v sessions => volumeMigrateCow v sessions
  | .readAt v offset len => do
    let _ ← (storeOf v).on (BlockStore.readAt offset len)
    pure ()
  | .writeAt v offset data => (storeOf v).on (BlockStore.writeAt offset data)
  | .flush v => (storeOf v).on BlockStore.flush
  | .workerTurn v turn => onVolume v (Scheduled.onStore (WriteCachedStore.workerTurn turn))

end IscsiS3.Admin
