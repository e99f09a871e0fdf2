import Mathlib.Data.List.Sort
import IscsiS3.Calls
import IscsiS3.WriteCache.Directory
import IscsiS3.WriteCache.State

/-! `WriteCachedStore`, call by call. The background worker acts in complete steps between two calls
and while an eviction waits for room; what it does meanwhile is an argument of the call, and a call
that would wait longer than that ends in `waits`. The inner store is any block store. A chunk file
can always be written; that it can be removed is a matter of the state. -/

namespace IscsiS3

open Request Splice WriteCache

inductive WriteCacheMode where
  | none
  | memory
  | disk
  deriving DecidableEq, Repr

structure Buffer where
  maxBytes : Nat
  state : BufState Bytes

/-- The store, with the chunk files of disk mode, what the file system says where it does not let
one be removed, and the time that `Instant::now` tells. -/
structure WriteCachedStore (S : Type) where
  inner : S
  mode : WriteCacheMode
  files : AList fun _ : Nat => Bytes
  stuck : Nat → Option String
  dirty : DirtyState Bytes
  cacheMax : Nat
  buffer : Option Buffer
  ctl : Ctl
  clock : Nat

/-- A complete step of the worker: `handoff_quiet` after some time, or `next_job` with
`finish_put`. -/
inductive Turn where
  | handoff (elapsed : Nat)
  | put
  deriving DecidableEq, Repr

namespace WriteCachedStore

variable {Req : Type} {Reply : Req → Type} {S : Type}

def withInner (s : WriteCachedStore S) (inner : S) : WriteCachedStore S := { s with inner := inner }

def withCtl (s : WriteCachedStore S) (f : Ctl → Ctl) : WriteCachedStore S :=
  { s with ctl := f s.ctl }

def onInner {α : Type} (m : StoreM Reply S α) : StoreM Reply (WriteCachedStore S) α :=
  m.within inner withInner

def bufGet (s : WriteCachedStore S) (idx : Nat) : Option Bytes :=
  s.buffer.bind fun b => b.state.get idx

def lookup (s : WriteCachedStore S) (idx : Nat) : Option Bytes :=
  (s.dirty.get idx).or (s.bufGet idx)

def insertDirty (s : WriteCachedStore S) (idx : Nat) (chunk : Bytes) : WriteCachedStore S :=
  { s with
    files := if s.mode = .disk then s.files.insert idx chunk else s.files
    dirty := s.dirty.insert idx chunk s.clock }

def withoutFile (s : WriteCachedStore S) (idx : Nat) : WriteCachedStore S :=
  if s.mode = .disk then { s with files := s.files.erase idx } else s

/-- What `remove_file` returns, if it fails. -/
def refusal (s : WriteCachedStore S) (idx : Nat) : Option String :=
  if s.mode = .disk then (s.stuck idx).map fun e => "remove write-cache " ++ e else none

def removeFile (idx : Nat) : StoreM Reply (WriteCachedStore S) Unit := do
  let s ← StoreM.get
  match s.refusal idx with
  | none => StoreM.modify fun s => s.withoutFile idx
  | some e => StoreM.throw (.other e)

/-- The file of a chunk that has been put goes, unless the chunk is dirty again. -/
def removeCleanFile (idx : Nat) : StoreM Reply (WriteCachedStore S) Unit := do
  let s ← StoreM.get
  if s.dirty.get idx = none then removeFile idx else pure ()

def removeDirty (s : WriteCachedStore S) (idx : Nat) : WriteCachedStore S :=
  { s with dirty := s.dirty.remove idx }

def withBuf (s : WriteCachedStore S) (f : BufState Bytes → BufState Bytes) : WriteCachedStore S :=
  { s with buffer := s.buffer.map fun b => { b with state := f b.state } }

def jobs (s : WriteCachedStore S) : List (Job Bytes) := allJobs s.dirty (s.buffer.map Buffer.state)

/-- `take_all_jobs` leaves both maps empty. -/
def drained (s : WriteCachedStore S) : WriteCachedStore S :=
  ({ s with dirty := s.dirty.drained } : WriteCachedStore S).withBuf BufState.clear

/-- The section of `evict_into_buffer` and `handoff_quiet` that moves chunk `idx`. -/
def handedOff (s : WriteCachedStore S) (idx : Nat) : Option (WriteCachedStore S) :=
  match s.buffer with
  | none => none
  | some b => (handOff b.maxBytes idx s.dirty b.state).map fun maps =>
      { s with dirty := maps.1, buffer := some { b with state := maps.2 } }

variable [BlockStore Reply S]

def readFullChunk (idx : Nat) : StoreM Reply S Bytes := do
  let store ← StoreM.get
  let chunkSize := BlockStore.chunkSize Reply store
  let offset := saturatingMul idx chunkSize
  let capacity := BlockStore.capacity Reply store
  if capacity ≤ offset then StoreM.throw (.outOfRange offset chunkSize capacity)
  else
    let bytes ← BlockStore.readAt offset (min (capacity - offset) chunkSize)
    pure (splice (zeros chunkSize) 0 bytes)

/-- `write_inner`: the part of the chunk below the capacity. -/
def writeInner (idx : Nat) (data : Bytes) : StoreM Reply S Unit := do
  let store ← StoreM.get
  let chunkSize := BlockStore.chunkSize Reply store
  let capacity := BlockStore.capacity Reply store
  let offset := saturatingMul idx chunkSize
  if offset < capacity then
    BlockStore.writeAt offset (data.take (min (capacity - offset) data.length))
  else pure ()

def loadForWrite (idx : Nat) : StoreM Reply (WriteCachedStore S) Bytes := do
  let s ← StoreM.get
  match s.lookup idx with
  | some data => pure data
  | none => onInner (readFullChunk idx)

/-- `evict_direct`, whose turns each take a chunk out of the dirty map. -/
def evictDirectLoop : (turns : Nat) → StoreM Reply (WriteCachedStore S) Unit
  | 0 => pure ()
  | turns + 1 => do
    let s ← StoreM.get
    if s.dirty.usedBytes ≤ s.cacheMax then pure ()
    else match s.dirty.oldest with
      | none => pure ()
      | some idx => match s.dirty.get idx with
        | none => evictDirectLoop turns
        | some data => do
          onInner (writeInner idx data)
          StoreM.modify fun s => s.removeDirty idx
          removeFile idx
          evictDirectLoop turns

def evictDirect : StoreM Reply (WriteCachedStore S) Unit := do
  let s ← StoreM.get
  if s.cacheMax = 0 ∨ s.mode = .none then pure ()
  else evictDirectLoop s.dirty.chunks.entries.length

def handoffQuiet (s : WriteCachedStore S) : WriteCachedStore S :=
  match s.buffer, s.dirty.oldestQuiet s.clock with
  | some _, some idx => (s.handedOff idx).getD s
  | _, _ => s

/-- `finish_put`: a failed put keeps the chunk. -/
def finishPut (job : Job Bytes) : StoreM Reply (WriteCachedStore S) Unit := do
  let result ← (onInner (writeInner job.idx job.data)).attempt
  StoreM.modify fun s => s.withBuf fun b => b.finishPut job result.toBool
  if result.toBool then removeCleanFile job.idx else pure ()
  StoreM.lift result

/-- One complete step of `run_worker`, which does nothing while it is paused; a failed put is only
logged. -/
def workerTurn : Turn → StoreM Reply (WriteCachedStore S) Unit
  | .handoff elapsed => do
    let s ← StoreM.get
    if s.ctl.stop ∨ s.ctl.pause then pure ()
    else StoreM.modify fun s =>
      ({ s with clock := s.clock + elapsed, ctl := { s.ctl with parked := false } } :
        WriteCachedStore S).handoffQuiet
  | .put => do
    let s ← StoreM.get
    if s.ctl.stop ∨ s.ctl.pause then pure ()
    else do
      StoreM.modify fun s => s.withCtl fun ctl => { ctl with parked := false }
      match s.buffer.bind fun b => b.state.nextJob with
      | none => pure ()
      | some (job, buf) => do
        StoreM.modify fun s => s.withBuf fun _ => buf
        let _ ← (finishPut job).attempt
        pure ()

def workerTurns : List Turn → StoreM Reply (WriteCachedStore S) Unit := StoreM.each workerTurn

/-- A turn of the loop of `evict_into_buffer`: the state to go on in, unless the loop is over. -/
def evictTurn (s : WriteCachedStore S) : Option (WriteCachedStore S) :=
  if s.dirty.usedBytes ≤ s.cacheMax then none
  else match s.dirty.oldest with
    | none => none
    | some idx => match s.handedOff idx with
      | some moved => some moved
      | none => if s.ctl.stop then none else some s

/-- `evict_into_buffer`, where `turns` is what the worker does after each turn of the loop. -/
def evictIntoBufferLoop : (turns : List (List Turn)) → StoreM Reply (WriteCachedStore S) Unit
  | [] => do
    let s ← StoreM.get
    match s.evictTurn with
    | none => pure ()
    | some moved => do
      StoreM.modify fun _ => moved
      StoreM.done .waits
  | turn :: rest => do
    let s ← StoreM.get
    match s.evictTurn with
    | none => pure ()
    | some moved => do
      StoreM.modify fun _ => moved
      workerTurns turn
      evictIntoBufferLoop rest

def evict (turns : List (List Turn)) : StoreM Reply (WriteCachedStore S) Unit := do
  let s ← StoreM.get
  if s.buffer.isSome then
    if s.cacheMax = 0 then pure () else evictIntoBufferLoop turns
  else evictDirect

/-- `with_exclusive`, which clears its flag also when `f` fails. -/
def withExclusive (f : StoreM Reply (WriteCachedStore S) Unit) :
    StoreM Reply (WriteCachedStore S) Unit := do
  StoreM.modify fun s => s.withCtl fun ctl => { ctl with exclusive := true }
  let s ← StoreM.get
  if s.ctl.writers ≠ 0 then StoreM.done .waits
  else do
    let result ← f.attempt
    StoreM.modify fun s => s.withCtl fun ctl => { ctl with exclusive := false }
    StoreM.lift result

/-- `pause_worker`; the worker is between two of its steps, and so it parks. -/
def pauseWorker (s : WriteCachedStore S) : WriteCachedStore S :=
  if s.buffer.isNone then s
  else s.withCtl fun ctl => { ctl with pause := true, parked := true, putting := false }

def resumeWorker (s : WriteCachedStore S) : WriteCachedStore S :=
  s.withCtl fun ctl => { ctl with pause := false }

def writeSnapshot (job : Job Bytes) : StoreM Reply (WriteCachedStore S) Unit := do
  onInner (writeInner job.idx job.data)
  removeCleanFile job.idx

def takeAllJobs : StoreM Reply (WriteCachedStore S) (List (Job Bytes)) := do
  let s ← StoreM.get
  StoreM.modify drained
  pure s.jobs

/-- The body of `flush`: an error of a put or of the removal of a file returns at once. -/
def flushJobs : StoreM Reply (WriteCachedStore S) Unit := do
  StoreM.modify pauseWorker
  let jobs ← takeAllJobs
  StoreM.each writeSnapshot jobs
  StoreM.modify resumeWorker

def readPiece (p : Piece) : StoreM Reply (WriteCachedStore S) Bytes := do
  let s ← StoreM.get
  match s.lookup p.idx with
  | some chunk => pure (slice chunk p.within p.take)
  | none => onInner (BlockStore.readAt
      (p.idx * BlockStore.chunkSize Reply s.inner + p.within) p.take)

def readAt (offset len : Nat) : StoreM Reply (WriteCachedStore S) Bytes := do
  let s ← StoreM.get
  if s.mode = .none then onInner (BlockStore.readAt offset len)
  else do
    StoreM.lift (checkRange (BlockStore.capacity Reply s.inner) offset len)
    let parts ← StoreM.collect readPiece (pieces (BlockStore.chunkSize Reply s.inner) offset len)
    pure parts.flatten

def writePiece (offset : Nat) (data : Bytes) (p : Piece) :
    StoreM Reply (WriteCachedStore S) Unit := do
  let s ← StoreM.get
  let chunk ← loadForWrite p.idx
  let done := p.idx * BlockStore.chunkSize Reply s.inner + p.within - offset
  let chunk := splice chunk p.within (slice data done p.take)
  StoreM.modify fun s => s.insertDirty p.idx chunk

def writeHeld (turns : List (List Turn)) (offset : Nat) (data : Bytes) :
    StoreM Reply (WriteCachedStore S) Unit := do
  let s ← StoreM.get
  StoreM.lift (checkRange (BlockStore.capacity Reply s.inner) offset data.length)
  StoreM.each (writePiece offset data)
    (pieces (BlockStore.chunkSize Reply s.inner) offset data.length)
  evict turns

def writeAt (turns : List (List Turn)) (offset : Nat) (data : Bytes) :
    StoreM Reply (WriteCachedStore S) Unit := do
  let s ← StoreM.get
  if s.mode = .none then onInner (BlockStore.writeAt offset data)
  else if s.ctl.exclusive then StoreM.done .waits
  else do
    StoreM.modify fun s => s.withCtl fun ctl => { ctl with writers := ctl.writers + 1 }
    let result ← (writeHeld turns offset data).attempt
    StoreM.modify fun s => s.withCtl fun ctl => { ctl with writers := ctl.writers - 1 }
    StoreM.lift result

def flush : StoreM Reply (WriteCachedStore S) Unit := do
  let s ← StoreM.get
  if s.mode = .none then onInner BlockStore.flush
  else do
    withExclusive flushJobs
    onInner BlockStore.flush

def setCapacity (newCapacity : Nat) : StoreM Reply (WriteCachedStore S) Unit := do
  flush
  onInner (BlockStore.setCapacity newCapacity)

/-- `keys` pushed behind `idxs`, each unless it is there already. -/
def pushMissing (idxs keys : List Nat) : List Nat :=
  keys.foldl (fun idxs idx => if idx ∈ idxs then idxs else idxs ++ [idx]) idxs

def presentChunks : StoreM Reply (WriteCachedStore S) (List Nat) := do
  let idxs ← onInner BlockStore.presentChunks
  let s ← StoreM.get
  if s.mode = .none then pure idxs
  else
    let idxs := pushMissing idxs s.dirty.chunks.keys
    let idxs := match s.buffer with
      | none => idxs
      | some b => pushMissing idxs b.state.chunks.keys
    pure (idxs.insertionSort (· ≤ ·))

/-- `remove_cached`, which waits for a put of the chunk that is in flight. -/
def removeCached (idx : Nat) : StoreM Reply (WriteCachedStore S) Unit := do
  let s ← StoreM.get
  if (s.buffer.bind fun b => b.state.inflight) = some idx then StoreM.done .waits
  else StoreM.modify fun s => (s.removeDirty idx).withBuf fun b => b.remove idx

def deleteChunk (idx : Nat) : StoreM Reply (WriteCachedStore S) Unit := do
  let s ← StoreM.get
  if s.mode ≠ .none then do
    removeCached idx
    removeFile idx
  onInner (BlockStore.deleteChunk idx)

/-- `discard_dirty`: what is dirty or queued goes without a put. -/
def discardDirty : StoreM Reply (WriteCachedStore S) Unit := do
  let s ← StoreM.get
  if s.mode = .none then pure ()
  else withExclusive do
    StoreM.modify pauseWorker
    let jobs ← takeAllJobs
    StoreM.each (fun job => removeFile job.idx) jobs
    StoreM.modify resumeWorker

/-- The state that `wrap` builds; `recovered` is what `load_disk_cache` returned in disk mode.  A
buffer is there only in memory and disk mode. -/
def opened (inner : S) (mode : WriteCacheMode) (cacheMax bufferMax : Nat)
    (recovered : AList fun _ : Nat => Bytes) : WriteCachedStore S where
  inner := inner
  mode := mode
  files := recovered
  stuck := fun _ => none
  dirty := .fromRecovered (recovered.entries.map fun e => (e.1, e.2)) 0
  cacheMax := cacheMax
  buffer := if 0 < bufferMax ∧ mode ≠ .none then some ⟨bufferMax, .new⟩ else none
  ctl := .new
  clock := 0

/-- `wrap` ends with the eviction of what is over the budget. -/
def wrap (turns : List (List Turn)) : StoreM Reply (WriteCachedStore S) Unit := evict turns

end WriteCachedStore

namespace WriteCache

open WriteCachedStore

theorem mem_pushMissing (idxs keys : List Nat) (i : Nat) :
    i ∈ pushMissing idxs keys ↔ i ∈ idxs ∨ i ∈ keys := by
  unfold pushMissing
  induction keys generalizing idxs with
  | nil => simp
  | cons key keys ih =>
    rw [List.foldl_cons, ih, List.mem_cons]
    split
    · rename_i hmem
      refine ⟨fun h => h.imp id Or.inr, fun h => ?_⟩
      rcases h with h | rfl | h
      · exact .inl h
      · exact .inl hmem
      · exact .inr h
    · rw [List.mem_append, List.mem_singleton, or_assoc]

theorem pushMissing_nodup {idxs : List Nat} (keys : List Nat) (h : idxs.Nodup) :
    (pushMissing idxs keys).Nodup := by
  unfold pushMissing
  induction keys generalizing idxs with
  | nil => exact h
  | cons key keys ih =>
    rw [List.foldl_cons]
    split
    · exact ih h
    · rename_i hnot
      exact ih (List.nodup_append.mpr ⟨h, List.nodup_singleton _, fun a ha b hb => by
        rintro rfl
        exact hnot (List.mem_singleton.mp hb ▸ ha)⟩)

theorem ascending_insertionSort {idxs : List Nat} (h : idxs.Nodup) :
    (idxs.insertionSort (· ≤ ·)).Pairwise (· < ·) := by
  have hsorted := List.pairwise_insertionSort (· ≤ ·) idxs
  have hdistinct : (idxs.insertionSort (· ≤ ·)).Nodup :=
    ((List.perm_insertionSort (· ≤ ·) idxs).nodup_iff).mpr h
  exact hsorted.imp₂ (fun _ _ hle hne => Nat.lt_of_le_of_ne hle hne) hdistinct

end WriteCache

end IscsiS3
