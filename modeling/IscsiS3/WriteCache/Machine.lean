import Mathlib.Data.Finset.Card
import IscsiS3.Lib.Threads
import IscsiS3.WriteCache.State

/-! The write-back cache as threads that share its state: callers of `write_at`, `read_at` and
`flush`, and the background worker. Every section that the source runs under a lock, every call of
the inner store and every file operation is one step. Chunk contents carry the number of the write
that made them; the numbers and the fields under `History` are not in the source, and no step reads
them to decide what it does. -/

namespace IscsiS3.WriteCache

open Splice

/-- Chunk data with its version: version `0` is the chunk at the start, and each insert into the
dirty map makes the next one. -/
structure Copy where
  data : Bytes
  ver : Nat
  deriving DecidableEq, Repr

instance : Payload Copy := ⟨fun c => c.data.length⟩

/-- The settings of a store in memory or disk mode; without a write buffer `bufferMax` is `none`. -/
structure Params where
  chunkSize : Nat
  capacity : Nat
  cacheMax : Nat
  disk : Bool
  bufferMax : Option Nat
  chunkSize_pos : 0 < chunkSize
  capacity_lt : capacity < u64Size

def Params.valid (P : Params) (i : Nat) : Nat := min (P.capacity - i * P.chunkSize) P.chunkSize

inductive WriterPc where
  | begin
  | lookDirty (p : Patch) (todo : List Patch)
  | lookBuf (p : Patch) (todo : List Patch)
  | readInner (p : Patch) (todo : List Patch)
  | lockFile (p : Patch) (chunk : Bytes) (todo : List Patch)
  | writeTmp (p : Patch) (chunk : Bytes) (todo : List Patch)
  | rename (p : Patch) (chunk : Bytes) (todo : List Patch)
  | insert (p : Patch) (chunk : Bytes) (todo : List Patch)
  | unlockFile (todo : List Patch)
  | evict
  | copyVictim (idx : Nat)
  | putVictim (idx : Nat) (c : Copy)
  | lockVictim (idx : Nat) (c : Copy)
  | dropVictim (idx : Nat) (c : Copy)
  | removeVictimFile (idx : Nat) (c : Copy)
  | unlockVictim
  | leave (ok : Bool)

/-- A `write_at` in progress.  `begun` is the newest version of every chunk when it was called and
`made` the version that it has made of each chunk so far. -/
structure Writer where
  pc : WriterPc
  offset : Nat
  data : Bytes
  begun : Nat → Nat
  made : Nat → Nat

inductive ReaderPc where
  | lookDirty (p : Piece) (todo : List Piece)
  | lookBuf (p : Piece) (todo : List Piece)
  | readInner (p : Piece) (todo : List Piece)
  | done

/-- A `read_at` with the bytes of the pieces that it has copied.  `begun` is the newest and `acks`
the newest acknowledged version of every chunk when it was called. -/
structure Reader where
  pc : ReaderPc
  offset : Nat
  len : Nat
  got : List (Piece × Bytes)
  begun : Nat → Nat
  acks : Nat → Nat

inductive FlushPc where
  | enter
  | waitWriters
  | pause
  | waitParked
  | drain
  | put (jobs : List (Job Copy))
  | lockFile (idx : Nat) (jobs : List (Job Copy))
  | check (idx : Nat) (jobs : List (Job Copy))
  | removeFile (idx : Nat) (jobs : List (Job Copy))
  | unlockFile (jobs : List (Job Copy))
  | resume
  | leave (ok : Bool)
  | done (ok : Bool)

structure Flusher where
  pc : FlushPc
  acks : Nat → Nat

inductive WorkerPc where
  | top
  | parked
  | next
  | abort (job : Job Copy)
  | clearInflight (idx : Nat)
  | setPutting (job : Job Copy)
  | put (job : Job Copy)
  | lockFile (job : Job Copy) (ok : Bool)
  | finish (job : Job Copy) (ok : Bool)
  | check (idx : Nat) (ok : Bool)
  | removeFile (idx : Nat)
  | unlockFile
  | unsetPutting
  | handoff
  | wait
  | exited

inductive Thread where
  | idle
  | writer (w : Writer)
  | reader (r : Reader)
  | flusher (f : Flusher)
  | worker (pc : WorkerPc)

structure Shared where
  dirty : DirtyState Copy
  buf : BufState Copy
  ctl : Ctl
  fileLock : Option Nat
  tmp : Nat → Option Copy
  file : Nat → Option Copy
  inner : Nat → Copy
  /-- History: the contents of every version of a chunk. -/
  hist : Nat → List Bytes
  /-- History: the newest version of a chunk that an acknowledged write made. -/
  acked : Nat → Nat
  /-- History: what a flush has drained and not put yet. -/
  pending : Nat → Option Copy
  /-- History: the threads between `begin_write` and the drop of their hold. -/
  holders : Finset Nat
  /-- History: the thread in the exclusive section. -/
  flushing : Option Nat

namespace Shared

variable (P : Params) (s : Shared)

def fresh (i : Nat) : Nat := (s.hist i).length

def newest (i : Nat) : Nat := s.fresh i - 1

def bufGet (i : Nat) : Option Copy := if P.bufferMax.isSome then s.buf.get i else none

def fullChunk (i : Nat) : Bytes :=
  (s.inner i).data ++ zeros (P.chunkSize - (s.inner i).data.length)

/-- `begin_write`, when no thread is in the exclusive section. -/
def beginWrite (t : Nat) : Shared :=
  { s with
    ctl := { s.ctl with writers := s.ctl.writers + 1 }
    holders := insert t s.holders }

/-- The drop of the `WriteHold`, after the versions in `made` are acknowledged. -/
def retire (t : Nat) (made : Nat → Nat) : Shared :=
  { s with
    ctl := { s.ctl with writers := s.ctl.writers - 1 }
    holders := s.holders.erase t
    acked := fun i => max (s.acked i) (made i) }

def lock (t : Nat) : Shared := { s with fileLock := some t }

def unlock : Shared := { s with fileLock := none }

/-- `write_chunk_file` up to the rename. -/
def writeTmp (i : Nat) (chunk : Bytes) : Shared :=
  { s with tmp := Function.update s.tmp i (some ⟨chunk, s.fresh i⟩) }

def rename (i : Nat) : Shared :=
  { s with
    file := Function.update s.file i (s.tmp i)
    tmp := Function.update s.tmp i none }

def removeFile (i : Nat) : Shared :=
  if P.disk then { s with file := Function.update s.file i none } else s

/-- The insert into the dirty map, at the instant `now`. -/
def insertDirty (i : Nat) (chunk : Bytes) (now : Nat) : Shared :=
  { s with
    dirty := s.dirty.insert i ⟨chunk, s.fresh i⟩ now
    hist := Function.update s.hist i (s.hist i ++ [chunk.take (P.valid i)]) }

def removeDirty (i : Nat) : Shared := { s with dirty := s.dirty.remove i }

def withMaps (maps : DirtyState Copy × BufState Copy) : Shared :=
  { s with dirty := maps.1, buf := maps.2 }

def withBuf (buf : BufState Copy) : Shared := { s with buf := buf }

/-- `write_inner` of a call that succeeds: the part of the chunk below the capacity is written,
which is nothing at all when the chunk starts above it. -/
def putInner (i : Nat) (c : Copy) : Shared :=
  let offset := saturatingMul i P.chunkSize
  let bytes := if offset < P.capacity then
      c.data.take (min (P.capacity - offset) c.data.length)
    else []
  { s with inner := Function.update s.inner i ⟨splice (s.inner i).data 0 bytes, c.ver⟩ }

def enter (t : Nat) : Shared :=
  { s with ctl := { s.ctl with exclusive := true }, flushing := some t }

def leave : Shared :=
  { s with ctl := { s.ctl with exclusive := false }, flushing := none }

def setPause (pause : Bool) : Shared := { s with ctl := { s.ctl with pause := pause } }

def setPutting (putting : Bool) : Shared := { s with ctl := { s.ctl with putting := putting } }

def park : Shared := { s with ctl := { s.ctl with parked := true, putting := false } }

def unpark : Shared := { s with ctl := { s.ctl with parked := false } }

def jobs : List (Job Copy) := allJobs s.dirty (if P.bufferMax.isSome then some s.buf else none)

def drain (jobs : List (Job Copy)) : Shared :=
  { s with
    dirty := s.dirty.drained
    buf := s.buf.clear
    pending := fun i => ((jobs.find? fun j => j.idx = i).map Job.data).or (s.pending i) }

def settle (i : Nat) : Shared := { s with pending := Function.update s.pending i none }

end Shared

inductive Call where
  | write (offset : Nat) (data : Bytes)
  | read (offset len : Nat)
  | flush
  deriving DecidableEq

/-- What the schedule decides in one step: the call that a free thread makes, whether a put of the
inner store succeeds, the time, which of the oldest chunks a map's iteration finds first, and the
order of a drained map. -/
structure Choice where
  call : Call := .flush
  ok : Bool := true
  now : Nat := 0
  victim : Nat := 0
  jobs : List (Job Copy) := []

/-- `i` has the least key among the entries that pass the filter. -/
def DirtyState.isLeast (d : DirtyState Copy) (key : DirtyChunk Copy → Nat)
    (passes : DirtyChunk Copy → Bool) (i : Nat) : Bool :=
  match d.chunks.lookup i with
  | none => false
  | some c => passes c && d.chunks.entries.all fun e => !passes e.2 || key c ≤ key e.2

/-- `i` is a possible result of `oldest`. -/
def DirtyState.isOldest (d : DirtyState Copy) (i : Nat) : Bool :=
  d.isLeast DirtyChunk.tick (fun _ => true) i

/-- `i` is a possible result of `oldest_quiet` at the instant `now`. -/
def DirtyState.isOldestQuiet (d : DirtyState Copy) (now i : Nat) : Bool :=
  d.isLeast DirtyChunk.writtenAt (fun c => quiet ≤ now - c.writtenAt) i

/-- The next turn of the loop of `write_at`, which ends with the eviction. -/
def WriterPc.advance : List Patch → WriterPc
  | [] => .evict
  | p :: todo => .lookDirty p todo

def ReaderPc.advance : List Piece → ReaderPc
  | [] => .done
  | p :: todo => .lookDirty p todo

section Steps

variable (P : Params) (t : Nat) (c : Choice) (s : Shared)

def evictStep : Option (Shared × WriterPc) :=
  if P.cacheMax = 0 ∨ s.dirty.usedBytes ≤ P.cacheMax ∨ s.dirty.chunks.entries = [] then
    some (s, .leave true)
  else if s.dirty.isOldest c.victim then
    match P.bufferMax with
    | some max => match handOff max c.victim s.dirty s.buf with
      | some maps => some (s.withMaps maps, .evict)
      | none => if s.ctl.stop then some (s, .leave true) else some (s, .evict)
    | none => some (s, .copyVictim c.victim)
  else none

def writerStep (w : Writer) : Option (Shared × Writer) :=
  let go (s : Shared) (pc : WriterPc) : Option (Shared × Writer) := some (s, { w with pc := pc })
  match w.pc with
  | .begin =>
    if s.ctl.exclusive then none
    else match checkRange P.capacity w.offset w.data.length with
      | .ok () => go (s.beginWrite t) (.advance (patches P.chunkSize w.offset w.data))
      | .error _ => go (s.beginWrite t) (.leave false)
  | .lookDirty p todo => match s.dirty.get p.idx with
    | some copy => go s (.lockFile p (p.apply copy.data) todo)
    | none => go s (.lookBuf p todo)
  | .lookBuf p todo => match s.bufGet P p.idx with
    | some copy => go s (.lockFile p (p.apply copy.data) todo)
    | none => go s (.readInner p todo)
  | .readInner p todo => go s (.lockFile p (p.apply (s.fullChunk P p.idx)) todo)
  | .lockFile p chunk todo =>
    if s.fileLock.isSome then none
    else go (s.lock t) (if P.disk then .writeTmp p chunk todo else .insert p chunk todo)
  | .writeTmp p chunk todo => go (s.writeTmp p.idx chunk) (.rename p chunk todo)
  | .rename p chunk todo => go (s.rename p.idx) (.insert p chunk todo)
  | .insert p chunk todo =>
    some (s.insertDirty P p.idx chunk c.now,
      { w with pc := .unlockFile todo, made := Function.update w.made p.idx (s.fresh p.idx) })
  | .unlockFile todo => go s.unlock (.advance todo)
  | .evict => (evictStep P c s).bind fun r => go r.1 r.2
  | .copyVictim i => match s.dirty.get i with
    | some copy => go s (.putVictim i copy)
    | none => go s .evict
  | .putVictim i copy =>
    if c.ok then go (s.putInner P i copy) (.lockVictim i copy) else go s (.leave false)
  | .lockVictim i copy =>
    if s.fileLock.isSome then none else go (s.lock t) (.dropVictim i copy)
  | .dropVictim i copy => go (s.removeDirty i) (.removeVictimFile i copy)
  | .removeVictimFile i _ => go (s.removeFile P i) .unlockVictim
  | .unlockVictim => go s.unlock .evict
  | .leave _ => none

def readerStep (r : Reader) : Option Reader :=
  let found (p : Piece) (todo : List Piece) (chunk : Bytes) : Option Reader :=
    some { r with pc := .advance todo, got := r.got ++ [(p, slice chunk p.within p.take)] }
  match r.pc with
  | .lookDirty p todo => match s.dirty.get p.idx with
    | some copy => found p todo copy.data
    | none => some { r with pc := .lookBuf p todo }
  | .lookBuf p todo => match s.bufGet P p.idx with
    | some copy => found p todo copy.data
    | none => some { r with pc := .readInner p todo }
  | .readInner p todo => found p todo (s.inner p.idx).data
  | .done => none

def flushStep : FlushPc → Option (Shared × FlushPc)
  | .enter => some (s.enter t, .waitWriters)
  | .waitWriters => if s.ctl.writers = 0 then some (s, .pause) else none
  | .pause => if P.bufferMax.isSome then some (s.setPause true, .waitParked) else some (s, .drain)
  | .waitParked => if s.ctl.parked then some (s, .drain) else none
  | .drain => if c.jobs.isPerm (s.jobs P) then some (s.drain c.jobs, .put c.jobs) else none
  | .put [] => some (s, .resume)
  | .put (job :: rest) =>
    -- an error returns at once: the jobs that are left go, and the worker is not resumed
    if c.ok then some ((s.putInner P job.idx job.data).settle job.idx, .lockFile job.idx rest)
    else some (s, .leave false)
  | .lockFile i rest => if s.fileLock.isSome then none else some (s.lock t, .check i rest)
  | .check i rest =>
    if (s.dirty.get i).isSome then some (s, .unlockFile rest) else some (s, .removeFile i rest)
  | .removeFile i rest => some (s.removeFile P i, .unlockFile rest)
  | .unlockFile rest => some (s.unlock, .put rest)
  | .resume => some (s.setPause false, .leave true)
  | .leave ok => some (s.leave, .done ok)
  | .done _ => none

def workerStep : WorkerPc → Option (Shared × WorkerPc)
  | .top =>
    if s.ctl.stop then some (s, .exited)
    else if s.ctl.pause then some (s.park, .parked)
    else some (s, .next)
  | .parked => if s.ctl.pause && !s.ctl.stop then none else some (s.unpark, .top)
  | .next => match s.buf.nextJob with
    | some (job, buf) => some (s.withBuf buf, .abort job)
    | none => some (s, .handoff)
  | .abort job =>
    if s.ctl.pause || s.ctl.stop then some (s, .clearInflight job.idx) else some
      (s, .setPutting job)
  | .clearInflight i => some (s.withBuf (s.buf.clearInflight i), .top)
  | .setPutting job => some (s.setPutting true, .put job)
  | .put job =>
    if c.ok then some (s.putInner P job.idx job.data, .lockFile job true)
    else some (s, .lockFile job false)
  | .lockFile job ok => if s.fileLock.isSome then none else some (s.lock t, .finish job ok)
  | .finish job ok => some (s.withBuf (s.buf.finishPut job ok), .check job.idx ok)
  | .check i ok =>
    if ok && (s.dirty.get i).isNone then some (s, .removeFile i) else some (s, .unlockFile)
  | .removeFile i => some (s.removeFile P i, .unlockFile)
  | .unlockFile => some (s.unlock, .unsetPutting)
  | .unsetPutting => some (s.setPutting false, .top)
  | .handoff =>
    if s.dirty.isOldestQuiet c.now c.victim then
      match handOff (P.bufferMax.getD 0) c.victim s.dirty s.buf with
      | some maps => some (s.withMaps maps, .top)
      | none => some (s, .wait)
    else if s.dirty.chunks.entries.all fun e => !(quiet ≤ c.now - e.2.writtenAt) then
      some (s, .wait)
    else none
  | .wait => some (s, .top)
  | .exited => none

def callStep : Option (Shared × Thread) :=
  match c.call with
  | .write offset data => some (s, .writer ⟨.begin, offset, data, s.newest, fun _ => 0⟩)
  | .read offset len => match checkRange P.capacity offset len with
    | .ok () =>
      some (s, .reader ⟨.advance (pieces P.chunkSize offset len), offset, len, [],
        s.newest, s.acked⟩)
    | .error _ => some (s, .idle)
  | .flush => some (s, .flusher ⟨.enter, s.acked⟩)

def threadStep : Thread → Option (Shared × Thread)
  | .idle => callStep P c s
  | .writer w => match w.pc with
    | .leave ok => some (s.retire t (if ok then w.made else fun _ => 0), .idle)
    | _ => (writerStep P t c s w).map fun r => (r.1, .writer r.2)
  | .reader r => match r.pc with
    | .done => callStep P c s
    | _ => (readerStep P s r).map fun r => (s, .reader r)
  | .flusher f => match f.pc with
    | .done _ => callStep P c s
    | pc => (flushStep P t c s pc).map fun r => (r.1, .flusher { f with pc := r.2 })
  | .worker pc => (workerStep P t c s pc).map fun r => (r.1, .worker r.2)

end Steps

abbrev State : Type := Threads.State Shared Thread Nat

def machine (P : Params) : Threads.Machine Shared Thread Nat Choice := ⟨threadStep P⟩

/-- What a store is opened on: the contents of the inner store, and in disk mode the chunks that the
cache directory still holds. -/
structure Start (P : Params) where
  store : Nat → Bytes
  recovered : List (Nat × Bytes)
  store_length : ∀ i, (store i).length = P.valid i
  recovered_length : ∀ f ∈ recovered, f.2.length = P.chunkSize
  recovered_nodup : (recovered.map Prod.fst).Nodup
  recovered_disk : P.disk = false → recovered = []

namespace Start

variable {P : Params} (o : Start P)

/-- The recovered chunk `i`, which is newer than the inner store's. -/
def recover (i : Nat) : Option Copy :=
  (o.recovered.find? fun f => f.1 = i).map fun f => ⟨f.2, 1⟩

def shared : Shared where
  dirty := .fromRecovered (o.recovered.map fun f => (f.1, ⟨f.2, 1⟩)) 0
  buf := .new
  ctl := .new
  fileLock := none
  tmp := fun _ => none
  file := o.recover
  inner := fun i => ⟨o.store i, 0⟩
  hist := fun i => o.store i :: ((o.recover i).map fun c => c.data.take (P.valid i)).toList
  acked := fun i => if (o.recover i).isSome then 1 else 0
  pending := fun _ => none
  holders := ∅
  flushing := none

/-- Thread `0` is the worker, which runs only when there is a write buffer. -/
def state : State :=
  ⟨o.shared, fun t => if t = 0 ∧ P.bufferMax.isSome then .worker .top else .idle⟩

end Start

theorem one_lt : 1 < u64Size := by decide

theorem two_lt : 2 < u64Size := by decide

def oneByte (disk : Bool) (cacheMax : Nat) (bufferMax : Option Nat) : Params :=
  ⟨1, 1, cacheMax, disk, bufferMax, Nat.one_pos, one_lt⟩

def blank (P : Params) : Start P :=
  ⟨fun i => zeros (P.valid i), [], by simp [zeros], by simp, by simp, by simp⟩

def steps (t n : Nat) : List (Nat × Choice) := List.replicate n (t, {})

end IscsiS3.WriteCache
