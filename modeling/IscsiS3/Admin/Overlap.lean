import IscsiS3.Lib.Parallel
import IscsiS3.Cache.Store
import IscsiS3.S3.Content
import IscsiS3.S3.Sweeping
import IscsiS3.S3.Plain

/-! Writes to a copy-on-write volume beside sweeps of its pool. A write tests the lock once, puts
the object and then the pointer; a sweep reads the pointers and lists the pool, and deletes what it
has not seen named. A step is one request. If no object is put while a sweep runs, and no sweep
begins between the puts of an object and of its pointer, no live pointer loses its object. -/

namespace IscsiS3.Overlap

open S3 Request External StoreM

/-- What a thread asks: the bucket, or the lock of the volume. The marks around a sweep are history,
which no thread reads. -/
inductive SharedReq where
  | s3 (r : Req)
  | isIoLocked
  | setIoLocked (locked : Bool)
  | mark (sweeps : Bool)

abbrev SharedReply : SharedReq → Type
  | .s3 r => Reply r
  | .isIoLocked => Bool
  | .setIoLocked _ => Unit
  | .mark _ => Unit

abbrev SharedM (α : Type) : Type := StoreM SharedReply S3ChunkStore α

def onS3 {α : Type} (m : VolM α) : SharedM α := fun s => (m s).through .s3 fun _ x => x

/-- The call, with the marks of a sweep around it. -/
def sweeping {α : Type} (m : SharedM α) : SharedM α := fun s =>
  .ask (.mark true) fun _ => (m s).bind fun r => .ask (.mark false) fun _ => .ret r

def ensureUnlocked : SharedM Unit := do
  let locked ← StoreM.request .isIoLocked
  let s ← StoreM.get
  if locked then StoreM.throw (CachedStore.lockedError s.volume) else pure ()

/-- What a thread does to the volume; a collection comes with the chunks that the write cache
holds. -/
inductive Work where
  | write (offset : Nat) (data : Bytes)
  | gc (jobs : List (Nat × Bytes))
  | snapshotDelete (id : Str)

section Programs

variable [External]

/-- `CachedStore::write_at`; what it does to the entries of the read cache asks nothing. -/
def writeAt (offset : Nat) (data : Bytes) : SharedM Unit := do
  ensureUnlocked
  onS3 (S3.writeAt offset data)

/-- `flush` of the write cache, which writes its chunks up to the first failure. -/
def flush (jobs : List (Nat × Bytes)) : SharedM Unit := do
  StoreM.each (fun job => writeAt job.1 job.2) jobs
  ensureUnlocked

def lockIo (jobs : List (Nat × Bytes)) : SharedM Unit := do
  let _ ← (flush jobs).attempt
  StoreM.request (SharedReq.setIoLocked true)

def volumeGc (jobs : List (Nat × Bytes)) : SharedM Unit := do
  lockIo jobs
  let gc ← (sweeping (onS3 gcUnreferencedObjects)).attempt
  StoreM.request (SharedReq.setIoLocked false)
  let _ ← StoreM.lift gc
  pure ()

/-- `volume_snapshot_delete`, which does not take the lock. -/
def volumeSnapshotDelete (id : Str) : SharedM Unit := do
  let _ ← sweeping (onS3 (S3.snapshotDelete id))
  pure ()

def Work.prog : Work → SharedM Unit
  | .write offset data => writeAt offset data
  | .gc jobs => volumeGc jobs
  | .snapshotDelete id => volumeSnapshotDelete id

/-- One piece of work after the other, whether it succeeds or not. -/
def thread : List Work → SharedM Unit
  | [] => pure ()
  | work :: rest => do
    let _ ← work.prog.attempt
    thread rest

end Programs

/-- What the threads share, the last request of each, and whether it is in a sweep. -/
structure World (ι : Type) where
  bucket : Bucket
  ioLocked : Bool
  last : ι → Option SharedReq
  sweeps : ι → Bool

section Machine

variable {ι : Type} [DecidableEq ι]

/-- Every request is answered, and none fails, except a put whose condition does not hold. -/
def World.next (etag : Bytes → Str) (t : ι) (r : SharedReq) (w : World ι) :
    SharedReply r × World ι :=
  let asked := { w with last := Function.update w.last t (some r) }
  match r with
  | .s3 r => ((answer etag r w.bucket).1, { asked with bucket := (answer etag r w.bucket).2 })
  | .isIoLocked => (w.ioLocked, asked)
  | .setIoLocked locked => ((), { asked with ioLocked := locked })
  | .mark sweeps => ((), { asked with sweeps := Function.update w.sweeps t sweeps })

def serve (etag : Bytes → Str) (t : ι) : Env SharedReq SharedReply (World ι) := fun r w x w' =>
  (x, w') = World.next etag t r w

theorem serve_cases {etag : Bytes → Str} {t : ι} {r : SharedReq} {w w' : World ι}
    {x : SharedReply r} (h : serve etag t r w x w') :
    x = (World.next etag t r w).1 ∧ w' = (World.next etag t r w).2 :=
  ⟨congrArg Prod.fst h, congrArg Prod.snd h⟩

theorem World.last_next (etag : Bytes → Str) (t : ι) (r : SharedReq) (w : World ι) :
    (World.next etag t r w).2.last = Function.update w.last t (some r) := by
  cases r <;> rfl

def putObject (s : S3ChunkStore) (h : Hash) (body : Bytes) : SharedReq :=
  .s3 (.put (objectKey s.family h) body none)

def putLive (s : S3ChunkStore) (i : Nat) (h : Hash) (ifMatch : Option Str) : SharedReq :=
  .s3 (.put (liveChunkKey s.family i) (encodePointer h) ifMatch)

/-- No object is put while a sweep runs, and no sweep begins while a write has put its object and
not its pointer. -/
structure Apart (s : S3ChunkStore) (r : SharedReq) (w : World ι) : Prop where
  object : ∀ h body, r = putObject s h body → ∀ u, w.sweeps u = false
  sweep : r = .mark true → ∀ u h body, w.last u ≠ some (putObject s h body)

/-- The service, for threads whose writes and sweeps keep apart. -/
def careful (etag : Bytes → Str) (s : S3ChunkStore) (t : ι) : Env SharedReq SharedReply (World ι) :=
  fun r w x w' => serve etag t r w x w' ∧ Apart s r w

def Dangles (s : S3ChunkStore) (b : Bucket) : Prop :=
  ∃ i < u64Size, ∃ h, pointer b s.family i = some h ∧ objectKey s.family h ∉ b

end Machine

section Order

variable [External] {s : S3ChunkStore}

def Decodes (s : S3ChunkStore) (body : Bytes) : Prop :=
  ∃ chunk, decodeChunk codecs s.compression body s.chunkSize = .ok chunk

/-- What a thread knows of itself: its last two requests, and in a sweep the bucket at its start. -/
structure Trail where
  prev : Option SharedReq
  last : Option SharedReq
  start : Option Bucket

/-- Which request a thread can make: what is put into the pool can be read, a pointer is put right
after the object that it names, and what is deleted spares what the pointers named at the start of
the sweep. -/
structure Proper (s : S3ChunkStore) (prev : Option SharedReq) (start : Option Bucket)
    (r : SharedReq) : Prop where
  put : ∀ key body ifMatch, r = .s3 (.put key body ifMatch) →
    (∃ h, r = putObject s h body ∧ Decodes s body) ∨
      ∃ i h object, r = putLive s i h ifMatch ∧ prev = some (putObject s h object)
  delete : ∀ key, r = .s3 (.delete key) → ∃ b, start = some b ∧ Spares s.family b key

def InOrder (s : S3ChunkStore) (v : Trail) : Prop := ∀ r, v.last = some r →
    Proper s v.prev v.start r

/-- The replies of a service in which a put without a condition succeeds. -/
def Granted : (r : Req) → Reply r → Prop
  | .put _ _ none, x => x = .ok ()
  | .put _ _ (some _), _ => True
  | .get _, _ => True
  | .delete _, _ => True
  | .list front, x => Fitting (.list front) x

omit [External] in
theorem Granted.fitting {r : Req} {x : Reply r} (h : Granted r x) : Fitting r x := by
  cases r with
  | list front => exact h
  | get _ | put _ _ _ | delete _ => trivial

def traced (s : S3ChunkStore) : Env SharedReq SharedReply Trail
  | .s3 r, v, x, v' => v' = ⟨v.last, some (.s3 r), v.start⟩ ∧ Granted r x ∧
      ∀ b, v.start = some b → Steady s.family b r x
  | .isIoLocked, v, _, v' => v' = ⟨v.last, some .isIoLocked, v.start⟩
  | .setIoLocked locked, v, _, v' => v' = ⟨v.last, some (.setIoLocked locked), v.start⟩
  | .mark true, v, _, v' => ∃ b, v' = ⟨v.last, some (.mark true), some b⟩
  | .mark false, v, _, v' => v' = ⟨v.last, some (.mark false), none⟩

def tracedS3 (s : S3ChunkStore) : Env Req Reply Trail := fun r => traced s (.s3 r)

/-- The call makes its requests in order, outside a sweep or inside one, and stays there. -/
def Orderly {Q : Type} {R : Q → Type} {α : Type} (env : Env Q R Trail) (s : S3ChunkStore)
    (start : Option Bucket) (m : StoreM R S3ChunkStore α) : Prop :=
  ∀ v, InOrder s v → v.start = start →
    m.Safe env (InOrder s) s v fun _ s' v' => s' = s ∧ v'.start = start

section Rules

variable {Q : Type} {R : Q → Type} {α β : Type} {env : Env Q R Trail} {start : Option Bucket}
variable {m : StoreM R S3ChunkStore α} {f : α → StoreM R S3ChunkStore β}

theorem Orderly.done (r : Outcome α) :
    Orderly env s start (StoreM.done r : StoreM R S3ChunkStore α) :=
  fun _ hv hstart => Safe.done hv ⟨rfl, hstart⟩

theorem Orderly.pure (a : α) :
    Orderly env s start (Pure.pure a : StoreM R S3ChunkStore α) := .done _

theorem Orderly.throw (e : StoreError) :
    Orderly env s start (StoreM.throw e : StoreM R S3ChunkStore α) := .done _

theorem Orderly.lift (r : Except StoreError α) :
    Orderly env s start (StoreM.lift r : StoreM R S3ChunkStore α) := .done _

theorem Orderly.bind (hm : Orderly env s start m) (hf : ∀ a, Orderly env s start (f a)) :
    Orderly env s start (m >>= f) := by
  intro v hv hstart
  refine Safe.bind (Safe.mono (hm v hv hstart) ?_)
  rintro r s' v' hv' ⟨hs, hstart'⟩
  subst s'
  cases r with
  | ok a => exact hf a v' hv' hstart'
  | error _ | panic | waits => exact ⟨rfl, hstart'⟩

theorem Orderly.get {f : S3ChunkStore → StoreM R S3ChunkStore β} (hf : Orderly env s start (f s)) :
    Orderly env s start (StoreM.get >>= f) := hf

theorem Orderly.attempt (hm : Orderly env s start m) : Orderly env s start m.attempt := by
  intro v hv hstart
  refine Safe.attempt (Safe.mono (hm v hv hstart) ?_)
  intro r s' v' _ h
  cases r <;> exact h

theorem Orderly.each {f : β → StoreM R S3ChunkStore Unit} (xs : List β)
    (hf : ∀ x, Orderly env s start (f x)) : Orderly env s start (StoreM.each f xs) := by
  induction xs with
  | nil => exact .pure _
  | cons x xs ih => exact .bind (hf x) fun _ => ih

end Rules

variable {start : Option Bucket} {prev : Option SharedReq} {r : SharedReq} {h h' : Hash}

theorem Orderly.onS3 {α : Type} {m : VolM α} (hm : Orderly (tracedS3 s) s start m) :
    Orderly (traced s) s start (onS3 m) := fun v hv hstart =>
  Prog.Safe.through (hm v hv hstart) fun _ _ _ _ step => step

/-- A request other than a put or a delete. -/
def Passive (r : SharedReq) : Prop :=
  (∀ key body ifMatch, r ≠ .s3 (.put key body ifMatch)) ∧ ∀ key, r ≠ .s3 (.delete key)

theorem Passive.proper (hr : Passive r) :
    Proper s prev start r :=
  ⟨fun key body ifMatch h => absurd h (hr.1 key body ifMatch), fun key h => absurd h (hr.2 key)⟩

theorem Passive.inOrder (hr : Passive r) :
    InOrder s ⟨prev, some r, start⟩ := by
  rintro _ ⟨⟩
  exact hr.proper

theorem ensureUnlocked_orderly : Orderly (traced s) s start ensureUnlocked := by
  intro v hv hstart
  refine Safe.bind (Safe.request hv ?_)
  rintro locked v' rfl
  have ordered : InOrder s ⟨v.last, some .isIoLocked, v.start⟩ := Passive.inOrder ⟨nofun, nofun⟩
  refine ⟨ordered, ?_⟩
  dsimp only [Then]
  refine Orderly.get ?_ _ ordered hstart
  split
  · exact .throw _
  · exact .pure _

theorem setIoLocked_orderly (locked : Bool) :
    Orderly (traced s) s start (StoreM.request (.setIoLocked locked)) := by
  intro v hv hstart
  refine Safe.request hv ?_
  rintro x v' rfl
  exact ⟨Passive.inOrder ⟨nofun, nofun⟩, rfl, hstart⟩

theorem Orderly.sweeping {α : Type} {m : SharedM α} (hm : ∀ b, Orderly (traced s) s (some b) m) :
    Orderly (traced s) s none (sweeping m) := by
  intro v hv hstart
  refine ⟨hv, ?_⟩
  rintro _ v' ⟨b, rfl⟩
  refine Prog.Safe.bind (Prog.Safe.mono (hm b _ (Passive.inOrder ⟨nofun, nofun⟩) rfl) ?_)
  rintro r v' hv' ⟨hs, -⟩
  refine ⟨hv', ?_⟩
  rintro _ v'' rfl
  exact ⟨Passive.inOrder ⟨nofun, nofun⟩, hs, rfl⟩

/-- What reads the volume, and in a sweep deletes what is spared, is in order. -/
theorem stays_orderly {α : Type} {m : VolM α} (hs : s.storage = .cow)
    (stays : (cowRealm s hs start).Stays m) : Orderly (tracedS3 s) s start m := by
  intro v hv hstart
  have step : ∀ (r : Req) (v : Trail) (x : Reply r) (v' : Trail), (cowRealm s hs start).may r →
      tracedS3 s r v x v' → InOrder s v ∧ v.start = start →
      (cowRealm s hs start).fits r x ∧ InOrder s v' ∧ v'.start = start := by
    rintro r v x v' hr ⟨rfl, granted, steady⟩ ⟨-, hstart⟩
    refine ⟨⟨granted.fitting, hstart ▸ steady⟩, ?_, hstart⟩
    rintro _ ⟨⟩
    refine ⟨?_, ?_⟩
    · rintro key body ifMatch ⟨⟩
      rcases hr with hr | ⟨key', b, hr, -⟩ <;> cases hr
    · rintro key ⟨⟩
      rcases hr with hr | ⟨key', b, hr, hb, spares⟩
      · cases hr
      · cases hr
        exact ⟨b, hstart.trans hb, spares⟩
  have asked := Prog.Confined.safe (stays s rfl) step ⟨hv, hstart⟩
  refine Prog.Safe.weaken (Prog.Safe.mono asked ?_) (fun _ _ _ _ => id) fun v' hv' => hv'.1
  rintro ⟨r, s'⟩ v' - ⟨⟨-, hstart'⟩, hs', -⟩
  exact ⟨hs', hstart'⟩

omit [External] in
theorem putLive_ne_putObject {i : Nat} {ifMatch : Option Str} {object : Bytes} :
    putLive s i h ifMatch ≠ putObject s h' object := by
  intro heq
  rw [putLive, putObject, SharedReq.s3.injEq, Req.put.injEq] at heq
  exact (inArea_live _ _).ne (inArea_object _ _) (by decide) heq.1

omit [External] in
theorem putObject_inj {body body' : Bytes} (heq : putObject s h body = putObject s h' body') :
    h = h' := by
  rw [putObject, putObject, SharedReq.s3.injEq, Req.put.injEq] at heq
  exact objectKey_inj heq.1

section

variable (hs : s.storage = .cow) (roundTrip : codecs.RoundTrip)
variable (small : Headed s.chunkSize s.compression)

include hs roundTrip small

theorem putChunk_orderly (index : Nat) (data : Bytes) (ifMatch : Option Str) :
    Orderly (tracedS3 s) s start (putChunk index data ifMatch) := by
  refine .get ?_
  split
  · exact .throw _
  · rename_i hlen
    rw [ne_eq, not_not] at hlen
    rw [hs]
    have short : s.compression ≠ .none → data.length < 2 ^ 32 := fun hc => hlen ▸ small hc
    obtain ⟨body, hbody, hback⟩ := decodeChunk_encodeChunk roundTrip short
    rw [hbody]
    change Orderly (tracedS3 s) s start (do
      putBytes (objectKey s.family (blake3 body)) body none
      putBytes (s.chunkKey index) (encodePointer (blake3 body)) ifMatch)
    intro v hv hstart
    have hkey : s.chunkKey index = liveChunkKey s.family index := by
      simp only [S3ChunkStore.chunkKey, hs]
    have first : InOrder s ⟨v.last, some (putObject s (blake3 body) body), v.start⟩ := by
      rintro r ⟨⟩
      refine ⟨fun key body' ifMatch' heq => .inl ⟨blake3 body, ?_⟩, fun key heq => by cases heq⟩
      cases heq
      exact ⟨rfl, data, hlen ▸ hback⟩
    have second : InOrder s ⟨some (putObject s (blake3 body) body),
        some (putLive s index (blake3 body) ifMatch), v.start⟩ := by
      rintro r ⟨⟩
      refine ⟨fun key body' ifMatch' heq => .inr ⟨index, blake3 body, body, ?_, rfl⟩,
        fun key heq => by cases heq⟩
      cases heq
      rfl
    refine Safe.bind (Safe.bind (Safe.request hv ?_))
    rintro x v' ⟨rfl, rfl, -⟩
    refine ⟨first, Safe.pure first ?_⟩
    dsimp only [Then]
    rw [hkey]
    refine Safe.bind (Safe.request first ?_)
    rintro x v' ⟨rfl, -⟩
    refine ⟨second, ?_⟩
    dsimp only [Then]
    split
    · exact Safe.pure second ⟨rfl, hstart⟩
    · exact Safe.done second ⟨rfl, hstart⟩

theorem writePieceLoop_orderly (p : Piece) (bytes : Bytes) (retries : Nat) :
    Orderly (tracedS3 s) s start (writePieceLoop p bytes retries) := by
  have base : Orderly (tracedS3 s) s start (baseChunk p) :=
    stays_orderly hs (Realm.baseChunk_stays p)
  induction retries with
  | zero => exact .bind base fun _ => putChunk_orderly hs roundTrip small _ _ _
  | succ retries ih =>
    refine .bind base fun _ => .bind
      (.attempt (putChunk_orderly hs roundTrip small _ _ _)) fun r => ?_
    split
    · exact .pure _
    · split
      · exact ih
      · exact .throw _

theorem writeAt_orderly (offset : Nat) (data : Bytes) :
    Orderly (traced s) s start (writeAt offset data) := by
  refine .bind ensureUnlocked_orderly fun _ => .onS3
    (.get (.bind (.lift _) fun _ => .each _ fun p => ?_))
  exact .get (writePieceLoop_orderly hs roundTrip small p _ _)

theorem prog_orderly (work : Work) :
      Orderly (traced s) s none work.prog := by
  have write : ∀ offset data, Orderly (traced s) s none (writeAt offset data) :=
    writeAt_orderly hs roundTrip small
  cases work with
  | write offset data => exact write offset data
  | gc jobs =>
    have flushed : Orderly (traced s) s none (flush jobs) :=
      .bind (.each jobs fun job => write job.1 job.2) fun _ => ensureUnlocked_orderly
    exact .bind (.bind (.attempt flushed) fun _ => setIoLocked_orderly true) fun _ =>
      .bind (.attempt (.sweeping fun _ => .onS3 (stays_orderly hs gcUnreferencedObjects_spares)))
        fun _ =>
        .bind (setIoLocked_orderly false) fun _ => .bind (.lift _) fun _ => .pure _
  | snapshotDelete id =>
    exact .bind (.sweeping fun _ => .onS3 (stays_orderly hs (snapshotDelete_spares id))) fun _ =>
      .pure _

theorem thread_orderly (work : List Work) :
    Orderly (traced s) s none (thread work) := by
  induction work with
  | nil => exact .pure _
  | cons w rest ih => exact .bind (.attempt (prog_orderly hs roundTrip small w)) fun _ => ih

end

end Order

section Pool

variable [External] {s : S3ChunkStore} {b : Bucket} {family : Str} {offset len : Nat} {body : Bytes}
variable {b' : Bucket} {key : Key} {h : Hash} {x : Hash} {i : Nat}

def Stocked (s : S3ChunkStore) (b : Bucket) (h : Hash) : Prop :=
  ∃ body, b.lookup (objectKey s.family h) = some body ∧ Decodes s body

def Backed (s : S3ChunkStore) (b : Bucket) : Prop :=
  ∀ i < u64Size, ∀ ptr, b.lookup (liveChunkKey s.family i) = some ptr →
    ∃ h, decodePointer ptr = .ok h ∧ Stocked s b h

theorem backed_iff_readable (hs : s.storage = .cow) :
    Backed s b ↔ ∀ i < u64Size, ∃ chunk, plainChunk b s i = .ok chunk := by
  refine forall₂_congr fun i _ => ?_
  simp only [plainChunk, storedBody, hs, readHash]
  cases hptr : b.lookup (liveChunkKey s.family i) with
  | none => simp
  | some ptr =>
    cases hh : decodePointer ptr with
    | error e => simp [Except.map, hh]
    | ok h =>
      cases hbody : b.lookup (objectKey s.family h) with
      | none => simp [Except.map, Stocked, hbody, hh]
      | some body => simp [Except.map, Stocked, hbody, hh, Decodes]

theorem Stocked.insert_object {h x : Hash} (hb : Stocked s b h) (hbody : Decodes s body) :
    Stocked s (b.insert (objectKey s.family x) body) h := by
  by_cases heq : h = x
  · subst heq
    exact ⟨body, AList.lookup_insert _, hbody⟩
  · obtain ⟨old, hold, hdec⟩ := hb
    refine ⟨old, ?_, hdec⟩
    rwa [AList.lookup_insert_ne fun hkey => heq (objectKey_inj hkey)]

theorem Stocked.insert_live {ptr : Bytes} (hb : Stocked s b h) :
    Stocked s (b.insert (liveChunkKey s.family i) ptr) h := by
  obtain ⟨body, hbody, hdec⟩ := hb
  refine ⟨body, ?_, hdec⟩
  rwa [AList.lookup_insert_ne ((inArea_object _ _).ne (inArea_live _ _) (by decide))]

theorem Stocked.erase (hb : Stocked s b h) (hkey : objectKey s.family h ≠ key) :
    Stocked s (b.erase key) h := by
  obtain ⟨body, hbody, hdec⟩ := hb
  exact ⟨body, by rwa [AList.lookup_erase_ne hkey], hdec⟩

theorem Backed.insert_object (hb : Backed s b) (hbody : Decodes s body) :
    Backed s (b.insert (objectKey s.family x) body) := by
  intro i hi ptr hptr
  rw [AList.lookup_insert_ne ((inArea_live _ _).ne (inArea_object _ _) (by decide))] at hptr
  obtain ⟨h, hh, hstock⟩ := hb i hi ptr hptr
  exact ⟨h, hh, hstock.insert_object hbody⟩

theorem Backed.insert_live (hb : Backed s b) (hx : Stocked s b x) :
    Backed s (b.insert (liveChunkKey s.family i) (encodePointer x)) := by
  intro j hj ptr hptr
  by_cases heq : liveChunkKey s.family j = liveChunkKey s.family i
  · rw [heq, AList.lookup_insert] at hptr
    obtain rfl := Option.some.inj hptr
    exact ⟨x, decodePointer_encodePointer x, hx.insert_live⟩
  · rw [AList.lookup_insert_ne heq] at hptr
    obtain ⟨h, hh, hstock⟩ := hb j hj ptr hptr
    exact ⟨h, hh, hstock.insert_live⟩

theorem Backed.erase (hb : Backed s b)
    (hkey : ∀ i < u64Size, ∀ h, pointer b s.family i = some h → objectKey s.family h ≠ key) :
    Backed s (b.erase key) := by
  intro i hi ptr hptr
  have hold := (lookup_of_erase hptr).2
  obtain ⟨h, hh, hstock⟩ := hb i hi ptr hold
  exact ⟨h, hh, hstock.erase (hkey i hi h (pointer_eq_some.mpr ⟨ptr, hold, hh⟩))⟩

omit [External] in
theorem idx_lt_of_checkRange {p : Piece} (hpos : 0 < s.chunkSize)
    (hrange : checkRange s.capacity offset len = .ok ()) (hp : p ∈ pieces s.chunkSize offset len) :
    p.idx < u64Size := by
  obtain ⟨-, -, -, hend⟩ := mem_pieces hpos hp
  have hlt : offset + len < u64Size := by
    by_contra hge
    rw [checkRange, if_pos (Nat.le_of_not_lt hge)] at hrange
    cases hrange
  have := Nat.le_mul_of_pos_right p.idx hpos
  omega

theorem readAt_returns (etag : Bytes → Str) (hpos : 0 < s.chunkSize)
    (h : ∀ i < u64Size, ∃ chunk, plainChunk b s i = .ok chunk)
    (hrange : checkRange s.capacity offset len = .ok ()) :
    ∃ bytes, (readAt offset len s).run (answer etag) b = ((.ok bytes, s), b) := by
  have piece : ∀ p : Piece, p.idx < u64Size →
      (readPiece p).Reads Unreliable s b (Returns fun _ => True) := by
    intro p hp
    obtain ⟨chunk, hchunk⟩ := h p.idx hp
    have found : (getChunk p.idx).Reads Unreliable s b (Returns fun _ => True) := by
      refine (getChunk_reads p.idx).mono fun r hr => ?_
      rw [hchunk] at hr
      obtain ⟨a, ha, -⟩ := Outcome.map_eq_ok.mp hr.1
      exact ⟨a, ha, trivial⟩
    exact found.bind_returns fun a _ => Reads.pure ⟨_, rfl, trivial⟩
  have pieces : ∀ ps : List Piece, (∀ p ∈ ps, p.idx < u64Size) →
      (StoreM.collect readPiece ps).Reads Unreliable s b (Returns fun _ => True) := by
    intro ps hps
    induction ps with
    | nil => exact Reads.pure ⟨_, rfl, trivial⟩
    | cons p ps ih =>
      exact (piece p (hps p List.mem_cons_self)).bind_returns fun a _ =>
        (ih fun q hq => hps q (List.mem_cons_of_mem _ hq)).bind_returns fun rest _ =>
          Reads.pure ⟨_, rfl, trivial⟩
  have read : (readAt offset len).Reads Unreliable s b (Returns fun _ => True) := by
    refine Reads.get.bind_returns fun t ht => ?_
    subst t
    rw [hrange]
    exact (pieces _ fun p hp => idx_lt_of_checkRange hpos hrange hp).bind_returns fun parts _ =>
      Reads.pure ⟨_, rfl, trivial⟩
  obtain ⟨hstate, hbucket, bytes, hbytes, -⟩ := Prog.Safe.run read (unreliable_answer etag)
  exact ⟨bytes, Prod.ext (Prod.ext hbytes hstate) hbucket⟩

/-- The live pointers are the same in both buckets. -/
def SameLive (family : Str) (b b' : Bucket) : Prop :=
  ∀ k, InArea family .liveChunks k → b'.lookup k = b.lookup k

omit [External] in
theorem SameLive.pointer (h : SameLive family b b') (i : Nat) :
    pointer b' family i = pointer b family i := by
  rw [S3.pointer, h _ (inArea_live family i), S3.pointer]

omit [External] in
theorem SameLive.trans {b' b'' : Bucket} (h : SameLive family b b') (h' : SameLive family b' b'') :
    SameLive family b b'' := fun k hk => (h' k hk).trans (h k hk)

omit [External] in
theorem SameLive.steady (h : SameLive family b b') (etag : Bytes → Str) (r : Req) :
    Steady family b r (answer etag r b').1 := by
  intro live
  have told := unreliable_answer etag r b'
  rcases live with rfl | ⟨i, rfl⟩
  · obtain ⟨-, keys, hkeys, hmem⟩ := told
    refine ⟨rfl, keys, hkeys, fun k => (hmem k).trans (and_congr_left fun hk => ?_)⟩
    rw [mem_iff_lookup, mem_iff_lookup, h k hk]
  · refine ⟨rfl, ?_⟩
    rw [← h _ (inArea_live family i)]
    exact told.2

end Pool

section Runs

variable [External] {ι : Type} [DecidableEq ι] {s : S3ChunkStore} {w : World ι} {t : ι}
variable {etag : Bytes → Str} {r : SharedReq} {w' : World ι}

abbrev Threads (ι : Type) : Type :=
  Parallel SharedReq SharedReply ι (Outcome Unit × S3ChunkStore) (World ι)

def volume (work : ι → List Work) (s : S3ChunkStore) (b : Bucket) : Threads ι where
  world := ⟨b, false, fun _ => none, fun _ => false⟩
  progs t := thread (work t) s

/-- What a thread has put into the pool is still there when it puts the pointer. -/
structure Kept (s : S3ChunkStore) (w : World ι) : Prop where
  backed : Backed s w.bucket
  fresh : ∀ u h object, w.last u = some (putObject s h object) → Stocked s w.bucket h

section

variable (hw : Kept s w) (hlast : w'.last = Function.update w.last t (some r))

include hw hlast

theorem Kept.of_last (backed : Backed s w'.bucket)
    (own : ∀ h object, r = putObject s h object → Stocked s w'.bucket h)
    (others : ∀ u h object, w.last u = some (putObject s h object) → Stocked s w.bucket h →
      Stocked s w'.bucket h) : Kept s w' := by
  refine ⟨backed, fun u h object hu => ?_⟩
  rw [hlast] at hu
  by_cases hut : u = t
  · subst hut
    rw [Function.update_self] at hu
    exact own h object (Option.some.inj hu)
  · rw [Function.update_of_ne hut] at hu
    exact others u h object hu (hw.fresh u h object hu)

theorem Kept.unchanged (hbucket : w'.bucket = w.bucket) (hr : Passive r) : Kept s w' :=
  hw.of_last hlast (hbucket ▸ hw.backed) (fun _ _ h => absurd h (hr.1 _ _ _))
    fun _ _ _ _ h => hbucket ▸ h

end

/-- A sweep sees the live pointers of its start, and meanwhile nobody is between two puts. -/
structure Seen (s : S3ChunkStore) (w : World ι) (start : Option Bucket) : Prop where
  same : ∀ b, start = some b → SameLive s.family b w.bucket
  quiet : ∀ b, start = some b → ∀ u h object, w.last u ≠ some (putObject s h object)

omit [External] in
theorem bucket_next_of_passive (hr : Passive r) : (World.next etag t r w).2.bucket = w.bucket := by
  cases r with
  | isIoLocked | setIoLocked _ | mark _ => rfl
  | s3 r =>
    cases r with
    | get key =>
      simp only [World.next, answer]
      split <;> rfl
    | list front => rfl
    | put key body ifMatch => exact absurd rfl (hr.1 key body ifMatch)
    | delete key => exact absurd rfl (hr.2 key)

variable {start : Option Bucket} {u : ι} {b : Bucket}

theorem Kept.next (hw : Kept s w) (proper : Proper s (w.last t) start r) (seen : Seen s w start) :
    Kept s (World.next etag t r w).2 := by
  have hlast := World.last_next etag t r w
  by_cases hr : Passive r
  · exact hw.unchanged hlast (bucket_next_of_passive hr) hr
  cases r with
  | isIoLocked | setIoLocked _ | mark _ => exact absurd ⟨nofun, nofun⟩ hr
  | s3 r =>
    cases r with
    | get _ | list _ => exact absurd ⟨nofun, nofun⟩ hr
    | delete key =>
      obtain ⟨b, hstart, -, spared⟩ := proper.delete key rfl
      refine hw.of_last hlast ?_ nofun fun u h object hu _ => ?_
      · refine hw.backed.erase fun i hi h hp => spared i hi h ?_
        rwa [(seen.same b hstart).pointer] at hp
      · exact absurd hu (seen.quiet b hstart u h object)
    | put key body ifMatch =>
      rcases proper.put key body ifMatch rfl with ⟨h, hr, hbody⟩ | ⟨i, h, object, hr, hprev⟩
      · obtain ⟨rfl, -, rfl⟩ : key = objectKey s.family h ∧ body = body ∧ ifMatch = none := by
          simpa [putObject] using hr
        refine hw.of_last hlast (hw.backed.insert_object hbody) ?_
          fun _ _ _ _ hstock => hstock.insert_object hbody
        intro x object hx
        obtain rfl := putObject_inj hx
        exact ⟨body, AList.lookup_insert _, hbody⟩
      · obtain ⟨rfl, rfl⟩ : key = liveChunkKey s.family i ∧ body = encodePointer h := by
          simpa [putLive] using hr
        have hstock := hw.fresh t h object hprev
        have hne : ∀ x object, SharedReq.s3
          (.put (liveChunkKey s.family i) (encodePointer h) ifMatch) ≠
            putObject s x object := fun _ _ => putLive_ne_putObject
        simp only [World.next, answer]
        split
        · exact hw.of_last rfl (hw.backed.insert_live hstock)
            (fun x object hx => absurd hx (hne x object)) fun _ _ _ _ h => h.insert_live
        · exact hw.of_last rfl hw.backed (fun x object hx => absurd hx (hne x object))
            fun _ _ _ _ h => h

/-- While a thread sweeps, a request of any thread leaves the live pointers as they are. -/
theorem sameLive_next (proper : Proper s (w.last t) start r) (apart : Apart s r w)
    (hu : ¬Passive r → w.sweeps u = true)
    (quiet : ∀ v h object, w.last v ≠ some (putObject s h object)) :
    SameLive s.family w.bucket (World.next etag t r w).2.bucket := by
  intro k hk
  by_cases hr : Passive r
  · rw [bucket_next_of_passive hr]
  cases r with
  | isIoLocked | setIoLocked _ | mark _ => exact absurd ⟨nofun, nofun⟩ hr
  | s3 r =>
    cases r with
    | get _ | list _ => exact absurd ⟨nofun, nofun⟩ hr
    | delete key =>
      obtain ⟨b, -, off, -⟩ := proper.delete key rfl
      refine AList.lookup_erase_ne ?_
      rintro rfl
      exact off hk
    | put key body ifMatch =>
      rcases proper.put key body ifMatch rfl with ⟨h, hput, -⟩ | ⟨i, h, object, -, hprev⟩
      · exact absurd ((apart.object h body hput u).symm.trans (hu hr)) (by decide)
      · exact absurd hprev (quiet t h object)

/-- Every thread makes its requests in order, and those in a sweep see what it takes. -/
structure Underway (s : S3ChunkStore) (st : Threads ι) : Prop where
  thread : ∀ t, ∃ prev start, start.isSome = st.world.sweeps t ∧
    (∀ b, start = some b → SameLive s.family b st.world.bucket) ∧
    (st.progs t).Safe (traced s) (InOrder s) ⟨prev, st.world.last t, start⟩ fun _ _ => True
  quiet : ∀ t, st.world.sweeps t = true →
    ∀ u h object, st.world.last u ≠ some (putObject s h object)
  kept : Kept s st.world

/-- The bucket at the start of the sweep that a thread is in after a request. -/
def startAfter (r : SharedReq) (b : Bucket) (start : Option Bucket) : Option Bucket :=
  match r with
  | .mark true => some b
  | .mark false => none
  | _ => start

omit [External] in
theorem startAfter_of_not_passive (hr : ¬Passive r) :
    startAfter r b start = start := by
  cases r with
  | isIoLocked | setIoLocked _ | s3 _ => rfl
  | mark _ => exact absurd ⟨nofun, nofun⟩ hr

omit [External] in
theorem traced_next (etag : Bytes → Str) (same : ∀ b, start = some b → SameLive s.family b w.bucket)
    (prev : Option SharedReq) :
    traced s r ⟨prev, w.last t, start⟩ (World.next etag t r w).1
      ⟨w.last t, some r, startAfter r w.bucket start⟩ := by
  cases r with
  | isIoLocked | setIoLocked _ => rfl
  | mark sweeps =>
    cases sweeps with
    | false => rfl
    | true => exact ⟨w.bucket, rfl⟩
  | s3 r =>
    refine ⟨rfl, ?_, fun b hb => (same b hb).steady etag r⟩
    cases r with
    | get _ | delete _ => trivial
    | list front => exact fitting_of_unreliable (unreliable_answer etag (.list front) w.bucket)
    | put key body ifMatch =>
      cases ifMatch with
      | none => rfl
      | some e => trivial

omit [External] in
theorem isSome_startAfter (h : start.isSome = w.sweeps t) :
    (startAfter r w.bucket start).isSome = (World.next etag t r w).2.sweeps t := by
  cases r with
  | isIoLocked | setIoLocked _ | s3 _ => exact h
  | mark sweeps =>
    simp only [World.next, Function.update_self]
    cases sweeps <;> rfl

omit [External] in
theorem sweeps_next_of_ne (hut : u ≠ t) :
    (World.next etag t r w).2.sweeps u = w.sweeps u := by
  cases r with
  | isIoLocked | setIoLocked _ | s3 _ => rfl
  | mark sweeps => exact Function.update_of_ne hut _ _

variable {st st' : Threads ι}

theorem Underway.quiet_next (h : Underway s st) (apart : Apart s r st.world)
    (hu : (World.next etag t r st.world).2.sweeps u = true) (v : ι) (x : Hash) (object : Bytes) :
    (World.next etag t r st.world).2.last v ≠ some (putObject s x object) := by
  have before : ∀ v x object, st.world.last v ≠ some (putObject s x object) := by
    by_cases hold : st.world.sweeps u = true
    · exact h.quiet u hold
    refine apart.sweep ?_
    cases r with
    | isIoLocked | setIoLocked _ | s3 _ => exact absurd hu hold
    | mark sweeps =>
      by_cases hut : u = t
      · subst hut
        simp only [World.next, Function.update_self] at hu
        rw [hu]
      · exact absurd ((sweeps_next_of_ne hut).symm.trans hu) hold
  rw [World.last_next]
  intro hv
  by_cases hvt : v = t
  · subst hvt
    rw [Function.update_self] at hv
    obtain rfl := Option.some.inj hv
    have hno : st.world.sweeps u = false := apart.object x object rfl u
    exact absurd (hno.symm.trans hu) (by decide)
  · rw [Function.update_of_ne hvt] at hv
    exact before v x object hv

omit [DecidableEq ι] in
theorem Underway.seen (h : Underway s st) (apart : Apart s r st.world)
    (hsome : start.isSome = st.world.sweeps t)
    (same : ∀ b, start = some b → SameLive s.family b st.world.bucket) :
    Seen s st.world (startAfter r st.world.bucket start) := by
  have before : Seen s st.world start :=
    ⟨same, fun b hb => h.quiet t (hsome.symm.trans (hb ▸ rfl))⟩
  cases r with
  | isIoLocked | setIoLocked _ | s3 _ => exact before
  | mark sweeps =>
    cases sweeps with
    | false => exact ⟨nofun, nofun⟩
    | true =>
      refine ⟨?_, fun _ _ => apart.sweep rfl⟩
      rintro b ⟨⟩ k -
      rfl

theorem Underway.step (h : Underway s st) (step : Parallel.Step (careful etag s) st st') :
    Underway s st' := by
  cases step with
  | @ask t r next x w hp hx =>
    obtain ⟨hserve, apart⟩ := hx
    obtain ⟨rfl, rfl⟩ := serve_cases hserve
    obtain ⟨prev, start, hsome, same, safe⟩ := h.thread t
    rw [hp] at safe
    have after := safe.2 _ _ (traced_next etag same prev)
    have proper : Proper s (st.world.last t) (startAfter r st.world.bucket start) r :=
      after.inv r rfl
    have seen := h.seen apart hsome same
    refine ⟨fun u => ?_, fun u hu => h.quiet_next apart hu, h.kept.next proper seen⟩
    dsimp only
    rw [World.last_next]
    by_cases hut : u = t
    · subst hut
      rw [Function.update_self, Function.update_self]
      refine ⟨_, _, isSome_startAfter hsome, fun b hb => ?_, after⟩
      refine (seen.same b hb).trans (sameLive_next proper apart (u := u) (fun hr => ?_)
        (seen.quiet b hb))
      -- a request that is not passive is no mark, so the thread was in the sweep before
      rw [startAfter_of_not_passive hr] at hb
      exact hsome.symm.trans (hb ▸ rfl)
    · rw [Function.update_of_ne hut, Function.update_of_ne hut, sweeps_next_of_ne hut]
      obtain ⟨prev', start', hsome', same', safe'⟩ := h.thread u
      refine ⟨prev', start', hsome', fun b hb => (same' b hb).trans ?_, safe'⟩
      have hu : st.world.sweeps u = true := hsome'.symm.trans (hb ▸ rfl)
      exact sameLive_next proper apart (fun _ => hu) (h.quiet u hu)

omit [DecidableEq ι] in
theorem underway_volume (hs : s.storage = .cow) (roundTrip : codecs.RoundTrip)
    (small : Headed s.chunkSize s.compression) (work : ι → List Work) (backed : Backed s b) :
    Underway s (volume work s b) := by
  refine ⟨fun t => ⟨none, none, rfl, nofun, ?_⟩, nofun, backed, nofun⟩
  exact Prog.Safe.mono (thread_orderly hs roundTrip small (work t) ⟨none, none, none⟩ nofun rfl)
    fun _ _ _ _ => trivial

theorem Underway.run (h : Underway s st)
    (run : Relation.ReflTransGen (Parallel.Step (careful etag s)) st st') : Underway s st' := by
  induction run with
  | refl => exact h
  | tail _ step ih => exact ih.step step

/-- Any number of threads write to the volume, sweep it and delete its snapshots, in any
interleaving of their requests in which no object is put while a sweep runs, and no sweep begins
while a write has put its object and not yet its pointer. Then every live pointer names an object,
and every read succeeds. -/
theorem writes_survive_sweeps (etag : Bytes → Str) (hs : s.storage = .cow) (hpos : 0 < s.chunkSize)
    (roundTrip : codecs.RoundTrip) (small : Headed s.chunkSize s.compression)
    (work : ι → List Work) (b : Bucket)
    (start : ∀ i < u64Size, ∃ chunk, plainChunk b s i = .ok chunk) (st : Threads ι)
    (run : Relation.ReflTransGen (Parallel.Step (careful etag s)) (volume work s b) st) :
    ¬Dangles s st.world.bucket ∧ ∀ offset len, checkRange s.capacity offset len = .ok () →
      ∃ bytes, (readAt offset len s).run (answer etag) st.world.bucket =
        ((.ok bytes, s), st.world.bucket) := by
  have backed : Backed s st.world.bucket :=
    ((underway_volume hs roundTrip small work ((backed_iff_readable hs).mpr start)).run
      run).kept.backed
  refine ⟨?_, fun offset len hrange =>
    readAt_returns etag hpos ((backed_iff_readable hs).mp backed) hrange⟩
  rintro ⟨i, hi, h, hp, hmem⟩
  obtain ⟨ptr, hptr, hh⟩ := pointer_eq_some.mp hp
  obtain ⟨h', hh', body, hbody, -⟩ := backed i hi ptr hptr
  obtain rfl := Except.ok.inj (hh.symm.trans hh')
  exact hmem (mem_iff_lookup.mpr ⟨body, hbody⟩)

end Runs

section TwoThreads

open Plain

def sharedStore : S3ChunkStore := ⟨"v".toList, 1, 1, .none, .cow, 4, "v".toList⟩

/-- The requests of two threads, the first of which writes, in the order of a schedule. -/
def overlapped (writes : List Work) (turns : List Bool) : Threads Bool :=
  (volume (fun t => if t then writes else [.gc []]) sharedStore ∅).exec
    (fun t r w => World.next (fun _ => []) t r w) turns

/-- A sufficient test for a request that keeps apart. -/
def apartRequest (r : SharedReq) (w : World Bool) : Bool :=
  match r with
  | .s3 (.put _ _ none) => !w.sweeps true && !w.sweeps false
  | .mark true => [true, false].all fun u => match w.last u with
    | some (.s3 (.put key _ _)) => !(areaFront sharedStore.family .objects).isPrefixOf key
    | _ => true
  | _ => true

theorem apart_of_apartRequest {r : SharedReq} {w : World Bool} (h : apartRequest r w = true) :
    Apart sharedStore r w := by
  constructor
  · rintro x body rfl u
    obtain ⟨first, second⟩ := Bool.and_eq_true_iff.mp h
    cases u with
    | true => simpa using first
    | false => simpa using second
  · rintro rfl u x body hu
    have := List.all_eq_true.mp h u (by cases u <;> simp)
    simp only [hu, putObject, Bool.not_eq_true_eq_eq_false] at this
    exact absurd (List.isPrefixOf_iff_prefix.mpr (inArea_object _ _)) (this ▸ Bool.false_ne_true)

/-- The second write is admitted before the lock is taken, and puts after it. -/
def admittedBefore : List Bool :=
  List.replicate 4 true ++ [false, false, true, true] ++ List.replicate 8 false

theorem writes_survive_sweeps_in_turn :
    (∀ i < u64Size, ∃ chunk, plainChunk ∅ sharedStore i = .ok chunk) ∧ ∃ st : Threads Bool,
      Relation.ReflTransGen (Parallel.Step (careful (fun _ => []) sharedStore))
        (overlapped [.write 0 [7], .write 0 [5]] []) st ∧
      objectKey "v".toList (pad [7]) ∉ st.world.bucket ∧
      pointer st.world.bucket "v".toList 0 = some (pad [5]) ∧
      ¬Dangles sharedStore st.world.bucket := by
  have start : ∀ i < u64Size, ∃ chunk, plainChunk ∅ sharedStore i = .ok chunk :=
    fun i _ => ⟨_, rfl⟩
  have passed : Parallel.passes (fun t r w => World.next (fun _ => []) t r w)
      (fun _ => apartRequest) (overlapped [.write 0 [7], .write 0 [5]] [])
        admittedBefore = true := by
    decide +kernel
  have run : Relation.ReflTransGen (Parallel.Step (careful (fun _ => []) sharedStore))
      (overlapped [.write 0 [7], .write 0 [5]] [])
      (overlapped [.write 0 [7], .write 0 [5]] admittedBefore) :=
    Parallel.run_exec_of_passes (fun _ _ _ h => ⟨rfl, apart_of_apartRequest h⟩) passed
  refine ⟨start, _, run, by decide +kernel, by decide +kernel, ?_⟩
  exact (writes_survive_sweeps (fun _ => []) rfl (by decide) codecsRoundTrip (fun h => absurd rfl h)
    _ ∅ start _ run).1

def ended {α : Type} : Prog SharedReq SharedReply α → Option α
  | .ret a => some a
  | .ask _ _ => none

/-- The object is put, the pool is swept, and the pointer is put. -/
def sweptBetween : List Bool := [true, true] ++ List.replicate 9 false ++ [true]

/-- The write has tested the lock and put its object when the collection takes the lock. -/
theorem sweep_takes_written_object :
    (∀ i < u64Size, ∃ chunk, plainChunk ∅ sharedStore i = .ok chunk) ∧
    Relation.ReflTransGen (Parallel.Step (serve fun _ => [])) (overlapped [.write 0 [7]] [])
      (overlapped [.write 0 [7]] sweptBetween) ∧
    (∀ t, ended ((overlapped [.write 0 [7]] sweptBetween).progs t) = some (.ok (), sharedStore)) ∧
    pointer (overlapped [.write 0 [7]] sweptBetween).world.bucket "v".toList 0 = some (pad [7]) ∧
    objectKey "v".toList (pad [7]) ∉ (overlapped [.write 0 [7]] sweptBetween).world.bucket ∧
    ((readAt 0 1 sharedStore).run (answer fun _ => [])
      (overlapped [.write 0 [7]] sweptBetween).world.bucket).1 =
        (.error (.other "missing cow object for chunk 0"), sharedStore) := by
  refine ⟨fun i _ => ⟨_, rfl⟩, Parallel.run_exec (fun _ _ _ => rfl) _ _, ?_, by decide +kernel,
    by decide +kernel, by decide +kernel⟩
  decide +kernel

end TwoThreads

end IscsiS3.Overlap
