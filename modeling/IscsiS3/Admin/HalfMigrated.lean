import IscsiS3.Admin.Locked
import IscsiS3.Admin.Operations
import IscsiS3.S3.Layout
import IscsiS3.S3.Plain

/-! A volume whose migration has failed half-way stays locked.  The caches refuse every call, and
the operations that pass them go by the layout, which is still the old one.  Only `volume.gc` and
`volume.wipe` release the lock although they fail. -/

namespace IscsiS3.Admin

open Request StoreM

section Views

variable {Req : Type} {Reply : Req → Type} {S T X α : Type} {K : X → Prop}

structure View.Calls (Reply : Req → Type) [BlockStore Reply S] (view : View X S) (K : X → Prop) :
    Prop where
  readAt : ∀ offset len, Preserves K (view.on (BlockStore.readAt offset len) : StoreM Reply X Bytes)
  writeAt : ∀ offset data,
    Preserves K (view.on (BlockStore.writeAt offset data) : StoreM Reply X Unit)
  setCapacity : ∀ newCapacity,
    Preserves K (view.on (BlockStore.setCapacity newCapacity) : StoreM Reply X Unit)
  flush : Preserves K (view.on BlockStore.flush : StoreM Reply X Unit)
  presentChunks : Preserves K (view.on BlockStore.presentChunks : StoreM Reply X (List Nat))
  deleteChunk : ∀ index,
    Preserves K (view.on (BlockStore.deleteChunk index) : StoreM Reply X Unit)

variable [BlockStore Reply S] [BlockStore Reply T] {source : View X S} {dest : View X T}

variable (hs : source.Calls Reply K)

include hs

theorem copyChunks_preserves (hd : dest.Calls Reply K) (resumeFrom : Option Nat)
    (capacity chunkSize : Nat) (chunks : List Nat) (r : CopyVolumeResult) : Preserves K
      (copyChunks source dest resumeFrom capacity chunkSize chunks r :
      StoreM Reply X CopyVolumeResult) := by
  induction chunks generalizing r with
  | nil => exact .pure r
  | cons idx rest ih =>
    unfold copyChunks
    split
    · exact ih _
    split
    · exact .throw _
    split
    · exact ih _
    · exact .bind (mapErr_preserves (hs.readAt _ _) _ _) fun bytes =>
        .bind (mapErr_preserves (hd.writeAt _ bytes) _ _) fun _ => ih _

theorem copyVolume_preserves (hd : dest.Calls Reply K) (resumeFrom : Option Nat) :
    Preserves K (copyVolume source dest resumeFrom : StoreM Reply X CopyVolumeResult) := by
  refine .get fun x hx => ?_
  dsimp only
  split
  · exact Preserves.throw _ x hx
  split
  · exact Preserves.throw _ x hx
  split
  · exact Preserves.throw _ x hx
  split
  · exact Preserves.throw _ x hx
  · exact Preserves.bind (mapErr_preserves hs.presentChunks _ _) (fun _ =>
      .bind (mapErr_preserves hd.presentChunks _ _) fun _ =>
      .bind (copyChunks_preserves hs hd _ _ _ _ _) fun _ =>
      .bind (.each _ fun idx => mapErr_preserves (hd.deleteChunk idx) _ _) fun _ =>
      .bind (mapErr_preserves hd.flush _ _) fun _ => .pure _) x hx

theorem exportChunks_preserves (writer : Writer) (chunkSize turns offset remaining : Nat) :
    Preserves K (exportChunks source writer chunkSize turns offset remaining :
      StoreM Reply X (List Bytes)) := by
  induction turns generalizing offset remaining with
  | zero => exact .pure []
  | succ turns ih =>
    unfold exportChunks
    split
    · exact .pure []
    · exact .bind (mapErr_preserves (hs.readAt _ _) _ _) fun bytes =>
        .bind (.lift _) fun _ => .bind (ih _ _) fun rest => .pure (bytes :: rest)

theorem exportImageToWriter_preserves (writer : Writer) (size : Nat) :
    Preserves K (exportImageToWriter source writer size :
      StoreM Reply X (Bytes × ExportImageResult)) := by
  refine .get fun x hx => ?_
  dsimp only
  split
  · exact Preserves.throw _ x hx
  split
  · exact Preserves.throw _ x hx
  · exact Preserves.bind (exportChunks_preserves hs _ _ _ _ _) (fun _ => .pure _) x hx

end Views

open S3

variable {V α : Type}

theorem requireQuiesced_preserves {K : AdminState V → Prop} (volume : Str) (sessions : Nat)
    (force : Bool) : Preserves K (requireQuiesced volume sessions force) := by
  unfold requireQuiesced
  split
  · exact .pure ()
  · exact .throw _

theorem requireId_preserves {K : AdminState V → Prop} (id : Option Str) :
    Preserves K (requireId id) := by
  cases id with
  | none => exact .throw _
  | some id => exact .pure id

/-- A volume of the old layout whose caches refuse every call. -/
def Sealed (s : VolumeStore) : Prop := s.store.Shut fun s3 => s3.storage = .legacy

def LockedAt (v : V) (st : AdminState V) : Prop := Sealed (st.volumeStores v)

variable {s : VolumeStore}

theorem Sealed.withCache (h : Sealed s) (cache : ChunkCache) :
    Sealed (s.withCache cache) :=
  ⟨⟨h.inner.ioLocked, h.inner.inner⟩, h.own.imp id fun he => ⟨he.dirty, he.buffer⟩⟩

theorem onStore_preserves {m : StoreM Reply (WriteCachedStore (CachedStore S3ChunkStore)) α}
    (h : Preserves (WriteCachedStore.Shut fun s3 => s3.storage = .legacy) m) :
    Preserves Sealed (Scheduled.onStore m) :=
  h.within (fun _ hs => hs) fun _ _ _ ht => ht

theorem onCache_preserves {v : V} (f : ChunkCache → ChunkCache) :
    Preserves (LockedAt v) (onCache f) :=
  .modify fun _ hst => hst

theorem cacheSet_preserves {v : V} (maxBytes : Nat) :
    Preserves (LockedAt v) (cacheSet maxBytes) := by
  unfold cacheSet
  split
  · exact onCache_preserves _
  · exact onCache_preserves _

variable [DecidableEq V] {u v : V} {m : StoreM Reply VolumeStore α}

theorem on_preserves_of_ne (huv : u ≠ v) :
    Preserves (LockedAt v) ((storeOf u).on m) := by
  refine Preserves.within (L := fun _ => True) (.trivial fun _ => trivial) (fun _ _ => trivial)
    fun st s hst _ => ?_
  simpa [LockedAt, storeOf, Function.update_of_ne (Ne.symm huv)] using hst

theorem on_preserves (h : Preserves Sealed m) :
    Preserves (LockedAt v) ((storeOf u).on m) := by
  by_cases huv : u = v
  · subst huv
    refine h.within (fun st hst => hst.withCache st.cache) fun st s _ hs => ?_
    simpa [LockedAt, storeOf] using hs
  · exact on_preserves_of_ne huv

theorem calls_lockedAt [External] : (storeOf u).Calls Reply (LockedAt v) where
  readAt offset len := on_preserves
    (onStore_preserves (WriteCachedStore.readAt_preserves offset len))
  writeAt offset data := by
    have write : Preserves Sealed (Scheduled.writeAt offset data :
      StoreM Reply VolumeStore Unit) := by
      refine .get fun s hs => Preserves.bind (.modify fun s hs => ?_) (fun _ => ?_) s hs
      · exact hs
      · exact onStore_preserves (WriteCachedStore.writeAt_preserves _ offset data)
    exact on_preserves write
  setCapacity newCapacity :=
    on_preserves (onStore_preserves (WriteCachedStore.setCapacity_preserves newCapacity))
  flush := on_preserves (onStore_preserves WriteCachedStore.flush_preserves)
  presentChunks := on_preserves (onStore_preserves WriteCachedStore.presentChunks_preserves)
  deleteChunk index := on_preserves
    (onStore_preserves (WriteCachedStore.deleteChunk_preserves index))

theorem onS3_preserves {m : VolM α} (h : ∀ s, s.storage = .legacy → m.Refused s) :
    Preserves (LockedAt v) (onS3 u m) := by
  refine mapErr_preserves (on_preserves (Refused.preserves fun s hs => ?_)) _ _
  have legacy : s.s3.storage = .legacy := hs.inner.inner
  exact Refused.within (t := s) (h s.s3 legacy) rfl

theorem invalidateVolume_preserves :
    Preserves (LockedAt v) (onVolume u VolumeStore.invalidateVolume) :=
  on_preserves (.modify fun _ hs => hs.withCache _)

theorem discardDirty_preserves : Preserves (LockedAt v) (onVolume u VolumeStore.discardDirty) :=
  on_preserves (onStore_preserves WriteCachedStore.discardDirty_preserves)

theorem sealed_update {stores : V → VolumeStore} {s3 : S3ChunkStore} (h : Sealed (stores v))
    (legacy : u = v → s3.storage = .legacy) :
    Sealed (Function.update stores u
      ((stores u).withCached ((stores u).cached.withInner s3)) v) := by
  by_cases huv : u = v
  · subst huv
    rw [Function.update_self]
    exact ⟨⟨h.inner.ioLocked, legacy rfl⟩, h.own.imp id fun he => ⟨he.dirty, he.buffer⟩⟩
  · rw [Function.update_of_ne (Ne.symm huv)]
    exact h

theorem sealed_or (h : Sealed s) (s3 : S3ChunkStore) :
    Sealed (s.withCached (s.cached.withInner s3)) ∨ s3.storage = .cow := by
  cases hs3 : s3.storage with
  | legacy => exact .inl ⟨⟨h.inner.ioLocked, hs3⟩, h.own.imp id fun he => ⟨he.dirty, he.buffer⟩⟩
  | cow => exact .inr rfl

theorem other_preserves {m : VolM α} (huv : u ≠ v) : Preserves (LockedAt v) (onS3 u m) :=
  mapErr_preserves (on_preserves_of_ne huv) _ _

section Volumes

variable [External]

theorem flush_preserves : Preserves (LockedAt v) (onVolume u VolumeStore.flush) :=
  on_preserves (onStore_preserves WriteCachedStore.flush_preserves)

theorem lockIo_preserves : Preserves (LockedAt v) (onVolume u VolumeStore.lockIo) :=
  on_preserves (.bind (onStore_preserves WriteCachedStore.flush_preserves).attempt fun _ =>
    .modify fun _ hs => ⟨⟨rfl, hs.inner.inner⟩, hs.own.imp id fun he => ⟨he.dirty, he.buffer⟩⟩)

theorem volumeCopy_preserves (source dest : V) (resumeFrom : Option Nat) :
    Preserves (LockedAt v) (volumeCopy source dest resumeFrom) := by
  unfold volumeCopy
  split
  · exact .throw _
  · exact .bind (copyVolume_preserves calls_lockedAt calls_lockedAt resumeFrom) fun _ => .pure ()

theorem volumeExport_preserves (writer : Writer) (size : Option Nat) :
    Preserves (LockedAt v) (volumeExport u writer size) := by
  refine .get fun st hst => ?_
  dsimp only
  split
  · exact Preserves.throw _ st hst
  split
  · exact Preserves.throw _ st hst
  · exact Preserves.bind (exportImageToWriter_preserves calls_lockedAt _ _)
      (fun _ => .pure _) st hst

theorem volumeGrow_preserves (newCapacity : Nat) :
    Preserves (LockedAt v) (volumeGrow u newCapacity) := by
  unfold volumeGrow
  split
  · exact .throw _
  refine .get fun st hst => ?_
  dsimp only
  split
  · exact Preserves.throw _ st hst
  split
  · exact Preserves.pure () st hst
  · exact mapErr_preserves (calls_lockedAt.setCapacity newCapacity) _ _ st hst

theorem volumeSnapshotCreate_preserves (sessions : Nat) (force : Bool) (now : Nat)
    (id name : Option Str) :
    Preserves (LockedAt v) (volumeSnapshotCreate u sessions force now id name) :=
  .get fun st hst => Preserves.bind (requireQuiesced_preserves _ _ _) (fun _ =>
    .bind (mapErr_preserves flush_preserves _ _) fun _ => .bind invalidateVolume_preserves fun _ =>
    .bind (onS3_preserves fun _ h => (requireCow_refused h).bind _) fun _ => .pure ()) st hst

theorem volumeSnapshotList_preserves : Preserves (LockedAt v) (volumeSnapshotList u) :=
  onS3_preserves fun _ h => (requireCow_refused h).bind _

theorem volumeSnapshotDelete_preserves (id : Option Str) :
    Preserves (LockedAt v) (volumeSnapshotDelete u id) :=
  .bind (requireId_preserves id) fun _ =>
    .bind (onS3_preserves fun _ h => (requireCow_refused h).bind _) fun _ => .pure ()

theorem volumeSnapshotRestore_preserves (sessions : Nat) (force : Bool) (id : Option Str) :
    Preserves (LockedAt v) (volumeSnapshotRestore u sessions force id) :=
  .get fun st hst => Preserves.bind (requireQuiesced_preserves _ _ _) (fun _ =>
    .bind (requireId_preserves id) fun _ => .bind (mapErr_preserves discardDirty_preserves _ _)
    fun _ => .bind invalidateVolume_preserves fun _ =>
    .bind (onS3_preserves fun _ h => (requireCow_refused h).bind _) fun _ =>
      invalidateVolume_preserves)
    st hst

theorem cloneInto_preserves {source dest : V} (id : Str) :
    Preserves (LockedAt v) ((bothS3 source dest).on (snapshotCloneInto id)) := by
  have refuses : Preserves (fun p : S3ChunkStore × S3ChunkStore =>
      (source = v → p.1.storage = .legacy) ∧ (dest = v → p.2.storage = .legacy))
      (snapshotCloneInto id) := by
    by_cases hsource : source = v
    · refine Refused.preserves fun p hp => Refused.bind ?_ _
      exact (requireCow_refused (hp.1 hsource)).within rfl
    by_cases hdest : dest = v
    · refine .bind (fun p hp => ?_) fun _ => Refused.preserves fun p hp => Refused.bind ?_ _
      · exact Preserves.within (L := fun _ => True) (.trivial fun _ => trivial) (fun _ _ => trivial)
          (fun _ _ hp _ => ⟨fun h => absurd h hsource, hp.2⟩) p hp
      · exact (requireCow_refused (hp.2 hdest)).within rfl
    · exact .trivial fun p => ⟨fun h => absurd h hsource, fun h => absurd h hdest⟩
  refine refuses.within (fun st hst => ⟨?_, ?_⟩) fun st p hst hp => ?_
  · rintro rfl
    exact hst.inner.inner
  · rintro rfl
    exact hst.inner.inner
  · exact sealed_update (sealed_update hst hp.1) hp.2

theorem volumeSnapshotClone_preserves (source dest : V) (id : Option Str) :
    Preserves (LockedAt v) (volumeSnapshotClone source dest id) := by
  unfold volumeSnapshotClone
  split
  · exact .throw _
  · exact .bind (requireId_preserves id) fun id => .bind (mapErr_preserves flush_preserves _ _)
      fun _ => .bind (mapErr_preserves discardDirty_preserves _ _) fun _ =>
      .bind invalidateVolume_preserves fun _ => .bind
        (mapErr_preserves (cloneInto_preserves id) _ _)
      fun _ => .pure ()

def Uncommitted (v : V) (st : AdminState V) : Prop := (st.volumeStores v).s3.storage = .legacy

variable {st : AdminState V}

theorem migrateLocked_keeps (h : LockedAt v st) :
    (migrateLocked v).Keeps Anything (fun st _ => LockedAt v st ∨ ¬Uncommitted v st) st ()
      fun _ _ _ => True := by
  have moved : (onVolume v (VolumeStore.onS3 migrateToCow)).Keeps Anything
      (fun st _ => LockedAt v st ∨ ¬Uncommitted v st) st () fun _ st' _ => ¬Uncommitted v st' := by
    refine Keeps.within (Keeps.within ?_)
    refine ((migrateToCow_commits _).weaken fun s3 _ _ => ?_).mono fun _ s3 _ _ hs3 => ?_
    · unfold LockedAt Uncommitted
      rw [storeOf_set]
      exact (sealed_or (h.withCache st.cache) s3).imp id fun hcow legacy =>
        nomatch hcow.symm.trans legacy
    · unfold Uncommitted
      rw [storeOf_set]
      exact fun legacy => nomatch hs3.2.symm.trans legacy
  refine Keeps.bind ((mapErr_keeps moved _ _).mono fun _ st' _ hK hst' => ?_)
  refine Keeps.within (Keeps.modify (.inr ?_) (.inr ?_) trivial)
  · unfold Uncommitted
    rw [storeOf_set]
    exact hst'
  · unfold Uncommitted
    rw [storeOf_set]
    exact hst'

/-- What the daemon does while a migration of the volume is unfinished: any operation except
`volume.gc` and `volume.wipe` of that volume, and the rest of the attempt itself. -/
inductive Meanwhile (v : V) : StoreM Reply (AdminState V) Unit → Prop
  | op (o : Op V) (gc : o ≠ .gc v) (wipe : o ≠ .wipe v) : Meanwhile v o.prog
  | rest : Meanwhile v (migrateLocked v)

theorem lockForMigration_preserves (sessions : Nat) :
    Preserves (LockedAt v) (lockForMigration u sessions) := by
  refine .get fun st hst => Preserves.bind (requireQuiesced_preserves _ _ _) (fun _ => ?_) st hst
  split
  · exact .throw _
  · exact .bind invalidateVolume_preserves fun _ => lockIo_preserves

theorem migrateLocked_preserves (huv : u ≠ v) : Preserves (LockedAt v) (migrateLocked u) :=
  .bind (mapErr_preserves (on_preserves_of_ne huv) _ _) fun _ => on_preserves_of_ne huv

theorem wipeVolume_preserves : Preserves (LockedAt v)
    (wipeVolume (storeOf u) : StoreM Reply (AdminState V) WipeVolumeResult) :=
  .bind (mapErr_preserves calls_lockedAt.presentChunks _ _) fun chunks =>
    .bind (.each chunks fun idx => mapErr_preserves (calls_lockedAt.deleteChunk idx) _ _) fun _ =>
    .bind (mapErr_preserves calls_lockedAt.flush _ _) fun _ => .pure _

theorem volumeWipe_preserves (huv : u ≠ v) : Preserves (LockedAt v) (volumeWipe u) :=
  .bind (mapErr_preserves discardDirty_preserves _ _) fun _ => .bind lockIo_preserves fun _ =>
    .bind (.attempt (.bind wipeVolume_preserves fun _ => .bind (other_preserves huv) fun _ =>
      .pure ())) fun result =>
    .bind (on_preserves_of_ne huv) fun _ => .lift result

theorem volumeGc_preserves (huv : u ≠ v) : Preserves (LockedAt v) (volumeGc u) :=
  .bind lockIo_preserves fun _ => .bind (other_preserves huv).attempt fun gc =>
    .bind (on_preserves_of_ne huv) fun _ => .bind (.lift gc) fun _ => .pure ()

theorem meanwhile_keeps {m : StoreM Reply (AdminState V) Unit} (hm : Meanwhile v m)
    (h : LockedAt v st) :
    m.Keeps Anything (fun st _ => LockedAt v st ∨ ¬Uncommitted v st) st () fun _ _ _ => True := by
  have preserved : ∀ {m : StoreM Reply (AdminState V) Unit}, Preserves (LockedAt v) m →
      m.Keeps Anything (fun st _ => LockedAt v st ∨ ¬Uncommitted v st) st () fun _ _ _ => True :=
    fun hm => (hm.keeps h fun _ => .inl).mono fun _ _ _ _ _ => trivial
  cases hm with
  | rest => exact migrateLocked_keeps h
  | op o gc wipe =>
    cases o with
    | cacheDisable => exact preserved (onCache_preserves _)
    | cacheEnable maxBytes => exact preserved (onCache_preserves fun c => c.enable maxBytes)
    | cacheSet maxBytes => exact preserved (cacheSet_preserves maxBytes)
    | copy source dest resumeFrom => exact preserved (volumeCopy_preserves source dest resumeFrom)
    | exportImage u writer size =>
      exact preserved (.bind (volumeExport_preserves writer size) fun _ => .pure ())
    | wipe u => exact preserved (volumeWipe_preserves fun huv => wipe (huv ▸ rfl))
    | gc u => exact preserved (volumeGc_preserves fun huv => gc (huv ▸ rfl))
    | grow u newCapacity => exact preserved (volumeGrow_preserves newCapacity)
    | snapshotCreate u sessions force now id name =>
      exact preserved (volumeSnapshotCreate_preserves sessions force now id name)
    | snapshotList u => exact preserved (.bind volumeSnapshotList_preserves fun _ => .pure ())
    | snapshotDelete u id => exact preserved (volumeSnapshotDelete_preserves id)
    | snapshotRestore u sessions force id =>
      exact preserved (volumeSnapshotRestore_preserves sessions force id)
    | snapshotClone source dest id => exact preserved (volumeSnapshotClone_preserves source dest id)
    | migrateCow u sessions =>
      by_cases huv : u = v
      · subst huv
        exact Keeps.bind (((lockForMigration_preserves sessions).keeps h fun _ => .inl).mono
          fun _ _ _ _ hst => migrateLocked_keeps hst)
      · exact preserved (.bind (lockForMigration_preserves sessions) fun _ =>
          migrateLocked_preserves huv)
    | readAt u offset len =>
      exact preserved (.bind (calls_lockedAt.readAt offset len) fun _ => .pure ())
    | writeAt u offset data => exact preserved (calls_lockedAt.writeAt offset data)
    | flush u => exact preserved calls_lockedAt.flush
    | workerTurn u turn =>
      exact preserved (on_preserves (onStore_preserves
        (WriteCachedStore.workerTurn_preserves turn)))

/-- A step: something happens, it ends in any way, and the migration is not committed by it. -/
def Step (v : V) (st st' : AdminState V) : Prop :=
  ∃ m, Meanwhile v m ∧ (∃ r, (m st).Runs Anything () (r, st') ()) ∧ Uncommitted v st'

theorem Step.lockedAt {st st' : AdminState V} (step : Step v st st') (h : LockedAt v st) :
    LockedAt v st' := by
  obtain ⟨m, hm, ⟨r, runs⟩, uncommitted⟩ := step
  exact (Prog.Safe.runs (meanwhile_keeps hm h).ends runs).resolve_right fun h => h uncommitted

theorem run_lockedAt {st st' : AdminState V} (run : Relation.ReflTransGen (Step v) st st')
    (h : LockedAt v st) : LockedAt v st' := by
  induction run with
  | refl => exact h
  | tail _ step ih => exact step.lockedAt ih

theorem lockIo_seals (h : s.s3.storage = .legacy) :
    VolumeStore.lockIo.Safe Anything (fun _ => True) s () fun r s' _ => r = .ok () → Sealed s' := by
  have writes : ∀ offset data, Preserves (fun s : S3ChunkStore => s.storage = .legacy)
      (BlockStore.writeAt offset data : StoreM Reply S3ChunkStore Unit) :=
    fun offset data => S3.writeAt_preserves offset data
  have flushes : Preserves (fun s : S3ChunkStore => s.storage = .legacy)
      (BlockStore.flush : StoreM Reply S3ChunkStore Unit) := .pure ()
  have locks : ∀ s' : VolumeStore, s'.store.Drained (fun s3 => s3.storage = .legacy) →
      Sealed (s'.withCached s'.cached.lockIo) := fun s' hs' =>
    ⟨⟨rfl, hs'.1⟩, hs'.2.imp id fun he => ⟨he.dirty, he.buffer⟩⟩
  refine Safe.bind (Safe.attempt (Safe.within ?_))
  refine (WriteCachedStore.flush_drains writes flushes h).mono fun r t _ _ ht => ?_
  cases r with
  | ok a =>
    dsimp only [Then]
    exact Safe.modify trivial fun _ => locks _ (ht nofun)
  | error e =>
    dsimp only [Then]
    exact Safe.modify trivial fun _ => locks _ (ht nofun)
  | panic | waits => exact nofun

theorem lockForMigration_locks {sessions : Nat} {st₀ st₁ : AdminState V}
    (run : (lockForMigration v sessions st₀).Runs Anything () (.ok (), st₁) ()) :
    LockedAt v st₁ := by
  have safe : (lockForMigration v sessions).Safe Anything (fun _ => True) st₀ ()
      fun r st' _ => r = .ok () → LockedAt v st' := by
    refine Safe.bind (Safe.get trivial ?_)
    dsimp only [Then]
    refine Safe.bind ((requireQuiesced_preserves (K := (· = st₀)) _ sessions false st₀
      rfl).ends.mono ?_)
    rintro r _ _ - rfl
    cases r with
    | error _ | panic | waits => exact nofun
    | ok a =>
    dsimp only [Then]
    split
    · exact Safe.done trivial nofun
    · rename_i legacy
      refine Safe.bind (Safe.within (Safe.modify trivial ?_))
      dsimp only [Then]
      refine Safe.within ((lockIo_seals ?_).mono fun r s _ _ hs hr => ?_)
      · rw [storeOf_get_set]
        exact not_not.mp legacy
      · unfold LockedAt
        rw [storeOf_set]
        exact hs hr
  exact Prog.Safe.runs safe run rfl

theorem read_refused (h : LockedAt v st) (offset : Nat) {len : Nat} (hlen : 0 < len) :
    ∃ e st', ((storeOf v).on (BlockStore.readAt offset len) :
      StoreM Reply (AdminState V) Bytes) st = .ret (.error e, st') := by
  have refused : (BlockStore.readAt offset len : StoreM Reply VolumeStore Bytes).Refused
      ((storeOf v).get st) :=
    (WriteCachedStore.readAt_refused (h.withCache st.cache) offset hlen).within rfl
  obtain ⟨e, he⟩ := refused
  refine ⟨e, (storeOf v).set st ((storeOf v).get st), ?_⟩
  change ((BlockStore.readAt offset len : StoreM Reply VolumeStore Bytes) _).bind _ = _
  rw [he]
  rfl

theorem write_refused (h : LockedAt v st) (offset : Nat) {data : Bytes} (hdata : data ≠ []) :
    ∃ r st', ((storeOf v).on (BlockStore.writeAt offset data) :
      StoreM Reply (AdminState V) Unit) st = .ret (r, st') ∧ r ≠ .ok () := by
  let s := (storeOf v).get st
  obtain ⟨r, hr, hne⟩ : ∃ r, (WriteCachedStore.writeAt (s.schedule.headD []) offset data :
      StoreM Reply (WriteCachedStore (CachedStore S3ChunkStore)) Unit) s.store = .ret (r, s.store) ∧
        r ≠ .ok () :=
    WriteCachedStore.writeAt_shut (h.withCache st.cache) _ offset hdata
  refine ⟨r, (storeOf v).set st { s with schedule := s.schedule.tail }, ?_, hne⟩
  change ((WriteCachedStore.writeAt (s.schedule.headD []) offset data s.store).bind _).bind _ = _
  rw [hr]
  rfl

/-- From the lock of a migration on, until an attempt commits, a read of the volume fails and no
write is accepted, whatever happens to the daemon's volumes except `volume.gc` and `volume.wipe` of
this one. -/
theorem half_migrated_stays_locked {sessions : Nat} {st₀ st₁ st₂ : AdminState V}
    (locks : (lockForMigration v sessions st₀).Runs Anything () (.ok (), st₁) ())
    (run : Relation.ReflTransGen (Step v) st₁ st₂) :
    (∀ offset len, 0 < len → ∃ e st', ((storeOf v).on (BlockStore.readAt offset len) :
      StoreM Reply (AdminState V) Bytes) st₂ = .ret (.error e, st')) ∧
    ∀ offset data, data ≠ [] → ∃ r st', ((storeOf v).on (BlockStore.writeAt offset data) :
      StoreM Reply (AdminState V) Unit) st₂ = .ret (r, st') ∧ r ≠ .ok () := by
  have locked : LockedAt v st₂ := run_lockedAt run (lockForMigration_locks locks)
  exact ⟨fun offset _ hlen => read_refused locked offset hlen,
    fun offset _ hdata => write_refused locked offset hdata⟩

end Volumes

section HalfMoved

open Plain

def legacyVolume : S3ChunkStore := ⟨"v".toList, 1, 1, .none, .legacy, 4, "v".toList⟩

def legacyBucket : Bucket :=
  ((∅ : Bucket).insert (flatMetaKey "v".toList)
    (json (⟨metaVersion, 4, 1, 1, .none, .legacy⟩ : VolumeMeta))).insert
      (legacyChunkKey "v".toList 0) [7]

def daemon : AdminState Unit where
  cache := .new 0
  volumeStores _ := ⟨.opened ⟨legacyVolume, .new 0, "v".toList, false⟩ .none 0 0 ∅, []⟩

/-- The service, when it does not take the metadata of the new layout. -/
def withoutCommit : (r : S3.Req) → Bucket → Reply r × Bucket
  | .put key body ifMatch, b =>
    if key = liveMetaKey "v".toList then (.error .timeout, b)
    else answer (fun _ => []) (.put key body ifMatch) b
  | .get key, b => answer (fun _ => []) (.get key) b
  | .delete key, b => answer (fun _ => []) (.delete key) b
  | .list front, b => answer (fun _ => []) (.list front) b

@[irreducible] def atLock : (Outcome Unit × AdminState Unit) × Bucket :=
  (lockForMigration () 0 daemon).run withoutCommit legacyBucket

@[irreducible] def halfMoved : (Outcome Unit × AdminState Unit) × Bucket :=
  (migrateLocked () atLock.1.2).run withoutCommit atLock.2

theorem half_migrated_stays_locked_half_moved :
    ∃ e st', ((storeOf ()).on (BlockStore.readAt 0 1) : StoreM Reply (AdminState Unit) Bytes)
      halfMoved.1.2 = .ret (.error e, st') := by
  have locks : (lockForMigration () 0 daemon).Runs Anything () (.ok (), atLock.1.2) () := by
    have ok : atLock.1 = (.ok (), atLock.1.2) := Prod.ext (by decide +kernel) rfl
    rw [← ok, atLock]
    exact runs_anything withoutCommit _ _
  have rest : (migrateLocked () atLock.1.2).Runs Anything () (halfMoved.1.1, halfMoved.1.2) () := by
    rw [halfMoved]
    exact runs_anything withoutCommit _ _
  have step : Step () atLock.1.2 halfMoved.1.2 := by
    refine ⟨_, .rest, ⟨_, rest⟩, ?_⟩
    unfold Uncommitted
    decide +kernel
  exact (half_migrated_stays_locked locks (.single step)).1 0 1 (by decide)

@[irreducible] def collected : (Outcome Unit × AdminState Unit) × Bucket :=
  (volumeGc () halfMoved.1.2).run withoutCommit halfMoved.2

/-- The migration and the collection both fail, and after that a read returns a zero for the byte of
the chunk that has moved. -/
theorem gc_unlocks_half_migrated :
    (((storeOf ()).on (BlockStore.readAt 0 1) :
      StoreM Reply (AdminState Unit) Bytes) daemon |>.run withoutCommit legacyBucket).1.1 = .ok
        [7] ∧
    atLock.1.1 = .ok () ∧
    halfMoved.1.1 = .error (.other
      ("S3 error: timed out waiting for S3 operation (volume remains " ++
      "I/O-locked; re-run migrate-cow to resume, or restart the daemon to auto-resume)")) ∧
    collected.1.1 = .error (.other
      ("volume v uses storage=legacy; set storage=\"cow\" (and migrate) " ++ "to use snapshots")) ∧
    Uncommitted () collected.1.2 ∧
    (((storeOf ()).on (BlockStore.readAt 0 1) :
      StoreM Reply (AdminState Unit) Bytes) collected.1.2 |>.run withoutCommit collected.2).1.1 =
        .ok [0] := by
  unfold Uncommitted
  decide +kernel

end HalfMoved

end IscsiS3.Admin
