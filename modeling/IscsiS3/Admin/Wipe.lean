import IscsiS3.Admin.Locked
import IscsiS3.Admin.Operations
import IscsiS3.S3.Plain

/-! `volume.wipe` takes the I/O lock and then deletes the chunks through the store that it has
locked. The listing of the chunks is refused, and so no wipe succeeds. -/

namespace IscsiS3.Admin

open Request StoreM S3

section Wipe

variable [External] {V : Type} [DecidableEq V] {v : V}

theorem lockIo_locks (s : VolumeStore) : VolumeStore.lockIo.Keeps Anything (fun _ _ => True) s ()
    fun _ s' _ => s'.cached.ioLocked = true := by
  have flushed : Preserves (fun _ : VolumeStore => True) VolumeStore.flush.attempt :=
    .trivial fun _ => trivial
  exact Keeps.bind ((flushed s trivial).mono fun _ _ _ _ _ => Keeps.modify trivial trivial rfl)

theorem presentChunks_locked {s : VolumeStore} (h : s.cached.ioLocked = true) :
    (BlockStore.presentChunks : StoreM Reply VolumeStore (List Nat)).Refused s := by
  refine Refused.within (t := s) (Refused.bind ?_ _) rfl
  exact WriteCachedStore.onInner_refused (CachedStore.presentChunks_refused h)

theorem wipeVolume_locked {st : AdminState V} (h : (st.volumeStores v).cached.ioLocked = true) :
    (wipeVolume (storeOf v) : StoreM Reply (AdminState V) WipeVolumeResult).Keeps Anything
      (fun _ _ => True) st () fun _ _ _ => False := by
  have listed : ((storeOf v).on BlockStore.presentChunks :
      StoreM Reply (AdminState V) (List Nat)).Keeps Anything (fun _ _ => True) st ()
        fun _ _ _ => False :=
    Keeps.within (Refused.keeps (presentChunks_locked h) trivial)
  exact Keeps.bind ((mapErr_keeps listed _ _).mono fun _ _ _ _ hfalse => hfalse.elim)

/-- The wipe of any volume, in any state of the daemon and whatever the service answers, does not
return `Ok`. -/
theorem volume_wipe_fails {st st' : AdminState V} {r : Outcome Unit}
    (run : (volumeWipe v st).Runs Anything () (r, st') ()) : r ≠ .ok () := by
  have anyway : ∀ {α : Type} {m : StoreM Reply (AdminState V) α} (st : AdminState V),
      m.Keeps Anything (fun _ _ => True) st () fun _ _ _ => True := fun st =>
    Preserves.trivial (fun _ => trivial) st trivial
  have locked : ∀ st : AdminState V, (onVolume v VolumeStore.lockIo).Keeps Anything
      (fun _ _ => True) st () fun _ st' _ => (st'.volumeStores v).cached.ioLocked = true := by
    refine fun st => Keeps.within ((lockIo_locks _).mono fun _ s _ _ hs => ?_)
    rw [storeOf_set]
    exact hs
  have never : (volumeWipe v).Keeps Anything (fun _ _ => True) st () fun _ _ _ => False := by
    refine Keeps.bind ((anyway st).mono fun _ st _ _ _ => ?_)
    refine Keeps.bind ((locked st).mono fun _ st _ _ hst => ?_)
    refine Keeps.bind ((Keeps.attempt (R := fun r _ _ => ∀ a, r ≠ .ok a)
      (Keeps.bind ((wipeVolume_locked hst).mono fun _ _ _ _ hfalse => hfalse.elim))
      fun _ _ _ _ => nofun).mono fun result st _ _ hresult => ?_)
    refine Keeps.bind ((anyway st).mono fun _ st _ _ _ => Keeps.lift trivial fun a ha => ?_)
    exact hresult a ha
  rintro rfl
  exact (Prog.Safe.runs never run).2

end Wipe

section OneChunk

open Plain

def sparse : S3ChunkStore := ⟨"v".toList, 1, 1, .none, .legacy, 4, "v".toList⟩

def oneChunk : Bucket :=
  ((∅ : Bucket).insert (flatMetaKey "v".toList)
    (json (⟨metaVersion, 4, 1, 1, .none, .legacy⟩ : VolumeMeta))).insert
      (legacyChunkKey "v".toList 0) [7]

def oneVolumeDaemon : AdminState Unit where
  cache := .new 0
  volumeStores _ := ⟨.opened ⟨sparse, .new 0, "v".toList, false⟩ .none 0 0 ∅, []⟩

@[irreducible] def wiped : (Outcome Unit × AdminState Unit) × Bucket :=
  (volumeWipe () oneVolumeDaemon).run (answer fun _ => []) oneChunk

theorem volume_wipe_fails_one_chunk : wiped.1.1 ≠ .ok () := by
  have run : (volumeWipe () oneVolumeDaemon).Runs Anything () (wiped.1.1, wiped.1.2) () := by
    rw [wiped]
    exact runs_anything (answer fun _ => []) _ oneChunk
  exact volume_wipe_fails run

/-- Every request succeeds, and yet the wipe fails and the chunk is still there. -/
theorem wipe_leaves_chunk :
    wiped.1.1 = .error (.other ("list chunks: volume v is locked (migration in progress); wait " ++
      "for migrate-cow to finish")) ∧
    (((storeOf ()).on BlockStore.presentChunks :
      StoreM Reply (AdminState Unit) (List Nat)) wiped.1.2 |>.run (answer fun _ => [])
        wiped.2).1.1 = .ok [0] ∧
    (((storeOf ()).on (BlockStore.readAt 0 1) :
      StoreM Reply (AdminState Unit) Bytes) wiped.1.2 |>.run (answer fun _ => [])
        wiped.2).1.1 = .ok [7] := by
  decide +kernel

end OneChunk

end IscsiS3.Admin
