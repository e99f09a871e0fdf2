import Mathlib.Data.List.Infix
import IscsiS3.Admin.Reload
import IscsiS3.S3.Territory

/-! Which volumes of a configuration are isolated from each other.  `validate` compares the prefixes
as they are written; the store trims their slashes and puts several directories below each of
them. -/

namespace IscsiS3.S3

open Request

def AgreeOn (keys : Set Key) (b b' : Bucket) : Prop := ∀ k ∈ keys, b.lookup k = b'.lookup k

section AgreeOn

variable {keys : Set Key} {b b' : Bucket} {r : Req}

section

variable (h : AgreeOn keys b b')

include h

theorem AgreeOn.mem {k : Key} (hk : k ∈ keys) : k ∈ b ↔ k ∈ b' := by
  rw [← AList.lookup_isSome, ← AList.lookup_isSome, h k hk]

theorem AgreeOn.insert (key : Key) (body : Bytes) :
    AgreeOn keys (b.insert key body) (b'.insert key body) := by
  intro k hk
  by_cases heq : k = key
  · subst heq
    rw [AList.lookup_insert, AList.lookup_insert]
  · rw [AList.lookup_insert_ne heq, AList.lookup_insert_ne heq, h k hk]

theorem AgreeOn.erase (key : Key) :
    AgreeOn keys (b.erase key) (b'.erase key) := by
  intro k hk
  by_cases heq : k = key
  · subst heq
    rw [AList.lookup_erase, AList.lookup_erase]
  · rw [AList.lookup_erase_ne heq, AList.lookup_erase_ne heq, h k hk]

theorem AgreeOn.listed {front : Key} (hfront : ∀ k, front <+: k → k ∈ keys) :
    b.listed front = b'.listed front := by
  have sorted : ∀ b : Bucket, (b.listed front).Pairwise (· ≤ ·) := fun b =>
    List.pairwise_insertionSort _ _
  have nodup : ∀ b : Bucket, (b.listed front).Nodup := fun b =>
    (List.perm_insertionSort _ _).nodup_iff.mpr (b.nodupKeys.filter _)
  refine List.Perm.eq_of_pairwise' (sorted b) (sorted b') ?_
  refine (List.perm_ext_iff_of_nodup (nodup b) (nodup b')).mpr fun k => ?_
  rw [Bucket.mem_listed, Bucket.mem_listed]
  exact and_congr_left fun hk => h.mem (hfront k hk)

theorem AgreeOn.answer {etag : Bytes → Str} (hr : r.names ⊆ keys) :
    (answer etag r b).1 = (answer etag r b').1 ∧
      AgreeOn keys (answer etag r b).2 (answer etag r b').2 := by
  cases r with
  | get key =>
    simp only [S3.answer, h key (hr rfl)]
    split
    · exact ⟨rfl, h⟩
    · exact ⟨rfl, h⟩
  | put key body ifMatch =>
    have hmatches : b.matches etag key ifMatch = b'.matches etag key ifMatch := by
      cases ifMatch with
      | none => rfl
      | some e => simp only [Bucket.matches, h key (hr rfl)]
    simp only [S3.answer, hmatches]
    split
    · exact ⟨rfl, h.insert key body⟩
    · exact ⟨rfl, h⟩
  | delete key => exact ⟨rfl, h.erase key⟩
  | list front => exact ⟨congrArg Except.ok (h.listed fun k hk => hr hk), h⟩

end

theorem agreeOn_of_unreliable {x : Reply r} (hr : ∀ k ∈ r.names, k ∉ keys)
    (h : Unreliable r b x b') : AgreeOn keys b b' := by
  have changed : ∀ (effect : Bucket) {key : Key}, key ∉ keys →
      (∀ k, k ≠ key → effect.lookup k = b.lookup k) → b' = b ∨ b' = effect → AgreeOn keys b b' := by
    rintro effect key hkey heffect (rfl | rfl) k hk
    · rfl
    · exact (heffect k fun heq => hkey (heq ▸ hk)).symm
  cases r with
  | get key => exact h.1 ▸ fun _ _ => rfl
  | put key body ifMatch =>
    refine changed (b.insert key body) (hr key rfl) (fun k hk => AList.lookup_insert_ne hk) ?_
    rcases h with ⟨-, heffect⟩ | ⟨-, -, hor⟩
    · exact .inr heffect
    · exact hor
  | delete key =>
    refine changed (b.erase key) (hr key rfl) (fun k hk => AList.lookup_erase_ne hk) ?_
    rcases h with ⟨-, heffect⟩ | ⟨-, -, hor⟩
    · exact .inr heffect
    · exact hor
  | list front => exact h.1 ▸ fun _ _ => rfl

end AgreeOn

/-- The directories of a volume; the legacy chunks are used only by a volume that is configured as
legacy. -/
def directories : StorageMode → List Area
  | .legacy => [.legacyChunks, .liveChunks, .objects, .snapshots]
  | .cow => [.liveChunks, .objects, .snapshots]

def areas (storage : StorageMode) : Set Area :=
  { a | a ∈ [.flatMeta, .liveMeta, .migrating] ++ directories storage }

/-- The family `g` lies where the volume of family `f` has its own keys: it is `f/live`, or it is a
directory of the volume or below one. -/
def Inside (f : Str) (storage : StorageMode) (g : Str) : Prop :=
  g = f ++ "/live".toList ∨ ∃ a ∈ directories storage, areaFront f a <+: g ++ ['/']

instance (f : Str) (storage : StorageMode) (g : Str) : Decidable (Inside f storage g) :=
  inferInstanceAs (Decidable (_ ∨ _))

theorem path_through (a : Area) {t : Str} (h : t ++ ['/'] <+: a.path) :
    t = [] ∨ t = "/live".toList ∨ a.path = t ++ ['/'] := by
  have cut : ∀ front ∈ a.path.inits, front.getLast? = some '/' →
      front = ['/'] ∨ front = "/live".toList ++ ['/'] ∨ front = a.path := by
    cases a <;> decide
  rcases cut (t ++ ['/']) ((List.mem_inits _ _).mpr h) (by simp) with heq | heq | heq
  · exact .inl (List.append_cancel_right (heq.trans (List.nil_append _).symm))
  · exact .inr (.inl (List.append_cancel_right heq))
  · exact .inr (.inr heq.symm)

theorem inside_of_common {f g : Str} {storage : StorageMode} {a b : Area} {k : Key}
    (ha : a ∈ areas storage) (hf : a.Has f k) (hg : b.Has g k) (hfg : f <+: g) :
    f = g ∨ Inside f storage g := by
  obtain ⟨t, rfl⟩ := hfg
  have hslash : f ++ t ++ ['/'] <+: k := (slash_areaFront _ b).trans hg.inArea
  -- a directory of `f`, or a single key, which does not end with a slash
  have through : areaFront f a <+: f ++ t ++ ['/'] → Inside f storage (f ++ t) := by
    intro h
    have single : k = areaFront f a → a.path.getLast? = some '/' := by
      rintro rfl
      have hpath := h.eq_of_length_le hslash.length_le
      rw [areaFront, List.append_assoc] at hpath
      rw [List.append_cancel_left hpath]
      simp
    cases a with
    | flatMeta | liveMeta | migrating => exact absurd (single hf) (by decide)
    | legacyChunks => exact .inr ⟨_, by simpa [areas] using ha, h⟩
    | liveChunks => exact .inr ⟨_, by simpa [areas] using ha, h⟩
    | objects => exact .inr ⟨_, by simpa [areas] using ha, h⟩
    | snapshots => exact .inr ⟨_, by simpa [areas] using ha, h⟩
  rcases List.prefix_or_prefix_of_prefix hf.inArea hslash with h | h
  · exact .inr (through h)
  · rw [areaFront, List.append_assoc, List.prefix_append_right_inj] at h
    rcases path_through a h with rfl | rfl | heq
    · exact .inl (List.append_nil f).symm
    · exact .inr (.inl rfl)
    · refine .inr (through ?_)
      rw [areaFront, heq, List.append_assoc]

theorem common_of_inside {f g : Str} {storage : StorageMode} (h : Inside f storage g) :
    ∃ k, k = flatMetaKey g ∧ k ∈ territory f (areas storage) := by
  refine ⟨_, rfl, ?_⟩
  rcases h with rfl | ⟨a, ha, hfront⟩
  · refine ⟨.liveMeta, by simp [areas], ?_⟩
    show f ++ "/live".toList ++ Area.flatMeta.path = f ++ Area.liveMeta.path
    rw [List.append_assoc]
    exact congrArg (f ++ ·) (by decide)
  · refine ⟨a, by simp [areas, ha], ?_⟩
    have hkey : InArea f a (flatMetaKey g) := hfront.trans (slash_areaFront g .flatMeta)
    cases a with
    | flatMeta | liveMeta | migrating => cases storage <;> simp [directories] at ha
    | legacyChunks | liveChunks | objects | snapshots => exact hkey

end IscsiS3.S3

namespace IscsiS3.Admin

open Request S3

/-- The states in which the daemon can have the volume open. -/
def Serving (vol : VolumeConfig) (s : S3ChunkStore) : Prop :=
  ∃ capacity storage, s = { S3ChunkStore.initial (storeConfig vol) with
    capacity := capacity, storage := storage } ∧ (vol.storage = .cow → storage = .cow)

def realm (vol : VolumeConfig) : Realm where
  family := trimSlashes vol.family
  states := Serving vol
  areas := areas vol.storage
  may := fun r => r.names ⊆ territory (trimSlashes vol.family) (areas vol.storage)
  own := by
    rintro s ⟨capacity, storage, rfl, -⟩
    rfl
  legacy := by
    rintro s ⟨capacity, storage, rfl, hcow⟩ hlegacy
    cases hvol : vol.storage with
    | legacy => simp [areas, directories]
    | cow => exact absurd (hlegacy.symm.trans (hcow hvol)) (by decide)
  rest := by
    rintro a (rfl | rfl | rfl | rfl) <;> cases vol.storage <;> simp [areas, directories]
  gets := names_subset
  lists := fun ha h k hk => ⟨_, ha, h k hk⟩
  fits := Fitting
  fitting := fitting_self

theorem realm_open (vol : VolumeConfig) : (realm vol).Open where
  toWrites := Realm.writes_of_names fun _ h => h
  flat := by simp [realm, areas]
  live := by simp [realm, areas]
  capacity := by
    rintro s n ⟨capacity, storage, rfl, hcow⟩
    exact ⟨n, storage, rfl, hcow⟩
  cow := by
    rintro s ⟨capacity, storage, rfl, -⟩
    exact ⟨capacity, .cow, rfl, fun _ => rfl⟩

inductive VolumeCall where
  | openVolume
  | readAt (offset len : Nat)
  | writeAt (offset : Nat) (data : Bytes)
  | deleteChunk (index : Nat)
  | setCapacity (newCapacity : Nat)
  | presentChunks
  | snapshotCreate (now : Nat) (id sourceVolume : Str)
  | snapshotGet (id : Str)
  | snapshotList
  | snapshotDelete (id : Str)
  | snapshotRestore (id : Str)
  | gcUnreferencedObjects
  | migrateToCow
  | wipeObjectsAndSnapshots

section Programs

variable [External]

def VolumeCall.prog (vol : VolumeConfig) (s : S3ChunkStore) :
    VolumeCall → Prog Req Reply S3ChunkStore
  | .openVolume => (S3.openVolume (storeConfig vol) (.initial (storeConfig vol))).bind (.ret ·.2)
  | .readAt offset len => (S3.readAt offset len s).bind (.ret ·.2)
  | .writeAt offset data => (S3.writeAt offset data s).bind (.ret ·.2)
  | .deleteChunk index => (deleteChunkObject index s).bind (.ret ·.2)
  | .setCapacity newCapacity => (S3.setCapacity newCapacity s).bind (.ret ·.2)
  | .presentChunks => (S3.presentChunks s).bind (.ret ·.2)
  | .snapshotCreate now id sourceVolume =>
      (S3.snapshotCreate now id sourceVolume s).bind (.ret ·.2)
  | .snapshotGet id => (S3.snapshotGet id s).bind (.ret ·.2)
  | .snapshotList => (S3.snapshotList s).bind (.ret ·.2)
  | .snapshotDelete id => (S3.snapshotDelete id s).bind (.ret ·.2)
  | .snapshotRestore id => (S3.snapshotRestore id s).bind (.ret ·.2)
  | .gcUnreferencedObjects => (S3.gcUnreferencedObjects s).bind (.ret ·.2)
  | .migrateToCow => (S3.migrateToCow s).bind (.ret ·.2)
  | .wipeObjectsAndSnapshots => (S3.wipeObjectsAndSnapshots s).bind (.ret ·.2)

/-- The keys that the calls of a volume can read, write or delete. -/
def touched (vol : VolumeConfig) : Set Key :=
  { k | ∃ (c : VolumeCall) (s : S3ChunkStore) (b : Bucket) (r : Req), Serving vol s ∧
    (c.prog vol s).CanAsk Unreliable b r ∧ k ∈ r.names }

def Overlaps (u v : VolumeConfig) : Prop :=
  trimSlashes u.family = trimSlashes v.family ∨
    Inside (trimSlashes u.family) u.storage (trimSlashes v.family) ∨
    Inside (trimSlashes v.family) v.storage (trimSlashes u.family)

omit [External] in
instance (u v : VolumeConfig) : Decidable (Overlaps u v) := inferInstanceAs (Decidable (_ ∨ _))

variable {vol : VolumeConfig} {s : S3ChunkStore}

omit [External] in
theorem confined_of_stays {α : Type} {m : VolM α} (h : (realm vol).Stays m) (hs : Serving vol s) :
    ((m s).bind (.ret ·.2)).Confined Fitting
      (fun r => r.names ⊆ territory (trimSlashes vol.family) (areas vol.storage)) (Serving vol) :=
  Prog.Confined.bind ((h s hs).mono fun _ hr => hr.1)

theorem prog_confined (c : VolumeCall) (hs : Serving vol s) :
    (c.prog vol s).Confined Fitting
      (fun r => r.names ⊆ territory (trimSlashes vol.family) (areas vol.storage))
        (Serving vol) := by
  have hopen := realm_open vol
  have pool : ∀ key, InArea (realm vol).family .objects key → (realm vol).may (.delete key) :=
    fun _ hk => hopen.deletes Realm.has_objects (by decide) hk
  have snapshot : ∀ {key}, InArea (realm vol).family .snapshots key →
      ({key} : Set Key) ⊆ territory (realm vol).family (realm vol).areas :=
    fun hk => names_subset Realm.has_snapshots hk
  cases c with
  | openVolume =>
    refine confined_of_stays (hopen.openVolume_stays _ ?_)
      ⟨vol.capacity, vol.storage, rfl, fun hcow => hcow⟩
    rintro s ⟨capacity, storage, rfl, -⟩
    exact ⟨capacity, vol.storage, rfl, fun hcow => hcow⟩
  | readAt offset len => exact confined_of_stays (Realm.readAt_stays offset len) hs
  | writeAt offset data => exact confined_of_stays (hopen.writeAt_stays offset data) hs
  | deleteChunk index => exact confined_of_stays (hopen.deleteChunkObject_stays index) hs
  | setCapacity n => exact confined_of_stays (hopen.setCapacity_stays n) hs
  | presentChunks => exact confined_of_stays Realm.presentChunks_stays hs
  | snapshotCreate now id source =>
    exact confined_of_stays (Realm.snapshotCreate_stays now id source
      (fun _ => snapshot (inArea_chunks _ _)) fun _ => snapshot (inArea_manifest _ _)) hs
  | snapshotGet id => exact confined_of_stays (Realm.snapshotGet_stays id) hs
  | snapshotList => exact confined_of_stays Realm.snapshotList_stays hs
  | snapshotDelete id => exact confined_of_stays (Realm.snapshotDelete_stays id
      (snapshot (inArea_chunks _ _)) (snapshot (inArea_manifest _ _)) pool) hs
  | snapshotRestore id => exact confined_of_stays (hopen.snapshotRestore_stays id) hs
  | gcUnreferencedObjects => exact confined_of_stays (Realm.gcUnreferencedObjects_stays pool) hs
  | migrateToCow => exact confined_of_stays hopen.migrateToCow_stays hs
  | wipeObjectsAndSnapshots =>
    exact confined_of_stays (hopen.wipeObjectsAndSnapshots_stays fun _ => snapshot) hs

/-- Every key of the territory is named: by the first request of some call. -/
theorem territory_subset_touched :
    territory (trimSlashes vol.family) (areas vol.storage) ⊆ touched vol := by
  rintro k ⟨a, ha, hk⟩
  have state : ∀ storage, (vol.storage = .cow → storage = .cow) →
      Serving vol { S3ChunkStore.initial (storeConfig vol) with storage := storage } :=
    fun storage h => ⟨vol.capacity, storage, rfl, h⟩
  cases a with
  | flatMeta =>
    -- the second request, after metadata of the other layout was not found
    refine ⟨.openVolume, _, ∅, .get _, state _ id,
      .inr ⟨.error .noSuchKey, ∅, ⟨rfl, rfl⟩, .inl rfl⟩, hk⟩
  | liveMeta => exact ⟨.openVolume, _, ∅, .get _, state _ id, .inl rfl, hk⟩
  | migrating =>
    cases hvol : vol.storage with
    | legacy =>
      exact ⟨.migrateToCow, _, ∅, .put _ _ _, state .legacy (by simp [hvol]), .inl rfl, hk⟩
    | cow => exact ⟨.migrateToCow, _, ∅, .delete _, state .cow fun _ => rfl, .inl rfl, hk⟩
  | legacyChunks =>
    cases hvol : vol.storage with
    | legacy => exact ⟨.presentChunks, _, ∅, .list _, state .legacy (by simp [hvol]), .inl rfl, hk⟩
    | cow => simp [areas, directories, hvol] at ha
  | liveChunks => exact ⟨.presentChunks, _, ∅, .list _, state .cow fun _ => rfl, .inl rfl, hk⟩
  | objects =>
    exact ⟨.wipeObjectsAndSnapshots, _, ∅, .list _, state .cow fun _ => rfl, .inl rfl, hk⟩
  | snapshots => exact ⟨.snapshotList, _, ∅, .list _, state .cow fun _ => rfl, .inl rfl, hk⟩

theorem touched_eq_territory (vol : VolumeConfig) :
    touched vol = territory (trimSlashes vol.family) (areas vol.storage) := by
  refine Set.Subset.antisymm ?_ territory_subset_touched
  rintro k ⟨c, s, b, r, hs, hasked, hk⟩
  exact (prog_confined c hs).canAsk (fun _ _ _ _ => fitting_of_unreliable) hasked hk

theorem common_iff_overlaps {u v : VolumeConfig} :
    (∃ k, k ∈ touched u ∧ k ∈ touched v) ↔ Overlaps u v := by
  simp only [touched_eq_territory]
  have flat : ∀ vol : VolumeConfig, flatMetaKey (trimSlashes vol.family) ∈
      territory (trimSlashes vol.family) (areas vol.storage) := fun vol =>
    ⟨.flatMeta, by simp [areas], rfl⟩
  constructor
  · rintro ⟨k, ⟨a, ha, hu⟩, b, hb, hv⟩
    have hfront : ∀ {f : Str} {a : Area}, a.Has f k → f <+: k := fun h =>
      (List.prefix_append _ _).trans h.inArea
    rcases List.prefix_or_prefix_of_prefix (hfront hu) (hfront hv) with h | h
    · rcases inside_of_common ha hu hv h with heq | hinside
      · exact .inl heq
      · exact .inr (.inl hinside)
    · rcases inside_of_common hb hv hu h with heq | hinside
      · exact .inl heq.symm
      · exact .inr (.inr hinside)
  · rintro (heq | hinside | hinside)
    · exact ⟨_, flat u, heq ▸ flat v⟩
    · obtain ⟨k, rfl, hk⟩ := common_of_inside hinside
      exact ⟨_, hk, flat v⟩
    · obtain ⟨k, rfl, hk⟩ := common_of_inside hinside
      exact ⟨_, flat u, hk⟩

/-- The calls of two volumes, of an accepted configuration or not, have no key in common exactly if
neither lies among the keys of the other; and then no call on the one, whichever of its requests
fail, changes what a read of the other returns. -/
theorem volumes_isolated (u v : VolumeConfig) :
    ((∀ k ∈ touched u, k ∉ touched v) ↔ ¬Overlaps u v) ∧
    (¬Overlaps u v → ∀ (c : VolumeCall) (s s' t : S3ChunkStore) (b b' : Bucket)
      (etag : Bytes → Str) (offset len : Nat), Serving u s → Serving v t →
        (c.prog u s).Runs Unreliable b s' b' →
          ((S3.readAt offset len t).run (answer etag) b').1 =
            ((S3.readAt offset len t).run (answer etag) b).1) := by
  have hiff : (∀ k ∈ touched u, k ∉ touched v) ↔ ¬Overlaps u v := by
    rw [← common_iff_overlaps]
    simp only [not_exists, not_and]
  refine ⟨hiff, fun h c s s' t b b' etag offset len hs ht run => ?_⟩
  have apart := hiff.mpr h
  have kept : AgreeOn (touched v) b b' := by
    have safe := (prog_confined c hs).safe (I := AgreeOn (touched v) b)
      (fun r b₁ x b₂ hr (step : Unreliable r b₁ x b₂) hI =>
        ⟨fitting_of_unreliable step, fun k hk => ?_⟩) fun _ _ => rfl
    · exact (Prog.Safe.runs safe run).1
    · rw [← touched_eq_territory] at hr
      exact (hI k hk).trans (agreeOn_of_unreliable (fun k hk => apart k (hr hk)) step k hk)
  have confined := (realm v).readAt_stays offset len t ht
  refine (confined.run_congr (fun r b => ?_) (fun r b b' hr hb => ?_) kept).1.symm
  · exact fitting_of_unreliable (unreliable_answer etag r b)
  · refine hb.answer ?_
    rw [touched_eq_territory]
    exact hr

end Programs

section TwoVolumes

open S3.Plain

def smallVolume (name family : Str) : VolumeConfig where
  name := name
  iqn := name
  family := family
  capacity := 1
  blockSize := 1
  chunkSize := 1

def pairConfig (first second : Str) : Config where
  s3 := { bucket := some "b".toList }
  volumes := [smallVolume "u".toList first, smallVolume "v".toList second]

theorem volumes_isolated_pair :
    (pairConfig "a".toList "a/b".toList).validate = .ok () ∧
    ∀ k ∈ touched (smallVolume "u".toList "a".toList),
      k ∉ touched (smallVolume "v".toList "a/b".toList) := by
  have accepted : (pairConfig "a".toList "a/b".toList).validate = .ok () := by decide +kernel
  have apart : ¬Overlaps (smallVolume "u".toList "a".toList)
    (smallVolume "v".toList "a/b".toList) := by
    decide +kernel
  exact ⟨accepted, (volumes_isolated _ _).1.mpr apart⟩

def smallStore (name : Str) : S3ChunkStore := ⟨"a".toList, 1, 1, .none, .legacy, 1, name⟩

@[irreducible] def afterWrite : Bucket :=
  (((VolumeCall.writeAt 0 [7]).prog (smallVolume "u".toList "a".toList)
    (smallStore "u".toList)).run (answer fun _ => []) ∅).2

/-- Two prefixes that differ in a slash are accepted, and what is written to the one volume is read
from the other. -/
theorem volumes_share_keys :
    (pairConfig "a".toList "a/".toList).validate = .ok () ∧
    (pairConfig "a".toList "a/".toList).volumes =
      [smallVolume "u".toList "a".toList, smallVolume "v".toList "a/".toList] ∧
    Serving (smallVolume "u".toList "a".toList) (smallStore "u".toList) ∧
    Serving (smallVolume "v".toList "a/".toList) (smallStore "v".toList) ∧
    (∃ k, k ∈ touched (smallVolume "u".toList "a".toList) ∧
      k ∈ touched (smallVolume "v".toList "a/".toList)) ∧
    ((S3.readAt 0 1 (smallStore "v".toList)).run (answer fun _ => []) ∅).1.1 = .ok [0] ∧
    ((S3.readAt 0 1 (smallStore "v".toList)).run (answer fun _ => [])
      afterWrite).1.1 = .ok [7] := by
  refine ⟨by decide +kernel, rfl, ⟨1, .legacy, by decide +kernel, nofun⟩,
    ⟨1, .legacy, by decide +kernel, nofun⟩, ?_, by decide +kernel, ?_⟩
  · exact common_iff_overlaps.mpr (by decide +kernel)
  · rw [afterWrite]
    decide +kernel

end TwoVolumes

end IscsiS3.Admin
