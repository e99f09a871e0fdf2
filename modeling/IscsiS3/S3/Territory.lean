import Mathlib.Data.Set.Insert
import IscsiS3.S3.Reads

/-! Which requests the calls of a volume can make: they stay in the areas of its family, as long as
a listing shows no other keys than those asked for. -/

namespace IscsiS3.S3

open Request External StoreM

def Req.names : Req → Set Key
  | .get key | .put key _ _ | .delete key => {key}
  | .list front => { k | front <+: k }

/-- The keys of an area: a single one, or those under a directory. -/
def Area.Has (family : Str) : Area → Key → Prop
  | .flatMeta, k => k = flatMetaKey family
  | .liveMeta, k => k = liveMetaKey family
  | .migrating, k => k = migratingKey family
  | .legacyChunks, k => InArea family .legacyChunks k
  | .liveChunks, k => InArea family .liveChunks k
  | .objects, k => InArea family .objects k
  | .snapshots, k => InArea family .snapshots k

variable {a : Area} {r : Req}

theorem Area.Has.inArea {family : Str} {k : Key} (h : a.Has family k) :
    InArea family a k := by
  cases a with
  | flatMeta => exact h ▸ inArea_flatMeta family
  | liveMeta => exact h ▸ inArea_liveMeta family
  | migrating => exact h ▸ inArea_migrating family
  | legacyChunks | liveChunks | objects | snapshots => exact h

def territory (family : Str) (areas : Set Area) : Set Key := { k | ∃ a ∈ areas, a.Has family k }

/-- A listing shows keys with the front that it was asked for. -/
def Fitting : (r : Req) → Reply r → Prop
  | .list front, .ok keys => ∀ k ∈ keys, front <+: k
  | _, _ => True

theorem fitting_of_unreliable {b b' : Bucket} {x : Reply r} (h : Unreliable r b x b') :
    Fitting r x := by
  cases r with
  | get _ | put _ _ _ | delete _ => trivial
  | list front =>
    obtain ⟨-, keys, rfl, hkeys⟩ := h
    exact fun k hk => ((hkeys k).mp hk).2

theorem fitting_self (r : Req) (x : Reply r) (h : Fitting r x) : Fitting r x := h

variable {key : Key}

theorem names_subset {family : Str} {areas : Set Area} (ha : a ∈ areas) (h : a.Has family key) :
    ({key} : Set Key) ⊆ territory family areas := by
  rintro k rfl
  exact ⟨a, ha, h⟩

/-- States of an opened volume, areas that are enough for what its calls do in them apart from the
metadata, and the requests that they may make: the legacy chunks are needed only in the legacy
layout, and whatever is in the areas may be read. A listing shows no other keys than those asked
for, and more can be known of the replies. -/
structure Realm where
  family : Str
  states : S3ChunkStore → Prop
  areas : Set Area
  may : Req → Prop
  own : ∀ {s}, states s → s.family = family
  legacy : ∀ {s}, states s → s.storage = .legacy → .legacyChunks ∈ areas
  rest : {.migrating, .liveChunks, .objects, .snapshots} ⊆ areas
  gets : ∀ {a key}, a ∈ areas → a.Has family key → may (.get key)
  lists : ∀ {a front}, a ∈ areas → (∀ k, front <+: k → a.Has family k) → may (.list front)
  fits : (r : Req) → Reply r → Prop
  fitting : ∀ r x, fits r x → Fitting r x

namespace Realm

variable {α β : Type} {R : Realm} {V : α → Prop} {V' : β → Prop}

/-- From every state of the realm, the call makes requests of the realm only, the state stays one of
the realm, and a value satisfies `V`. -/
def StaysWith (R : Realm) (V : α → Prop) (m : VolM α) : Prop :=
  ∀ s, R.states s → (m s).Confined R.fits R.may fun r => R.states r.2 ∧ Value V r.1

abbrev Stays (R : Realm) (m : VolM α) : Prop := R.StaysWith (fun _ => True) m

/-- What is off the snapshots may be put and deleted. -/
structure Writes (R : Realm) : Prop where
  puts : ∀ {a key} body ifMatch, a ∈ R.areas → a ≠ .snapshots → a.Has R.family key →
    R.may (.put key body ifMatch)
  deletes : ∀ {a key}, a ∈ R.areas → a ≠ .snapshots → a.Has R.family key → R.may (.delete key)

theorem writes_of_names (h : ∀ r, r.names ⊆ territory R.family R.areas → R.may r) : R.Writes where
  puts := fun _ _ ha _ hkey => h _ (names_subset ha hkey)
  deletes := fun ha _ hkey => h _ (names_subset ha hkey)

theorem has_migrating : .migrating ∈ R.areas := R.rest (by simp)

theorem has_live : .liveChunks ∈ R.areas := R.rest (by simp)

theorem has_objects : .objects ∈ R.areas := R.rest (by simp)

theorem has_snapshots : .snapshots ∈ R.areas := R.rest (by simp)

theorem stays_done {r : Outcome α} (h : Value V r) : R.StaysWith V (StoreM.done r) :=
  fun _ hs => ⟨hs, h⟩

theorem stays_pure {a : α} (h : V a) : R.StaysWith V (pure a) := stays_done (Value.ok.mpr h)

theorem stays_throw (e : StoreError) : R.StaysWith V (StoreM.throw e : VolM α) := stays_done nofun

theorem stays_lift (r : Except StoreError α) : R.Stays (StoreM.lift r) :=
  stays_done fun _ _ => trivial

theorem stays_modify {f : S3ChunkStore → S3ChunkStore} (h : ∀ s, R.states s → R.states (f s)) :
    R.Stays (StoreM.modify f) := fun s hs => ⟨h s hs, fun _ _ => trivial⟩

variable {m : VolM α} {front : Key} {f : α → VolM β}

theorem stays_bind (hm : R.StaysWith V m) (hf : ∀ a, V a → R.StaysWith V' (f a)) :
    R.StaysWith V' (m >>= f) := by
  intro s hs
  refine Prog.Confined.bind ((hm s hs).mono ?_)
  rintro ⟨r, s'⟩ ⟨hs', hr⟩
  cases r with
  | ok a => exact hf a (hr a rfl) s' hs'
  | error _ | panic | waits => exact ⟨hs', nofun⟩

theorem stays_mono {V₂ : α → Prop} (hm : R.StaysWith V m) (imp : ∀ a, V a → V₂ a) :
    R.StaysWith V₂ m := fun s hs =>
  Prog.Confined.mono (hm s hs) fun _ hr => ⟨hr.1, fun a ha => imp a (hr.2 a ha)⟩

theorem stays_then (hm : R.Stays m) (hf : ∀ a, R.StaysWith V' (f a)) :
    R.StaysWith V' (m >>= f) := stays_bind hm fun a _ => hf a

theorem stays_get {f : S3ChunkStore → VolM β} (hf : ∀ s, R.states s → R.StaysWith V' (f s)) :
    R.StaysWith V' (StoreM.get >>= f) := fun s hs => hf s hs s hs

theorem stays_attempt (hm : R.Stays m) : R.Stays m.attempt := by
  intro s hs
  refine Prog.Confined.bind ((hm s hs).mono ?_)
  rintro ⟨r, s'⟩ ⟨hs', -⟩
  cases r <;> exact ⟨hs', fun _ _ => trivial⟩

theorem stays_each {f : β → VolM Unit} (xs : List β)
    (hf : ∀ x ∈ xs, R.Stays (f x)) : R.Stays (StoreM.each f xs) := by
  induction xs with
  | nil => exact stays_pure trivial
  | cons x xs ih =>
    exact stays_then (hf x List.mem_cons_self) fun _ =>
      ih fun y hy => hf y (List.mem_cons_of_mem _ hy)

theorem stays_collect {f : β → VolM α} (xs : List β) (hf : ∀ x, R.Stays (f x)) :
    R.Stays (StoreM.collect f xs) := by
  induction xs with
  | nil => exact stays_pure trivial
  | cons x xs ih => exact stays_then (hf x) fun _ => stays_then ih fun _ => stays_pure trivial

theorem stays_request (h : R.may r) :
    R.StaysWith (R.fits r) (StoreM.request r) := fun _ hs =>
  ⟨h, fun _ hx => ⟨hs, Value.ok.mpr hx⟩⟩

theorem getBytes_stays (ha : a ∈ R.areas) (h : a.Has R.family key) :
    R.Stays (getBytes key) := by
  refine stays_bind (stays_request (R.gets ha h)) fun reply _ => ?_
  split
  · exact stays_pure trivial
  · exact stays_pure trivial
  · split
    · exact stays_pure trivial
    · exact stays_throw _
  · exact stays_throw _

theorem putBytes_stays {body : Bytes} {ifMatch : Option Str} (h : R.may (.put key body ifMatch)) :
    R.Stays (putBytes key body ifMatch) := by
  refine stays_bind (stays_request h) fun reply _ => ?_
  split
  · exact stays_pure trivial
  · exact stays_throw _

theorem deleteObjectKey_stays (h : R.may (.delete key)) :
    R.Stays (deleteObjectKey key) := by
  refine stays_bind (stays_request h) fun reply _ => ?_
  split
  · exact stays_pure trivial
  · exact stays_throw _

section

variable (w : R.Writes) (ha : a ∈ R.areas) (h : a.Has R.family key) (off : a ≠ .snapshots)

include w ha h off

theorem Writes.putBytes_stays (body : Bytes) (ifMatch : Option Str) :
    R.Stays (putBytes key body ifMatch) := Realm.putBytes_stays (w.puts _ _ ha off h)

theorem Writes.deleteObjectKey_stays : R.Stays (deleteObjectKey key) :=
  Realm.deleteObjectKey_stays (w.deletes ha off h)

end

section

variable (ha : a ∈ R.areas) (h : ∀ k, front <+: k → a.Has R.family k)

include ha h

theorem listKeys_stays :
    R.StaysWith (fun keys => ∀ k ∈ keys, a.Has R.family k) (listKeys front) := by
  refine stays_bind (stays_request (R.lists ha h)) fun reply hreply => ?_
  split
  · exact stays_pure fun k hk => h k (R.fitting _ _ hreply k hk)
  · exact stays_throw _

theorem listChunkIndices_stays :
    R.Stays (listChunkIndices front) :=
  stays_bind (listKeys_stays ha h) fun _ _ => stays_pure trivial

end

theorem presentChunks_stays : R.Stays presentChunks := by
  refine stays_get fun s hs => ?_
  unfold S3ChunkStore.chunksFront
  rw [R.own hs]
  split
  · rename_i hlegacy
    exact listChunkIndices_stays (R.legacy hs hlegacy) fun _ hk => hk
  · exact listChunkIndices_stays has_live fun _ hk => hk

theorem chunkKey_has {s : S3ChunkStore} (hs : R.states s) (index : Nat) :
    ∃ a ∈ R.areas, a.Has R.family (s.chunkKey index) ∧ a ≠ .snapshots := by
  unfold S3ChunkStore.chunkKey
  rw [R.own hs]
  split
  · rename_i hlegacy
    exact ⟨_, R.legacy hs hlegacy, inArea_legacy _ _, by decide⟩
  · exact ⟨_, has_live, inArea_live _ _, by decide⟩

theorem getObject_stays (hash : Hash) : R.Stays (getObject hash) :=
  stays_get fun _ hs => getBytes_stays has_objects (R.own hs ▸ inArea_object _ _)

theorem readPointerHash_stays (index : Nat) : R.Stays (readPointerHash index) := by
  refine stays_get fun s hs => ?_
  obtain ⟨a, ha, hkey, -⟩ := chunkKey_has hs index
  refine stays_then (getBytes_stays ha hkey) fun found => ?_
  split
  · exact stays_pure trivial
  · exact stays_then (stays_lift _) fun _ => stays_pure trivial

theorem Writes.putPointer_stays (w : R.Writes) (index : Nat) (hash : Hash) :
    R.Stays (putPointer index hash) := by
  refine stays_get fun s hs => ?_
  obtain ⟨a, ha, hkey, off⟩ := chunkKey_has hs index
  exact w.putBytes_stays ha hkey off _ _

theorem Writes.deleteChunkObject_stays (w : R.Writes) (index : Nat) :
    R.Stays (deleteChunkObject index) := by
  refine stays_get fun s hs => ?_
  split
  · rename_i hlegacy
    have harea := R.legacy hs hlegacy
    rw [R.own hs]
    exact stays_then (w.deleteObjectKey_stays harea (inArea_legacy _ _) (by decide)) fun _ =>
      w.deleteObjectKey_stays harea (inArea_flat _ _) (by decide)
  · obtain ⟨a, ha, hkey, off⟩ := chunkKey_has hs index
    exact w.deleteObjectKey_stays ha hkey off

theorem legacyBody_stays (h : .legacyChunks ∈ R.areas) (idx : Nat) :
    R.Stays (legacyBody idx) := by
  refine stays_get fun s hs => ?_
  rw [R.own hs]
  refine stays_then (getBytes_stays h (inArea_legacy _ _)) fun found => ?_
  split
  · exact stays_pure trivial
  · exact stays_then (getBytes_stays h (inArea_flat _ _)) fun _ => stays_pure trivial

theorem requireCow_stays : R.Stays requireCow := by
  refine stays_get fun s _ => ?_
  split
  · exact stays_pure trivial
  · exact stays_throw _

theorem readPointers_stays (indices : List Nat) :
    R.Stays (readPointers indices) := by
  induction indices with
  | nil => exact stays_pure trivial
  | cons idx rest ih =>
    refine stays_then (readPointerHash_stays idx) fun hash => stays_then ih fun refs => ?_
    cases hash with
    | none | some _ => exact stays_pure trivial

theorem collectLiveRefs_stays : R.Stays collectLiveRefs :=
  stays_then requireCow_stays fun _ => stays_then presentChunks_stays fun _ =>
    stays_then (stays_done fun _ _ => trivial) fun _ =>
      stays_then (readPointers_stays _) fun _ => stays_pure trivial

theorem loadSnapshotRefs_stays (id : Str) : R.Stays (loadSnapshotRefs id) := by
  refine stays_get fun s hs => ?_
  rw [R.own hs]
  refine stays_then (getBytes_stays has_snapshots (inArea_chunks _ _)) fun found => ?_
  split
  · exact stays_throw _
  · exact stays_done fun _ _ => trivial

theorem gcPointers_stays (indices : List Nat) (referenced : Finset Hash) :
    R.Stays (gcPointers indices referenced) := by
  induction indices generalizing referenced with
  | nil => exact stays_pure trivial
  | cons idx rest ih =>
    refine stays_then (readPointerHash_stays idx) fun hash => ?_
    split
    · exact ih _
    · exact ih _

theorem gcSnapshots_stays (manifests : List SnapshotManifest) (referenced : Finset Hash) :
    R.StaysWith (referenced ⊆ ·) (gcSnapshots manifests referenced) := by
  induction manifests generalizing referenced with
  | nil => exact stays_pure subset_rfl
  | cons m rest ih =>
    refine stays_then (stays_attempt (loadSnapshotRefs_stays m.id)) fun refs => ?_
    split
    · refine stays_mono (ih _) fun result more h hh => more ?_
      rw [mem_foldl_insert]
      exact .inl hh
    · exact ih _

theorem gcSweep_stays {referenced : Finset Hash}
    (pool : ∀ key, Unreferenced (areaFront R.family .objects) referenced key → R.may (.delete key))
    (keys : List Key) (deleted : Nat) :
    R.Stays (gcSweep (areaFront R.family .objects) referenced keys deleted) := by
  induction keys generalizing deleted with
  | nil => exact stays_pure trivial
  | cons key keys ih =>
    unfold gcSweep
    split
    · exact ih _
    · rename_i rel hrel
      refine stays_bind (stays_done fun _ h => h) fun found hfound => ?_
      cases found with
      | none => exact ih _
      | some hash =>
        dsimp only
        split
        · exact ih _
        · rename_i href
          have hkey := pool key ⟨rel, hash, hrel, hfound, href⟩
          exact stays_then (deleteObjectKey_stays hkey) fun _ => ih _

theorem deletePrefix_stays (ha : a ∈ R.areas) (h : ∀ k, front <+: k → a.Has R.family k)
    (hdel : ∀ k, a.Has R.family k → R.may (.delete k)) :
    R.Stays (deletePrefix front) := by
  refine stays_bind (listKeys_stays ha h) fun keys hkeys => ?_
  exact stays_then (stays_each keys fun k hk => deleteObjectKey_stays
    (hdel k (hkeys k hk))) fun _ =>
    stays_pure trivial

theorem Writes.wipeObjectsAndSnapshots_stays (w : R.Writes)
    (hdel : ∀ k, Area.snapshots.Has R.family k → R.may (.delete k)) :
    R.Stays wipeObjectsAndSnapshots := by
  refine stays_get fun s hs => ?_
  rw [R.own hs]
  have objects : R.Stays (deletePrefix (areaFront R.family .objects)) :=
    deletePrefix_stays has_objects (fun _ hk => hk) fun _ => w.deletes has_objects (by decide)
  exact stays_then objects fun _ =>
    stays_then (deletePrefix_stays has_snapshots (fun _ hk => hk) hdel) fun _ => stays_pure trivial

theorem Writes.restorePointers_stays (w : R.Writes) (id : Str) : R.Stays (restorePointers id) := by
  refine stays_then (loadSnapshotRefs_stays id) fun refs =>
    stays_then presentChunks_stays fun live => stays_then ?_ fun _ =>
      stays_then ?_ fun _ => stays_get fun _ _ => stays_pure trivial
  · exact stays_each _ fun r _ => w.putPointer_stays _ _
  · exact stays_each _ fun i _ => w.deleteChunkObject_stays i

theorem hasMigrationMarker_stays : R.Stays hasMigrationMarker := by
  refine stays_get fun s hs => ?_
  exact stays_then (getBytes_stays has_migrating (congrArg migratingKey (R.own hs))) fun _ =>
    stays_pure trivial

section External

variable [External]

theorem getLegacyChunk_stays (h : .legacyChunks ∈ R.areas) (index : Nat) :
    R.Stays (getLegacyChunk index) := by
  refine stays_get fun s hs => ?_
  rw [R.own hs]
  refine stays_then (getBytes_stays h (inArea_legacy _ _)) fun found => ?_
  split
  · exact stays_then (stays_lift _) fun _ => stays_pure trivial
  · refine stays_then (getBytes_stays h (inArea_flat _ _)) fun flat => ?_
    split
    · exact stays_then (stays_lift _) fun _ => stays_pure trivial
    · exact stays_pure trivial

theorem getChunk_stays (index : Nat) : R.Stays (getChunk index) := by
  refine stays_get fun s hs => ?_
  split
  · rename_i hlegacy
    exact getLegacyChunk_stays (R.legacy hs hlegacy) index
  · obtain ⟨a, ha, hkey, -⟩ := chunkKey_has hs index
    refine stays_then (getBytes_stays ha hkey) fun found => ?_
    split
    · exact stays_pure trivial
    · refine stays_then (stays_lift _) fun hash =>
        stays_then (getObject_stays hash) fun object => ?_
      split
      · exact stays_throw _
      · exact stays_then (stays_lift _) fun _ => stays_pure trivial

theorem Writes.putChunk_stays (w : R.Writes) (index : Nat) (data : Bytes) (ifMatch : Option Str) :
    R.Stays (putChunk index data ifMatch) := by
  refine stays_get fun s hs => ?_
  split
  · exact stays_throw _
  · split
    · rename_i hlegacy
      have harea := R.legacy hs hlegacy
      rw [R.own hs]
      exact stays_then (stays_lift _) fun body =>
        stays_then (w.putBytes_stays harea (inArea_legacy _ _) (by decide) _ _) fun _ =>
          stays_then (stays_attempt (w.deleteObjectKey_stays harea (inArea_flat _ _) (by decide)))
            fun _ => stays_pure trivial
    · obtain ⟨a, ha, hkey, off⟩ := chunkKey_has hs index
      refine stays_then (stays_lift _) fun body => stays_then ?_ fun _ =>
        w.putBytes_stays ha hkey off _ _
      exact w.putBytes_stays has_objects (R.own hs ▸ inArea_object _ _) (by decide) _ _

theorem readAt_stays (offset len : Nat) : R.Stays (readAt offset len) := by
  refine stays_get fun s _ => stays_then (stays_lift _) fun _ => stays_then ?_ fun _ =>
    stays_pure trivial
  exact stays_collect _ fun p => stays_then (getChunk_stays _) fun _ => stays_pure trivial

theorem baseChunk_stays (p : Piece) : R.Stays (baseChunk p) := by
  refine stays_get fun s _ => ?_
  split
  · exact stays_pure trivial
  · exact getChunk_stays _

theorem Writes.writePieceLoop_stays (w : R.Writes) (p : Piece) (bytes : Bytes) (retries : Nat) :
    R.Stays (writePieceLoop p bytes retries) := by
  induction retries with
  | zero => exact stays_then (baseChunk_stays p) fun _ => w.putChunk_stays _ _ _
  | succ retries ih =>
    refine stays_then (baseChunk_stays p) fun _ =>
      stays_then (stays_attempt (w.putChunk_stays _ _ _)) fun r => ?_
    split
    · exact stays_pure trivial
    · split
      · exact ih
      · exact stays_throw _

theorem Writes.writeAt_stays (w : R.Writes) (offset : Nat) (data : Bytes) :
    R.Stays (writeAt offset data) := by
  refine stays_get fun s _ => stays_then (stays_lift _) fun _ => stays_each _ fun p _ => ?_
  exact stays_get fun s _ => w.writePieceLoop_stays _ _ _

theorem snapshotGet_stays (id : Str) : R.Stays (snapshotGet id) := by
  refine stays_then requireCow_stays fun _ => stays_get fun s hs => ?_
  rw [R.own hs]
  refine stays_then (getBytes_stays has_snapshots (inArea_manifest _ _)) fun found => ?_
  split
  · exact stays_throw _
  · split
    · exact stays_throw _
    · exact stays_pure trivial

theorem readManifests_stays (keys : List Key) (h : ∀ k ∈ keys, Area.snapshots.Has R.family k) :
    R.Stays (readManifests keys) := by
  induction keys with
  | nil => exact stays_pure trivial
  | cons key rest ih =>
    have hrest := ih fun k hk => h k (List.mem_cons_of_mem _ hk)
    refine stays_then (getBytes_stays has_snapshots (h key List.mem_cons_self)) fun found => ?_
    split
    · exact hrest
    · split
      · exact stays_throw _
      · exact stays_then hrest fun _ => stays_pure trivial

theorem snapshotList_stays : R.Stays snapshotList := by
  refine stays_then requireCow_stays fun _ => stays_get fun s hs => ?_
  rw [R.own hs]
  refine stays_bind (listKeys_stays has_snapshots fun _ hk => hk) fun keys hkeys => ?_
  refine stays_then (readManifests_stays _ fun k hk => ?_) fun _ => stays_pure trivial
  exact hkeys k (List.mem_filter.mp hk).1

theorem gcReads_stays : R.Stays gcReads := by
  refine stays_then requireCow_stays fun _ => stays_then presentChunks_stays fun _ =>
    stays_then (gcPointers_stays _ _) fun _ => stays_then snapshotList_stays fun _ =>
      stays_bind (gcSnapshots_stays _ _) fun _ _ => stays_get fun s hs => ?_
  rw [R.own hs]
  exact stays_bind (listKeys_stays has_objects fun _ hk => hk) fun _ _ => stays_pure trivial

theorem gcUnreferencedObjects_stays
    (pool : ∀ key, InArea R.family .objects key → R.may (.delete key)) :
    R.Stays gcUnreferencedObjects := by
  refine stays_then gcReads_stays fun result => stays_get fun s hs => ?_
  rw [R.own hs]
  exact stays_then (gcSweep_stays (fun key h => pool key h.inArea) _ _) fun _ => stays_pure trivial

theorem snapshotCreate_stays (now : Nat) (id sourceVolume : Str)
    (index : ∀ body, R.may (.put (snapshotChunksKey R.family id) body none))
    (manifest : ∀ body, R.may (.put (snapshotManifestKey R.family id) body none)) :
    R.Stays (snapshotCreate now id sourceVolume) := by
  refine stays_then requireCow_stays fun _ => stays_then (stays_lift _) fun _ =>
    stays_get fun s hs => ?_
  rw [R.own hs]
  refine stays_then (getBytes_stays has_snapshots (inArea_manifest _ _)) fun existing => ?_
  split
  · exact stays_throw _
  · exact stays_then (putBytes_stays (manifest _)) fun _ =>
      stays_then collectLiveRefs_stays fun _ => stays_then (putBytes_stays (index _)) fun _ =>
        stays_then (putBytes_stays (manifest _)) fun _ => stays_pure trivial

theorem snapshotDelete_stays (id : Str) (index : R.may (.delete (snapshotChunksKey R.family id)))
    (manifest : R.may (.delete (snapshotManifestKey R.family id)))
    (pool : ∀ key, InArea R.family .objects key → R.may (.delete key)) :
    R.Stays (snapshotDelete id) := by
  refine stays_then requireCow_stays fun _ => stays_then (snapshotGet_stays id) fun _ =>
    stays_get fun s hs => ?_
  rw [R.own hs]
  exact stays_then (deleteObjectKey_stays index) fun _ =>
    stays_then (deleteObjectKey_stays manifest) fun _ => gcUnreferencedObjects_stays pool

theorem Writes.migrateChunk_stays (w : R.Writes) (h : .legacyChunks ∈ R.areas) (idx : Nat) :
    R.Stays (migrateChunk idx) := by
  refine stays_then (legacyBody_stays h idx) fun body => ?_
  split
  · exact stays_pure trivial
  · refine stays_then (stays_get fun s hs => ?_) fun _ =>
      stays_pure trivial
    rw [R.own hs]
    have drop : ∀ {key}, InArea R.family .legacyChunks key →
      R.Stays (deleteObjectKey key).attempt :=
      fun hk => stays_attempt (w.deleteObjectKey_stays h hk (by decide))
    exact stays_then (w.putBytes_stays has_objects (inArea_object _ _) (by decide) _ _) fun _ =>
      stays_then (w.putBytes_stays has_live (inArea_live _ _) (by decide) _ _) fun _ =>
        stays_then (drop (inArea_legacy _ _)) fun _ => stays_then (drop (inArea_flat _ _)) fun _ =>
          stays_pure trivial

/-- The realm has the metadata, and its states are closed under a change of the capacity and of the
layout. -/
structure Open (R : Realm) : Prop extends R.Writes where
  flat : .flatMeta ∈ R.areas
  live : .liveMeta ∈ R.areas
  capacity : ∀ s n, R.states s → R.states { s with capacity := n }
  cow : ∀ s, R.states s → R.states { s with storage := .cow }

theorem getMetaAt_stays (ha : a ∈ R.areas) (h : a.Has R.family key) :
    R.Stays (getMetaAt key) := by
  refine stays_then (getBytes_stays ha h) fun found => ?_
  split
  · exact stays_pure trivial
  · split
    · exact stays_throw _
    · split
      · exact stays_throw _
      · exact stays_pure trivial

section

variable (h : R.Open)

include h

theorem Open.putMeta_stays (m : VolumeMeta) : R.Stays (putMeta m) := by
  refine stays_get fun s hs => ?_
  unfold S3ChunkStore.metaKey
  rw [R.own hs]
  split
  · exact h.putBytes_stays h.flat rfl (by decide) _ _
  · exact h.putBytes_stays h.live rfl (by decide) _ _

theorem Open.setCapacity_stays (newCapacity : Nat) :
    R.Stays (setCapacity newCapacity) := by
  refine stays_get fun s _ => ?_
  split
  · exact stays_throw _
  · split
    · exact stays_throw _
    · split
      · exact stays_pure trivial
      · exact stays_then (h.putMeta_stays _) fun _ => stays_modify fun s hs => h.capacity s _ hs

theorem Open.growTo_stays (cap : Nat) : R.Stays (growTo cap) := by
  refine stays_get fun s _ => ?_
  split
  · exact h.setCapacity_stays _
  · exact stays_pure trivial

theorem Open.snapshotRestore_stays (id : Str) :
    R.Stays (snapshotRestore id) := by
  refine stays_then requireCow_stays fun _ => stays_then (snapshotGet_stays id) fun m =>
    stays_get fun s _ => ?_
  split
  · exact stays_throw _
  · split
    · exact stays_throw _
    · split
      · exact stays_throw _
      · exact stays_then (h.growTo_stays _) fun _ => h.restorePointers_stays id

theorem Open.migrateToCow_stays : R.Stays migrateToCow := by
  refine stays_get fun s hs => ?_
  have marker := congrArg migratingKey (R.own hs)
  have drop : R.Stays (deleteObjectKey (migratingKey s.family)).attempt :=
    stays_attempt (h.deleteObjectKey_stays has_migrating marker (by decide))
  split
  · exact stays_then drop fun _ => stays_throw _
  · rename_i hlegacy
    have harea := R.legacy hs (not_not.mp hlegacy)
    refine stays_then (h.putBytes_stays has_migrating marker (by decide) _ _) fun _ =>
      stays_then (listChunkIndices_stays harea fun _ hk => R.own hs ▸ hk) fun indices =>
        stays_then (stays_collect _ (h.migrateChunk_stays harea)) fun migrated =>
          stays_then ?_ fun _ =>
            stays_then (stays_modify h.cow) fun _ => stays_then (stays_attempt ?_) fun _ =>
              stays_then drop fun _ => stays_pure trivial
    · exact h.putBytes_stays h.live (congrArg liveMetaKey (R.own hs)) (by decide) _ _
    · exact h.deleteObjectKey_stays h.flat (congrArg flatMetaKey (R.own hs)) (by decide)

theorem Open.probeLayout_stays (config : StorageMode) :
    R.StaysWith (fun found => found.1 = .cow ∨ found.1 = config) (probeLayout config) := by
  refine stays_get fun s hs => ?_
  refine stays_then (getMetaAt_stays h.live (congrArg liveMetaKey (R.own hs))) fun live =>
    stays_then (getMetaAt_stays h.flat (congrArg flatMetaKey (R.own hs))) fun flat => ?_
  split
  · split
    · exact stays_throw _
    · split
      · exact stays_throw _
      · exact stays_pure (.inl rfl)
  · split
    · exact stays_throw _
    · split
      · exact stays_throw _
      · rename_i hne
        refine stays_pure (.inr ?_)
        cases config with
        | legacy => rfl
        | cow => exact absurd rfl hne
  · exact stays_pure (.inr rfl)

theorem Open.openVolume_stays (cfg : S3StoreConfig)
    (config : ∀ s, R.states s → R.states { s with storage := cfg.storage }) :
    R.Stays (openVolume cfg) := by
  refine stays_bind (h.probeLayout_stays cfg.storage) fun found hfound => ?_
  obtain ⟨mode, existing⟩ := found
  have layout : ∀ s, R.states s → R.states { s with storage := mode } := by
    intro s hs
    rcases hfound with rfl | rfl
    · exact h.cow s hs
    · exact config s hs
  have resolve : R.Stays (resolveMeta cfg.capacity existing) := by
    refine stays_get fun s _ => stays_then (stays_lift _) fun plan => ?_
    obtain ⟨effective, toWrite⟩ := plan
    cases toWrite with
    | none => exact stays_pure trivial
    | some m => exact stays_then (h.putMeta_stays _) fun _ => stays_pure trivial
  refine stays_then (stays_modify layout) fun _ => stays_then resolve fun effective =>
    stays_then (stays_modify fun s hs => h.capacity s _ hs) fun _ => ?_
  split
  · refine stays_then hasMigrationMarker_stays fun marked => ?_
    split
    · exact stays_then h.migrateToCow_stays fun _ => stays_pure trivial
    · exact stays_pure trivial
  · exact stays_pure trivial

end

end External

end Realm

def Req.changes : Req → Option Key
  | .put key _ _ | .delete key => some key
  | .get _ | .list _ => none

/-- A request that changes nothing, or one of those in `C`. -/
def Permits (C : Req → Prop) (r : Req) : Prop := r.changes = none ∨ C r

def OffSnapshots (family : Str) (r : Req) : Prop :=
  ∃ key area, r.changes = some key ∧ area ≠ .snapshots ∧ InArea family area key

/-- A put of the metadata of the snapshot `id`, or a request off the snapshots. -/
def PutsSnapshot (family id : Str) (r : Req) : Prop :=
  OffSnapshots family r ∨ (∃ body, r = .put (snapshotChunksKey family id) body none) ∨
    ∃ body, r = .put (snapshotManifestKey family id) body none

/-- A deletion of the metadata of the snapshot `id`, or a request off the snapshots. -/
def DropsSnapshot (family id : Str) (r : Req) : Prop :=
  OffSnapshots family r ∨ r = .delete (snapshotChunksKey family id) ∨
    r = .delete (snapshotManifestKey family id)

variable {α β : Type} {family : Str} {C : Req → Prop}

theorem offSnapshots_delete {area : Area} (hk : InArea family area key) (ha : area ≠ .snapshots) :
    OffSnapshots family (.delete key) := ⟨key, area, rfl, ha, hk⟩

/-- The volumes of a family, with the requests that change nothing and those in `C`. -/
def foot (family : Str) (C : Req → Prop) : Realm where
  family := family
  states := (·.family = family)
  areas := Set.univ
  may := Permits C
  own := id
  legacy := fun _ _ => Set.mem_univ _
  rest := Set.subset_univ _
  gets := fun _ _ => .inl rfl
  lists := fun _ _ => .inl rfl
  fits := Fitting
  fitting := fitting_self

theorem foot_open (family : Str) : (foot family (OffSnapshots family)).Open where
  puts := fun _ _ _ off h => .inr ⟨_, _, rfl, off, h.inArea⟩
  deletes := fun _ off h => .inr ⟨_, _, rfl, off, h.inArea⟩
  flat := Set.mem_univ _
  live := Set.mem_univ _
  capacity := fun _ _ hs => hs
  cow := fun _ hs => hs

theorem foot_pool (key : Key) (hk : InArea family .objects key) :
    (foot family (OffSnapshots family)).may (.delete key) :=
  .inr (offSnapshots_delete hk (by decide))

/-- A call on two volumes changes what is in `C`, and the destination stays in its family. -/
def Clones (family : Str) (C : Req → Prop) (m : StoreM Reply (S3ChunkStore × S3ChunkStore) α) :
    Prop :=
  ∀ p, p.2.family = family → (m p).Confined Fitting (Permits C) fun r => r.2.2.family = family

theorem Clones.done (r : Outcome α) : Clones family C (StoreM.done r) := fun _ hp => hp

theorem Clones.bind {m : StoreM Reply (S3ChunkStore × S3ChunkStore) α}
    {f : α → StoreM Reply (S3ChunkStore × S3ChunkStore) β} (hm : Clones family C m)
    (hf : ∀ a, Clones family C (f a)) : Clones family C (m >>= f) := by
  intro p hp
  refine Prog.Confined.bind ((hm p hp).mono ?_)
  rintro ⟨r, p'⟩ hp'
  cases r with
  | ok a => exact hf a p' hp'
  | error _ | panic | waits => exact hp'

theorem Clones.get {f : S3ChunkStore × S3ChunkStore → StoreM Reply (S3ChunkStore × S3ChunkStore) β}
    (hf : ∀ p : S3ChunkStore × S3ChunkStore, p.2.family = family → Clones family C (f p)) :
    Clones family C (StoreM.get >>= f) := fun p hp => hf p hp p hp

theorem Clones.onDest {m : VolM α} (h : (foot family C).Stays m) : Clones family C (onDest m) :=
  fun p hp => Prog.Confined.bind ((h p.2 hp).mono fun _ hr => hr.1)

theorem Clones.onSource {m : VolM α} (h : ∀ g, (foot g C).Stays m) : Clones family C (onSource m) :=
  fun p hp => Prog.Confined.bind ((h p.1.family p.1 rfl).mono fun _ _ => hp)

theorem cloneRef_clones (r : ChunkRef) : Clones family (OffSnapshots family) (cloneRef r) := by
  have w : (foot family (OffSnapshots family)).Writes := (foot_open family).toWrites
  have pointer := Clones.onDest (w.putPointer_stays r.index r.hash)
  refine .get fun p hp => .bind (.onDest (Realm.getObject_stays _)) fun there => ?_
  split
  · exact .bind pointer fun _ => .done _
  · refine .bind (.onSource fun _ => Realm.getObject_stays _) fun found => ?_
    split
    · exact .done _
    · have hkey : Area.objects.Has family (objectKey p.2.family r.hash) := hp ▸ inArea_object _ _
      exact .bind (.onDest (w.putBytes_stays (Set.mem_univ _) hkey (by decide) _ _)) fun _ =>
        .bind pointer fun _ => .done _

theorem clonePointers_clones (id : Str) :
    Clones family (OffSnapshots family) (clonePointers id) := by
  have copy : ∀ refs, Clones family (OffSnapshots family) (StoreM.collect cloneRef refs) := by
    intro refs
    induction refs with
    | nil => exact .done _
    | cons r rest ih => exact .bind (cloneRef_clones r) fun _ => .bind ih fun _ => .done _
  refine .bind (.onDest Realm.presentChunks_stays) fun existing => ?_
  split
  · exact .done _
  · exact .bind (.onSource fun _ => Realm.loadSnapshotRefs_stays id) fun refs =>
      .bind (copy refs) fun _ => .done _

theorem snapshotCloneInto_clones [External] (id : Str) :
    Clones family (OffSnapshots family) (snapshotCloneInto id) := by
  refine .bind (.onSource fun _ => Realm.requireCow_stays) fun _ =>
    .bind (.onDest Realm.requireCow_stays) fun _ => .get fun p _ => ?_
  obtain ⟨source, dest⟩ := p
  dsimp only
  split
  · exact .done _
  · split
    · exact .done _
    · refine .bind (.onSource fun _ => Realm.snapshotGet_stays id) fun m => ?_
      split
      · exact .done _
      · exact .bind (.onDest ((foot_open family).growTo_stays _)) fun _ => clonePointers_clones id

end IscsiS3.S3
