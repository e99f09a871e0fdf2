import IscsiS3.Cache.Pool
import IscsiS3.Portals
import IscsiS3.S3.KeepMigration
import IscsiS3.S3.Layout
import IscsiS3.S3.Plain

/-! Reloading the configuration: a new one is compared with the summary that the process keeps of
the old one. `Differ` says what a difference between two lists of volumes is, without the summary.
-/

namespace IscsiS3.Admin

open S3 (External Reply S3ChunkStore S3StoreConfig StorageMode trimSlashes)

structure VolumeSummary where
  name : Str
  iqn : Str
  capacity : Nat
  auth : String
  family : Str
  chunkSize : Nat
  compression : String
  storage : String
  writeCache : String
  writeCacheMaxBytes : Nat
  writeBufferMaxBytes : Nat
  deriving DecidableEq, Repr

structure AdminSnapshot where
  bind : Str
  portals : List Str
  volumes : List VolumeSummary
  cacheMaxBytes : Nat
  s3Bucket : Option Str
  s3Endpoint : Option Str
  s3Region : Str
  s3ForcePathStyle : Bool
  performanceOptimiser : Bool
  deriving DecidableEq, Repr

section Start

variable [External]

def storeConfig (vol : VolumeConfig) : S3StoreConfig where
  family := vol.family
  capacity := vol.capacity
  blockSize := vol.blockSize
  chunkSize := vol.chunkSize
  compression := vol.compression
  storage := vol.storage
  volume := vol.name

/-- `open_volume`, without the caches it puts around the store. -/
def openVolume (cfg : Config) (vol : VolumeConfig) : StoreM Reply Unit S3ChunkStore :=
  match cfg.s3.bucket with
  | none => StoreM.throw (.other "s3.bucket required")
  | some _ => fun _ => (S3.openVolume (storeConfig vol) (.initial (storeConfig vol))).bind fun r =>
      .ret (r.1.map fun _ => r.2, ())

/-- The summary of a volume whose opened store has the capacity and the layout. -/
def VolumeSummary.of (vol : VolumeConfig) (auth : AuthMode) (capacity : Nat)
    (storage : StorageMode) : VolumeSummary where
  name := vol.name
  iqn := vol.iqn
  capacity := capacity
  auth := auth.asStr
  family := trimSlashes vol.family
  chunkSize := vol.chunkSize
  compression := vol.compression.asStr
  storage := storage.asStr
  writeCache := vol.writeCache.mode.asStr
  writeCacheMaxBytes := vol.writeCache.maxBytes
  writeBufferMaxBytes := vol.writeBuffer.maxBytes

def summarise (cfg : Config) (vol : VolumeConfig) : StoreM Reply Unit VolumeSummary := do
  let store ← openVolume cfg vol
  match resolveAuth cfg.auth vol.auth with
  | .error (.invalid msg) => StoreM.throw (.other msg)
  | .ok auth => pure (.of vol auth.mode store.capacity store.storage)

def run (cfg : Config) : StoreM Reply Unit AdminSnapshot :=
  match resolvePortals cfg with
  | .error msg => StoreM.throw (.other msg)
  | .ok portals => do
    let volumes ← StoreM.collect (summarise cfg) cfg.volumes
    pure {
      bind := cfg.bind
      portals := portals
      volumes := volumes
      cacheMaxBytes := cfg.cache.maxBytes
      s3Bucket := cfg.s3.bucket
      s3Endpoint := cfg.s3.endpoint
      s3Region := cfg.s3.region
      s3ForcePathStyle := cfg.s3.forcePathStyle
      performanceOptimiser := cfg.performanceOptimiser }

end Start

structure RejectedChange where
  field : String
  reason : String
  deriving DecidableEq, Repr

structure ReloadResult where
  applied : List String
  rejected : List RejectedChange
  warnings : List String
  bindUnchanged : Bool
  deriving DecidableEq, Repr

def VolumeSummary.changed (cur : VolumeSummary) (vol : VolumeConfig) : Bool :=
  cur.name ≠ vol.name ||
    cur.iqn ≠ vol.iqn ||
    cur.family ≠ trimSlashes vol.family ||
    cur.capacity ≠ vol.capacity ||
    cur.chunkSize ≠ vol.chunkSize ||
    cur.compression ≠ vol.compression.asStr ||
    cur.storage ≠ vol.storage.asStr ||
    cur.writeCache ≠ vol.writeCache.mode.asStr ||
    cur.writeCacheMaxBytes ≠ vol.writeCache.maxBytes ||
    cur.writeBufferMaxBytes ≠ vol.writeBuffer.maxBytes

def volumesStructurallyChanged (current : AdminSnapshot) (newCfg : Config) : Bool :=
  current.volumes.length ≠ newCfg.volumes.length ||
    (current.volumes.zip newCfg.volumes).any fun (cur, vol) => cur.changed vol

def rejectIf (cond : Prop) [Decidable cond] (field reason : String) : List RejectedChange :=
  if cond then [⟨field, reason⟩] else []

def newPortals (current : AdminSnapshot) (newCfg : Config) : List Str :=
  if newCfg.portals ≠ [] then newCfg.portals
  else match newCfg.advertise with
    | some a => [a]
    | none => current.portals

def portalsWarning : String :=
  "portals/advertise updated in stats labels only; SendTargets still uses addresses from " ++
    "process start until restart"

/-- The result is always `Ok`. -/
def applySafeReload (current : AdminSnapshot) (newCfg : Config) (cache : ChunkCache) :
    ReloadResult × ChunkCache :=
  let rejected :=
    rejectIf (newCfg.bind ≠ current.bind) "bind" "listen address cannot change without restart" ++
    rejectIf (volumesStructurallyChanged current newCfg) "volumes"
      "volume add/remove/iqn/prefix/geometry changes require restart" ++
    rejectIf (newCfg.s3.bucket ≠ current.s3Bucket ∨ newCfg.s3.endpoint ≠ current.s3Endpoint ∨
        newCfg.s3.region ≠ current.s3Region ∨ newCfg.s3.forcePathStyle ≠ current.s3ForcePathStyle)
      "s3" "S3 bucket/endpoint/region/path-style changes require restart" ++
    rejectIf (newCfg.performanceOptimiser ≠ current.performanceOptimiser) "performance_optimiser"
      "performance optimiser changes require restart" ++
    rejectIf (newCfg.auth.isSome ∨ (newCfg.volumes.any (·.auth.isSome)) ∨
        current.volumes.any (·.auth ≠ "none"))
      "auth" "CHAP / ACL changes require restart"
  let resized := newCfg.cache.maxBytes ≠ current.cacheMaxBytes
  let moved := newPortals current newCfg ≠ current.portals
  ({ applied :=
      (if resized then ["cache.max_bytes=" ++ toString newCfg.cache.maxBytes] else []) ++
        if moved then ["portals/advertise@stats"] else []
     rejected := rejected
     warnings := if moved then [portalsWarning] else []
     bindUnchanged := newCfg.bind = current.bind },
    if resized then
      if newCfg.cache.maxBytes = 0 then cache.disable else cache.enable (some newCfg.cache.maxBytes)
    else cache)

def ReloadResult.Rejects (r : ReloadResult) (field : String) : Prop :=
  ∃ change ∈ r.rejected, change.field = field

instance (r : ReloadResult) (field : String) : Decidable (r.Rejects field) :=
  inferInstanceAs (Decidable (∃ change ∈ r.rejected, change.field = field))

structure Compared where
  name : Str
  iqn : Str
  family : Str
  capacity : Nat
  chunkSize : Nat
  compression : Compression
  writeCache : WriteCacheMode
  writeCacheMaxBytes : Nat
  writeBufferMaxBytes : Nat
  deriving DecidableEq, Repr

/-- The settings of a volume that only a restart can change. -/
structure RestartOnly extends Compared where
  storage : StorageMode
  blockSize : Nat
  path : Option (Bool × List Str)
  deriving DecidableEq, Repr

def restartOnly (vol : VolumeConfig) : RestartOnly where
  name := vol.name
  iqn := vol.iqn
  family := trimSlashes vol.family
  capacity := vol.capacity
  chunkSize := vol.chunkSize
  compression := vol.compression
  writeCache := vol.writeCache.mode
  writeCacheMaxBytes := vol.writeCache.maxBytes
  writeBufferMaxBytes := vol.writeBuffer.maxBytes
  storage := vol.storage
  blockSize := vol.blockSize
  path := vol.writeCache.path.map pathParts

/-- The volumes of two configurations differ in their number, their order or a setting that only a
restart can change. -/
def Differ (cfg newCfg : Config) : Prop :=
  cfg.volumes.map restartOnly ≠ newCfg.volumes.map restartOnly

/-- The layouts in the summary are those of the new configuration. -/
def SameLayouts (snapshot : AdminSnapshot) (cfg : Config) : Prop :=
  snapshot.volumes.map (·.storage) = cfg.volumes.map (·.storage.asStr)

/-- A difference that is not in what is compared: a block size, the path of a write cache, or a
layout that the start has already changed to the new one. -/
def Missed (cfg : Config) (snapshot : AdminSnapshot) (newCfg : Config) : Prop :=
  Differ cfg newCfg ∧ SameLayouts snapshot newCfg ∧
    cfg.volumes.map (restartOnly · |>.toCompared) = newCfg.volumes.map (restartOnly · |>.toCompared)

/-- No difference, but the start has changed a layout by finishing a migration. -/
def Spurious (cfg : Config) (snapshot : AdminSnapshot) (newCfg : Config) : Prop :=
  ¬Differ cfg newCfg ∧ ¬SameLayouts snapshot newCfg

instance (cfg newCfg : Config) : Decidable (Differ cfg newCfg) :=
  inferInstanceAs (Decidable (_ ≠ _))

instance (snapshot : AdminSnapshot) (cfg : Config) : Decidable (SameLayouts snapshot cfg) :=
  inferInstanceAs (Decidable (_ = _))

def advertised (cfg : Config) : List Str :=
  if cfg.portals ≠ [] then cfg.portals else cfg.advertise.toList

variable {snapshot : AdminSnapshot} {cfg : Config}

section Summary

variable [External]

open StoreM Request

theorem openVolume_capacity (cfg : S3StoreConfig) :
    (S3.openVolume cfg).Keeps Anything (fun _ _ => True) (.initial cfg) ()
      fun _ s _ => s.capacity = cfg.capacity := by
  have skip : ∀ {β γ : Type} {m : S3.VolM β} {f : β → S3.VolM γ} {s : S3ChunkStore}
      {R : γ → S3ChunkStore → Unit → Prop},
      (∀ b s', (f b).Keeps Anything (fun _ _ => True) s' () R) →
        (m >>= f).Keeps Anything (fun _ _ => True) s () R := fun {_ _ _ _ s _} rest =>
    Keeps.bind ((Preserves.trivial (fun _ => trivial) s trivial).mono fun b s' _ _ _ => rest b s')
  have resolved : ∀ existing s, (S3.resolveMeta cfg.capacity existing).Keeps Anything
      (fun _ _ => True) s () fun effective _ _ => effective = cfg.capacity := by
    intro existing s
    refine Keeps.bind (Keeps.get trivial (Keeps.bind (Keeps.lift trivial fun plan hplan => ?_)))
    obtain ⟨heffective, -⟩ := S3.planCapacity_ok hplan
    dsimp only
    split
    · exact skip fun _ _ => Keeps.pure trivial heffective
    · exact Keeps.pure trivial heffective
  have migrated : Preserves (fun s : S3ChunkStore => s.capacity = cfg.capacity) S3.migrateToCow :=
    S3.migrateToCow_preserves fun s hs => hs
  have marked : Preserves (fun s : S3ChunkStore => s.capacity = cfg.capacity)
      S3.hasMigrationMarker :=
    .get fun s hs => Preserves.bind (S3.getBytes_preserves _) (fun _ => .pure _) s hs
  refine skip fun probed s => Keeps.bind (Keeps.modify trivial trivial ?_)
  refine Keeps.bind ((resolved probed.2 _).mono fun effective s' _ _ heffective => ?_)
  refine Keeps.bind (Keeps.modify trivial trivial ?_)
  have rest : Preserves (fun s : S3ChunkStore => s.capacity = cfg.capacity)
      (if probed.1 = StorageMode.legacy then do
        if ← S3.hasMigrationMarker then
          let _ ← S3.migrateToCow
          pure ()
      else pure () : S3.VolM Unit) := by
    split
    · refine .bind marked fun found => ?_
      split
      · exact .bind migrated fun _ => .pure _
      · exact .pure _
    · exact .pure _
  exact rest.keeps heffective fun _ _ => trivial

def Summarises (vol : VolumeConfig) (cur : VolumeSummary) : Prop :=
  ∃ auth storage, cur = .of vol auth vol.capacity storage

theorem summarise_keeps (cfg : Config) (vol : VolumeConfig) :
    (summarise cfg vol).Keeps Anything (fun _ _ => True) () () fun cur _ _ =>
      Summarises vol cur := by
  have opened : (openVolume cfg vol).Keeps Anything (fun _ _ => True) () ()
      fun store _ _ => store.capacity = vol.capacity := by
    unfold openVolume
    split
    · exact Keeps.throw trivial
    · refine Prog.Safe.bind (Prog.Safe.mono ((openVolume_capacity (storeConfig vol)).safe
        fun _ _ _ => ⟨(), trivial⟩) ?_)
      rintro ⟨r, store⟩ ⟨⟩ - hr
      refine ⟨⟨(), trivial⟩, ?_⟩
      cases r with
      | ok u => exact ⟨trivial, hr.2⟩
      | error _ | panic | waits => exact trivial
  refine Keeps.bind (opened.mono fun store _ _ _ hcap => ?_)
  split
  · exact Keeps.throw trivial
  · rename_i auth _
    exact Keeps.pure trivial ⟨auth.mode, store.storage, by rw [hcap]⟩

theorem run_ok (h : (run cfg ()).Runs Anything () (.ok snapshot, ()) ()) :
    resolvePortals cfg = .ok snapshot.portals ∧
      List.Forall₂ Summarises cfg.volumes snapshot.volumes ∧
      snapshot.cacheMaxBytes = cfg.cache.maxBytes := by
  have keeps : (run cfg).Keeps Anything (fun _ _ => True) () () fun snapshot _ _ =>
      resolvePortals cfg = .ok snapshot.portals ∧
        List.Forall₂ Summarises cfg.volumes snapshot.volumes ∧
        snapshot.cacheMaxBytes = cfg.cache.maxBytes := by
    unfold run
    split
    · exact Keeps.throw trivial
    · rename_i portals hportals
      refine Keeps.bind ((Keeps.collect_forall₂ cfg.volumes trivial fun vol _ _ _ =>
        summarise_keeps cfg vol).mono fun volumes _ _ _ hvolumes => ?_)
      exact Keeps.pure trivial ⟨hportals, hvolumes, rfl⟩
  exact (Prog.Safe.runs keeps h).2

end Summary

theorem compression_asStr_injective : Function.Injective Compression.asStr := by
  intro a b h
  cases a <;> cases b <;> first | rfl | exact absurd h (by decide)

theorem writeCache_asStr_injective : Function.Injective WriteCacheMode.asStr := by
  intro a b h
  cases a <;> cases b <;> first | rfl | exact absurd h (by decide)

theorem changed_eq_false {vol : VolumeConfig} {cur : VolumeSummary} (h : Summarises vol cur)
    (new : VolumeConfig) :
    cur.changed new = false ↔
      (restartOnly vol).toCompared = (restartOnly new).toCompared ∧
        cur.storage = new.storage.asStr := by
  obtain ⟨auth, storage, rfl⟩ := h
  simp only [VolumeSummary.changed, Bool.or_eq_false_iff, decide_eq_false_iff_not]
  simp only [ne_eq, not_not, VolumeSummary.of, restartOnly, Compared.mk.injEq,
    compression_asStr_injective.eq_iff, writeCache_asStr_injective.eq_iff]
  tauto

theorem unchanged_iff {vols : List VolumeConfig} {curs : List VolumeSummary}
    (h : List.Forall₂ Summarises vols curs) (news : List VolumeConfig) :
    (curs.length = news.length ∧ ∀ p ∈ curs.zip news, p.1.changed p.2 = false) ↔
      vols.map (restartOnly · |>.toCompared) = news.map (restartOnly · |>.toCompared) ∧
        curs.map (·.storage) = news.map (·.storage.asStr) := by
  induction h generalizing news with
  | nil => cases news <;> simp
  | cons hcur _ ih =>
    cases news with
    | nil => simp
    | cons new news =>
      have hnews := ih news
      have hnew := changed_eq_false hcur new
      simp only [List.zip_cons_cons, List.forall_mem_cons, List.length_cons, List.map_cons,
        List.cons.injEq, Nat.add_right_cancel_iff] at hnews ⊢
      tauto

theorem rejects_volumes {cfg newCfg : Config} (cache : ChunkCache)
    (h : List.Forall₂ Summarises cfg.volumes snapshot.volumes) :
    (applySafeReload snapshot newCfg cache).1.Rejects "volumes" ↔
      ¬(cfg.volumes.map (restartOnly · |>.toCompared) =
          newCfg.volumes.map (restartOnly · |>.toCompared) ∧ SameLayouts snapshot newCfg) := by
  have hlist := unchanged_iff h newCfg.volumes
  have hreject : (applySafeReload snapshot newCfg cache).1.Rejects "volumes" ↔
      volumesStructurallyChanged snapshot newCfg = true := by
    simp [ReloadResult.Rejects, applySafeReload, rejectIf, or_and_right, exists_or]
  rw [hreject, SameLayouts, ← hlist, volumesStructurallyChanged]
  simp [imp_iff_not_or]

theorem resolveAdvertise_eq_self {entry : Str} (bind : Str) :
    resolveAdvertise entry bind = .ok entry ↔ looksLikeHostPort entry := by
  constructor
  · intro h
    by_contra hport
    rw [resolveAdvertise, if_neg hport] at h
    split at h
    · cases h
    · rename_i port _
      have hlength : (formatHostPort entry port).length = entry.length :=
        congrArg List.length (Except.ok.inj h)
      unfold formatHostPort at hlength
      split at hlength
      · simp at hlength
        omega
      · simp at hlength
  · exact resolveAdvertise_own bind

theorem mapM_resolveAdvertise {bind : Str} {entries resolved : List Str}
    (h : entries.mapM (fun entry => resolveAdvertise entry bind) = .ok resolved) :
    entries = resolved ↔ ∀ entry ∈ entries, looksLikeHostPort entry := by
  induction entries generalizing resolved with
  | nil =>
    cases h
    simp
  | cons entry entries ih =>
    rw [List.mapM_cons] at h
    cases hentry : resolveAdvertise entry bind with
    | error msg =>
      rw [hentry] at h
      cases h
    | ok first =>
      cases hrest : entries.mapM fun entry => resolveAdvertise entry bind with
      | error msg =>
        rw [hentry, hrest] at h
        cases h
      | ok rest =>
        rw [hentry, hrest] at h
        cases h
        have hself : entry = first ↔ looksLikeHostPort entry := by
          rw [← resolveAdvertise_eq_self bind, hentry, Except.ok.injEq, eq_comm]
        simp [hself, ih hrest]

theorem newPortals_eq (h : resolvePortals cfg = .ok snapshot.portals) :
    newPortals snapshot cfg = snapshot.portals ↔ ∀ entry ∈ advertised cfg,
      looksLikeHostPort entry := by
  unfold resolvePortals at h
  unfold newPortals advertised
  split
  · rename_i hportals
    rw [if_pos hportals] at h
    exact mapM_resolveAdvertise h
  · rename_i hportals
    rw [if_neg hportals] at h
    cases hadv : cfg.advertise with
    | none => simp
    | some adv =>
      rw [hadv] at h
      have hone : [adv].mapM (fun entry => resolveAdvertise entry cfg.bind) = .ok
        snapshot.portals := by
        rw [← h]
        cases resolveAdvertise adv cfg.bind <;> rfl
      exact mapM_resolveAdvertise hone

/-- The reload rejects `volumes` exactly if the volumes differ in a setting that only a restart can
change, unless the difference is one that is not compared or the start has finished a migration; and
reloading the same configuration applies nothing and warns about nothing exactly if every advertised
address names its port. -/
theorem reload_reports_differences [External] (cfg : Config) {snapshot : AdminSnapshot}
    (start : (run cfg ()).Runs StoreM.Anything () (.ok snapshot, ()) ()) (newCfg : Config)
    (cache : ChunkCache) :
    (((applySafeReload snapshot newCfg cache).1.Rejects "volumes" ↔ Differ cfg newCfg) ↔
      ¬Missed cfg snapshot newCfg ∧ ¬Spurious cfg snapshot newCfg) ∧
    ((applySafeReload snapshot cfg cache).1.applied = [] ∧
        (applySafeReload snapshot cfg cache).1.warnings = [] ↔
      ∀ entry ∈ advertised cfg, looksLikeHostPort entry) := by
  obtain ⟨hportals, hvolumes, hcache⟩ := run_ok start
  constructor
  · have hcompared : ¬Differ cfg newCfg →
        cfg.volumes.map (restartOnly · |>.toCompared) =
          newCfg.volumes.map (restartOnly · |>.toCompared) := by
      intro hsame
      have := congrArg (List.map RestartOnly.toCompared) (not_not.mp hsame)
      rwa [List.map_map, List.map_map] at this
    rw [rejects_volumes cache hvolumes, Missed, Spurious]
    tauto
  · rw [← newPortals_eq hportals]
    simp [applySafeReload, hcache]

section Reloaded

open S3.Plain

def oneVolumeConfig (advertise : Str) (blockSize : Nat) (h : blockSize < 2 ^ 32) : Config where
  advertise := some advertise
  s3 := { bucket := some "b".toList }
  volumes := [{
    name := "v".toList
    iqn := "i".toList
    family := "v/".toList
    capacity := 4
    blockSize := blockSize
    chunkSize := 2
    blockSize_lt := h }]

/-- What a start from such a configuration records, with the layout that the volume then has. -/
def oneVolumeSnapshot (advertise : Str) (storage : StorageMode) : AdminSnapshot where
  bind := "0.0.0.0:3260".toList
  portals := [advertise]
  volumes := [⟨"v".toList, "i".toList, 4, "none", "v".toList, 2, "none",
    storage.asStr, "none", 0, 0⟩]
  cacheMaxBytes := 256 * 1024 * 1024
  s3Bucket := some "b".toList
  s3Endpoint := none
  s3Region := "us-east-1".toList
  s3ForcePathStyle := false
  performanceOptimiser := false

theorem runs_start (b : S3.Bucket)
    (h : ((run cfg ()).run (S3.answer fun _ => []) b).1 = (.ok snapshot, ())) :
    (run cfg ()).Runs StoreM.Anything () (.ok snapshot, ()) () := by
  rw [← h]
  exact StoreM.runs_anything (S3.answer fun _ => []) (run cfg ()) b

theorem reload_reports_differences_port :
    (applySafeReload (oneVolumeSnapshot "h:1".toList .legacy)
      (oneVolumeConfig "h:1".toList 1 (by decide)) (.new 0)).1.applied = [] := by
  have start : (run (oneVolumeConfig "h:1".toList 1 (by decide)) ()).Runs StoreM.Anything ()
      (.ok (oneVolumeSnapshot "h:1".toList .legacy), ()) () := runs_start ∅ (by decide +kernel)
  exact ((reload_reports_differences _ start (oneVolumeConfig "h:1".toList 1 (by decide))
    (.new 0)).2.mpr (by decide)).1

/-- A new block size is not noticed, a layout changed by the start is reported though nothing was
edited, and an address without a port is taken for a new one. -/
theorem reload_misreports :
    (oneVolumeConfig "h:1".toList 1 (by decide)).validate = .ok () ∧
    (oneVolumeConfig "h:1".toList 2 (by decide)).validate = .ok () ∧
    (oneVolumeConfig "h".toList 1 (by decide)).validate = .ok () ∧
    (run (oneVolumeConfig "h:1".toList 1 (by decide)) ()).Runs StoreM.Anything ()
      (.ok (oneVolumeSnapshot "h:1".toList .legacy), ()) () ∧
    Differ (oneVolumeConfig "h:1".toList 1 (by decide))
      (oneVolumeConfig "h:1".toList 2 (by decide)) ∧
    ¬(applySafeReload (oneVolumeSnapshot "h:1".toList .legacy)
      (oneVolumeConfig "h:1".toList 2 (by decide)) (.new 0)).1.Rejects "volumes" ∧
    (run (oneVolumeConfig "h:1".toList 1 (by decide)) ()).Runs StoreM.Anything ()
      (.ok (oneVolumeSnapshot "h:1".toList .cow), ()) () ∧
    (applySafeReload (oneVolumeSnapshot "h:1".toList .cow)
      (oneVolumeConfig "h:1".toList 1 (by decide)) (.new 0)).1.Rejects "volumes" ∧
    (run (oneVolumeConfig "h".toList 1 (by decide)) ()).Runs StoreM.Anything ()
      (.ok (oneVolumeSnapshot "h:3260".toList .legacy), ()) () ∧
    (applySafeReload (oneVolumeSnapshot "h:3260".toList .legacy)
      (oneVolumeConfig "h".toList 1 (by decide)) (.new 0)).1.applied =
        ["portals/advertise@stats"] := by
  refine ⟨by decide +kernel, by decide +kernel, by decide +kernel, runs_start ∅ (by decide +kernel),
    by decide +kernel, by decide +kernel, ?_, by decide +kernel, runs_start ∅ (by decide +kernel),
    by decide +kernel⟩
  -- the bucket has the marker of a migration that was interrupted
  exact runs_start (AList.insert (S3.migratingKey "v".toList) [] ∅) (by decide +kernel)

end Reloaded

end IscsiS3.Admin
