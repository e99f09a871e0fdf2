import IscsiS3.Lib.Session
import IscsiS3.S3.KeepMigration

/-! The process that serves several volumes of one bucket, one call at a time. Any put or delete can
fail, with or without its effect, and the process can stop between two requests. -/

namespace IscsiS3.S3

open Request External

/-- The volumes of a bucket: no volume's keys are among those of another. -/
structure Site (V : Type) where
  shape : V → Shape
  disjoint : ∀ {u v}, u ≠ v → Disjoint (shape u).family (shape v).family

/-- A volume in the memory of the process; it is locked from the start of a migration until one
succeeds. -/
structure Mounted where
  store : S3ChunkStore
  locked : Bool
  deriving DecidableEq

abbrev Memory (V : Type) : Type := V → Option Mounted

inductive Call (V : Type) where
  | openVolume (v : V) (cfg : S3StoreConfig)
  | writeAt (v : V) (offset : Nat) (data : Bytes)
  | deleteChunk (v : V) (index : Nat)
  | setCapacity (v : V) (newCapacity : Nat)
  | snapshotCreate (v : V) (now : Nat) (id sourceVolume : Str)
  | snapshotDelete (v : V) (id : Str)
  | snapshotRestore (v : V) (id : Str)
  | snapshotCloneInto (source dest : V) (id : Str)
  | gcUnreferencedObjects (v : V)
  | migrateToCow (v : V)

section Programs

variable {V : Type} [DecidableEq V] [External]

def Memory.on {α : Type} (mem : Memory V) (v : V) (m : VolM α) (vol : Mounted) :
    Prog Req Reply (Memory V) :=
  (m vol.store).bind fun r => .ret (Function.update mem v (some { vol with store := r.2 }))

/-- The volume of a migration is locked, and unlocked if the migration succeeds. -/
def Memory.migrate (mem : Memory V) (v : V) (vol : Mounted) : Prog Req Reply (Memory V) :=
  (S3.migrateToCow vol.store).bind fun r =>
    .ret (Function.update mem v (some ⟨r.2, match r.1 with
      | .ok _ => false
      | _ => true⟩))

/-- A volume that cannot be opened is not mounted. -/
def Memory.mount (mem : Memory V) (v : V) (cfg : S3StoreConfig) : Prog Req Reply (Memory V) :=
  (S3.openVolume cfg (.initial cfg)).bind fun r => .ret (Function.update mem v (match r.1 with
    | .ok () => some ⟨r.2, false⟩
    | _ => none))

def Memory.clone (mem : Memory V) (source dest : V) (id : Str) (a c : Mounted) :
    Prog Req Reply (Memory V) :=
  (S3.snapshotCloneInto id (a.store, c.store)).bind fun r =>
    .ret (Function.update (Function.update mem source (some { a with store := r.2.1 })) dest
      (some { c with store := r.2.2 }))

def Call.prog (mem : Memory V) : Call V → Option (Prog Req Reply (Memory V))
  | .openVolume v cfg => some (mem.mount v cfg)
  | .writeAt v offset data => (mem v).map (mem.on v (S3.writeAt offset data))
  | .deleteChunk v index => (mem v).map (mem.on v (deleteChunkObject index))
  | .setCapacity v newCapacity => (mem v).map (mem.on v (S3.setCapacity newCapacity))
  | .snapshotCreate v now id sourceVolume =>
      (mem v).map (mem.on v (S3.snapshotCreate now id sourceVolume))
  | .snapshotDelete v id => (mem v).map (mem.on v (S3.snapshotDelete id))
  | .snapshotRestore v id => (mem v).map (mem.on v (S3.snapshotRestore id))
  | .snapshotCloneInto source dest id => match mem source, mem dest with
    | some a, some c => if source = dest then none else some (mem.clone source dest id a c)
    | _, _ => none
  | .gcUnreferencedObjects v => (mem v).map (mem.on v S3.gcUnreferencedObjects)
  | .migrateToCow v => (mem v).map (mem.migrate v)

/-- The arguments of a call are in range: volumes are opened with their own family and geometry. -/
def Call.Valid (site : Site V) : Call V → Prop
  | .openVolume v cfg => (S3ChunkStore.initial cfg).Has (site.shape v) ∧ cfg.capacity < u64Size
  | .setCapacity _ newCapacity => newCapacity < u64Size
  | _ => True

/-- The process, of which `admits` says which calls it lets through. -/
def process (site : Site V) (admits : Memory V → Call V → Prop) :
    Session.Process Req Reply (Memory V) where
  calls mem p := ∃ c : Call V, c.Valid site ∧ admits mem c ∧ c.prog mem = some p
  fresh := fun _ => none

end Programs

section Invariant

variable {V : Type} [External] {P : Promise} {site : Site V} {mem : Memory V} {b : Bucket}

theorem Opened.frame {v : Shape} {F G : Bucket → Prop} {locked : Bool} {s : S3ChunkStore}
    (h : Opened P v F locked s b) (rest : G b) : Opened P v G locked s b :=
  ⟨h.has, h.cap, h.sound, h.metered, h.unmigrated, rest⟩

variable (P site mem b) in
def VolumeOk (v : V) : Prop :=
  match mem v with
  | some vol => Opened P (site.shape v) (fun _ => True) vol.locked vol.store b
  | none => Closed P (site.shape v) b

variable (P site mem b) in
def SiteOk : Prop := ∀ v, VolumeOk P site mem b v

variable (P site b) in
def Left : Prop := ∀ v, Closed P (site.shape v) b

theorem VolumeOk.closed {v : V} (h : VolumeOk P site mem b v) : Closed P (site.shape v) b := by
  unfold VolumeOk at h
  split at h
  · exact h.closed
  · exact h

def Others (P : Promise) (site : Site V) (mem : Memory V) (v : V) (b : Bucket) : Prop :=
  ∀ u, u ≠ v → VolumeOk P site mem b u

theorem VolumeOk.congr {v : V} {b' : Bucket} (h : VolumeOk P site mem b v)
    (same : ∀ area, Same (site.shape v).family area b b') : VolumeOk P site mem b' v := by
  unfold VolumeOk at h ⊢
  split
  · rename_i vol hvol
    rw [hvol] at h
    exact h.congr same trivial
  · rename_i hnone
    rw [hnone] at h
    exact h.imp fun _ hs => hs.congr fun area _ => same area

theorem others_elsewhere (v : V) : Elsewhere (site.shape v).family (Others P site mem v) where
  insert := fun _ hk h u hu => (h u hu).congr fun _ => same_insert_family (site.disjoint hu) hk
  erase := fun hk h u hu => (h u hu).congr fun _ => same_erase_family (site.disjoint hu) hk

variable [DecidableEq V]

theorem Others.left {v : V} (h : Others P site mem v b) (hv : Closed P (site.shape v) b) :
    Left P site b := fun u => by
  by_cases hu : u = v
  · exact hu ▸ hv
  · exact (h u hu).closed

theorem Others.update {v : V} (h : Others P site mem v b) {vol : Option Mounted}
    (hv : VolumeOk P site (Function.update mem v vol) b v) :
    SiteOk P site (Function.update mem v vol) b := fun u => by
  by_cases hu : u = v
  · exact hu ▸ hv
  · have := h u hu
    unfold VolumeOk at this ⊢
    rwa [Function.update_of_ne hu]

theorem volumeOk_update {v : V} {vol : Mounted}
    (h : Opened P (site.shape v) (fun _ => True) vol.locked vol.store b) :
    VolumeOk P site (Function.update mem v (some vol)) b v := by
  unfold VolumeOk
  rw [Function.update_self]
  exact h

omit [DecidableEq V] in
theorem SiteOk.opened (h : SiteOk P site mem b) {v : V} {vol : Mounted} (hv : mem v = some vol) :
    Opened P (site.shape v) (Others P site mem v) vol.locked vol.store b := by
  have hok := h v
  unfold VolumeOk at hok
  rw [hv] at hok
  exact hok.frame fun u _ => h u

end Invariant

section Safety

variable {V : Type} [DecidableEq V] [External] {P : Promise} {site : Site V} {mem : Memory V}
variable {b : Bucket} {env : Env Req Reply Bucket} {v : V} {vol : Mounted}

open StoreM

theorem on_safe {α : Type} {m : VolM α} {R : α → S3ChunkStore → Bucket → Prop}
    (h : m.Keeps env (Opened P (site.shape v) (Others P site mem v) vol.locked) vol.store b R) :
    (mem.on v m vol).Safe env (Left P site) b (SiteOk P site) := by
  refine Prog.Safe.bind (Prog.Safe.mono (h.safe fun s' b' hs' => ?_) ?_)
  · exact hs'.rest.left hs'.closed
  · intro r b' _ hr
    have hopened := hr.keeps
    exact ⟨hopened.rest.left hopened.closed,
      hopened.rest.update (volumeOk_update (hopened.frame trivial))⟩

theorem migrate_safe
    (h : S3.migrateToCow.Keeps env (Opened P (site.shape v) (Others P site mem v) true) vol.store b
      fun _ s' _ => s'.storage = .cow) :
    (mem.migrate v vol).Safe env (Left P site) b (SiteOk P site) := by
  refine Prog.Safe.bind (Prog.Safe.mono (h.safe fun s' b' hs' => ?_) ?_)
  · exact hs'.rest.left hs'.closed
  · rintro ⟨r, s'⟩ b' _ hr
    have hopened := hr.keeps
    refine ⟨hopened.rest.left hopened.closed, hopened.rest.update (volumeOk_update ?_)⟩
    cases r with
    | ok stats => exact (hopened.unlock hr.2).frame trivial
    | error _ | panic | waits => exact hopened.frame trivial

theorem mount_safe {cfg : S3StoreConfig}
    (h : (S3.openVolume cfg).Keeps env
      (fun s' b' => s'.Has (site.shape v) ∧ Closed P (site.shape v) b' ∧ Others P site mem v b')
      (.initial cfg) b fun _ s' b' => Opened P (site.shape v) (Others P site mem v) false s' b') :
    (mem.mount v cfg).Safe env (Left P site) b (SiteOk P site) := by
  refine Prog.Safe.bind (Prog.Safe.mono (h.safe fun s' b' hs' => ?_) ?_)
  · exact hs'.2.2.left hs'.2.1
  · rintro ⟨r, s'⟩ b' _ hr
    obtain ⟨-, hclosed, hrest⟩ := hr.keeps
    refine ⟨hrest.left hclosed, hrest.update ?_⟩
    have none : VolumeOk P site (Function.update mem v none) b' v := by
      unfold VolumeOk
      rw [Function.update_self]
      exact hclosed
    cases r with
    | ok u => exact volumeOk_update (hr.2.frame trivial)
    | error _ | panic | waits => exact none

theorem clone_safe {source dest : V} (hne : source ≠ dest) {id : Str} {a c : Mounted}
    (hsource : mem source = some a)
    (h : (S3.snapshotCloneInto id).Keeps env (Cloning P (site.shape source) (site.shape dest)
      (fun b => ∀ u, u ≠ source → u ≠ dest → VolumeOk P site mem b u) a.locked c.locked a.store)
      (a.store, c.store) b fun _ _ _ => True) :
    (mem.clone source dest id a c).Safe env (Left P site) b (SiteOk P site) := by
  have others : ∀ {s b}, Cloning P (site.shape source) (site.shape dest)
      (fun b => ∀ u, u ≠ source → u ≠ dest → VolumeOk P site mem b u) a.locked
        c.locked a.store s b →
      Others P site mem dest b := by
    rintro s b ⟨-, hdest⟩ u hu
    by_cases hus : u = source
    · subst hus
      unfold VolumeOk
      rw [hsource]
      exact hdest.rest.frame trivial
    · exact hdest.rest.rest u hus hu
  refine Prog.Safe.bind (Prog.Safe.mono (h.safe fun s' b' hs' => ?_) ?_)
  · exact (others hs').left hs'.2.closed
  · rintro ⟨r, p⟩ b' _ hr
    have hcloning := hr.keeps
    refine ⟨(others hcloning).left hcloning.2.closed, ?_⟩
    have hmem : Function.update mem source (some { a with store := p.1 }) = mem := by
      rw [hcloning.1]
      exact Function.update_eq_self_iff.mpr hsource.symm
    rw [hmem]
    exact (others hcloning).update (volumeOk_update (hcloning.2.frame trivial))

/-- The site's own rule: while a volume is locked for its migration, writes, deletes and changes of
the capacity are refused. -/
def Unlocked (mem : Memory V) : Call V → Prop
  | .writeAt v _ _ | .deleteChunk v _ | .setCapacity v _ => ∀ vol, mem v = some vol →
      vol.locked = false
  | _ => True

theorem process_keeps [Honest env] (json : JsonRoundTrips) (pays : Pays P env)
    {admits : Memory V → Call V → Prop} (admitted : P.strict → ∀ mem c, admits mem c →
      Unlocked mem c) :
    Session.Keeps (process site admits) env (SiteOk P site) (Left P site) where
  left := fun h v => (h v).closed
  start := fun h v => h v
  call := by
    rintro mem b p h ⟨c, hvalid, hadmits, hp⟩
    have fixed : ∀ {α : Type} {m : VolM α} {v : V} {vol : Mounted}
        {R : α → S3ChunkStore → Bucket → Prop},
        m.Keeps env (Fixed vol.store (Opened P (site.shape v) (Others P site mem v) vol.locked
          vol.store)) vol.store b R →
        (mem.on v m vol).Safe env (Left P site) b (SiteOk P site) := fun hm =>
      on_safe (hm.weaken fun _ _ hs => hs.1 ▸ hs.2)
    cases c with
    | openVolume v cfg =>
      cases hp
      exact mount_safe (openVolume_keeps json pays (others_elsewhere v) hvalid.2 hvalid.1
        (h v).closed fun u _ => h u)
    | writeAt v offset data =>
      obtain ⟨vol, hv, rfl⟩ := Option.map_eq_some_iff.mp hp
      exact fixed (writeAt_keeps pays (others_elsewhere v) (h.opened hv) offset data)
    | deleteChunk v index =>
      obtain ⟨vol, hv, rfl⟩ := Option.map_eq_some_iff.mp hp
      exact fixed (deleteChunk_keeps (others_elsewhere v) (h.opened hv) index)
    | setCapacity v newCapacity =>
      obtain ⟨vol, hv, rfl⟩ := Option.map_eq_some_iff.mp hp
      have hopened := h.opened hv
      exact on_safe (setCapacity_keeps json (others_elsewhere v) hopened
        (fun hs => hopened.unmigrated hs (admitted hs mem _ hadmits vol hv)) hvalid)
    | snapshotCreate v now id sourceVolume =>
      obtain ⟨vol, hv, rfl⟩ := Option.map_eq_some_iff.mp hp
      exact fixed (snapshotCreate_keeps json (others_elsewhere v) (h.opened hv) now id sourceVolume)
    | snapshotDelete v id =>
      obtain ⟨vol, hv, rfl⟩ := Option.map_eq_some_iff.mp hp
      exact fixed (snapshotDelete_keeps (others_elsewhere v) (h.opened hv) id)
    | snapshotRestore v id =>
      obtain ⟨vol, hv, rfl⟩ := Option.map_eq_some_iff.mp hp
      exact on_safe (snapshotRestore_keeps json (others_elsewhere v) (h.opened hv) id)
    | snapshotCloneInto source dest id =>
      simp only [Call.prog] at hp
      split at hp
      · rename_i a c ha hc
        split at hp
        · cases hp
        · rename_i hne
          cases hp
          refine clone_safe hne ha (snapshotCloneInto_keeps json pays (site.disjoint hne) ?_ ?_ id)
          · exact ⟨fun _ hk hF u hu hu' => (hF u hu hu').congr fun _ =>
              same_insert_family (site.disjoint hu') hk, fun hk hF u hu hu' =>
              (hF u hu hu').congr fun _ => same_erase_family (site.disjoint hu') hk⟩
          · exact (h.opened hc).frame ((h.opened ha).frame fun u _ _ => h u)
      · cases hp
    | gcUnreferencedObjects v =>
      obtain ⟨vol, hv, rfl⟩ := Option.map_eq_some_iff.mp hp
      exact fixed (gcUnreferencedObjects_keeps (others_elsewhere v) (h.opened hv))
    | migrateToCow v =>
      obtain ⟨vol, hv, rfl⟩ := Option.map_eq_some_iff.mp hp
      exact migrate_safe (migrateToCow_keeps json pays (others_elsewhere v) (h.opened hv).lock)

end Safety

end IscsiS3.S3
