import IscsiS3.S3.Territory
import IscsiS3.S3.LivePointers

/-! A snapshot whose manifest says that it is ready can be restored: its index is there, and so is
every object that it names. `snapshot_delete` removes the index first, and so every deletion of a
ready snapshot passes through a state in which it is ready and has no index. -/

namespace IscsiS3.S3

open Request External StoreM

section Ready

variable [External]

def Ready (family id : Str) (b : Bucket) (m : SnapshotManifest) : Prop :=
  ∃ json, b.lookup (snapshotManifestKey family id) = some json ∧ parseManifest json = .ok m ∧
    m.state = .ready

/-- If the snapshot is ready, its index can be read and has as many records as the manifest
counts. -/
def Counted (family id : Str) (b : Bucket) : Prop :=
  ∀ m, Ready family id b m → ∃ body refs, b.lookup (snapshotChunksKey family id) = some body ∧
    readChunksBin body = .ok refs ∧ refs.length = m.chunkCount

/-- If the snapshot is ready, it can be restored: every object that its index names is there too. -/
def Restorable (family id : Str) (b : Bucket) : Prop :=
  ∀ m, Ready family id b m → ∃ body refs, b.lookup (snapshotChunksKey family id) = some body ∧
    readChunksBin body = .ok refs ∧ refs.length = m.chunkCount ∧
    ∀ r ∈ refs, objectKey family r.hash ∈ b

/-- The service may fail, but no deletion of the snapshot's index takes effect while the snapshot is
ready. -/
def SparesIndex (family id : Str) : Env Req Reply Bucket := fun r b x b' =>
  Unreliable r b x b' ∧
    ∀ m, r = .delete (snapshotChunksKey family id) → Ready family id b m → b' = b

instance (family id : Str) : Honest (SparesIndex family id) := ⟨fun _ _ _ _ h => h.1⟩

variable {P : Promise} {v : Shape} {cap : Nat} {family id : Str} {b b' : Bucket}

theorem Restorable.counted (h : Restorable family id b) : Counted family id b := by
  intro m hready
  obtain ⟨body, refs, hbody, hread, hcount, -⟩ := h m hready
  exact ⟨body, refs, hbody, hread, hcount⟩

theorem Sound.restorable (h : Sound P v cap b) (counted : Counted v.family id b) :
    Restorable v.family id b := by
  intro m hready
  obtain ⟨body, refs, hbody, hread, hcount⟩ := counted m hready
  obtain ⟨_, m', refs', -, -, -, rfl, hlen, hrefs⟩ := h.indexes id body hbody
  have hsame : refs' = refs := by
    have := readChunksBin_writeChunksBin (fun r hr => (hrefs r hr).1) hlen
    exact Outcome.ok.inj (this.symm.trans hread)
  subst hsame
  exact ⟨_, refs', hbody, hread, hcount, fun r hr => (hrefs r hr).2.1⟩

theorem Counted.congr (h : Counted family id b)
    (manifest : b'.lookup (snapshotManifestKey family id) = b.lookup
      (snapshotManifestKey family id))
    (index : b'.lookup (snapshotChunksKey family id) = b.lookup (snapshotChunksKey family id)) :
    Counted family id b' := by
  intro m hready
  unfold Ready at hready
  rw [manifest] at hready
  rw [index]
  exact h m hready

theorem counted_of_not_ready (h : ∀ m, ¬Ready family id b m) : Counted family id b :=
  fun m hready => absurd hready (h m)

/-- A request that leaves the metadata of the snapshot alone, or deletes some of it. -/
def Harmless (family id : Str) (r : Req) : Prop :=
  (∀ k, r.changes = some k → k ≠ snapshotManifestKey family id ∧ k ≠ snapshotChunksKey family id) ∨
    r = .delete (snapshotManifestKey family id) ∨ r = .delete (snapshotChunksKey family id)

omit [External] in
theorem Unreliable.lookup {r : Req} {x : Reply r} {k : Key} (step : Unreliable r b x b')
    (hk : ∀ l, r.changes = some l → l ≠ k) : b'.lookup k = b.lookup k := by
  cases r with
  | get key =>
    obtain ⟨rfl, -⟩ := step
    rfl
  | list front =>
    obtain ⟨rfl, -⟩ := step
    rfl
  | put key body ifMatch =>
    have hne := (hk key rfl).symm
    rcases step with ⟨-, rfl⟩ | ⟨_, -, rfl | rfl⟩
    · exact AList.lookup_insert_ne hne
    · rfl
    · exact AList.lookup_insert_ne hne
  | delete key =>
    have hne := (hk key rfl).symm
    rcases step with ⟨-, rfl⟩ | ⟨_, -, rfl | rfl⟩
    · exact AList.lookup_erase_ne hne
    · rfl
    · exact AList.lookup_erase_ne hne

theorem Harmless.counted {r : Req} {x : Reply r} (h : Harmless family id r)
    (step : SparesIndex family id r b x b') (counted : Counted family id b) :
    Counted family id b' := by
  rcases h with alone | rfl | rfl
  · exact counted.congr (step.1.lookup fun l hl => (alone l hl).1)
      (step.1.lookup fun l hl => (alone l hl).2)
  · -- without its manifest the snapshot is not ready
    rcases step.1 with ⟨-, rfl⟩ | ⟨_, -, rfl | rfl⟩
    · exact counted_of_not_ready fun m ⟨_, hjson, _⟩ => by simp at hjson
    · exact counted
    · exact counted_of_not_ready fun m ⟨_, hjson, _⟩ => by simp at hjson
  · by_cases hready : ∃ m, Ready family id b m
    · obtain ⟨m, hm⟩ := hready
      rw [step.2 m rfl hm]
      exact counted
    · refine counted_of_not_ready fun m hm => hready ⟨m, ?_⟩
      obtain ⟨json, hjson, hparse⟩ := hm
      refine ⟨json, ?_, hparse⟩
      rw [← hjson]
      refine (step.1.lookup fun l hl => ?_).symm
      cases hl
      exact (manifest_ne_chunks _ _ _ _).symm

section Harmless

variable {g other : Str} {r : Req}

omit [External]

theorem harmless_permits {C : Req → Prop} (h : ∀ r, C r → Harmless family id r)
    (hr : Permits C r) : Harmless family id r := by
  rcases hr with hnone | hr
  · exact .inl fun k hk => by simp [hnone] at hk
  · exact h r hr

theorem harmless_offSnapshots (hg : g = family ∨ Disjoint g family) (h : OffSnapshots g r) :
    Harmless family id r := by
  obtain ⟨key, area, hkey, harea, hin⟩ := h
  refine .inl fun k hk => ?_
  obtain rfl : key = k := Option.some.inj (hkey.symm.trans hk)
  rcases hg with rfl | hdisjoint
  · exact ⟨hin.ne (inArea_manifest _ _) harea, hin.ne (inArea_chunks _ _) harea⟩
  · exact ⟨hin.ne_family (inArea_manifest _ _) hdisjoint,
      hin.ne_family (inArea_chunks _ _) hdisjoint⟩

theorem harmless_other (h : Disjoint g family ∨ g = family ∧ other ≠ id)
    (hr : r.changes = some (snapshotChunksKey g other) ∨
      r.changes = some (snapshotManifestKey g other)) : Harmless family id r := by
  refine .inl fun k hk => ?_
  rw [hk] at hr
  rcases h with hdisjoint | ⟨rfl, hne⟩
  · have hin : InArea g .snapshots k := by
      rcases hr with hr | hr <;> cases hr
      · exact inArea_chunks _ _
      · exact inArea_manifest _ _
    exact ⟨hin.ne_family (inArea_manifest _ _) hdisjoint,
      hin.ne_family (inArea_chunks _ _) hdisjoint⟩
  · rcases hr with hr | hr <;> cases hr
    · exact ⟨(manifest_ne_chunks _ _ _ _).symm, fun heq => hne (snapshotChunksKey_inj heq)⟩
    · exact ⟨fun heq => hne (snapshotManifestKey_inj heq), manifest_ne_chunks _ _ _ _⟩

theorem harmless_drops (hg : g = family ∨ Disjoint g family) (h : DropsSnapshot g other r) :
    Harmless family id r := by
  rcases h with h | h
  · exact harmless_offSnapshots hg h
  · have changes : r.changes = some (snapshotChunksKey g other) ∨
        r.changes = some (snapshotManifestKey g other) := by
      rcases h with rfl | rfl
      · exact .inl rfl
      · exact .inr rfl
    rcases hg with rfl | hdisjoint
    · by_cases hid : other = id
      · subst hid
        exact .inr h.symm
      · exact harmless_other (.inr ⟨rfl, hid⟩) changes
    · exact harmless_other (.inl hdisjoint) changes

theorem harmless_puts (hg : Disjoint g family ∨ g = family ∧ other ≠ id)
    (h : PutsSnapshot g other r) : Harmless family id r := by
  rcases h with h | ⟨body, rfl⟩ | ⟨body, rfl⟩
  · exact harmless_offSnapshots (hg.symm.imp And.left fun h => h) h
  · exact harmless_other hg (.inl rfl)
  · exact harmless_other hg (.inr rfl)

end Harmless

theorem snapshotCreate_counted (json : JsonRoundTrips) {s : S3ChunkStore} (hs : s.family = family)
    (counted : Counted family id b) (now : Nat) (sourceVolume : Str) :
    (snapshotCreate now id sourceVolume).Keeps (SparesIndex family id)
      (Fixed s (Counted family id)) s b fun _ _ _ => True := by
  refine requireCow_reads.then ⟨rfl, counted⟩ fun _ _ =>
    Keeps.bind (Keeps.lift ⟨rfl, counted⟩ fun _ _ => ?_)
  refine Reads.get.then ⟨rfl, counted⟩ fun t ht => ?_
  obtain rfl := Returns.ok.mp ht
  simp only [hs]
  refine (getBytes_reads _).then ⟨rfl, counted⟩ fun found _ => ?_
  split
  · exact Keeps.throw ⟨rfl, counted⟩
  generalize hm : SnapshotManifest.newCreating now id sourceVolume t.capacity t.chunkSize
    t.blockSize t.compression = m
  have creating : ∀ {b : Bucket}, b.lookup (snapshotManifestKey family id) = some (manifestJson m) →
      ∀ m', ¬Ready family id b m' := by
    rintro b hlookup m' ⟨_, hjson, hparse, hstate⟩
    rw [hlookup] at hjson
    cases hjson
    rw [json.manifest] at hparse
    cases hparse
    rw [← hm] at hstate
    cases hstate
  have hmanifest : (b.insert (snapshotManifestKey family id) (manifestJson m)).lookup
      (snapshotManifestKey family id) = some (manifestJson m) := AList.lookup_insert _
  have counted₁ := counted_of_not_ready (creating hmanifest)
  refine Keeps.bind (putBytes_keeps ⟨rfl, counted⟩ (fun _ _ => ⟨rfl, counted₁⟩) fun _ _ => ?_)
  refine collectLiveRefs_reads.then ⟨rfl, counted₁⟩ fun refs hrefs => ?_
  obtain ⟨hrefs, hlen⟩ := Value.ok.mp hrefs
  have hread : readChunksBin (writeChunksBin refs) = .ok refs := by
    refine readChunksBin_writeChunksBin (fun r hr => ?_) hlen
    rw [hrefs] at hr
    exact lt_of_mem_indices (mem_liveRefs.mp hr).1
  have counted₂ : Counted family id ((b.insert (snapshotManifestKey family id)
      (manifestJson m)).insert (snapshotChunksKey family id) (writeChunksBin refs)) :=
    counted_of_not_ready (creating
      ((AList.lookup_insert_ne (manifest_ne_chunks _ _ _ _)).trans hmanifest))
  refine Keeps.bind (putBytes_keeps ⟨rfl, counted₁⟩ (fun _ _ => ⟨rfl, counted₂⟩) fun _ _ => ?_)
  have counted₃ : Counted family id (((b.insert (snapshotManifestKey family id)
      (manifestJson m)).insert (snapshotChunksKey family id) (writeChunksBin refs)).insert
        (snapshotManifestKey family id)
        (manifestJson { m with chunkCount := refs.length, state := .ready })) := by
    rintro m' ⟨_, hjson, hparse, -⟩
    rw [AList.lookup_insert] at hjson
    cases hjson
    rw [json.manifest] at hparse
    cases hparse
    refine ⟨_, refs, ?_, hread, rfl⟩
    rw [AList.lookup_insert_ne (manifest_ne_chunks _ _ _ _).symm]
    exact AList.lookup_insert _
  exact Keeps.bind (putBytes_keeps ⟨rfl, counted₂⟩ (fun _ _ => ⟨rfl, counted₃⟩) fun _ _ =>
    Keeps.pure ⟨rfl, counted₃⟩ trivial)

end Ready

section Process

variable {V : Type} [External] {P : Promise} {site : Site V} {mem : Memory V} {b : Bucket}
variable {family id : Str} {α : Type} {p : Prog Req Reply (Memory V)} {c : Call V} {v : V}

theorem snapshotCreate_foot (now : Nat) (id sourceVolume : Str) :
    (foot family (PutsSnapshot family id)).Stays (snapshotCreate now id sourceVolume) :=
  Realm.snapshotCreate_stays now id sourceVolume (fun body => .inr (.inr (.inl ⟨body, rfl⟩)))
    fun body => .inr (.inr (.inr ⟨body, rfl⟩))

theorem snapshotDelete_foot (id : Str) :
    (foot family (DropsSnapshot family id)).Stays (snapshotDelete id) :=
  Realm.snapshotDelete_stays id (.inr (.inr (.inl rfl))) (.inr (.inr (.inr rfl))) fun _ hk =>
    .inr (.inl (offSnapshots_delete hk (by decide)))

section Calls

variable {env : Env Req Reply Bucket} [Honest env] {K : Bucket → Prop}

omit [External] in
theorem stays_safe {m : VolM α} {g : Str} {C : Req → Prop} {s : S3ChunkStore}
    (keeps : ∀ r b x b', Harmless family id r → env r b x b' → K b → K b')
    (h : (foot g C).Stays m) (harmless : ∀ r, C r → Harmless family id r) (hs : s.family = g)
    (hK : K b) : (m s).Safe env K b fun _ b' => K b' := by
  have kept : ∀ r b x b', Permits C r → env r b x b' → K b → Fitting r x ∧ K b' :=
    fun r b x b' hr step hb => ⟨fitting_of_unreliable (Honest.below r b x b' step),
      keeps r b x b' (harmless_permits harmless hr) step hb⟩
  exact Prog.Safe.mono (Prog.Confined.safe (h s hs) kept hK) fun _ _ _ hr => hr.1

omit [External] [Honest env] in
theorem bind_safe {m : Prog Req Reply α} {f : α → Memory V} (h : m.Safe env K b fun _ b' => K b') :
    (m.bind fun r => .ret (f r)).Safe env K b fun _ b' => K b' :=
  .bind (h.mono fun _ _ hI hc => ⟨hI, hc⟩)

variable [DecidableEq V]

/-- What requests keep that leave the metadata of a snapshot alone, or delete some of it, every call
keeps, if `snapshot_create` with the id of the snapshot does. -/
theorem call_safe
    (keeps : ∀ r b x b', Harmless (site.shape v).family id r → env r b x b' → K b → K b')
    (create : ∀ (s : S3ChunkStore) (now : Nat) (sourceVolume : Str),
      s.family = (site.shape v).family → (snapshotCreate now id sourceVolume s).Safe env K b
        fun _ b' => K b')
    (sites : SiteOk P site mem b) (hK : K b) (valid : c.Valid site) (hp : c.prog mem = some p) :
    p.Safe env K b fun _ b' => K b' := by
  have apart : ∀ u, (site.shape u).family = (site.shape v).family ∨
      Disjoint (site.shape u).family (site.shape v).family := by
    intro u
    by_cases hu : u = v
    · exact .inl (hu ▸ rfl)
    · exact .inr (site.disjoint hu)
  have off : ∀ {α : Type} {m : VolM α} {u : V} {vol : Mounted}, mem u = some vol →
      (foot (site.shape u).family (OffSnapshots (site.shape u).family)).Stays m →
      (mem.on u m vol).Safe env K b fun _ b' => K b' :=
    fun hu h => bind_safe (stays_safe keeps h (fun _ => harmless_offSnapshots (apart _))
      (sites.opened hu).has.family hK)
  cases c with
  | openVolume u cfg =>
    cases hp
    exact bind_safe (stays_safe keeps ((foot_open _).openVolume_stays cfg fun _ hs => hs)
      (fun _ => harmless_offSnapshots (apart u)) valid.1.family hK)
  | writeAt u offset data =>
    obtain ⟨vol, hu, rfl⟩ := Option.map_eq_some_iff.mp hp
    exact off hu ((foot_open _).writeAt_stays offset data)
  | deleteChunk u index =>
    obtain ⟨vol, hu, rfl⟩ := Option.map_eq_some_iff.mp hp
    exact off hu ((foot_open _).deleteChunkObject_stays index)
  | setCapacity u newCapacity =>
    obtain ⟨vol, hu, rfl⟩ := Option.map_eq_some_iff.mp hp
    exact off hu ((foot_open _).setCapacity_stays newCapacity)
  | snapshotCreate u now other sourceVolume =>
    obtain ⟨vol, hu, rfl⟩ := Option.map_eq_some_iff.mp hp
    have hfamily := (sites.opened hu).has.family
    by_cases hsame : u = v ∧ other = id
    · obtain ⟨rfl, rfl⟩ := hsame
      exact bind_safe (create vol.store now sourceVolume hfamily)
    · refine bind_safe (stays_safe keeps (snapshotCreate_foot now other sourceVolume)
        (fun _ => harmless_puts ?_) hfamily hK)
      by_cases huv : u = v
      · exact .inr ⟨huv ▸ rfl, fun heq => hsame ⟨huv, heq⟩⟩
      · exact .inl (site.disjoint huv)
  | snapshotDelete u other =>
    obtain ⟨vol, hu, rfl⟩ := Option.map_eq_some_iff.mp hp
    exact bind_safe (stays_safe keeps (snapshotDelete_foot other)
      (fun _ => harmless_drops (apart u)) (sites.opened hu).has.family hK)
  | snapshotRestore u other =>
    obtain ⟨vol, hu, rfl⟩ := Option.map_eq_some_iff.mp hp
    exact off hu ((foot_open _).snapshotRestore_stays other)
  | snapshotCloneInto source dest other =>
    simp only [Call.prog] at hp
    split at hp
    · rename_i a c ha hc
      split at hp
      · cases hp
      · cases hp
        have asks := snapshotCloneInto_clones other (a.store, c.store) (sites.opened hc).has.family
        refine bind_safe ((asks.safe (fun r b x b' hr step hb =>
          ⟨fitting_of_unreliable (Honest.below r b x b' step), ?_⟩) hK).mono fun _ _ _ hr => hr.1)
        exact keeps r b x b' (harmless_permits (fun _ => harmless_offSnapshots (apart dest)) hr)
          step hb
    · cases hp
  | gcUnreferencedObjects u =>
    obtain ⟨vol, hu, rfl⟩ := Option.map_eq_some_iff.mp hp
    exact off hu (Realm.gcUnreferencedObjects_stays foot_pool)
  | migrateToCow u =>
    obtain ⟨vol, hu, rfl⟩ := Option.map_eq_some_iff.mp hp
    exact bind_safe (stays_safe keeps (foot_open _).migrateToCow_stays
      (fun _ => harmless_offSnapshots (apart u)) (sites.opened hu).has.family hK)

end Calls

variable [DecidableEq V]

theorem call_counted (json : JsonRoundTrips) (sites : SiteOk P site mem b)
    (counted : Counted (site.shape v).family id b) (valid : c.Valid site)
    (hp : c.prog mem = some p) :
    p.Safe (SparesIndex (site.shape v).family id) (Counted (site.shape v).family id) b
      fun _ b' => Counted (site.shape v).family id b' := by
  have keeps : ∀ r b x b', Harmless (site.shape v).family id r →
      SparesIndex (site.shape v).family id r b x b' → Counted (site.shape v).family id b →
      Counted (site.shape v).family id b' := fun _ _ _ _ hr => hr.counted
  refine call_safe keeps (fun s now source hs => ?_) sites counted valid hp
  exact Prog.Safe.mono ((snapshotCreate_counted json hs counted now source).safe
    fun s' b' hs' => hs'.2) fun r b' _ hr => hr.keeps.2

theorem counted_keeps (site : Site V) (json : JsonRoundTrips) (v : V) (id : Str) :
    Session.Keeps (process site fun _ _ => True) (SparesIndex (site.shape v).family id)
      (fun mem b => SiteOk anyPayload site mem b ∧ Counted (site.shape v).family id b)
      fun b => Left anyPayload site b ∧ Counted (site.shape v).family id b := by
  have keeps : Session.Keeps (process site fun _ _ => True) (SparesIndex (site.shape v).family id)
      (SiteOk anyPayload site) (Left anyPayload site) :=
    process_keeps json (fun _ _ _ _ _ _ _ _ => Set.mem_univ _) fun hs => hs.elim
  refine ⟨?_, fun h => ⟨keeps.left h.1, h.2⟩, fun h => ⟨keeps.start h.1, h.2⟩⟩
  rintro mem b p ⟨sites, counted⟩ hp
  have sound := keeps.call sites hp
  obtain ⟨c, hvalid, -, hprog⟩ := hp
  exact sound.and (call_counted json sites counted hvalid hprog)

/-- A ready snapshot can be restored in every state that is reached, between any two requests, as
long as no deletion of the index takes effect while the manifest says ready. -/
theorem ready_snapshot_restorable (site : Site V) (json : JsonRoundTrips) {b₀ : Bucket}
    (start : ∀ v, FirstUse (site.shape v) b₀) {mem : Memory V} {b : Bucket}
    (before : Session.Reach (process site fun _ _ => True) Unreliable b₀ ⟨mem, none, b⟩) (v : V)
    (id : Str) (restorable : Restorable (site.shape v).family id b)
    {st : Session.State Req Reply (Memory V) Bucket}
    (run : Relation.ReflTransGen (Session.Step (process site fun _ _ => True)
      (SparesIndex (site.shape v).family id)) ⟨mem, none, b⟩ st) :
    Restorable (site.shape v).family id st.world := by
  have sites : SiteOk anyPayload site mem b :=
    (process_keeps json anyPayload_pays fun hs => hs.elim).reach (fun u => (start u).closed) before
  have keeps := counted_keeps site json v id
  obtain ⟨left, counted⟩ := keeps.left_of_holds (keeps.run ⟨sites, restorable.counted⟩ run)
  obtain ⟨cap, sound⟩ := left v
  exact sound.restorable counted

end Process

section Snapshotted

open Plain

@[irreducible] def firstSnapshotted : Memory Unit × Bucket :=
  (firstWritten.1.on () (snapshotCreate 5 "s".toList "v".toList) oneMounted).run
    (answer fun _ => []) firstWritten.2

theorem calls_snapshotCreate : (process oneVolume fun _ _ => True).calls firstWritten.1
    (firstWritten.1.on () (snapshotCreate 5 "s".toList "v".toList) oneMounted) :=
  ⟨.snapshotCreate () 5 "s".toList "v".toList, trivial, trivial, rfl⟩

theorem runs_snapshotCreate :
    (firstWritten.1.on () (snapshotCreate 5 "s".toList "v".toList) oneMounted).Runs
      (SparesIndex "v".toList "s".toList) firstWritten.2 firstSnapshotted.1 firstSnapshotted.2 := by
  have asks : (firstWritten.1.on () (snapshotCreate 5 "s".toList "v".toList) oneMounted).Confined
      Fitting (Permits (PutsSnapshot "v".toList "s".toList)) fun _ => True :=
    .bind (Prog.Confined.mono (snapshotCreate_foot 5 "s".toList "v".toList oneMounted.store rfl)
      fun _ _ => trivial)
  rw [firstSnapshotted]
  refine asks.runs (fun r b => fitting_of_unreliable (unreliable_answer _ r b))
    (fun r b hr => ⟨unreliable_answer _ r b, ?_⟩) _
  rintro m rfl -
  rcases hr with hnone | ⟨k, area, hk, harea, hin⟩ | ⟨body, hput⟩ | ⟨body, hput⟩
  · cases hnone
  · cases hk
    exact absurd rfl (hin.ne (inArea_chunks _ _) harea)
  · cases hput
  · cases hput

theorem reach_firstSnapshotted : Session.Reach (process oneVolume fun _ _ => True) Unreliable ∅
    ⟨firstSnapshotted.1, none, firstSnapshotted.2⟩ := by
  rw [firstSnapshotted]
  exact reach_firstWritten.call calls_snapshotCreate (runs_answer _ _ _)

def firstManifest : SnapshotManifest :=
  { SnapshotManifest.newCreating 5 "s".toList "v".toList 4 1 1 .none with
    chunkCount := 1, state := .ready }

theorem ready_snapshot_restorable_created :
    Ready "v".toList "s".toList firstSnapshotted.2 firstManifest ∧
      Restorable "v".toList "s".toList firstSnapshotted.2 := by
  have absent : firstWritten.2.lookup (snapshotManifestKey "v".toList "s".toList) = none := by
    decide +kernel
  have before : Restorable "v".toList "s".toList firstWritten.2 := by
    rintro m ⟨_, hjson, -⟩
    rw [absent] at hjson
    cases hjson
  refine ⟨⟨json firstManifest, by decide +kernel, parse_json _, rfl⟩, ?_⟩
  exact ready_snapshot_restorable oneVolume jsonRoundTrips
    (fun _ => ⟨fun _ _ _ _ => AList.notMem_empty _, fun _ _ h => absurd h (AList.notMem_empty _)⟩)
    reach_firstWritten () "s".toList before
    (Session.run_call calls_snapshotCreate runs_snapshotCreate)

@[irreducible] def stoppedDelete : Bucket :=
  (firstSnapshotted.1.on () (snapshotDelete "s".toList) oneMounted).after (answer fun _ => []) 2
    firstSnapshotted.2

/-- The index has been deleted, and the manifest still says ready. -/
theorem stopped_delete_leaves_ready :
    Session.Reach (process oneVolume fun _ _ => True) Unreliable ∅
        ⟨fun _ => none, none, stoppedDelete⟩ ∧
      Ready "v".toList "s".toList stoppedDelete firstManifest ∧
      ¬Restorable "v".toList "s".toList stoppedDelete := by
  have ready : Ready "v".toList "s".toList stoppedDelete firstManifest :=
    ⟨json firstManifest, by decide +kernel, parse_json _, rfl⟩
  have hindex : stoppedDelete.lookup (snapshotChunksKey "v".toList "s".toList) = none := by
    decide +kernel
  have hmounted : firstSnapshotted.1 () = some oneMounted := by decide +kernel
  refine ⟨?_, ready, fun restorable => ?_⟩
  · rw [stoppedDelete]
    have calls : (process oneVolume fun _ _ => True).calls firstSnapshotted.1
        (firstSnapshotted.1.on () (snapshotDelete "s".toList) oneMounted) :=
      ⟨.snapshotDelete () "s".toList, trivial, trivial, congrArg (Option.map _) hmounted⟩
    exact reach_firstSnapshotted.trans (Session.run_stop calls (fun _ _ => true)
      (fun r b _ => unreliable_answer (fun _ => []) r b) (by decide +kernel) 2)
  · obtain ⟨body, refs, hbody, -⟩ := restorable _ ready
    rw [hindex] at hbody
    cases hbody

end Snapshotted

end IscsiS3.S3
