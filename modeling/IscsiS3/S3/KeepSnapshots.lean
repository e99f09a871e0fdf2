import IscsiS3.S3.Keep

/-! The calls on snapshots and the sweep keep volumes sound: what a snapshot names stays in the pool
as long as its index is there, and pointers are only put to objects that are in the pool. -/

namespace IscsiS3.S3

open Request External StoreM

variable {m : SnapshotManifest} {body : Bytes} {id : Str}

section Keep

variable [External] {P : Promise} {v : Shape} {F : Bucket → Prop} {locked : Bool}
variable {env : Env Req Reply Bucket} [Honest env] {s : S3ChunkStore} {b : Bucket}
variable {referenced : Finset Hash} {cap : Nat}

omit [External] in
theorem lt_of_mem_indices {front : Key} {i : Nat} (h : i ∈ indices b front) : i < u64Size := by
  obtain ⟨k, -, hk⟩ := mem_indices.mp h
  exact parseChunkIndex_lt hk

theorem Sound.liveRefs (h : Sound P v cap b) :
    RefsOk P v cap b (liveRefs b v.family) := fun r hr => by
  obtain ⟨hi, hp⟩ := mem_liveRefs.mp hr
  exact ⟨lt_of_mem_indices hi, h.pointer (lt_of_mem_indices hi) hp⟩

theorem snapshotCreate_keeps (json : JsonRoundTrips) (elsewhere : Elsewhere v.family F)
    (h : Opened P v F locked s b) (now : Nat) (id sourceVolume : Str) :
    (snapshotCreate now id sourceVolume).Keeps env (Fixed s (Opened P v F locked s)) s b
      fun _ _ _ => True := by
  refine requireCow_reads.then ⟨rfl, h⟩ fun _ _ => Keeps.bind (Keeps.lift ⟨rfl, h⟩ fun _ _ => ?_)
  refine Reads.get.then ⟨rfl, h⟩ fun t ht => ?_
  obtain rfl := Returns.ok.mp ht
  have hfamily := h.has.family
  simp only [hfamily]
  refine (getBytes_reads _).then ⟨rfl, h⟩ fun found hfound => ?_
  obtain ⟨hfound, -⟩ := Returns.ok.mp hfound
  split
  · exact Keeps.throw ⟨rfl, h⟩
  rename_i hnone
  obtain rfl : found = none := by simpa using hnone
  generalize hm : SnapshotManifest.newCreating now id sourceVolume t.capacity t.chunkSize
    t.blockSize t.compression = m
  have hid : m.id = id := by rw [← hm]; rfl
  have hcap : m.capacityBytes = t.capacity := by rw [← hm]; rfl
  have hlt : m.capacityBytes < u64Size := hcap ▸ h.cap
  refine Keeps.bind ((putBytes_fixed h fun _ _ => ?_).mono ?_)
  · refine h.insert elsewhere (inArea_manifest _ _) (by decide)
      (h.sound.insert_manifest (json.manifest m) hid hlt fun json' m' hjson => ?_)
    rw [← hfound] at hjson
    cases hjson
  rintro - _ b₁ ⟨-, h₁⟩ ⟨rfl, hb₁, -⟩
  have hmanifest : b₁.lookup (snapshotManifestKey v.family id) = some (manifestJson m) := by
    rw [hb₁]
    exact AList.lookup_insert _
  refine collectLiveRefs_reads.then ⟨rfl, h₁⟩ fun refs hrefs => ?_
  obtain ⟨rfl, hlen⟩ := Value.ok.mp hrefs
  rw [hfamily] at hlen ⊢
  refine Keeps.bind ((putBytes_fixed h₁ fun _ _ => ?_).mono ?_)
  · refine h₁.insert elsewhere (inArea_chunks _ _) (by decide)
      (h₁.sound.insert_index hmanifest (json.manifest m) hid hlen ?_)
    rw [hcap]
    exact h₁.sound.liveRefs
  rintro - _ b₂ ⟨-, h₂⟩ ⟨rfl, hb₂, -⟩
  refine Keeps.bind ((putBytes_fixed h₂ fun _ _ => ?_).mono fun _ _ _ hK _ => Keeps.pure hK trivial)
  refine h₂.insert elsewhere (inArea_manifest _ _) (by decide)
    (h₂.sound.insert_manifest (json.manifest _) hid hlt fun json' m' hjson hm' => ?_)
  rw [hb₂, AList.lookup_insert_ne (manifest_ne_chunks _ _ _ _), hmanifest] at hjson
  cases hjson
  rw [json.manifest] at hm'
  cases hm'
  rfl

def Covers (b : Bucket) (family : Str) (referenced : Finset Hash) : Prop :=
  (∀ i x, i < u64Size → pointer b family i = some x → x ∈ referenced) ∧
    ∀ id refs, snapshotRefs b family id = some refs → ∀ r ∈ refs, r.hash ∈ referenced

omit [External] in
theorem Covers.erase_object {family : Str} {k : Key} (h : Covers b family referenced)
    (hk : InArea family .objects k) :
    Covers (b.erase k) family referenced := by
  have live := same_erase (b := b) hk (by decide : Area.objects ≠ .liveChunks)
  have snapshots := same_erase (b := b) hk (by decide : Area.objects ≠ .snapshots)
  refine ⟨fun i x hi hp => h.1 i x hi ?_, fun id refs hrefs => h.2 id refs ?_⟩
  · rwa [pointer, live _ (inArea_live _ i)] at hp
  · rwa [snapshotRefs, snapshots _ (inArea_chunks _ id)] at hrefs

section

variable (elsewhere : Elsewhere v.family F) (h : Opened P v F locked s b)

include elsewhere h

theorem gcSweep_keeps (covers : Covers b v.family referenced) (keys : List Key) (deleted : Nat) :
    (gcSweep (areaFront v.family .objects) referenced keys deleted).Keeps env
      (Fixed s (Opened P v F locked s)) s b fun _ _ _ => True := by
  induction keys generalizing b deleted with
  | nil => exact Keeps.pure ⟨rfl, h⟩ trivial
  | cons key keys ih =>
    unfold gcSweep
    split
    · exact ih h covers deleted
    · rename_i rel hrel
      obtain rfl := stripFront_eq_some hrel
      refine Keeps.bind (Keeps.done ⟨rfl, h⟩ fun found hname => ?_)
      cases found with
      | none => exact ih h covers deleted
      | some hash =>
        dsimp only
        split
        · exact ih h covers deleted
        · rename_i hout
          have harea : InArea v.family .objects (areaFront v.family .objects ++ rel) :=
            List.prefix_append _ _
          -- the key of a referenced object is read back as its hash
          have hne : ∀ x ∈ referenced,
              objectKey v.family x ≠ areaFront v.family .objects ++ rel := by
            rintro x hx heq
            rw [← List.append_cancel_left heq, hashFromObjectRelpath_objectRelpath] at hname
            cases hname
            exact hout hx
          refine Keeps.bind ((deleteObjectKey_fixed h ?_).mono ?_)
          · exact h.erase elsewhere harea (by decide) (h.sound.erase_object harea
              (fun i x hi hp => hne x (covers.1 i x hi hp))
              fun id refs hrefs r hr => hne r.hash (covers.2 id refs hrefs r hr))
          · rintro - _ _ ⟨-, h'⟩ ⟨rfl, rfl⟩
            exact ih h' (covers.erase_object harea) (deleted + 1)

theorem gcUnreferencedObjects_keeps :
    gcUnreferencedObjects.Keeps env (Fixed s (Opened P v F locked s)) s b fun _ _ _ => True := by
  refine gcReads_reads.then ⟨rfl, h⟩ fun result hresult => ?_
  obtain ⟨hlive, hindex⟩ := Value.ok.mp hresult
  obtain ⟨referenced, keys⟩ := result
  refine Reads.get.then ⟨rfl, h⟩ fun t ht => ?_
  obtain rfl := Returns.ok.mp ht
  rw [h.has.family] at hlive hindex ⊢
  refine Keeps.bind ((gcSweep_keeps elsewhere h ⟨fun i x hi hp => ?_, fun id refs hrefs r hr => ?_⟩
    keys 0).mono fun _ _ _ hK _ => Keeps.pure hK trivial)
  · refine hlive i (mem_indices.mpr ⟨_, ?_, parseChunkIndex_live v.family hi⟩) x hp
    obtain ⟨body, hbody, -⟩ := pointer_eq_some.mp hp
    exact mem_iff_lookup.mpr ⟨body, hbody⟩
  · obtain ⟨body, hbody, -⟩ := snapshotRefs_eq_some.mp hrefs
    obtain ⟨json, m, -, hjson, hm, rfl, -⟩ := h.sound.indexes id body hbody
    exact hindex m.id json m refs hjson hm hrefs r hr

theorem snapshotDelete_keeps (id : Str) :
    (snapshotDelete id).Keeps env (Fixed s (Opened P v F locked s)) s b fun _ _ _ => True := by
  refine requireCow_reads.then ⟨rfl, h⟩ fun _ _ => (snapshotGet_reads id).then
    ⟨rfl, h⟩ fun _ _ => ?_
  refine Reads.get.then ⟨rfl, h⟩ fun t ht => ?_
  obtain rfl := Returns.ok.mp ht
  rw [h.has.family]
  refine Keeps.bind ((deleteObjectKey_fixed h ?_).mono ?_)
  · exact h.erase elsewhere (inArea_chunks _ _) (by decide) (h.sound.erase_snapshot (.inl rfl))
  rintro - _ _ ⟨-, h₁⟩ ⟨rfl, rfl⟩
  refine Keeps.bind ((deleteObjectKey_fixed h₁ ?_).mono ?_)
  · refine h₁.erase elsewhere (inArea_manifest _ _) (by decide)
      (h₁.sound.erase_snapshot (.inr ⟨rfl, fun hmem => ?_⟩))
    exact (AList.mem_erase.mp hmem).1 rfl
  rintro - _ _ ⟨-, h₂⟩ ⟨rfl, rfl⟩
  exact gcUnreferencedObjects_keeps elsewhere h₂

end

theorem growTo_keeps (json : JsonRoundTrips) (elsewhere : Elsewhere v.family F)
    (h : Opened P v F locked s b) (hs : s.storage = .cow) (hcap : cap < u64Size) :
    (growTo cap).Keeps env (Opened P v F locked) s b fun _ s' b' =>
      (s'.storage = .cow ∧ cap ≤ s'.capacity) ∧
        (b' = b ∨ ∃ body, b' = b.insert (liveMetaKey v.family) body) := by
  refine Reads.get.then h fun t ht => ?_
  obtain rfl := Returns.ok.mp ht
  have hkey : t.metaKey = liveMetaKey v.family := by
    simp [S3ChunkStore.metaKey, hs, h.has.family]
  split
  · refine (setCapacity_keeps json elsewhere h (fun _ hl => by simp [hs] at hl) hcap).mono ?_
    rintro - _ b' - ⟨rfl, hb'⟩
    exact ⟨⟨hs, Nat.le_refl _⟩, hkey ▸ hb'⟩
  · exact Keeps.pure h ⟨⟨hs, by omega⟩, .inl rfl⟩

variable {refs : List ChunkRef}

theorem Sound.snapshotRefs (h : Sound P v cap b)
    (hbody : b.lookup (snapshotManifestKey v.family id) = some body)
    (hm : parseManifest body = .ok m) (hrefs : snapshotRefs b v.family id = some refs) :
    RefsOk P v m.capacityBytes b refs := by
  obtain ⟨bin, hbin, hread⟩ := snapshotRefs_eq_some.mp hrefs
  obtain ⟨json, m', refs', hjson, hm', -, rfl, hlen, hok⟩ := h.indexes id bin hbin
  rw [hbody] at hjson
  cases hjson
  rw [hm] at hm'
  cases hm'
  rw [readChunksBin_writeChunksBin (fun r hr => (hok r hr).1) hlen] at hread
  cases hread
  exact hok

theorem RefsOk.grow {cap cap' : Nat} (h : RefsOk P v cap b refs) (hle : cap ≤ cap') :
    RefsOk P v cap' b refs := fun r hr =>
  ⟨(h r hr).1, (h r hr).2.1, (h r hr).2.2.grow hle⟩

section

variable (elsewhere : Elsewhere v.family F) (h : Opened P v F locked s b) (hs : s.storage = .cow)

include elsewhere h hs

theorem putPointers_keeps (hrefs : RefsOk P v s.capacity b refs) :
    (StoreM.each (fun r => putPointer r.index r.hash) refs).Keeps env
      (Fixed s (Opened P v F locked s)) s b fun _ _ _ => True := by
  refine (Keeps.each (fun rs _ b => RefsOk P v s.capacity b rs) refs ⟨rfl, h⟩ hrefs ?_).mono
    fun _ _ _ _ _ => trivial
  rintro r rs s' b' ⟨rfl, h'⟩ hrs
  refine Reads.get.then ⟨rfl, h'⟩ fun t ht => ?_
  obtain rfl := Returns.ok.mp ht
  have hkey : t.chunkKey r.index = liveChunkKey v.family r.index := by
    simp [S3ChunkStore.chunkKey, hs, h.has.family]
  rw [hkey]
  obtain ⟨hi, hx, hfits⟩ := hrs r (by simp)
  refine (putPointer_fixed elsewhere h' hi hx hfits).mono ?_
  rintro - _ _ - ⟨rfl, rfl⟩ q hq
  obtain ⟨hj, hy, hfits'⟩ := hrs q (List.mem_cons_of_mem _ hq)
  exact ⟨hj, mem_insert_of_mem _ _ hy, hfits'⟩

theorem restorePointers_keeps (hbody : b.lookup (snapshotManifestKey v.family id) = some body)
    (hm : parseManifest body = .ok m) (hcap : m.capacityBytes ≤ s.capacity) :
    (restorePointers id).Keeps env (Fixed s (Opened P v F locked s)) s b fun _ _ _ => True := by
  refine (loadSnapshotRefs_reads id).then ⟨rfl, h⟩ fun refs hrefs => ?_
  simp only [h.has.family] at hrefs
  refine presentChunks_reads.then ⟨rfl, h⟩ fun live _ => ?_
  have hok := (h.sound.snapshotRefs hbody hm hrefs).grow hcap
  refine Keeps.bind ((putPointers_keeps elsewhere h hs hok).mono ?_)
  rintro - _ b' ⟨rfl, h'⟩ -
  refine Keeps.bind ((Keeps.each (fun _ _ _ => True) _ ⟨rfl, h'⟩ trivial ?_).mono ?_)
  · rintro i is _ b' ⟨rfl, hK⟩ -
    exact (deleteChunk_keeps elsewhere hK i).mono fun _ _ _ _ _ => trivial
  · rintro - _ b' hK -
    exact Reads.get.then hK fun _ _ => Keeps.pure hK trivial

end

theorem snapshotRestore_keeps (json : JsonRoundTrips) (elsewhere : Elsewhere v.family F)
    (h : Opened P v F locked s b) (id : Str) :
    (snapshotRestore id).Keeps env (Opened P v F locked) s b fun _ _ _ => True := by
  refine requireCow_reads.then h fun _ hs => (snapshotGet_reads id).then h fun m hm => ?_
  replace hs := Value.ok.mp hs
  obtain ⟨body, hbody, hparse⟩ := Value.ok.mp hm
  refine Reads.get.then h fun t ht => ?_
  obtain rfl := Returns.ok.mp ht
  rw [h.has.family] at hbody
  split
  · exact Keeps.throw h
  split
  · exact Keeps.throw h
  split
  · exact Keeps.throw h
  refine Keeps.bind ((growTo_keeps json elsewhere h hs
    (h.sound.manifests id body m hbody hparse)).mono ?_)
  rintro - s' b' h' ⟨⟨hs', hcap⟩, hb'⟩
  have hbody' : b'.lookup (snapshotManifestKey v.family id) = some body := by
    rcases hb' with rfl | ⟨_, rfl⟩
    · exact hbody
    · rwa [same_insert (inArea_liveMeta _) (by decide : Area.liveMeta ≠ .snapshots) _
        (inArea_manifest _ _)]
  refine (Keeps.weaken (restorePointers_keeps elsewhere h' hs' hbody' hparse hcap) ?_).mono
    fun _ _ _ _ _ => trivial
  rintro _ _ ⟨rfl, hK⟩
  exact hK

end Keep

section Clone

section

variable {f g : Str} {area other : Area} {k : Key} {b : Bucket} (disjoint : Disjoint f g)
variable (hk : InArea g area k)

include disjoint hk

theorem same_insert_family : Same f other b (b.insert k body) :=
  fun _ hl => AList.lookup_insert_ne (hl.ne_family hk disjoint)

theorem same_erase_family : Same f other b (b.erase k) :=
  fun _ hl => AList.lookup_erase_ne (hl.ne_family hk disjoint)

end

variable [External] {P : Promise} {u v : Shape} {F : Bucket → Prop} {locked locked' : Bool}
variable {env : Env Req Reply Bucket} [Honest env] {source dest : S3ChunkStore} {b : Bucket}
variable {r : ChunkRef}

theorem Opened.congr {b' : Bucket} (h : Opened P u F locked source b)
    (same : ∀ area, Same u.family area b b') (rest : F b') : Opened P u F locked source b' where
  has := h.has
  cap := h.cap
  sound := h.sound.congr fun area _ => same area
  metered := h.metered.congr (same _) (same _)
  unmigrated := fun hs hl hlegacy hmem => h.unmigrated hs hl hlegacy
    (((same .liveMeta).mem (inArea_liveMeta _)).mp hmem)
  rest := rest

theorem Opened.elsewhere (disjoint : Disjoint u.family v.family)
    (elsewhere : Elsewhere v.family F) : Elsewhere v.family (Opened P u F locked source) where
  insert := fun body hk h => h.congr (fun _ => same_insert_family disjoint hk)
    (elsewhere.insert body hk h.rest)
  erase := fun hk h => h.congr (fun _ => same_erase_family disjoint hk)
    (elsewhere.erase hk h.rest)

/-- The source of a clone is opened and stays as it is, and the destination is opened. -/
def Cloning (P : Promise) (u v : Shape) (F : Bucket → Prop) (locked locked' : Bool)
    (source : S3ChunkStore) (p : S3ChunkStore × S3ChunkStore) (b : Bucket) : Prop :=
  p.1 = source ∧ Opened P v (Opened P u F locked source) locked' p.2 b

omit [Honest env] in
theorem onDest_keeps {α : Type} {m : VolM α} {R : α → S3ChunkStore → Bucket → Prop}
    (h : m.Keeps env (Opened P v (Opened P u F locked source) locked') dest b R) :
    (onDest m).Keeps env (Cloning P u v F locked locked' source) (source, dest) b
      fun a p b' => p.1 = source ∧ R a p.2 b' := by
  refine Keeps.within ((Keeps.weaken h fun t b' ht => ⟨rfl, ht⟩).mono fun a t b' _ hr => ?_)
  exact ⟨rfl, hr.2⟩

theorem Promise.FitsHash.shape {cap i : Nat} {x : Hash} (h : P.FitsHash u cap i x)
    (hsize : v.chunkSize = u.chunkSize) (hcomp : v.compression = u.compression) :
    P.FitsHash v cap i x := fun body hbody hx => by
  rw [hsize, hcomp]
  exact h body hbody hx

theorem clonePointer_keeps (disjoint : Disjoint u.family v.family)
    (elsewhere : Elsewhere v.family F) (hs : dest.storage = .cow)
    (h : Opened P v (Opened P u F locked source) locked' dest b) (hi : r.index < u64Size)
    (hx : objectKey v.family r.hash ∈ b) (fits : P.FitsHash v dest.capacity r.index r.hash) :
    (onDest (putPointer r.index r.hash)).Keeps env (Cloning P u v F locked locked' source)
      (source, dest) b fun _ p _ => p = (source, dest) := by
  have hkey : dest.chunkKey r.index = liveChunkKey v.family r.index := by
    simp [S3ChunkStore.chunkKey, hs, h.has.family]
  refine (onDest_keeps (R := fun _ s _ => s = dest) ?_).mono fun _ p _ _ hr => Prod.ext hr.1 hr.2
  refine Reads.get.then h fun t ht => ?_
  obtain rfl := Returns.ok.mp ht
  rw [hkey]
  refine ((putPointer_fixed (Opened.elsewhere disjoint elsewhere) h hi hx fits).weaken ?_).mono
    fun _ _ _ _ hr => hr.2.1
  rintro _ _ ⟨rfl, hK⟩
  exact hK

section

variable (pays : Pays P env) (disjoint : Disjoint u.family v.family)
variable (elsewhere : Elsewhere v.family F) (hs : dest.storage = .cow)
variable (h : Opened P v (Opened P u F locked source) locked' dest b)

include pays disjoint elsewhere hs h

theorem cloneRef_keeps (hi : r.index < u64Size) (fits : P.FitsHash v dest.capacity r.index r.hash) :
    (cloneRef r).Keeps env (Cloning P u v F locked locked' source) (source, dest) b
      fun _ p _ => p = (source, dest) := by
  have hK : Cloning P u v F locked locked' source (source, dest) b := ⟨rfl, h⟩
  refine Reads.get.then hK fun p hp => ?_
  obtain rfl := Returns.ok.mp hp
  refine ((getObject_reads r.hash).within rfl).then hK fun found hfound => ?_
  have hdest := h.has.family
  have hsource := h.rest.has.family
  replace hfound := Returns.ok.mp hfound
  simp only at hfound
  rw [hdest] at hfound
  simp only [hdest]
  have last : ∀ {b} (copied : Bool), Opened P v (Opened P u F locked source) locked' dest b →
      objectKey v.family r.hash ∈ b →
      (do
        onDest (putPointer r.index r.hash)
        pure copied).Keeps env (Cloning P u v F locked locked' source) (source, dest) b
          fun _ p _ => p = (source, dest) := fun copied h hx =>
    Keeps.bind ((clonePointer_keeps disjoint elsewhere hs h hi hx fits).mono
      fun _ _ _ hK hp => Keeps.pure hK hp)
  cases found with
  | some found => exact last false h (mem_iff_lookup.mpr ⟨_, hfound.symm⟩)
  | none =>
    refine ((getObject_reads r.hash).within rfl).then hK fun copy hcopy => ?_
    replace hcopy := Returns.ok.mp hcopy
    cases copy with
    | none => exact Keeps.throw hK
    | some copy =>
      -- the source's pool holds the payload under its own hash
      simp only at hcopy
      rw [hsource] at hcopy
      obtain ⟨hhash, -⟩ := h.rest.sound.pool r.hash copy.1 hcopy.symm
      have helse : Elsewhere v.family (Opened P u F locked source) :=
        Opened.elsewhere disjoint elsewhere
      refine Keeps.bind ((onDest_keeps (R := fun _ s b' => s = dest ∧
        objectKey v.family r.hash ∈ b') ?_).mono ?_)
      · rw [← hhash]
        refine putBytes_keeps h (fun x step => ?_) fun x step => ⟨rfl, ?_⟩
        · exact h.insert helse (inArea_object _ _) (by decide)
            (h.sound.insert_object (pays _ _ _ _ _ _ _ step))
        · exact (AList.mem_insert b).mpr (.inl rfl)
      · rintro - ⟨p₁, p₂⟩ b' ⟨-, h'⟩ ⟨rfl, rfl, hx⟩
        exact last true h' hx

theorem clonePointers_keeps (hsize : v.chunkSize = u.chunkSize)
    (hcomp : v.compression = u.compression)
    (hbody : b.lookup (snapshotManifestKey u.family id) = some body)
    (hm : parseManifest body = .ok m) (hcap : m.capacityBytes ≤ dest.capacity) :
    (clonePointers id).Keeps env (Cloning P u v F locked locked' source) (source, dest) b
      fun _ _ _ => True := by
  have hK : Cloning P u v F locked locked' source (source, dest) b := ⟨rfl, h⟩
  refine (presentChunks_reads.within rfl).then hK fun existing _ => ?_
  split
  · exact Keeps.throw hK
  refine ((loadSnapshotRefs_reads id).within rfl).then hK fun refs hrefs => ?_
  simp only [h.rest.has.family] at hrefs
  have hok := h.rest.sound.snapshotRefs hbody hm hrefs
  refine Keeps.bind ((Keeps.collect (fun rs p _ => p = (source, dest) ∧ ∀ r ∈ rs, r ∈ refs) refs hK
    ⟨rfl, fun _ hr => hr⟩ ?_).mono fun _ _ _ hK _ => Keeps.pure hK trivial)
  rintro r rs _ b' ⟨-, h'⟩ ⟨rfl, hmem⟩
  obtain ⟨hi, -, hfits⟩ := hok r (hmem r (by simp))
  refine (cloneRef_keeps pays disjoint elsewhere hs h' hi ?_).mono fun _ p _ _ hp =>
    ⟨hp, fun q hq => hmem q (List.mem_cons_of_mem _ hq)⟩
  exact (hfits.shape hsize hcomp).grow hcap

end

theorem snapshotCloneInto_keeps (json : JsonRoundTrips) (pays : Pays P env)
    (disjoint : Disjoint u.family v.family) (elsewhere : Elsewhere v.family F)
    (h : Opened P v (Opened P u F locked source) locked' dest b) (id : Str) :
    (snapshotCloneInto id).Keeps env (Cloning P u v F locked locked' source) (source, dest) b
      fun _ _ _ => True := by
  have hK : Cloning P u v F locked locked' source (source, dest) b := ⟨rfl, h⟩
  refine (requireCow_reads.within rfl).then hK fun _ _ =>
    (requireCow_reads.within rfl).then hK fun _ hs => ?_
  replace hs := Value.ok.mp hs
  refine Reads.get.then hK fun p hp => ?_
  obtain rfl := Returns.ok.mp hp
  simp only
  split
  · exact Keeps.throw hK
  split
  · exact Keeps.throw hK
  rename_i hgeometry
  simp only [h.has.chunkSize, h.rest.has.chunkSize, h.has.compression, h.rest.has.compression,
    ne_eq, not_or, Decidable.not_not] at hgeometry
  refine ((snapshotGet_reads id).within rfl).then hK fun m hm => ?_
  obtain ⟨body, hbody, hparse⟩ := Value.ok.mp hm
  simp only at hbody
  rw [h.rest.has.family] at hbody
  split
  · exact Keeps.throw hK
  have helse : Elsewhere v.family (Opened P u F locked source) :=
    Opened.elsewhere disjoint elsewhere
  refine Keeps.bind ((onDest_keeps (growTo_keeps json helse h hs
    (h.rest.sound.manifests id body m hbody hparse))).mono ?_)
  rintro - ⟨source', dest'⟩ b' ⟨-, h'⟩ ⟨hsource', ⟨hs', hcap⟩, hb'⟩
  cases hsource'
  refine clonePointers_keeps pays disjoint elsewhere hs' h' hgeometry.1 hgeometry.2.2 ?_ hparse hcap
  rcases hb' with rfl | ⟨_, rfl⟩
  · exact hbody
  · rwa [same_insert_family disjoint (inArea_liveMeta _) _ (inArea_manifest _ _)]

end Clone

end IscsiS3.S3
