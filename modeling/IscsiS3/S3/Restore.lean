import IscsiS3.S3.ReadySnapshots
import IscsiS3.Stack

/-! A snapshot never changes while it is there, whatever calls are made and however they end, and a
restore or a clone that succeeds has the bytes that the volume held at the snapshot's creation. -/

namespace IscsiS3.S3

open Request External StoreM Splice

section Metadata

variable {family id : Str} {manifest index : Bytes} {B : Set Bytes} {b b' : Bucket}

def SnapshotIs (family id : Str) (manifest index : Bytes) (b : Bucket) : Prop :=
  b.lookup (snapshotManifestKey family id) = some manifest ∧
    b.lookup (snapshotChunksKey family id) = some index

/-- The service may fail, but no deletion of the snapshot's metadata takes effect. -/
def Sparing [External] (B : Set Bytes) (family id : Str) : Env Req Reply Bucket := fun r b x b' =>
  UnreliablePaid B r b x b' ∧ (r = .delete (snapshotManifestKey family id) ∨
    r = .delete (snapshotChunksKey family id) → b' = b)

variable [External]

instance : Honest (Sparing B family id) := ⟨fun _ _ _ _ h => h.1.1⟩

theorem pays_sparing (inj : Set.InjOn blake3 B) (roundTrip : codecs.RoundTrip) :
    Pays (exactPayload B inj roundTrip) (Sparing B family id) :=
  fun _ _ _ _ _ _ _ h => h.1.2 _ _ _ _ rfl

theorem SnapshotIs.step (h : SnapshotIs family id manifest index b) {r : Req} {x : Reply r}
    (harmless : Harmless family id r) (step : Sparing B family id r b x b') :
    SnapshotIs family id manifest index b' := by
  rcases harmless with alone | drops
  · exact ⟨(step.1.1.lookup fun l hl => (alone l hl).1).trans h.1,
      (step.1.1.lookup fun l hl => (alone l hl).2).trans h.2⟩
  · rw [step.2 drops]
    exact h

theorem snapshotCreate_refused {env : Env Req Reply Bucket} [Honest env] {s : S3ChunkStore}
    (hs : s.family = family) (h : SnapshotIs family id manifest index b) (now : Nat)
    (sourceVolume : Str) :
    (snapshotCreate now id sourceVolume s).Safe env (SnapshotIs family id manifest index) b
      fun _ b' => SnapshotIs family id manifest index b' := by
  have keeps : (snapshotCreate now id sourceVolume).Keeps env
      (Fixed s (SnapshotIs family id manifest index)) s b fun _ _ _ => True := by
    refine requireCow_reads.then ⟨rfl, h⟩ fun _ _ => Keeps.bind (Keeps.lift ⟨rfl, h⟩ fun _ _ => ?_)
    refine Reads.get.then ⟨rfl, h⟩ fun t ht => ?_
    obtain rfl := Returns.ok.mp ht
    refine (getBytes_reads _).then ⟨rfl, h⟩ fun found hfound => ?_
    obtain ⟨hfound, -⟩ := Returns.ok.mp hfound
    rw [hs, h.1] at hfound
    obtain ⟨_, rfl, -⟩ := Option.map_eq_some_iff.mp hfound
    exact Keeps.throw ⟨rfl, h⟩
  exact Prog.Safe.mono (keeps.safe fun _ _ hK => hK.2) fun _ _ _ hr => hr.keeps.2

variable {V : Type} [DecidableEq V]

theorem snapshot_keeps (site : Site V) (json : JsonRoundTrips) (inj : Set.InjOn blake3 B)
    (roundTrip : codecs.RoundTrip) (v : V) (id : Str) (manifest index : Bytes) :
    Session.Keeps (process site Unlocked) (Sparing B (site.shape v).family id)
      (fun mem b => SiteOk (exactPayload B inj roundTrip) site mem b ∧
        SnapshotIs (site.shape v).family id manifest index b)
      fun b => Left (exactPayload B inj roundTrip) site b ∧
        SnapshotIs (site.shape v).family id manifest index b := by
  have keeps : Session.Keeps (process site Unlocked) (Sparing B (site.shape v).family id)
      (SiteOk (exactPayload B inj roundTrip) site) (Left (exactPayload B inj roundTrip) site) :=
    process_keeps json (pays_sparing inj roundTrip) fun _ _ _ h => h
  refine ⟨?_, fun h => ⟨keeps.left h.1, h.2⟩, fun h => ⟨keeps.start h.1, h.2⟩⟩
  intro mem b p h hp
  obtain ⟨sites, snapshot⟩ := h
  have sound := keeps.call sites hp
  obtain ⟨c, hvalid, -, hprog⟩ := hp
  have kept : ∀ r b x b', Harmless (site.shape v).family id r →
      Sparing B (site.shape v).family id r b x b' →
      SnapshotIs (site.shape v).family id manifest index b →
      SnapshotIs (site.shape v).family id manifest index b' := fun _ _ _ _ hr step h =>
    h.step hr step
  exact sound.and (call_safe kept
    (fun _ now source hs => snapshotCreate_refused hs snapshot now source)
    sites snapshot hvalid hprog)

end Metadata

section Pointers

variable {family : Str} {b : Bucket} {p : Nat → Option Hash} {todo : List Nat} {i : Nat}

theorem mem_liveRefs_iff {r : ChunkRef} : r ∈ liveRefs b family ↔
    r.index < u64Size ∧ pointer b family r.index = some r.hash := by
  rw [mem_liveRefs]
  constructor
  · intro h
    exact ⟨lt_of_mem_indices h.1, h.2⟩
  · intro h
    refine ⟨mem_indices.mpr ?_, h.2⟩
    obtain ⟨body, hbody, -⟩ := pointer_eq_some.mp h.2
    exact ⟨_, mem_iff_lookup.mpr ⟨body, hbody⟩, parseChunkIndex_live family h.1⟩

/-- The live pointers are those of `p`, except for the chunks that are still to be done. -/
def Placed (family : Str) (p : Nat → Option Hash) (todo : List Nat) (b : Bucket) : Prop :=
  ∀ i < u64Size, i ∈ todo ∨ b.lookup (liveChunkKey family i) = (p i).map encodePointer

theorem Placed.change (h : Placed family p (i :: todo) b) {b' : Bucket} (hi : i < u64Size)
    (done : b'.lookup (liveChunkKey family i) = (p i).map encodePointer)
    (same : ∀ k, k ≠ liveChunkKey family i → b'.lookup k = b.lookup k) :
    Placed family p todo b' := by
  intro j hj
  by_cases hji : j = i
  · subst hji
    exact .inr done
  · rw [same _ fun heq => hji (liveChunkKey_inj hj hi heq)]
    exact (h j hj).imp_left fun hmem => (List.mem_cons.mp hmem).resolve_left hji

variable {env : Env Req Reply Bucket} [Honest env] {s source dest : S3ChunkStore} {id : Str}

theorem snapshotCreate_makes [External] (hs : s.family = family) (now : Nat) (sourceVolume : Str) :
    (snapshotCreate now id sourceVolume).Keeps env (fun _ _ => True) s b fun m _ b' =>
      s.storage = .cow ∧ m.capacityBytes = s.capacity ∧ ∃ refs,
        SnapshotIs family id (manifestJson m) (writeChunksBin refs) b' ∧ 40 * refs.length < 2 ^ 63 ∧
        ∀ r, r ∈ refs ↔ r.index < u64Size ∧ pointer b family r.index = some r.hash := by
  refine requireCow_reads.then trivial fun _ hcow => Keeps.bind (Keeps.lift trivial fun _ _ => ?_)
  refine Reads.get.then trivial fun t ht => ?_
  obtain rfl := Returns.ok.mp ht
  simp only [hs]
  refine (getBytes_reads _).then trivial fun found _ => ?_
  split
  · exact Keeps.throw trivial
  refine Keeps.bind (putBytes_keeps trivial (fun _ _ => trivial) fun _ _ => ?_)
  refine collectLiveRefs_reads.then trivial fun refs hrefs => ?_
  obtain ⟨hrefs, hlen⟩ := Value.ok.mp hrefs
  have hcow := Value.ok.mp hcow
  refine Keeps.bind (putBytes_keeps trivial (fun _ _ => trivial) fun _ _ => ?_)
  refine Keeps.bind (putBytes_keeps trivial (fun _ _ => trivial) fun _ _ => Keeps.pure trivial ?_)
  refine ⟨hcow, rfl, refs, ⟨AList.lookup_insert _, ?_⟩, hlen, fun r => ?_⟩
  · rw [AList.lookup_insert_ne (manifest_ne_chunks _ _ _ _).symm]
    exact AList.lookup_insert _
  · rw [hrefs, hs, mem_liveRefs_iff]
    unfold pointer
    rw [AList.lookup_insert_ne ((inArea_live _ _).ne (inArea_manifest _ _) (by decide))]

theorem chunkKey_cow (hs : s.storage = .cow) (hfamily : s.family = family) (i : Nat) :
    s.chunkKey i = liveChunkKey family i := by
  simp [S3ChunkStore.chunkKey, hs, hfamily]

theorem chunksFront_cow (hs : s.storage = .cow) (hfamily : s.family = family) :
    s.chunksFront = areaFront family .liveChunks := by
  simp [S3ChunkStore.chunksFront, hs, hfamily]

variable {refs : List ChunkRef} (hp : ∀ r, r ∈ refs ↔ r.index < u64Size ∧ p r.index = some r.hash)

include hp

/-- A chunk that is neither recorded nor listed has no pointer, and is to have none. -/
theorem placed_of_listed {gone : List Nat} (hgone : ∀ i ∈ indices b (areaFront family .liveChunks),
    i ∉ refs.map ChunkRef.index → i ∈ gone) :
      Placed family p (refs.map ChunkRef.index ++ gone) b := by
  intro i hi
  by_cases hmem : i ∈ refs.map ChunkRef.index
  · exact .inl (List.mem_append_left _ hmem)
  cases hl : b.lookup (liveChunkKey family i) with
  | some body =>
    have hlisted : i ∈ indices b (areaFront family .liveChunks) :=
      mem_indices.mpr ⟨_, mem_iff_lookup.mpr ⟨body, hl⟩, parseChunkIndex_live family hi⟩
    exact .inl (List.mem_append_right _ (hgone i hlisted hmem))
  | none =>
    have hnone : p i = none := Option.eq_none_iff_forall_ne_some.mpr fun x hx =>
      hmem (List.mem_map.mpr ⟨⟨i, x⟩, (hp ⟨i, x⟩).mpr ⟨hi, hx⟩, rfl⟩)
    rw [hnone]
    exact .inr rfl

theorem Placed.put {r : ChunkRef} (hr : r ∈ refs) (h : Placed family p (r.index :: todo) b) :
    Placed family p todo (b.insert (liveChunkKey family r.index) (encodePointer r.hash)) := by
  obtain ⟨hi, hpr⟩ := (hp r).mp hr
  refine h.change hi ?_ fun k hk => AList.lookup_insert_ne hk
  rw [hpr]
  exact AList.lookup_insert _

theorem restorePointers_places (hs : s.storage = .cow) (hfamily : s.family = family)
    (hrefs : snapshotRefs b family id = some refs) :
    (restorePointers id).Keeps env (fun s' _ => s' = s) s b fun _ _ b' =>
      Placed family p [] b' := by
  have hkey := chunkKey_cow hs hfamily
  refine (loadSnapshotRefs_reads id).then rfl fun found hfound => ?_
  simp only [hfamily, hrefs, Option.some.injEq] at hfound
  subst hfound
  refine presentChunks_reads.then rfl fun live hlive => ?_
  have hlive := Returns.ok.mp hlive
  generalize hgone : (live.filter fun idx => idx ∉ refs.map ChunkRef.index) = gone
  have gone_iff : ∀ i, i ∈ gone ↔ i ∈ live ∧ ∀ r ∈ refs, r.index ≠ i := fun i => by
    rw [← hgone]
    simp
  have start : Placed family p (refs.map ChunkRef.index ++ gone) b := by
    refine placed_of_listed hp fun i hi hnot => (gone_iff i).mpr ⟨?_, fun r hr hri => ?_⟩
    · rw [hlive, chunksFront_cow hs hfamily]
      exact hi
    · exact hnot (List.mem_map.mpr ⟨r, hr, hri⟩)
  refine Keeps.bind ((Keeps.each (K := fun s' _ => s' = s) (fun rs _ b => rs ⊆ refs ∧
    Placed family p (rs.map ChunkRef.index ++ gone) b) refs rfl
      ⟨List.Subset.refl _, start⟩ ?_).mono ?_)
  · intro r rs s' b' hs' h
    subst hs'
    refine Reads.get.then rfl fun t ht => ?_
    obtain rfl := Returns.ok.mp ht
    rw [hkey]
    exact putBytes_keeps rfl (fun _ _ => rfl) fun _ _ =>
      ⟨(List.cons_subset.mp h.1).2, h.2.put hp (h.1 List.mem_cons_self)⟩
  intro _ s' b' hs' h
  rw [hs']
  refine Keeps.bind ((Keeps.each (K := fun s' _ => s' = s) (fun is _ b => is ⊆ gone ∧
    Placed family p is b) gone rfl ⟨List.Subset.refl _, h.2⟩ ?_).mono ?_)
  · intro i is s' b' hs' h
    subst hs'
    refine Reads.get.then rfl fun t ht => ?_
    obtain rfl := Returns.ok.mp ht
    simp only [hs, hkey]
    obtain ⟨hmem, hnot⟩ := (gone_iff i).mp (h.1 List.mem_cons_self)
    have hi : i < u64Size := by
      rw [hlive] at hmem
      exact lt_of_mem_indices hmem
    refine deleteObjectKey_keeps rfl rfl ⟨(List.cons_subset.mp h.1).2, ?_⟩
    refine h.2.change hi ?_ fun k hk => AList.lookup_erase_ne hk
    rw [AList.lookup_erase, eq_comm, Option.map_eq_none_iff]
    exact Option.eq_none_iff_forall_ne_some.mpr fun x hx => hnot ⟨i, x⟩
      ((hp ⟨i, x⟩).mpr ⟨hi, hx⟩) rfl
  · intro _ s' b'' hs' h
    exact Reads.get.then hs' fun _ _ => Keeps.pure hs' h.2

theorem cloneRef_places (hs : dest.storage = .cow) (hfamily : dest.family = family) {r : ChunkRef}
    (hr : r ∈ refs) (h : Placed family p (r.index :: todo) b) :
    (cloneRef r).Keeps env (fun q _ => q = (source, dest)) (source, dest) b fun _ _ b' =>
      Placed family p todo b' := by
  have last : ∀ {b} (copied : Bool), Placed family p (r.index :: todo) b →
      (do
        onDest (putPointer r.index r.hash)
        pure copied).Keeps env (fun q _ => q = (source, dest)) (source, dest) b fun _ _ b' =>
          Placed family p todo b' := by
    intro b copied h
    refine Keeps.bind (Keeps.within (Reads.get.then rfl fun t ht => ?_))
    rw [Returns.ok.mp ht, chunkKey_cow hs hfamily]
    exact putBytes_keeps rfl (fun _ _ => rfl) fun _ _ => Keeps.pure rfl (h.put hp hr)
  refine Reads.get.then rfl fun q hq => ?_
  obtain rfl := Returns.ok.mp hq
  refine ((getObject_reads r.hash).within rfl).then rfl fun found _ => ?_
  cases found with
  | some found => exact last false h
  | none =>
    refine ((getObject_reads r.hash).within rfl).then rfl fun copy _ => ?_
    cases copy with
    | none => exact Keeps.throw rfl
    | some copy =>
      refine Keeps.bind (Keeps.within (putBytes_keeps rfl (fun _ _ => rfl) fun _ _ => last true ?_))
      intro i hi
      rw [hfamily, AList.lookup_insert_ne ((inArea_live _ _).ne (inArea_object _ _) (by decide))]
      exact h i hi

theorem clonePointers_places (hs : dest.storage = .cow) (hfamily : dest.family = family)
    (hrefs : snapshotRefs b source.family id = some refs) :
    (clonePointers id).Keeps env (fun q _ => q = (source, dest)) (source, dest) b fun _ _ b' =>
      Placed family p [] b' := by
  refine (presentChunks_reads.within rfl).then rfl fun existing hexisting => ?_
  have hexisting := Returns.ok.mp hexisting
  split
  · exact Keeps.throw rfl
  rename_i hempty
  have start : Placed family p (refs.map ChunkRef.index ++ []) b := by
    refine placed_of_listed hp fun i hi => ?_
    rw [← chunksFront_cow hs hfamily, ← hexisting, not_not.mp hempty] at hi
    exact absurd hi List.not_mem_nil
  refine ((loadSnapshotRefs_reads id).within rfl).then rfl fun found hfound => ?_
  simp only [hrefs, Option.some.injEq] at hfound
  subst hfound
  rw [List.append_nil] at start
  refine Keeps.bind ((Keeps.collect (K := fun q _ => q = (source, dest)) (fun rs _ b => rs ⊆ refs ∧
    Placed family p (rs.map ChunkRef.index) b) refs rfl ⟨List.Subset.refl _, start⟩ ?_).mono
    fun _ _ _ hK h => Keeps.pure hK h.2)
  intro r rs q b' hq h
  subst hq
  exact (cloneRef_places hp hs hfamily (h.1 List.mem_cons_self) h.2).mono fun _ _ _ _ h' =>
    ⟨(List.cons_subset.mp h.1).2, h'⟩

variable [External] {P : Promise} {u v : Shape} {F : Bucket → Prop} {locked locked' : Bool}

variable {manifest index : Bytes} {m : SnapshotManifest} (json : JsonRoundTrips)

include json

theorem snapshotRestore_places (elsewhere : Elsewhere v.family F) (h : Opened P v F locked s b)
    (snapshot : SnapshotIs v.family id manifest index b) (hm : parseManifest manifest = .ok m)
    (hread : readChunksBin index = .ok refs) :
    (snapshotRestore id).Keeps env (fun _ _ => True) s b fun _ s' b' =>
      s'.storage = .cow ∧ m.capacityBytes ≤ s'.capacity ∧ Placed v.family p [] b' := by
  refine requireCow_reads.then trivial fun _ hs => (snapshotGet_reads id).then trivial
    fun m' hm' => ?_
  have hs := Value.ok.mp hs
  obtain ⟨body, hbody, hparse⟩ := Value.ok.mp hm'
  refine Reads.get.then trivial fun t ht => ?_
  obtain rfl := Returns.ok.mp ht
  rw [h.has.family, snapshot.1] at hbody
  cases hbody
  rw [hm] at hparse
  cases hparse
  split
  · exact Keeps.throw trivial
  split
  · exact Keeps.throw trivial
  split
  · exact Keeps.throw trivial
  refine Keeps.bind (((growTo_keeps json elsewhere h hs
    (h.sound.manifests id manifest m snapshot.1 hm)).weaken fun _ _ _ => trivial).mono ?_)
  rintro - s' b' - ⟨h', ⟨hs', hcap⟩, hb'⟩
  have hindex : snapshotRefs b' v.family id = some refs := by
    refine snapshotRefs_eq_some.mpr ⟨index, ?_, hread⟩
    rcases hb' with rfl | ⟨_, rfl⟩
    · exact snapshot.2
    · rw [same_insert (inArea_liveMeta _) (by decide : Area.liveMeta ≠ .snapshots) _
        (inArea_chunks _ _)]
      exact snapshot.2
  refine ((restorePointers_places hp hs' h'.has.family hindex).weaken fun _ _ _ => trivial).mono ?_
  rintro _ _ b'' - ⟨rfl, placed⟩
  exact ⟨hs', hcap, placed⟩

theorem snapshotCloneInto_places (disjoint : Disjoint u.family v.family)
    (elsewhere : Elsewhere v.family F) (h : Opened P v (Opened P u F locked source) locked' dest b)
    (snapshot : SnapshotIs u.family id manifest index b) (hm : parseManifest manifest = .ok m)
    (hread : readChunksBin index = .ok refs) :
    (snapshotCloneInto id).Keeps env (fun _ _ => True) (source, dest) b fun _ q b' =>
      q.2.storage = .cow ∧ m.capacityBytes ≤ q.2.capacity ∧ v.chunkSize = u.chunkSize ∧
        v.compression = u.compression ∧ Placed v.family p [] b' := by
  refine (requireCow_reads.within rfl).then trivial fun _ _ =>
    (requireCow_reads.within rfl).then trivial fun _ hs => Reads.get.then trivial fun q hq => ?_
  have hs := Value.ok.mp hs
  obtain rfl := Returns.ok.mp hq
  simp only
  split
  · exact Keeps.throw trivial
  split
  · exact Keeps.throw trivial
  rename_i hgeometry
  simp only [h.has.chunkSize, h.rest.has.chunkSize, h.has.compression, h.rest.has.compression,
    ne_eq, not_or, not_not] at hgeometry
  refine ((snapshotGet_reads id).within rfl).then trivial fun m' hm' => ?_
  obtain ⟨body, hbody, hparse⟩ := Value.ok.mp hm'
  simp only at hbody
  rw [h.rest.has.family, snapshot.1] at hbody
  cases hbody
  rw [hm] at hparse
  cases hparse
  split
  · exact Keeps.throw trivial
  refine Keeps.bind (((onDest_keeps (growTo_keeps json (Opened.elsewhere disjoint elsewhere) h hs
    (h.rest.sound.manifests id manifest m snapshot.1 hm))).weaken fun _ _ _ => trivial).mono ?_)
  rintro - ⟨source', dest'⟩ b' - ⟨⟨-, h'⟩, rfl, ⟨hs', hcap⟩, hb'⟩
  have hindex : snapshotRefs b' source'.family id = some refs := by
    refine snapshotRefs_eq_some.mpr ⟨index, ?_, hread⟩
    rw [h.rest.has.family, ← snapshot.2]
    rcases hb' with rfl | ⟨_, rfl⟩
    · rfl
    · exact same_insert_family disjoint (inArea_liveMeta _) _ (inArea_chunks _ _)
  refine ((clonePointers_places hp hs' h'.has.family hindex).weaken fun _ _ _ => trivial).mono ?_
  rintro _ _ b'' - ⟨rfl, placed⟩
  exact ⟨hs', hcap, hgeometry.1, hgeometry.2.2, placed⟩

end Pointers

section Content

variable [External] {B : Set Bytes} {inj : Set.InjOn blake3 B} {roundTrip : codecs.RoundTrip}
variable {v v' : Shape} {F F' : Bucket → Prop} {locked locked' : Bool} {s s' : S3ChunkStore}
variable {b b' : Bucket} (h : Opened (exactPayload B inj roundTrip) v F locked s b)
variable (h' : Opened (exactPayload B inj roundTrip) v' F' locked' s' b') (hs : s.storage = .cow)
variable (hs' : s'.storage = .cow) (hsize : v'.chunkSize = v.chunkSize)
variable (hcomp : v'.compression = v.compression)
variable (placed : Placed v'.family (pointer b v.family) [] b')

include h h' hs hs' hsize hcomp placed

/-- Chunks with the same pointers are the same: the pools can only have one payload for a hash. -/
theorem plainChunk_of_placed {i : Nat} (hi : i < u64Size) :
    plainChunk b' s' i = plainChunk b s i := by
  rw [← h.has.chunkSize, ← h'.has.chunkSize] at hsize
  rw [← h.has.compression, ← h'.has.compression] at hcomp
  have hlook := (placed i hi).resolve_left List.not_mem_nil
  cases hl : b.lookup (liveChunkKey v.family i) with
  | none =>
    have hnone : pointer b v.family i = none := by
      unfold pointer
      rw [hl]
      rfl
    rw [hnone] at hlook
    rw [← h.has.family] at hl
    rw [← h'.has.family] at hlook
    rw [plainChunk_missing hs hl, plainChunk_missing hs' hlook, hsize]
  | some body =>
    obtain ⟨j, x, -, -, rfl, hx, -⟩ := h.sound.live _ body (inArea_live _ i) hl
    have hpointer : pointer b v.family i = some x :=
      pointer_eq_some.mpr ⟨_, hl, decodePointer_encodePointer x⟩
    rw [hpointer] at hlook
    obtain ⟨j', x', -, -, hbody, hx', -⟩ := h'.sound.live _ _ (inArea_live _ i) hlook
    obtain rfl := encodePointer_inj hbody
    obtain ⟨payload, hpayload⟩ := mem_iff_lookup.mp hx
    obtain ⟨payload', hpayload'⟩ := mem_iff_lookup.mp hx'
    obtain ⟨hhash, hmem⟩ := h.sound.pool _ _ hpayload
    obtain ⟨hhash', hmem'⟩ := h'.sound.pool _ _ hpayload'
    obtain rfl : payload = payload' := inj hmem hmem' (hhash.trans hhash'.symm)
    rw [← h.has.family] at hl hpayload
    rw [← h'.has.family] at hlook hpayload'
    rw [plainChunk_pointer hs hl hpayload, plainChunk_pointer hs' hlook hpayload', hsize, hcomp]

theorem reads_of_placed (headed : Headed s.chunkSize s.compression) {offset len : Nat}
    (hin : offset + len ≤ s'.capacity) : (readAt offset len).Reads Unreliable s' b'
      (Returns (· = span (array b s).byte offset len)) := by
  have hchunk : s'.chunkSize = s.chunkSize :=
    h'.has.chunkSize.trans (hsize.trans h.has.chunkSize.symm)
  rw [h.has.chunkSize, h.has.compression] at headed
  have bytes : HoldsBytes (array b s).byte s' b' := by
    intro i hi
    rw [plainChunk_of_placed h h' hs hs' hsize hcomp placed hi, hchunk]
    exact (h.stores headed).bytes i hi
  refine readAt_reads bytes ?_ h'.cap hin
  rw [h'.has.chunkSize]
  exact v'.chunkSize_pos

end Content

section Taken

variable [External] {B : Set Bytes} {V : Type} [DecidableEq V] {site : Site V} {v w : V} {id : Str}
variable {vol vol' dest : Mounted} {b b' b₂ : Bucket} {mem' : Memory V}

/-- After a history of the process, in which volume `v` is `vol`, a snapshot of it is created; then
anything happens to the volumes, except that the snapshot is deleted. -/
inductive Taken (site : Site V) (B : Set Bytes) (v : V) (id : Str) (vol : Mounted) (b : Bucket)
    (mem' : Memory V) (b' : Bucket) : Prop
  | intro {b₀ b₁ : Bucket} {mem : Memory V} (start : ∀ u, Before (site.shape u) b₀)
    (history : Session.Reach (process site Unlocked) (UnreliablePaid B) b₀ ⟨mem, none, b⟩)
    (mounted : mem v = some vol) {now : Nat} {sourceVolume : Str} {m : SnapshotManifest}
    {s₁ : S3ChunkStore} (created : (snapshotCreate now id sourceVolume vol.store).Runs
      (UnreliablePaid B) b (.ok m, s₁) b₁)
    (between : Relation.ReflTransGen
      (Session.Step (process site Unlocked) (Sparing B (site.shape v).family id))
      ⟨Function.update mem v (some { vol with store := s₁ }), none, b₁⟩ ⟨mem', none, b'⟩)

variable (json : JsonRoundTrips) (roundTrip : codecs.RoundTrip) (inj : Set.InjOn blake3 B)
variable (taken : Taken site B v id vol b mem' b')

include json taken

/-- What the snapshot is made of is still there. -/
theorem Taken.found : ∃ m refs,
    Opened (exactPayload B inj roundTrip) (site.shape v) (fun _ => True) vol.locked vol.store b ∧
    vol.store.storage = .cow ∧ m.capacityBytes = vol.store.capacity ∧
    readChunksBin (writeChunksBin refs) = .ok refs ∧
    (∀ r, r ∈ refs ↔ r.index < u64Size ∧ pointer b (site.shape v).family r.index = some r.hash) ∧
    SiteOk (exactPayload B inj roundTrip) site mem' b' ∧
    SnapshotIs (site.shape v).family id (manifestJson m) (writeChunksBin refs) b' := by
  obtain ⟨start, history, mounted, created, between⟩ := taken
  rename_i b₀ b₁ mem now sourceVolume m s₁
  have ok : Session.Keeps (process site Unlocked) (UnreliablePaid B)
      (SiteOk (exactPayload B inj roundTrip) site) (Left (exactPayload B inj roundTrip) site) :=
    process_keeps json (pays_unreliablePaid inj roundTrip) fun _ _ _ h => h
  have sites := ok.reach (fun u => (start u).closed) history
  have hopened := sites.opened mounted
  have creates : (process site Unlocked).calls mem
      (mem.on v (snapshotCreate now id sourceVolume) vol) :=
    ⟨.snapshotCreate v now id sourceVolume, trivial, trivial, congrArg (Option.map _) mounted⟩
  have sites₁ := (Prog.Safe.bind_runs (ok.call sites creates) created).2
  obtain ⟨-, hcow, hcap, refs, snapshot, hlen, hrefs⟩ :=
    Prog.Safe.runs (snapshotCreate_makes hopened.has.family now sourceVolume) created
  obtain ⟨sites', snapshot'⟩ := (snapshot_keeps site json inj roundTrip v id (manifestJson m)
    (writeChunksBin refs)).run ⟨sites₁, snapshot⟩ between
  exact ⟨m, refs, hopened.frame trivial, hcow, hcap, readChunksBin_writeChunksBin
    (fun r hr => ((hrefs r).mp hr).1) hlen, hrefs, sites', snapshot'⟩

variable (headed : Headed vol.store.chunkSize vol.store.compression) (mounted : mem' v = some vol')

include roundTrip inj headed mounted

/-- A snapshot of `v` is created, anything happens, and a restore succeeds: every read of `v` then
returns the bytes that it held at the creation, zeros above its capacity of then. -/
theorem restore_is_exact {stats : RestoreStats} {s₂ : S3ChunkStore}
    (restored : (snapshotRestore id vol'.store).Runs (Sparing B (site.shape v).family id) b'
      (.ok stats, s₂) b₂) :
    vol.store.capacity ≤ s₂.capacity ∧ ∀ offset len, offset + len ≤ s₂.capacity →
      (readAt offset len).Reads Unreliable s₂ b₂
        (Returns (· = span (array b vol.store).byte offset len)) := by
  obtain ⟨m, refs, hopened, hcow, hcap, hread, hrefs, sites, snapshot⟩ :=
    taken.found json roundTrip inj
  have hvol := sites.opened mounted
  obtain ⟨hopened₂, -⟩ := Prog.Safe.runs (snapshotRestore_keeps json (others_elsewhere v) hvol id)
    restored
  obtain ⟨-, hcow₂, hcap₂, placed⟩ := Prog.Safe.runs (snapshotRestore_places hrefs json
    (others_elsewhere v) hvol snapshot (json.manifest m) hread) restored
  refine ⟨hcap ▸ hcap₂, fun offset len hin => ?_⟩
  exact reads_of_placed hopened hopened₂ hcow hcow₂ rfl rfl placed headed hin

/-- The same for a clone into another volume `w`: every read of `w` returns the bytes that `v`
held. -/
theorem clone_is_exact (hne : v ≠ w) (mountedDest : mem' w = some dest) {stats : CloneStats}
    {q : S3ChunkStore × S3ChunkStore} (cloned : (snapshotCloneInto id (vol'.store, dest.store)).Runs
      (Sparing B (site.shape v).family id) b' (.ok stats, q) b₂) :
    vol.store.capacity ≤ q.2.capacity ∧ ∀ offset len, offset + len ≤ q.2.capacity →
      (readAt offset len).Reads Unreliable q.2 b₂
        (Returns (· = span (array b vol.store).byte offset len)) := by
  obtain ⟨m, refs, hopened, hcow, hcap, hread, hrefs, sites, snapshot⟩ :=
    taken.found json roundTrip inj
  have elsewhere : Elsewhere (site.shape w).family fun _ => True :=
    ⟨fun _ _ _ => trivial, fun _ _ => trivial⟩
  have both := (sites.opened mountedDest).frame
    ((sites.opened mounted).frame (G := fun _ => True) trivial)
  obtain ⟨⟨-, hopened₂⟩, -⟩ := Prog.Safe.runs (snapshotCloneInto_keeps json
    (pays_sparing inj roundTrip) (site.disjoint hne) elsewhere both id) cloned
  obtain ⟨-, hcow₂, hcap₂, hsize, hcomp, placed⟩ :=
    Prog.Safe.runs (snapshotCloneInto_places hrefs json
    (site.disjoint hne) elsewhere both snapshot (json.manifest m) hread) cloned
  refine ⟨hcap ▸ hcap₂, fun offset len hin => ?_⟩
  exact reads_of_placed hopened hopened₂ hcow hcow₂ hsize hcomp placed headed hin

end Taken

section Copies

open Plain Stack

def twoVolumes : Site Bool where
  shape := fun v => ⟨if v then "w".toList else "v".toList, 1, 1, .none, Nat.one_pos⟩
  disjoint := fun {u v} => by
    revert u v
    unfold Disjoint
    decide

/-- Requests of the runs below: nothing but `bodies` is put under a key as long as that of an
object, and the metadata of the snapshot is not deleted. -/
def spared : Req → Bucket → Bool
  | .put key body ifMatch, b => key.length < 66 || known (.put key body ifMatch) b
  | .delete key, _ => key ≠ snapshotManifestKey "v".toList "s".toList ∧
      key ≠ snapshotChunksKey "v".toList "s".toList
  | .get _, _ => true
  | .list _, _ => true

theorem length_objectKey (family : Str) (hash : Hash) : 66 ≤ (objectKey family hash).length := by
  simp [objectKey, objectRelpath, shardObjectName, length_hashHex]

theorem spared_answer (r : Req) (b : Bucket) (h : spared r b = true) :
    Sparing {body | body ∈ bodies} "v".toList "s".toList r b (answer (fun _ => []) r b).1
      (answer (fun _ => []) r b).2 := by
  refine ⟨⟨unreliable_answer _ r b, ?_⟩, ?_⟩
  · rintro family hash body ifMatch rfl
    have := length_objectKey family hash
    simp only [spared, Bool.or_eq_true, decide_eq_true_eq] at h
    exact of_decide_eq_true (h.resolve_left (by omega))
  · rintro (rfl | rfl) <;> simp [spared] at h

@[irreducible] def bothOpened : Memory Bool × Bucket :=
  let st := (Memory.mount (fun _ => none) false oneConfig).run (answer fun _ => []) ∅
  (st.1.mount true ⟨"w/".toList, 4, 1, 1, .none, .cow, "w".toList⟩).run (answer fun _ => []) st.2

@[irreducible] def vWritten : Memory Bool × Bucket :=
  (bothOpened.1.on false (writeAt 0 [7]) oneMounted).run (answer fun _ => []) bothOpened.2

@[irreducible] def vTaken : Memory Bool × Bucket :=
  (Function.update vWritten.1 false (some oneMounted),
    ((snapshotCreate 5 "s".toList "v".toList oneMounted.store).run
      (answer fun _ => []) vWritten.2).2)

/-- Two bytes are written over the one of the snapshot. -/
@[irreducible] def overwritten : Memory Bool × Bucket :=
  (vTaken.1.on false (writeAt 0 [5, 5]) oneMounted).run (answer fun _ => []) vTaken.2

theorem overwritten_taken : Taken twoVolumes {body | body ∈ bodies} false "s".toList oneMounted
    vWritten.2 overwritten.1 overwritten.2 := by
  have mounted : bothOpened.1 false = some oneMounted ∧ vWritten.1 false = some oneMounted ∧
      vTaken.1 false = some oneMounted := by decide +kernel
  have opened : Session.Reach (process twoVolumes Unlocked)
      (UnreliablePaid {body | body ∈ bodies}) ∅ ⟨bothOpened.1, none, bothOpened.2⟩ := by
    rw [bothOpened]
    refine .call (.call .refl ⟨.openVolume false oneConfig, ?_, trivial, rfl⟩
      (Prog.runs_of_checked known known_unreliable _ _ (by decide +kernel)))
      ⟨.openVolume true _, ?_, trivial, rfl⟩
      (Prog.runs_of_checked known known_unreliable _ _ (by decide +kernel))
    · exact ⟨⟨rfl, rfl, rfl, rfl⟩, by decide⟩
    · exact ⟨⟨rfl, rfl, rfl, rfl⟩, by decide⟩
  have history : Session.Reach (process twoVolumes Unlocked)
      (UnreliablePaid {body | body ∈ bodies}) ∅ ⟨vWritten.1, none, vWritten.2⟩ := by
    rw [vWritten]
    refine opened.call ⟨.writeAt false 0 [7], trivial, fun vol hvol => ?_,
      congrArg (Option.map _) mounted.1⟩
      (Prog.runs_of_checked known known_unreliable _ _ (by decide +kernel))
    obtain rfl := Option.some.inj (mounted.1.symm.trans hvol)
    rfl
  have created : (snapshotCreate 5 "s".toList "v".toList oneMounted.store).Runs
      (UnreliablePaid {body | body ∈ bodies}) vWritten.2 (.ok firstManifest, oneMounted.store)
      vTaken.2 := by
    have hrun : ((snapshotCreate 5 "s".toList "v".toList oneMounted.store).run (answer fun _ => [])
        vWritten.2).1 = (.ok firstManifest, oneMounted.store) := by decide +kernel
    rw [vTaken, ← hrun]
    exact Prog.runs_of_checked spared (fun r b h => (spared_answer r b h).1) _ _ (by decide +kernel)
  refine .intro (fun _ => ⟨fun _ _ _ _ => AList.notMem_empty _,
    .inl fun _ _ => AList.notMem_empty _⟩) history mounted.2.1 created ?_
  have htaken : Function.update vWritten.1 false (some oneMounted) = vTaken.1 := by rw [vTaken]
  rw [htaken, overwritten]
  refine Session.run_call ⟨.writeAt false 0 [5, 5], trivial, fun vol hvol => ?_,
    congrArg (Option.map _) mounted.2.2⟩
    (Prog.runs_of_checked spared spared_answer _ _ (by decide +kernel))
  obtain rfl := Option.some.inj (mounted.2.2.symm.trans hvol)
  rfl

theorem bodies_inj : Set.InjOn pad {body | body ∈ bodies} := by
  have h : ∀ x ∈ bodies, ∀ y ∈ bodies, pad x = pad y → x = y := by decide +kernel
  exact fun x hx y hy hxy => h x hx y hy hxy

theorem span_vWritten : span (array vWritten.2 oneMounted.store).byte 0 4 = [7, 0, 0, 0] := by
  decide +kernel

@[irreducible] def restored : (Outcome RestoreStats × S3ChunkStore) × Bucket :=
  (snapshotRestore "s".toList oneMounted.store).run (answer fun _ => []) overwritten.2

theorem restore_is_exact_overwritten :
    plainChunk overwritten.2 oneMounted.store 0 = .ok [5] ∧
      (readAt 0 4).Reads Unreliable restored.1.2 restored.2 (Returns (· = [7, 0, 0, 0])) := by
  have run : (snapshotRestore "s".toList oneMounted.store).Runs
      (Sparing {body | body ∈ bodies} "v".toList "s".toList) overwritten.2
      (.ok ⟨1, 1, 4⟩, restored.1.2) restored.2 := by
    have hok : restored.1.1 = .ok ⟨1, 1, 4⟩ := by decide +kernel
    rw [← hok, restored]
    exact Prog.runs_of_checked spared spared_answer _ _ (by decide +kernel)
  rw [← span_vWritten]
  exact ⟨by decide +kernel, (restore_is_exact jsonRoundTrips codecsRoundTrip bodies_inj
    overwritten_taken (fun h => absurd rfl h) (by decide +kernel) run).2 0 4 (by decide +kernel)⟩

@[irreducible] def cloned : (Outcome CloneStats × S3ChunkStore × S3ChunkStore) × Bucket :=
  (snapshotCloneInto "s".toList (oneMounted.store, { oneMounted.store with
    family := "w".toList, volume := "w".toList })).run (answer fun _ => []) overwritten.2

theorem clone_is_exact_overwritten :
    (readAt 0 4).Reads Unreliable cloned.1.2.2 cloned.2 (Returns (· = [7, 0, 0, 0])) := by
  have run : (snapshotCloneInto "s".toList (oneMounted.store, { oneMounted.store with
      family := "w".toList, volume := "w".toList })).Runs
      (Sparing {body | body ∈ bodies} "v".toList "s".toList) overwritten.2
      (.ok ⟨1, 1⟩, cloned.1.2) cloned.2 := by
    have hok : cloned.1.1 = .ok ⟨1, 1⟩ := by decide +kernel
    rw [← hok, cloned]
    exact Prog.runs_of_checked spared spared_answer _ _ (by decide +kernel)
  rw [← span_vWritten]
  exact (clone_is_exact jsonRoundTrips codecsRoundTrip bodies_inj overwritten_taken
    (fun h => absurd rfl h) (by decide +kernel) (by decide : false ≠ true)
    (by decide +kernel : overwritten.1 true = some ⟨_, false⟩) run).2 0 4 (by decide +kernel)

end Copies

end IscsiS3.S3
