import IscsiS3.S3.Snapshots

/-! What the reading calls of a volume return when gets and lists succeed.  Each returns a function
of the bucket and changes nothing; the two requests that change the bucket have one rule each. -/

namespace IscsiS3.S3

open Request External StoreM

/-- Gets and lists tell what is in the bucket, and a put or delete has its effect or none. -/
class Honest (env : Env Req Reply Bucket) : Prop where
  below : ∀ r b x b', env r b x b' → Unreliable r b x b'

instance : Honest Unreliable := ⟨fun _ _ _ _ => id⟩

def pointer (b : Bucket) (family : Str) (i : Nat) : Option Hash :=
  (b.lookup (liveChunkKey family i)).bind fun body => (decodePointer body).toOption

/-- The chunks that have an object under `front`, in ascending order. -/
def indices (b : Bucket) (front : Key) : List Nat :=
  Ascending.sortDedup ((b.listed front).filterMap (parseChunkIndexFromKey front))

/-- An etag that comes with no object, or that a get of the key tells. -/
def Tagged (env : Env Req Reply Bucket) (b : Bucket) (key : Key) (etag : Option Str) : Prop :=
  etag = none ∨ ∃ body, env (.get key) b (.ok (body, etag)) b

/-- What `read_pointer_hash` returns for a copy-on-write volume. -/
def readHash (b : Bucket) (family : Str) (i : Nat) : Except StoreError (Option Hash) :=
  match b.lookup (liveChunkKey family i) with
  | none => .ok none
  | some body => (decodePointer body).map some

def storedBody (b : Bucket) (s : S3ChunkStore) (i : Nat) : Except StoreError (Option Bytes) :=
  match s.storage with
  | .legacy => .ok ((b.lookup (legacyChunkKey s.family i)).or
      (b.lookup (legacyFlatChunkKey s.family i)))
  | .cow => match readHash b s.family i with
    | .error e => .error e
    | .ok none => .ok none
    | .ok (some h) => match b.lookup (objectKey s.family h) with
      | some body => .ok (some body)
      | none => .error (.other ("missing cow object for chunk " ++ toString i))

def plainChunk [External] (b : Bucket) (s : S3ChunkStore) (i : Nat) : Except StoreError Bytes :=
  match storedBody b s i with
  | .error e => .error e
  | .ok none => .ok (zeros s.chunkSize)
  | .ok (some body) => decodeChunk codecs s.compression body s.chunkSize

section Plain

variable [External] {s : S3ChunkStore} {b : Bucket} {i : Nat}

theorem plainChunk_legacy (hs : s.storage = .legacy) {body : Bytes}
    (h : b.lookup (legacyChunkKey s.family i) = some body) :
    plainChunk b s i = decodeChunk codecs s.compression body s.chunkSize := by
  simp only [plainChunk, storedBody, hs, h, Option.some_or]

theorem plainChunk_missing (hs : s.storage = .cow)
    (h : b.lookup (liveChunkKey s.family i) = none) :
      plainChunk b s i = .ok (zeros s.chunkSize) := by
  simp only [plainChunk, storedBody, hs, readHash, h]

theorem plainChunk_pointer (hs : s.storage = .cow) {hash : Hash} {payload : Bytes}
    (h : b.lookup (liveChunkKey s.family i) = some (encodePointer hash))
    (hpayload : b.lookup (objectKey s.family hash) = some payload) :
    plainChunk b s i = decodeChunk codecs s.compression payload s.chunkSize := by
  simp only [plainChunk, storedBody, hs, readHash, h, decodePointer_encodePointer, Except.map,
    hpayload]

theorem length_plainChunk {chunk : Bytes} (h : plainChunk b s i = .ok chunk) :
    chunk.length = s.chunkSize := by
  unfold plainChunk at h
  split at h
  · cases h
  · cases h
    exact List.length_replicate
  · exact length_decodeChunk h

end Plain

def snapshotRefs (b : Bucket) (family id : Str) : Option (List ChunkRef) :=
  (b.lookup (snapshotChunksKey family id)).bind fun body => match readChunksBin body with
    | .ok refs => some refs
    | _ => none

theorem mem_indices {b : Bucket} {front : Key} {i : Nat} :
    i ∈ indices b front ↔ ∃ k ∈ b, parseChunkIndexFromKey front k = some i := by
  simp only [indices, Ascending.mem_sortDedup, List.mem_filterMap, Bucket.mem_listed]
  constructor
  · rintro ⟨k, ⟨hk, -⟩, hi⟩
    exact ⟨k, hk, hi⟩
  · rintro ⟨k, hk, hi⟩
    refine ⟨k, ⟨hk, ?_⟩, hi⟩
    obtain ⟨rel, hrel, -⟩ := Option.bind_eq_some_iff.mp hi
    rw [stripFront_eq_some hrel]
    exact List.prefix_append _ _

theorem indices_pairwise (b : Bucket) (front : Key) : (indices b front).Pairwise (· < ·) :=
  Ascending.sortDedup_pairwise _

theorem pointer_eq_some {b : Bucket} {family : Str} {i : Nat} {h : Hash} :
    pointer b family i = some h ↔
      ∃ body, b.lookup (liveChunkKey family i) = some body ∧ decodePointer body = .ok h := by
  simp only [pointer, Option.bind_eq_some_iff]
  refine exists_congr fun body => and_congr_right fun _ => ?_
  cases decodePointer body <;> simp [Except.toOption]

theorem pointer_of_readHash {b : Bucket} {family : Str} {i : Nat} {found : Option Hash}
    (h : readHash b family i = .ok found) : pointer b family i = found := by
  unfold readHash at h
  unfold pointer
  cases hl : b.lookup (liveChunkKey family i) with
  | none =>
    rw [hl] at h
    exact Except.ok.inj h
  | some body =>
    simp only [hl] at h
    cases hd : decodePointer body with
    | error e =>
      rw [hd] at h
      cases h
    | ok hash =>
      rw [hd] at h
      simpa [Except.toOption, hd] using Except.ok.inj h

theorem snapshotRefs_eq_some {b : Bucket} {family id : Str} {refs : List ChunkRef} :
    snapshotRefs b family id = some refs ↔
      ∃ body, b.lookup (snapshotChunksKey family id) = some body ∧
        readChunksBin body = .ok refs := by
  simp only [snapshotRefs, Option.bind_eq_some_iff]
  refine exists_congr fun body => and_congr_right fun _ => ?_
  cases readChunksBin body <;> simp

def liveRefs (b : Bucket) (family : Str) : List ChunkRef :=
  (indices b (areaFront family .liveChunks)).filterMap fun i =>
    (pointer b family i).map (ChunkRef.mk i)

theorem mem_liveRefs {b : Bucket} {family : Str} {r : ChunkRef} : r ∈ liveRefs b family ↔
    r.index ∈ indices b (areaFront family .liveChunks) ∧
      pointer b family r.index = some r.hash := by
  simp only [liveRefs, List.mem_filterMap, Option.map_eq_some_iff]
  constructor
  · rintro ⟨i, hi, h, hp, rfl⟩
    exact ⟨hi, hp⟩
  · rintro ⟨hi, hp⟩
    exact ⟨r.index, hi, r.hash, hp, rfl⟩

theorem liveRefs_pairwise (b : Bucket) (family : Str) :
    (liveRefs b family).Pairwise fun r r' => r.index < r'.index := by
  refine List.Pairwise.filterMap _ (fun i j hij r hr r' hr' => ?_) (indices_pairwise b _)
  obtain ⟨_, -, rfl⟩ := Option.map_eq_some_iff.mp hr
  obtain ⟨_, -, rfl⟩ := Option.map_eq_some_iff.mp hr'
  exact hij

theorem mem_foldl_insert (refs : List ChunkRef) (set : Finset Hash) (h : Hash) :
    h ∈ refs.foldl (fun set r => insert r.hash set) set ↔ h ∈ set ∨ ∃ r ∈ refs, r.hash = h := by
  induction refs generalizing set with
  | nil => simp
  | cons r refs ih =>
    simp only [List.foldl_cons, ih, Finset.mem_insert, List.mem_cons, exists_eq_or_imp,
      eq_comm (a := h), or_assoc]
    exact or_left_comm

section Requests

variable {env : Env Req Reply Bucket} [honest : Honest env] {s : S3ChunkStore} {b : Bucket}

theorem getBytes_reads (key : Key) :
    (getBytes key).Reads env s b (Returns fun found =>
      found.map Prod.fst = b.lookup key ∧ ∀ x ∈ found, Tagged env b key x.2) := by
  refine Reads.bind_returns (P := fun x => env (.get key) b x b)
    (Reads.request fun x b' step => ?_) fun x step => ?_
  · obtain ⟨rfl, -⟩ := honest.below _ _ _ _ step
    exact ⟨rfl, Returns.ok.mpr step⟩
  · obtain ⟨-, h⟩ := honest.below _ _ _ _ step
    cases hl : b.lookup key with
    | none =>
      rw [hl] at h
      subst h
      exact Reads.pure (Returns.ok.mpr ⟨rfl, nofun⟩)
    | some body =>
      rw [hl] at h
      obtain ⟨etag, rfl⟩ := h
      refine Reads.pure (Returns.ok.mpr ⟨rfl, fun x hx => ?_⟩)
      obtain rfl : (body, etag) = x := by simpa using hx
      exact .inr ⟨body, step⟩

theorem listKeys_reads (front : Key) :
    (listKeys front).Reads env s b (Returns fun keys => ∀ k, k ∈ keys ↔ k ∈ b ∧ front <+: k) := by
  refine Reads.bind_returns (P := fun x => ∃ keys, x = .ok keys ∧ ∀ k, k ∈ keys ↔
    k ∈ b ∧ front <+: k) (Reads.request fun x b' step => ?_) ?_
  · obtain ⟨rfl, h⟩ := honest.below _ _ _ _ step
    exact ⟨rfl, Returns.ok.mpr h⟩
  · rintro x ⟨keys, rfl, h⟩
    exact Reads.pure (Returns.ok.mpr h)

variable {K : S3ChunkStore → Bucket → Prop} {R : Unit → S3ChunkStore → Bucket → Prop} {key : Key}

theorem putBytes_keeps {body : Bytes} {ifMatch : Option Str} (hK : K s b)
    (hK' : ∀ x, env (.put key body ifMatch) b x (b.insert key body) → K s (b.insert key body))
    (h : ∀ x, env (.put key body ifMatch) b x (b.insert key body) → R () s (b.insert key body)) :
    (putBytes key body ifMatch).Keeps env K s b R := by
  refine Keeps.bind (Keeps.request hK fun x b' step => ?_)
  rcases honest.below _ _ _ _ step with ⟨rfl, rfl⟩ | ⟨e, rfl, rfl | rfl⟩
  · exact ⟨hK' _ step, Keeps.pure (hK' _ step) (h _ step)⟩
  · exact ⟨hK, Keeps.throw hK⟩
  · exact ⟨hK' _ step, Keeps.throw (hK' _ step)⟩

theorem deleteObjectKey_keeps (hK : K s b) (hK' : K s (b.erase key)) (h : R () s (b.erase key)) :
    (deleteObjectKey key).Keeps env K s b R := by
  refine Keeps.bind (Keeps.request hK fun x b' step => ?_)
  rcases honest.below _ _ _ _ step with ⟨rfl, rfl⟩ | ⟨e, rfl, rfl | rfl⟩
  · exact ⟨hK', Keeps.pure hK' h⟩
  · exact ⟨hK, Keeps.throw hK⟩
  · exact ⟨hK', Keeps.throw hK'⟩

end Requests

section Calls

variable {env : Env Req Reply Bucket} [Honest env] {s : S3ChunkStore} {b : Bucket}

theorem listChunkIndices_reads (front : Key) :
    (listChunkIndices front).Reads env s b (Returns (· = indices b front)) := by
  refine (listKeys_reads front).bind_returns fun keys h => Reads.pure (Returns.ok.mpr ?_)
  refine Ascending.sortDedup_congr fun i => ?_
  simp only [List.mem_filterMap, Bucket.mem_listed, h]

theorem presentChunks_reads :
    presentChunks.Reads env s b (Returns (· = indices b s.chunksFront)) :=
  Reads.get.bind_returns fun _ h => h ▸ listChunkIndices_reads _

theorem getObject_reads (hash : Hash) :
    (getObject hash).Reads env s b
      (Returns fun found => found.map Prod.fst = b.lookup (objectKey s.family hash)) :=
  Reads.get.bind_returns fun _ h => h ▸ (getBytes_reads _).mono fun _ hr =>
    hr.imp fun _ hfound => ⟨hfound.1, hfound.2.1⟩

theorem readPointerHash_reads (hs : s.storage = .cow) (i : Nat) :
    (readPointerHash i).Reads env s b (· = .of (readHash b s.family i)) := by
  refine Reads.get.bind_returns fun t h => ?_
  subst t
  have hkey : s.chunkKey i = liveChunkKey s.family i := by simp [S3ChunkStore.chunkKey, hs]
  rw [hkey]
  refine (getBytes_reads _).bind_returns fun found ⟨hfound, _⟩ => ?_
  unfold readHash
  rw [← hfound]
  cases found with
  | none => exact Reads.pure rfl
  | some found =>
    simp only [Option.map_some]
    cases hdecode : decodePointer found.1 with
    | error e => exact Reads.throw rfl
    | ok h => exact Reads.pure rfl

omit [Honest env] in
theorem decoded_reads {plain : Except StoreError Bytes} {etag : Option Str} {key : Key}
    (htag : Tagged env b key etag) :
    (do let chunk ← StoreM.lift plain; pure (chunk, etag) : VolM (Bytes × Option Str)).Reads env s b
      fun r => r.map Prod.fst = .of plain ∧ ∀ found, r = .ok found → Tagged env b key found.2 := by
  cases plain with
  | error e => exact Reads.throw ⟨rfl, nofun⟩
  | ok plain =>
    refine Reads.pure ⟨rfl, fun found h => ?_⟩
    cases h
    exact htag

/-- What `get_chunk` returns, with the etag of the object that a put will replace. -/
theorem getChunk_reads [External] (i : Nat) :
    (getChunk i).Reads env s b fun r =>
      r.map Prod.fst = .of (plainChunk b s i) ∧
        ∀ found, r = .ok found → Tagged env b (s.chunkKey i) found.2 := by
  refine Reads.get.bind_returns fun t h => ?_
  subst t
  have absent : storedBody b s i = .ok none →
      (pure (zeros s.chunkSize, none) : VolM (Bytes × Option Str)).Reads env s b fun r =>
        r.map Prod.fst = .of (plainChunk b s i) ∧
          ∀ found, r = .ok found → Tagged env b (s.chunkKey i) found.2 := fun hnone => by
    refine Reads.pure ⟨by rw [plainChunk, hnone]; rfl, fun found h => ?_⟩
    cases h
    exact .inl rfl
  have present : ∀ body : Bytes, storedBody b s i = .ok (some body) →
      plainChunk b s i = decodeChunk codecs s.compression body s.chunkSize := fun _ h => by
    rw [plainChunk, h]
  cases hs : s.storage with
  | legacy =>
    refine Reads.get.bind_returns fun t h => ?_
    subst t
    refine (getBytes_reads _).bind_returns fun found ⟨hfound, htag⟩ => ?_
    cases found with
    | some found =>
      rw [present found.1 (by simp [storedBody, hs, ← hfound])]
      refine decoded_reads ?_
      simpa [S3ChunkStore.chunkKey, hs] using htag found rfl
    | none =>
      refine (getBytes_reads _).bind_returns fun found ⟨hflat, _⟩ => ?_
      cases found with
      | some found =>
        rw [present found.1 (by simp [storedBody, hs, ← hfound, ← hflat])]
        exact decoded_reads (.inl rfl)
      | none => exact absent (by simp [storedBody, hs, ← hfound, ← hflat])
  | cow =>
    have hkey : s.chunkKey i = liveChunkKey s.family i := by simp [S3ChunkStore.chunkKey, hs]
    refine (getBytes_reads _).bind_returns fun found ⟨hfound, htag⟩ => ?_
    rw [hkey] at hfound
    cases found with
    | none => exact absent (by simp [storedBody, hs, readHash, ← hfound])
    | some found =>
      simp only
      cases hd : decodePointer found.1 with
      | error e =>
        refine Reads.throw ⟨?_, (fun _ h => by cases h)⟩
        simp [plainChunk, storedBody, hs, readHash, ← hfound, hd, Except.map, Outcome.of,
          Outcome.map]
      | ok hash =>
        have hread : readHash b s.family i = .ok (some hash) := by
          simp [readHash, ← hfound, hd, Except.map]
        refine (getObject_reads hash).bind_returns fun object hobject => ?_
        cases object with
        | none =>
          refine Reads.throw ⟨?_, (fun _ h => by cases h)⟩
          simp [plainChunk, storedBody, hs, hread, ← hobject, Outcome.of, Outcome.map]
        | some object =>
          rw [present object.1 (by simp [storedBody, hs, hread, ← hobject])]
          exact decoded_reads (htag found rfl)

theorem readPointers_reads (hs : s.storage = .cow) (is : List Nat) :
    (readPointers is).Reads env s b
      (Value (· = is.filterMap fun i => (pointer b s.family i).map (ChunkRef.mk i))) := by
  induction is with
  | nil => exact Reads.pure (Value.ok.mpr rfl)
  | cons i is ih =>
    refine (readPointerHash_reads hs i).bind fun hash h => ih.bind fun refs hrefs => ?_
    rw [List.filterMap_cons, pointer_of_readHash (Outcome.of_eq_ok h.symm), ← Value.ok.mp hrefs]
    cases hash with
    | none | some _ => exact Reads.pure (Value.ok.mpr rfl)

theorem loadSnapshotRefs_reads (id : Str) :
    (loadSnapshotRefs id).Reads env s b fun r => match r with
      | .ok refs => snapshotRefs b s.family id = some refs
      | _ => snapshotRefs b s.family id = none := by
  refine Reads.get.bind_returns fun t h => ?_
  subst t
  refine (getBytes_reads _).bind_returns fun found ⟨hfound, _⟩ => ?_
  unfold snapshotRefs
  rw [← hfound]
  cases found with
  | none => exact Reads.throw rfl
  | some found =>
    refine Reads.done ?_
    simp only [Option.map_some, Option.bind_some]
    cases readChunksBin found.1 <;> rfl

omit [Honest env] in
theorem requireCow_reads : requireCow.Reads env s b (Value fun _ => s.storage = .cow) := by
  refine Reads.get.bind_returns fun t h => ?_
  subst t
  cases hs : s.storage with
  | legacy => exact Reads.throw nofun
  | cow => exact Reads.pure (Value.ok.mpr rfl)

theorem collectLiveRefs_reads : collectLiveRefs.Reads env s b
    (Value fun refs => refs = liveRefs b s.family ∧ 40 * refs.length < 2 ^ 63) := by
  refine requireCow_reads.bind fun _ hs => presentChunks_reads.bind fun is his => ?_
  have hs := Value.ok.mp hs
  have his := Returns.ok.mp his
  refine (Reads.done (R := Value fun _ => 40 * is.length < 2 ^ 63) fun _ h => ?_).bind
    fun _ hlen => ?_
  · unfold reserve at h
    split at h
    · assumption
    · cases h
  · refine (readPointers_reads hs is).bind fun refs hrefs => Reads.pure (Value.ok.mpr ?_)
    have hrefs := Value.ok.mp hrefs
    have heq : refs = liveRefs b s.family := by
      rw [hrefs, his]
      simp only [liveRefs, S3ChunkStore.chunksFront, hs]
    have hsorted : (refs.insertionSort fun a b => a.index ≤ b.index) = refs := by
      refine List.Pairwise.insertionSort_eq ?_
      rw [heq]
      exact (liveRefs_pairwise b s.family).imp Nat.le_of_lt
    rw [hsorted]
    have hlen := Value.ok.mp hlen
    refine ⟨heq, lt_of_le_of_lt ?_ hlen⟩
    rw [hrefs]
    exact Nat.mul_le_mul_left 40 (List.length_filterMap_le _ _)

theorem gcPointers_reads (hs : s.storage = .cow) (is : List Nat) (referenced : Finset Hash) :
    (gcPointers is referenced).Reads env s b (Value fun result =>
      ∀ h, h ∈ result ↔ h ∈ referenced ∨ ∃ i ∈ is, pointer b s.family i = some h) := by
  induction is generalizing referenced with
  | nil => exact Reads.pure (Value.ok.mpr (by simp))
  | cons i is ih =>
    refine (readPointerHash_reads hs i).bind fun found hfound => ?_
    have hp := pointer_of_readHash (Outcome.of_eq_ok hfound.symm)
    cases found with
    | none =>
      refine (ih referenced).mono fun r hr result heq h => ?_
      simp [hr result heq h, hp]
    | some hash =>
      refine (ih (insert hash referenced)).mono fun r hr result heq h => ?_
      simp only [hr result heq h, Finset.mem_insert, List.mem_cons, exists_eq_or_imp, hp,
        Option.some.injEq, eq_comm (a := h), or_assoc]
      exact or_left_comm

theorem gcSnapshots_reads (ms : List SnapshotManifest) (referenced : Finset Hash) :
    (gcSnapshots ms referenced).Reads env s b (Value fun result =>
      ∀ h, h ∈ result ↔ h ∈ referenced ∨ ∃ m ∈ ms, ∃ refs,
        snapshotRefs b s.family m.id = some refs ∧ ∃ r ∈ refs, r.hash = h) := by
  induction ms generalizing referenced with
  | nil => exact Reads.pure (Value.ok.mpr (by simp))
  | cons m ms ih =>
    refine Reads.bind (R := Value fun r => r.toOption = snapshotRefs b s.family m.id)
      (Reads.attempt ((loadSnapshotRefs_reads m.id).mono fun r hr => ?_)) fun r hr => ?_
    · cases r with
      | ok _ | error _ => exact Value.ok.mpr hr.symm
      | panic | waits => exact nofun
    · have hr := Value.ok.mp hr
      cases r with
      | error e =>
        refine (ih referenced).mono fun r hr' result heq h => ?_
        simp [hr' result heq h, ← hr, Except.toOption]
      | ok refs =>
        refine (ih _).mono fun r hr' result heq h => ?_
        simp only [hr' result heq h, mem_foldl_insert, List.mem_cons, exists_eq_or_imp, ← hr,
          Except.toOption, Option.some.injEq, exists_eq_left', or_assoc]

variable [External]

theorem snapshotGet_reads (id : Str) :
    (snapshotGet id).Reads env s b (Value fun m =>
      ∃ body, b.lookup (snapshotManifestKey s.family id) = some body ∧
        parseManifest body = .ok m) := by
  refine requireCow_reads.bind fun _ hs => Reads.get.bind_returns fun t h => ?_
  subst t
  refine (getBytes_reads _).bind_returns fun found ⟨hfound, _⟩ => ?_
  cases found with
  | none => exact Reads.throw nofun
  | some found =>
    obtain ⟨body, etag⟩ := found
    simp only
    cases hm : parseManifest body with
    | error e => exact Reads.throw nofun
    | ok m => exact Reads.pure (Value.ok.mpr ⟨body, hfound.symm, hm⟩)

theorem readManifests_reads (keys : List Key) :
    (readManifests keys).Reads env s b (Value fun ms =>
      ∀ k ∈ keys, ∀ body m, b.lookup k = some body → parseManifest body = .ok m → m ∈ ms) := by
  induction keys with
  | nil => exact Reads.pure (Value.ok.mpr (by simp))
  | cons key keys ih =>
    refine (getBytes_reads key).bind_returns fun found ⟨hfound, _⟩ => ?_
    cases found with
    | none =>
      refine ih.mono fun r hr ms heq k hk body m hbody hm => ?_
      rcases List.mem_cons.mp hk with rfl | hk
      · simp [hbody] at hfound
      · exact hr ms heq k hk body m hbody hm
    | some found =>
      obtain ⟨read, etag⟩ := found
      simp only
      cases hparse : parseManifest read with
      | error e => exact Reads.throw nofun
      | ok m₀ =>
        refine ih.bind fun ms hms => Reads.pure (Value.ok.mpr fun k hk body m hbody hm => ?_)
        rcases List.mem_cons.mp hk with rfl | hk
        · simp only [hbody, Option.map_some, Option.some.injEq] at hfound
          subst hfound
          rw [hm] at hparse
          simp [Except.ok.inj hparse]
        · exact List.mem_cons_of_mem _ (Value.ok.mp hms k hk body m hbody hm)

theorem snapshotList_reads : snapshotList.Reads env s b (Value fun ms =>
    ∀ id body m, b.lookup (snapshotManifestKey s.family id) = some body →
      parseManifest body = .ok m → m ∈ ms) := by
  refine requireCow_reads.bind fun _ hs => Reads.get.bind_returns fun t h => ?_
  subst t
  refine (listKeys_reads _).bind_returns fun keys hkeys => (readManifests_reads _).bind
    fun ms hms => Reads.pure (Value.ok.mpr fun id body m hbody hm => ?_)
  rw [List.mem_insertionSort]
  refine Value.ok.mp hms _ ?_ body m hbody hm
  have hmem : snapshotManifestKey s.family id ∈ b := by
    rw [← AList.lookup_isSome, hbody]
    rfl
  have hsuffix : "/manifest.json".toList <:+ snapshotManifestKey s.family id :=
    List.suffix_append _ _
  rw [List.mem_filter]
  exact ⟨(hkeys _).mpr ⟨hmem, inArea_manifest _ _⟩, List.isSuffixOf_iff_suffix.mpr hsuffix⟩

theorem gcReads_reads : gcReads.Reads env s b (Value fun result =>
    (∀ i ∈ indices b (areaFront s.family .liveChunks), ∀ h, pointer b s.family i = some h →
      h ∈ result.1) ∧
    (∀ id body m refs, b.lookup (snapshotManifestKey s.family id) = some body →
      parseManifest body = .ok m → snapshotRefs b s.family m.id = some refs →
      ∀ r ∈ refs, r.hash ∈ result.1)) := by
  refine requireCow_reads.bind fun _ hs => presentChunks_reads.bind_returns fun is his => ?_
  have hs := Value.ok.mp hs
  refine (gcPointers_reads hs is ∅).bind fun live hlive => snapshotList_reads.bind fun ms hms => ?_
  refine (gcSnapshots_reads ms live).bind fun referenced href => Reads.get.bind_returns fun t ht =>
    (listKeys_reads _).bind_returns fun keys _ => Reads.pure (Value.ok.mpr ⟨?_, ?_⟩)
  · intro i hi h hp
    refine (Value.ok.mp href h).mpr (.inl ((Value.ok.mp hlive h).mpr (.inr ⟨i, ?_, hp⟩)))
    rw [his, S3ChunkStore.chunksFront, hs]
    exact hi
  · intro id body m refs hbody hm hrefs r hr
    exact (Value.ok.mp href r.hash).mpr
      (.inr ⟨m, Value.ok.mp hms id body m hbody hm, refs, hrefs, r, hr, rfl⟩)

end Calls

end IscsiS3.S3
