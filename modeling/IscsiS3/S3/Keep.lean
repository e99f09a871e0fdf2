import IscsiS3.S3.Sound

/-! Every call on a volume keeps it sound: at each request boundary, whether the puts and deletes
before it had their effect, failed without it, or failed and had it. -/

namespace IscsiS3.S3

open Request External StoreM

/-- A property of the bucket that is not about a family. -/
structure Elsewhere (family : Str) (F : Bucket → Prop) : Prop where
  insert : ∀ {b area k} body, InArea family area k → F b → F (b.insert k body)
  erase : ∀ {b area k}, InArea family area k → F b → F (b.erase k)

variable {body : Bytes} {i : Nat} {x : Hash}

section Opened

variable [External]

/-- Only promised payloads are put into a pool. -/
def Pays (P : Promise) (env : Env Req Reply Bucket) : Prop :=
  ∀ family h body ifMatch b x b', env (.put (objectKey family h) body ifMatch) b x b' →
    body ∈ P.payloads

/-- An opened volume and the bucket fit together, and `F` holds of the rest of the bucket.  A volume
that is locked for its migration can have metadata of both layouts. -/
structure Opened (P : Promise) (v : Shape) (F : Bucket → Prop) (locked : Bool) (s : S3ChunkStore)
    (b : Bucket) : Prop where
  has : s.Has v
  cap : s.capacity < u64Size
  sound : Sound P v s.capacity b
  metered : Metered P v s.capacity b
  unmigrated : P.strict → locked = false → s.storage = .legacy → liveMetaKey v.family ∉ b
  rest : F b

/-- What serde writes of metadata and manifests, it reads back. -/
structure JsonRoundTrips : Prop where
  volume : ∀ m, parseMeta (metaJson m) = .ok m
  manifest : ∀ m, parseManifest (manifestJson m) = .ok m

def Fixed (s : S3ChunkStore) (J : Bucket → Prop) (s' : S3ChunkStore) (b : Bucket) : Prop :=
  s' = s ∧ J b

variable {P : Promise} {v : Shape} {F : Bucket → Prop} {locked : Bool} {s : S3ChunkStore}
variable {b : Bucket}

section

variable {area : Area} {k : Key} (h : Opened P v F locked s b) (elsewhere : Elsewhere v.family F)
variable (hk : InArea v.family area k) (ha : area ∉ [Area.liveMeta, .flatMeta])

include h elsewhere hk ha

theorem Opened.insert (sound : Sound P v s.capacity (b.insert k body)) :
    Opened P v F locked s (b.insert k body) where
  has := h.has
  cap := h.cap
  sound := sound
  metered := h.metered.congr (same_insert hk fun heq => ha (by simp [heq]))
    (same_insert hk fun heq => ha (by simp [heq]))
  unmigrated := fun hs hl hlegacy hmem => h.unmigrated hs hl hlegacy
    (((same_insert hk fun heq => ha (by simp [heq])).mem (inArea_liveMeta _)).mp hmem)
  rest := elsewhere.insert body hk h.rest

theorem Opened.erase (sound : Sound P v s.capacity (b.erase k)) :
    Opened P v F locked s (b.erase k) where
  has := h.has
  cap := h.cap
  sound := sound
  metered := h.metered.congr (same_erase hk fun heq => ha (by simp [heq]))
    (same_erase hk fun heq => ha (by simp [heq]))
  unmigrated := fun hs hl hlegacy hmem => h.unmigrated hs hl hlegacy (mem_of_erase hmem)
  rest := elsewhere.erase hk h.rest

end

theorem Sound.pointer {cap i : Nat} (h : Sound P v cap b) (hi : i < u64Size)
    (hp : pointer b v.family i = some x) :
    objectKey v.family x ∈ b ∧ P.FitsHash v cap i x := by
  obtain ⟨body, hbody, hd⟩ := pointer_eq_some.mp hp
  obtain ⟨j, y, hj, hkey, rfl, hy, hfits⟩ := h.live _ body (inArea_live _ i) hbody
  obtain rfl := liveChunkKey_inj hi hj hkey
  rw [decodePointer_encodePointer] at hd
  cases hd
  exact ⟨hy, hfits⟩

omit [External] in
theorem parseChunkIndex_of_legacy {family : Str} {k : Key} (hi : i < u64Size)
    (hk : k = legacyChunkKey family i ∨ k = legacyFlatChunkKey family i) :
    parseChunkIndexFromKey (areaFront family .legacyChunks) k = some i := by
  rcases hk with rfl | rfl
  · exact parseChunkIndex_legacy family hi
  · exact parseChunkIndex_flat family hi

theorem Sound.legacy_fits {cap i : Nat} {k : Key} (h : Sound P v cap b) (hi : i < u64Size)
    (hk : k = legacyChunkKey v.family i ∨ k = legacyFlatChunkKey v.family i)
    (hbody : b.lookup k = some body) : P.Fits v.chunkSize v.compression cap i body := by
  have harea : InArea v.family .legacyChunks k := by
    rcases hk with rfl | rfl
    · exact inArea_legacy _ _
    · exact inArea_flat _ _
  obtain ⟨j, hj, hkey, hfits⟩ := h.legacy k body harea hbody
  have hij := parseChunkIndex_of_legacy hi hk
  rw [parseChunkIndex_of_legacy hj hkey] at hij
  cases hij
  exact hfits

theorem Opened.stored (h : Opened P v F locked s b) (hi : i < u64Size)
    (hbody : storedBody b s i = .ok (some body)) :
    P.Fits v.chunkSize v.compression s.capacity i body := by
  unfold storedBody at hbody
  rw [h.has.family] at hbody
  cases hs : s.storage with
  | legacy =>
    simp only [hs, Except.ok.injEq, Option.or_eq_some_iff] at hbody
    rcases hbody with hbody | ⟨-, hbody⟩
    · exact h.sound.legacy_fits hi (.inl rfl) hbody
    · exact h.sound.legacy_fits hi (.inr rfl) hbody
  | cow =>
    simp only [hs] at hbody
    cases hread : readHash b v.family i with
    | error e => simp [hread] at hbody
    | ok found =>
      cases found with
      | none => simp [hread] at hbody
      | some x =>
        simp only [hread] at hbody
        cases hobject : b.lookup (objectKey v.family x) with
        | none => simp [hobject] at hbody
        | some object =>
          simp only [hobject, Except.ok.injEq, Option.some.injEq] at hbody
          subst hbody
          obtain ⟨hhash, hpaid⟩ := h.sound.pool x object hobject
          exact (h.sound.pointer hi (pointer_of_readHash hread)).2 object hpaid hhash

theorem Opened.plain (h : Opened P v F locked s b) {plain : Bytes} (hi : i < u64Size)
    (hplain : plainChunk b s i = .ok plain) :
    plain = zeros v.chunkSize ∨ ∃ old, P.Fits v.chunkSize v.compression s.capacity i old ∧
      decodeChunk codecs v.compression old v.chunkSize = .ok plain := by
  unfold plainChunk at hplain
  rw [h.has.chunkSize, h.has.compression] at hplain
  cases hbody : storedBody b s i with
  | error e =>
    rw [hbody] at hplain
    cases hplain
  | ok found =>
    rw [hbody] at hplain
    cases found with
    | none =>
      cases hplain
      exact .inl rfl
    | some body => exact .inr ⟨body, h.stored hi hbody, hplain⟩

end Opened

section Keep

variable [External] {P : Promise} {v : Shape} {F : Bucket → Prop} {locked : Bool}
variable {env : Env Req Reply Bucket} [Honest env] {s : S3ChunkStore} {b : Bucket}
variable {ifMatch : Option Str} {J : Bucket → Prop} {key : Key} {p : Piece}

omit [External] in
theorem putBytes_fixed (hJ : J b)
    (hJ' : ∀ x, env (.put key body ifMatch) b x (b.insert key body) → J (b.insert key body)) :
    (putBytes key body ifMatch).Keeps env (Fixed s J) s b fun _ s' b' =>
      s' = s ∧ b' = b.insert key body ∧ ∃ x, env (.put key body ifMatch) b x b' :=
  putBytes_keeps ⟨rfl, hJ⟩ (fun x step => ⟨rfl, hJ' x step⟩) fun x step => ⟨rfl, rfl, x, step⟩

omit [External] in
theorem deleteObjectKey_fixed (hJ : J b) (hJ' : J (b.erase key)) :
    (deleteObjectKey key).Keeps env (Fixed s J) s b fun _ s' b' => s' = s ∧ b' = b.erase key :=
  deleteObjectKey_keeps ⟨rfl, hJ⟩ ⟨rfl, hJ'⟩ ⟨rfl, rfl⟩

theorem putPointer_fixed (elsewhere : Elsewhere v.family F) (h : Opened P v F locked s b)
    (hi : i < u64Size) (hx : objectKey v.family x ∈ b) (fits : P.FitsHash v s.capacity i x) :
    (putBytes (liveChunkKey v.family i) (encodePointer x) ifMatch).Keeps env
      (Fixed s (Opened P v F locked s)) s b fun _ s' b' =>
        s' = s ∧ b' = b.insert (liveChunkKey v.family i) (encodePointer x) := by
  refine (putBytes_fixed h fun _ _ => ?_).mono fun _ s' b' _ hr => ⟨hr.1, hr.2.1⟩
  exact h.insert elsewhere (inArea_live _ _) (by decide)
    (h.sound.insert_pointer h.metered hi hx fits)

section

variable (pays : Pays P env) (elsewhere : Elsewhere v.family F) (h : Opened P v F locked s b)

include pays elsewhere h

theorem putObject_fixed (fits : P.Fits v.chunkSize v.compression s.capacity i body) :
    (putBytes (objectKey v.family (blake3 body)) body ifMatch).Keeps env
      (Fixed s (Opened P v F locked s)) s b fun _ s' b' =>
        s' = s ∧ objectKey v.family (blake3 body) ∈ b' ∧
          P.FitsHash v s.capacity i (blake3 body) := by
  refine (putBytes_fixed h fun x step => ?_).mono ?_
  · exact h.insert elsewhere (inArea_object _ _) (by decide)
      (h.sound.insert_object (pays _ _ _ _ _ _ _ step))
  · rintro - _ _ - ⟨rfl, rfl, x, step⟩
    exact ⟨rfl, (AList.mem_insert b).mpr (.inl rfl), fun other hother heq =>
      P.named fits (pays _ _ _ _ _ _ _ step) hother heq⟩

theorem putChunk_keeps {data : Bytes} (hi : i < u64Size)
    (fits : ∀ body, encodeChunk codecs v.compression data = .ok body →
      P.Fits v.chunkSize v.compression s.capacity i body) :
    (putChunk i data ifMatch).Keeps env (Fixed s (Opened P v F locked s)) s b
      fun _ s' _ => s' = s := by
  refine Reads.get.then ⟨rfl, h⟩ fun t ht => ?_
  obtain rfl := Returns.ok.mp ht
  split
  · exact Keeps.throw ⟨rfl, h⟩
  cases hs : t.storage with
  | legacy =>
    refine Keeps.bind (Keeps.lift ⟨rfl, h⟩ fun body hbody => ?_)
    rw [h.has.compression] at hbody
    rw [h.has.family]
    refine Keeps.bind ((putBytes_fixed h fun x _ => ?_).mono ?_)
    · exact h.insert elsewhere (inArea_legacy _ _) (by decide)
        (h.sound.insert_legacy h.metered hi (fits body hbody))
    · rintro - _ _ ⟨-, h'⟩ ⟨rfl, rfl, -⟩
      refine Keeps.bind (Keeps.attempt ((deleteObjectKey_fixed h' ?_).mono fun _ _ _ hK hr => ?_)
        fun _ _ _ hK => Keeps.pure hK hK.1)
      · exact h'.erase elsewhere (inArea_flat _ _) (by decide)
          (h'.sound.erase_chunk (.inr (inArea_flat _ _)))
      · exact Keeps.pure hK hr.1
  | cow =>
    refine Keeps.bind (Keeps.lift ⟨rfl, h⟩ fun body hbody => ?_)
    rw [h.has.compression] at hbody
    have hkey : t.chunkKey i = liveChunkKey v.family i := by
      simp [S3ChunkStore.chunkKey, hs, h.has.family]
    rw [hkey, h.has.family]
    refine Keeps.bind ((putObject_fixed pays elsewhere h (fits body hbody)).mono ?_)
    rintro - _ _ ⟨-, h'⟩ ⟨rfl, hx, hfits⟩
    exact (putPointer_fixed elsewhere h' hi hx hfits).mono fun _ _ _ _ hr => hr.1

end

theorem baseChunk_reads (h : Opened P v F locked s b) (hidx : p.idx < u64Size) :
    (baseChunk p).Reads env s b (Value fun found =>
      found.1 = zeros v.chunkSize ∨ ∃ old, P.Fits v.chunkSize v.compression s.capacity p.idx old ∧
        decodeChunk codecs v.compression old v.chunkSize = .ok found.1) := by
  refine Reads.get.bind_returns fun t ht => ?_
  subst t
  split
  · exact Reads.pure (Value.ok.mpr (.inl (by rw [h.has.chunkSize])))
  · refine (getChunk_reads p.idx).mono fun r hr found hfound => h.plain hidx ?_
    subst hfound
    exact Outcome.of_eq_ok hr.1.symm

section

variable (pays : Pays P env) (elsewhere : Elsewhere v.family F) (h : Opened P v F locked s b)

include pays elsewhere h

theorem writePieceLoop_keeps {bytes : Bytes} (hwithin : p.within + p.take ≤ v.chunkSize)
    (hcap : p.idx * v.chunkSize + p.within + p.take ≤ s.capacity) (hlen : bytes.length = p.take)
    (hidx : p.idx < u64Size) (retries : Nat) :
    (writePieceLoop p bytes retries).Keeps env (Fixed s (Opened P v F locked s)) s b
      fun _ s' _ => s' = s := by
  have put : ∀ {b : Bucket} (_ : Opened P v F locked s b) {found : Bytes × Option Str},
      (found.1 = zeros v.chunkSize ∨ ∃ old, P.Fits v.chunkSize v.compression s.capacity p.idx old ∧
        decodeChunk codecs v.compression old v.chunkSize = .ok found.1) →
      (putChunk p.idx (Splice.splice found.1 p.within bytes) found.2).Keeps env
        (Fixed s (Opened P v F locked s)) s b fun _ s' _ => s' = s := fun h _ hfound =>
    putChunk_keeps pays elsewhere h hidx fun body => P.patched hfound hwithin hcap hlen
  induction retries generalizing b with
  | zero =>
    exact (baseChunk_reads h hidx).then ⟨rfl, h⟩ fun found hfound => put h (hfound found rfl)
  | succ retries ih =>
    refine (baseChunk_reads h hidx).then ⟨rfl, h⟩ fun found hfound =>
      Keeps.bind (Keeps.attempt ?_ fun e s' b' hK => ?_)
    · exact (put h (hfound found rfl)).mono fun _ _ _ hK hs => Keeps.pure hK hs
    · obtain ⟨rfl, h'⟩ := hK
      simp only
      split
      · exact ih h'
      · exact Keeps.throw ⟨rfl, h'⟩

theorem writeAt_keeps (offset : Nat) (data : Bytes) :
    (writeAt offset data).Keeps env (Fixed s (Opened P v F locked s)) s b
      fun _ _ _ => True := by
  refine Reads.get.then ⟨rfl, h⟩ fun t ht => ?_
  obtain rfl := Returns.ok.mp ht
  refine Keeps.bind (Keeps.lift ⟨rfl, h⟩ fun _ hrange => ?_)
  have hin := (checkRange_ok h.cap).mp hrange
  have hpos : 0 < t.chunkSize := by
    rw [h.has.chunkSize]
    exact v.chunkSize_pos
  refine (Keeps.each (fun ps _ _ => ∀ p ∈ ps, p ∈ pieces t.chunkSize offset data.length) _
    ⟨rfl, h⟩ (fun _ hp => hp) ?_).mono fun _ _ _ _ _ => trivial
  rintro p ps s' b' ⟨rfl, h'⟩ hmem
  obtain ⟨-, hwithin, hstart, hend⟩ := mem_pieces hpos (hmem p (by simp))
  refine Reads.get.then ⟨rfl, h'⟩ fun t ht => ?_
  obtain rfl := Returns.ok.mp ht
  have hidx : p.idx ≤ p.idx * t.chunkSize := Nat.le_mul_of_pos_right _ hpos
  have hcap := h.cap
  refine (writePieceLoop_keeps pays elsewhere h' ?_ ?_ ?_ ?_ _).mono
    fun _ _ _ _ _ q hq => hmem q (List.mem_cons_of_mem _ hq)
  · rwa [← h.has.chunkSize]
  · rw [← h.has.chunkSize]
    omega
  · rw [Splice.length_slice]
    omega
  · omega

end

theorem deleteChunk_keeps (elsewhere : Elsewhere v.family F) (h : Opened P v F locked s b)
    (i : Nat) :
    (deleteChunkObject i).Keeps env (Fixed s (Opened P v F locked s)) s b fun _ s' _ => s' = s := by
  refine Reads.get.then ⟨rfl, h⟩ fun t ht => ?_
  obtain rfl := Returns.ok.mp ht
  have hfamily := h.has.family
  cases hs : t.storage with
  | legacy =>
    simp only [hfamily]
    refine Keeps.bind ((deleteObjectKey_fixed h ?_).mono ?_)
    · exact h.erase elsewhere (inArea_legacy _ _) (by decide)
        (h.sound.erase_chunk (.inr (inArea_legacy _ _)))
    · rintro - _ _ ⟨-, h'⟩ ⟨rfl, rfl⟩
      refine (deleteObjectKey_fixed h' ?_).mono fun _ _ _ _ hr => hr.1
      exact h'.erase elsewhere (inArea_flat _ _) (by decide)
        (h'.sound.erase_chunk (.inr (inArea_flat _ _)))
  | cow =>
    have hkey : t.chunkKey i = liveChunkKey v.family i := by
      simp [S3ChunkStore.chunkKey, hs, hfamily]
    simp only [hkey]
    refine (deleteObjectKey_fixed h ?_).mono fun _ _ _ _ hr => hr.1
    exact h.erase elsewhere (inArea_live _ _) (by decide)
      (h.sound.erase_chunk (.inl (inArea_live _ _)))

omit [External] in
theorem S3ChunkStore.Has.metaKey_eq (h : s.Has v) :
    (s.storage = .legacy ∧ s.metaKey = flatMetaKey v.family) ∨
      (s.storage = .cow ∧ s.metaKey = liveMetaKey v.family) := by
  cases hs : s.storage with
  | legacy => exact .inl ⟨rfl, by simp [S3ChunkStore.metaKey, hs, h.family]⟩
  | cow => exact .inr ⟨rfl, by simp [S3ChunkStore.metaKey, hs, h.family]⟩

omit [External] in
theorem S3ChunkStore.Has.same_metaKey (h : s.Has v) (body : Bytes) (area : Area)
    (ha : area ∉ [Area.liveMeta, .flatMeta, .migrating]) :
    Same v.family area b (b.insert s.metaKey body) := by
  rcases h.metaKey_eq with ⟨-, hkey⟩ | ⟨-, hkey⟩ <;> rw [hkey]
  · exact same_insert (inArea_flatMeta _) fun heq => ha (by simp [← heq])
  · exact same_insert (inArea_liveMeta _) fun heq => ha (by simp [← heq])

omit [External] in
theorem Elsewhere.insert_metaKey (elsewhere : Elsewhere v.family F) (h : s.Has v) (body : Bytes)
    (rest : F b) : F (b.insert s.metaKey body) := by
  rcases h.metaKey_eq with ⟨-, hkey⟩ | ⟨-, hkey⟩ <;> rw [hkey]
  · exact elsewhere.insert body (inArea_flatMeta _) rest
  · exact elsewhere.insert body (inArea_liveMeta _) rest

omit [External] in
theorem S3ChunkStore.Has.unmigrated_insert (h : s.Has v) (body : Bytes) (hs : s.storage = .legacy)
    (hnone : liveMetaKey v.family ∉ b) : liveMetaKey v.family ∉ b.insert s.metaKey body := by
  rcases h.metaKey_eq with ⟨-, hkey⟩ | ⟨hcow, -⟩
  · rw [hkey]
    exact fun hmem => hnone
      (((same_insert (inArea_flatMeta _) (by decide)).mem (inArea_liveMeta _)).mp hmem)
  · rw [hcow] at hs
    cases hs

theorem S3ChunkStore.Has.effective (json : JsonRoundTrips) (h : s.Has v)
    (unmigrated : s.storage = .legacy → liveMetaKey v.family ∉ b) (m : VolumeMeta) :
    Effective v (b.insert s.metaKey (metaJson m)) m := by
  refine ⟨_, json.volume m, ?_⟩
  rcases h.metaKey_eq with ⟨hs, hkey⟩ | ⟨-, hkey⟩
  · refine .inr ⟨h.unmigrated_insert _ hs (unmigrated hs), ?_⟩
    rw [hkey]
    exact AList.lookup_insert _
  · rw [hkey]
    exact .inl (AList.lookup_insert _)

theorem Opened.insert_meta (json : JsonRoundTrips) (elsewhere : Elsewhere v.family F)
    (h : Opened P v F locked s b)
    (unmigrated : P.strict → s.storage = .legacy → liveMetaKey v.family ∉ b) {m : VolumeMeta}
    (hm : s.capacity ≤ m.capacityBytes) :
    Opened P v F locked s (b.insert s.metaKey (metaJson m)) ∧
      Metered P v m.capacityBytes (b.insert s.metaKey (metaJson m)) := by
  have found : P.strict → Effective v (b.insert s.metaKey (metaJson m)) m := fun hstrict =>
    h.has.effective json (unmigrated hstrict) m
  have metered : Metered P v s.capacity (b.insert s.metaKey (metaJson m)) := fun hstrict =>
    ⟨m, found hstrict, hm⟩
  refine ⟨⟨h.has, h.cap, h.sound.of_books (h.has.same_metaKey _) metered.books, metered, ?_,
    elsewhere.insert_metaKey h.has _ h.rest⟩, fun hstrict => ⟨m, found hstrict, Nat.le_refl _⟩⟩
  exact fun hstrict hl hs => h.has.unmigrated_insert _ hs (h.unmigrated hstrict hl hs)

theorem Opened.withCapacity (h : Opened P v F locked s b) {cap : Nat} (hle : s.capacity ≤ cap)
    (hcap : cap < u64Size) (metered : Metered P v cap b) :
    Opened P v F locked { s with capacity := cap } b where
  has := ⟨h.has.family, h.has.chunkSize, h.has.blockSize, h.has.compression⟩
  cap := hcap
  sound := h.sound.grow hle metered.books
  metered := metered
  unmigrated := h.unmigrated
  rest := h.rest

theorem setCapacity_keeps (json : JsonRoundTrips) (elsewhere : Elsewhere v.family F)
    (h : Opened P v F locked s b)
    (unmigrated : P.strict → s.storage = .legacy → liveMetaKey v.family ∉ b) {newCapacity : Nat}
    (hnew : newCapacity < u64Size) :
    (setCapacity newCapacity).Keeps env (Opened P v F locked) s b fun _ s' b' =>
      s' = { s with capacity := newCapacity } ∧
        (b' = b ∨ ∃ body, b' = b.insert s.metaKey body) := by
  refine Reads.get.then h fun t ht => ?_
  obtain rfl := Returns.ok.mp ht
  split
  · exact Keeps.throw h
  split
  · exact Keeps.throw h
  split
  · rename_i heq
    exact Keeps.pure h ⟨by rw [heq], .inl rfl⟩
  · have hle : t.capacity ≤ newCapacity := by omega
    refine Keeps.bind (Reads.get.then h fun u hu => ?_)
    obtain rfl := Returns.ok.mp hu
    obtain ⟨h', metered⟩ := h.insert_meta json elsewhere unmigrated
      (m := ⟨metaVersion, newCapacity, u.chunkSize, u.blockSize, u.compression, u.storage⟩) hle
    refine putBytes_keeps h (fun _ _ => h') fun _ _ => ?_
    have h'' := h'.withCapacity hle hnew metered
    exact Keeps.modify h' h'' ⟨rfl, .inr ⟨_, rfl⟩⟩

end Keep

end IscsiS3.S3
