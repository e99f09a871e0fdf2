import IscsiS3.S3.Content

/-! The calls of a volume in S3 act on the array that it holds. -/

namespace IscsiS3.S3

open Request External StoreM Splice

variable {tag : Option Str}

section Listed

variable {b : Bucket} {front : Key} {k : Key} {body : Bytes} {i j : Nat} {family : Str}

theorem mem_insert_iff {l : Key} : l ∈ b.insert k body ↔ l = k ∨ l ∈ b := AList.mem_insert b

theorem parseChunkIndex_other {area other : Area} (hk : InArea family other k)
    (hne : area ≠ other) : parseChunkIndexFromKey (areaFront family area) k = none := by
  have hnot : ¬areaFront family area <+: k := fun h => InArea.ne (a := area) h hk hne rfl
  unfold parseChunkIndexFromKey stripFront
  rw [if_neg (by simpa [List.isPrefixOf_iff_prefix] using hnot)]
  rfl

theorem mem_indices_insert (hk : parseChunkIndexFromKey front k = some i) :
    j ∈ indices (b.insert k body) front ↔ j ∈ indices b front ∨ j = i := by
  simp only [mem_indices, mem_insert_iff]
  constructor
  · rintro ⟨l, rfl | hl, hj⟩
    · rw [hk] at hj
      exact .inr (Option.some.inj hj).symm
    · exact .inl ⟨l, hl, hj⟩
  · rintro (⟨l, hl, hj⟩ | rfl)
    · exact ⟨l, .inr hl, hj⟩
    · exact ⟨k, .inl rfl, hk⟩

theorem mem_indices_insert_other (hk : parseChunkIndexFromKey front k = none) :
    j ∈ indices (b.insert k body) front ↔ j ∈ indices b front := by
  simp only [mem_indices, mem_insert_iff]
  constructor
  · rintro ⟨l, rfl | hl, hj⟩
    · rw [hk] at hj
      cases hj
    · exact ⟨l, hl, hj⟩
  · rintro ⟨l, hl, hj⟩
    exact ⟨l, .inr hl, hj⟩

theorem mem_indices_erase (hk : parseChunkIndexFromKey front k = some i) :
    j ∈ indices (b.erase k) front ↔ j ∈ indices b front ∧
      (j = i → ∃ l ∈ b, l ≠ k ∧ parseChunkIndexFromKey front l = some i) := by
  simp only [mem_indices, AList.mem_erase]
  constructor
  · rintro ⟨l, ⟨hne, hl⟩, hj⟩
    exact ⟨⟨l, hl, hj⟩, fun heq => ⟨l, hl, hne, heq ▸ hj⟩⟩
  · rintro ⟨⟨l, hl, hj⟩, hi⟩
    by_cases heq : l = k
    · subst heq
      rw [hk] at hj
      obtain rfl := Option.some.inj hj
      obtain ⟨l', hl', hne, hj'⟩ := hi rfl
      exact ⟨l', ⟨hne, hl'⟩, hj'⟩
    · exact ⟨l, ⟨heq, hl⟩, hj⟩

theorem legacyChunkKey_inj (hi : i < u64Size) (hj : j < u64Size)
    (h : legacyChunkKey family i = legacyChunkKey family j) : i = j := by
  have := parseChunkIndex_legacy family hi
  rw [h, parseChunkIndex_legacy family hj] at this
  exact (Option.some.inj this).symm

theorem legacyFlatChunkKey_inj (hi : i < u64Size) (hj : j < u64Size)
    (h : legacyFlatChunkKey family i = legacyFlatChunkKey family j) : i = j := by
  have := parseChunkIndex_flat family hi
  rw [h, parseChunkIndex_flat family hj] at this
  exact (Option.some.inj this).symm

end Listed

section Acts

variable [External] {s : S3ChunkStore} {b b' : Bucket} {f g : Flat} {i j : Nat}

theorem plainChunk_congr_legacy (hs : s.storage = .legacy)
    (shard : b'.lookup (legacyChunkKey s.family i) = b.lookup (legacyChunkKey s.family i))
    (flat : b'.lookup (legacyFlatChunkKey s.family i) = b.lookup (legacyFlatChunkKey s.family i)) :
    plainChunk b' s i = plainChunk b s i := by
  simp only [plainChunk, storedBody, hs, shard, flat]

theorem plainChunk_congr_cow (hs : s.storage = .cow)
    (live : b'.lookup (liveChunkKey s.family i) = b.lookup (liveChunkKey s.family i))
    (object : ∀ h, pointer b s.family i = some h →
      b'.lookup (objectKey s.family h) = b.lookup (objectKey s.family h)) :
    plainChunk b' s i = plainChunk b s i := by
  have hread : readHash b' s.family i = readHash b s.family i := by simp only [readHash, live]
  have hstored : storedBody b' s i = storedBody b s i := by
    simp only [storedBody, hs, hread]
    cases hfound : readHash b s.family i with
    | error e => rfl
    | ok found =>
      cases found with
      | none => rfl
      | some h => simp only [object h (pointer_of_readHash hfound)]
  simp only [plainChunk, hstored]

/-- What is left to show when one chunk has been put. -/
theorem Stores.put (h : Stores s b f) (hputs : Flat.Puts f g i)
    (chunk : plainChunk b' s i = .ok (g.chunk i))
    (other : ∀ j < u64Size, j ≠ i → plainChunk b' s j = plainChunk b s j)
    (listed : ∀ j, j ∈ indices b' s.chunksFront ↔ j ∈ indices b s.chunksFront ∨ j = i) :
    Stores s b' g := by
  refine ⟨hputs.proper, h.capacity.trans hputs.capacity.symm,
    h.chunkSize.trans hputs.chunkSize.symm,
    h.blockSize.trans hputs.blockSize.symm, fun j hj => ?_, fun j => ?_⟩
  · by_cases hji : j = i
    · rw [hji, chunk]
    · rw [other j hj hji, h.chunk j hj, hputs.other j hji]
  · rw [hputs.present, listed, h.present]

theorem Stores.delete (h : Stores s b f)
    (chunk : plainChunk b' s i = .ok (zeros s.chunkSize))
    (other : ∀ j < u64Size, j ≠ i → plainChunk b' s j = plainChunk b s j)
    (listed : ∀ j, j ∈ indices b' s.chunksFront ↔ j ∈ indices b s.chunksFront ∧ j ≠ i) :
    Stores s b' (f.delete i) := by
  refine ⟨h.proper.delete i, h.capacity, h.chunkSize, h.blockSize, fun j hj => ?_, fun j => ?_⟩
  · rw [Flat.chunk_delete h.proper.chunkSize_pos]
    by_cases hji : j = i
    · rw [hji, chunk, if_pos rfl, h.chunkSize]
    · rw [other j hj hji, h.chunk j hj, if_neg hji]
  · rw [listed]
    exact and_congr_left' (h.present j)

theorem Stores.congr (h : Stores s b f)
    (same : ∀ area, area ∈ [Area.liveChunks, .legacyChunks, .objects] → Same s.family area b b') :
    Stores s b' f := by
  refine ⟨h.proper, h.capacity, h.chunkSize, h.blockSize, fun j hj => ?_, fun j => ?_⟩
  · rw [← h.chunk j hj]
    cases hs : s.storage with
    | legacy =>
      exact plainChunk_congr_legacy hs (same .legacyChunks (by decide) _ (inArea_legacy _ _))
        (same .legacyChunks (by decide) _ (inArea_flat _ _))
    | cow =>
      exact plainChunk_congr_cow hs (same .liveChunks (by decide) _ (inArea_live _ _)) fun x _ =>
        same .objects (by decide) _ (inArea_object _ x)
  · rw [h.present]
    have listed : ∀ {k}, parseChunkIndexFromKey s.chunksFront k = some j → (k ∈ b ↔ k ∈ b') := by
      intro k hk
      have hfront : s.chunksFront <+: k := by
        obtain ⟨rel, hrel, -⟩ := Option.bind_eq_some_iff.mp hk
        rw [stripFront_eq_some hrel]
        exact List.prefix_append _ _
      cases hs : s.storage with
      | legacy =>
        rw [S3ChunkStore.chunksFront, hs] at hfront
        exact ((same .legacyChunks (by decide)).mem hfront).symm
      | cow =>
        rw [S3ChunkStore.chunksFront, hs] at hfront
        exact ((same .liveChunks (by decide)).mem hfront).symm
    simp only [mem_indices]
    exact exists_congr fun k => and_congr_left fun hk => listed hk

end Acts

section Requests

variable {B : Set Bytes} {etag : Bytes → Str} {s : S3ChunkStore} {b : Bucket} {key : Key}
variable {body : Bytes}

theorem putBytes_paid {ifMatch : Option Str} (hmatch : b.matches etag key ifMatch = true) :
    (putBytes key body ifMatch).Succeeds (Paid etag B) s b fun _ s' b' =>
      s' = s ∧ b' = b.insert key body ∧ ∀ family h, key = objectKey family h → body ∈ B := by
  refine Succeeds.bind ⟨trivial, fun x b' step => ⟨trivial, x, rfl, ?_⟩⟩
  obtain ⟨hanswer, hpaid⟩ := step
  simp only [Reliable, answer, hmatch, if_true, Prod.mk.injEq] at hanswer
  obtain ⟨rfl, rfl⟩ := hanswer
  exact Succeeds.pure ⟨rfl, rfl, fun family h hkey => hpaid family h body ifMatch (by rw [hkey])⟩

theorem deleteObjectKey_paid :
    (deleteObjectKey key).Succeeds (Paid etag B) s b fun _ s' b' => s' = s ∧ b' = b.erase key := by
  refine Succeeds.bind ⟨trivial, fun x b' step => ⟨trivial, x, rfl, ?_⟩⟩
  obtain ⟨rfl, rfl⟩ := Prod.mk.inj step.1
  exact Succeeds.pure ⟨rfl, rfl⟩

theorem Tagged.matches (h : Tagged (Paid etag B) b key tag) :
    b.matches etag key tag = true := by
  rcases h with rfl | ⟨body, hbody⟩
  · rfl
  · have hanswer := hbody.1
    simp only [Reliable, answer] at hanswer
    cases hl : b.lookup key with
    | none => simp [hl] at hanswer
    | some old =>
      simp only [hl, Prod.mk.injEq, Except.ok.injEq, and_true] at hanswer
      simp [hanswer.2, Bucket.matches, hl]

theorem matches_insert {key l : Key} (hne : key ≠ l) :
    Bucket.matches etag (b.insert l body) key tag = b.matches etag key tag := by
  cases tag with
  | none => rfl
  | some e => simp only [Bucket.matches, AList.lookup_insert_ne hne]

end Requests

section Calls

variable [External] {B : Set Bytes} {inj : Set.InjOn blake3 B} {roundTrip : codecs.RoundTrip}
variable {v : Shape} {F : Bucket → Prop} {locked : Bool} {etag : Bytes → Str}
variable {s : S3ChunkStore} {b : Bucket} {f g : Flat} {i : Nat} {offset : Nat} {data : Bytes}
variable {p : Piece}

section

variable (h : Opened (exactPayload B inj roundTrip) v F locked s b)

include h

theorem Opened.lookup_object {body : Bytes} (hbody : body ∈ B) {x : Hash}
    (hx : objectKey v.family x ∈ b) :
    (b.insert (objectKey v.family (blake3 body)) body).lookup (objectKey v.family x) =
      b.lookup (objectKey v.family x) := by
  by_cases heq : x = blake3 body
  · subst heq
    obtain ⟨old, hold⟩ := mem_iff_lookup.mp hx
    obtain ⟨hhash, hpaid⟩ := h.sound.pool _ old hold
    obtain rfl := inj hpaid hbody hhash
    rw [AList.lookup_insert, hold]
  · exact AList.lookup_insert_ne fun hkey => heq (objectKey_inj hkey)

theorem putChunk_succeeds (headed : Headed v.chunkSize v.compression) (hst : Stores s b f)
    (hputs : Flat.Puts f g i) (hi : i < u64Size)
    (hmatch : b.matches etag (s.chunkKey i) tag = true) :
    (putChunk i (g.chunk i) tag).Succeeds (Paid etag B) s b fun _ s' b' => s' = s ∧
      Stores s b' g := by
  have hlen : (g.chunk i).length = s.chunkSize := by
    rw [Flat.length_chunk, hputs.chunkSize, hst.chunkSize]
  have hheaded : s.compression ≠ .none → (g.chunk i).length < 2 ^ 32 := by
    rw [hlen, h.has.compression, h.has.chunkSize]
    exact headed
  obtain ⟨body, hencode, hdecode⟩ := decodeChunk_encodeChunk roundTrip hheaded
  rw [hlen] at hdecode
  refine Reads.get.andThen fun t ht => ?_
  subst t
  rw [if_neg (by simpa using hlen)]
  cases hs : s.storage with
  | legacy =>
    have hfront : s.chunksFront = areaFront s.family .legacyChunks := by
      simp [S3ChunkStore.chunksFront, hs]
    have hkey : s.chunkKey i = legacyChunkKey s.family i := by simp [S3ChunkStore.chunkKey, hs]
    rw [hkey] at hmatch
    refine Succeeds.bind (Succeeds.lift hencode ?_)
    refine Succeeds.bind ((putBytes_paid hmatch).mono ?_)
    rintro - t _ ⟨ht, rfl, -⟩
    subst t
    refine Succeeds.bind (Succeeds.attempt (deleteObjectKey_paid.mono ?_))
    rintro - t _ ⟨ht, rfl⟩
    subst t
    refine Succeeds.pure ⟨rfl, hst.put hputs ?_ (fun j hj hji => ?_) fun j => ?_⟩
    · refine (plainChunk_legacy hs ?_).trans hdecode
      rw [AList.lookup_erase_ne (shard_ne_flat _ _ _), AList.lookup_insert]
    · refine plainChunk_congr_legacy hs ?_ ?_
      · rw [AList.lookup_erase_ne (shard_ne_flat _ _ _),
          AList.lookup_insert_ne fun heq => hji (legacyChunkKey_inj hj hi heq)]
      · rw [AList.lookup_erase_ne fun heq => hji (legacyFlatChunkKey_inj hj hi heq),
          AList.lookup_insert_ne (shard_ne_flat _ _ _).symm]
    · rw [hfront, mem_indices_erase (parseChunkIndex_flat _ hi),
        mem_indices_insert (parseChunkIndex_legacy _ hi)]
      refine and_iff_left fun _ => ⟨legacyChunkKey s.family i, mem_insert_iff.mpr (.inl rfl),
        shard_ne_flat _ _ _, parseChunkIndex_legacy _ hi⟩
  | cow =>
    have hfront : s.chunksFront = areaFront s.family .liveChunks := by
      simp [S3ChunkStore.chunksFront, hs]
    have hkey : s.chunkKey i = liveChunkKey s.family i := by simp [S3ChunkStore.chunkKey, hs]
    have hapart : ∀ j x, liveChunkKey s.family j ≠ objectKey s.family x := fun j x =>
      (inArea_live _ _).ne (inArea_object _ _) (by decide)
    rw [hkey] at hmatch
    refine Succeeds.bind (Succeeds.lift hencode ?_)
    refine Succeeds.bind ((putBytes_paid rfl).mono ?_)
    rintro - t b₁ ⟨ht, hb₁, hbody⟩
    subst t
    replace hbody := hbody _ _ rfl
    rw [hkey]
    refine (putBytes_paid (by rw [hb₁, matches_insert (hapart _ _)]; exact hmatch)).mono ?_
    rintro - t _ ⟨ht, rfl, -⟩
    subst t
    have object : ∀ x, objectKey s.family x ∈ b →
        (b₁.insert (liveChunkKey s.family i) (encodePointer (blake3 body))).lookup
          (objectKey s.family x) = b.lookup (objectKey s.family x) := fun x hx => by
      rw [AList.lookup_insert_ne (hapart _ _).symm, hb₁]
      rw [h.has.family] at hx ⊢
      exact h.lookup_object hbody hx
    refine ⟨rfl, hst.put hputs ?_ (fun j hj hji => ?_) fun j => ?_⟩
    · refine (plainChunk_pointer hs (AList.lookup_insert _) ?_).trans hdecode
      rw [AList.lookup_insert_ne (hapart _ _).symm, hb₁, AList.lookup_insert]
    · refine plainChunk_congr_cow hs ?_ fun x hx => object x ?_
      · rw [AList.lookup_insert_ne fun heq => hji (liveChunkKey_inj hj hi heq), hb₁,
          AList.lookup_insert_ne (hapart _ _)]
      · rw [h.has.family] at hx ⊢
        exact (h.sound.pointer hj hx).1
    · rw [hfront, mem_indices_insert (parseChunkIndex_live _ hi), hb₁,
        mem_indices_insert_other (parseChunkIndex_other (inArea_object _ _) (by decide))]

end

/-- The chunk that a piece is written over, with the etag of the object that the put will
replace. -/
theorem baseChunk_spliced {env : Env Req Reply Bucket} [Honest env] {bytes chunk : Bytes}
    (hchunk : plainChunk b s p.idx = .ok chunk) (hlen : bytes.length = p.take) :
    (baseChunk p).Reads env s b (Returns fun found =>
      splice found.1 p.within bytes = splice chunk p.within bytes ∧
        Tagged env b (s.chunkKey p.idx) found.2) := by
  refine Reads.get.bind_returns fun t ht => ?_
  subst t
  split
  · rename_i hwhole
    refine Reads.pure (Returns.ok.mpr ⟨?_, .inl rfl⟩)
    have hall : ∀ {xs : Bytes}, xs.length = s.chunkSize → splice xs p.within bytes = bytes := by
      intro xs hxs
      rw [hwhole.1, splice, List.take_zero, List.nil_append, Nat.zero_add,
        List.drop_of_length_le (by omega), List.append_nil]
    exact (hall List.length_replicate).trans (hall (length_plainChunk hchunk)).symm
  · refine (getChunk_reads p.idx).mono fun r hr => ?_
    rw [hchunk] at hr
    cases r with
    | ok found =>
      refine Returns.ok.mpr ⟨?_, hr.2 found rfl⟩
      rw [Outcome.ok.inj hr.1]
    | error _ | panic | waits => cases hr.1

theorem writePieceLoop_succeeds (h : Opened (exactPayload B inj roundTrip) v F locked s b)
    (headed : Headed v.chunkSize v.compression) (hst : Stores s b f) {bytes : Bytes}
    (hpos : 0 < p.take) (hfit : p.within + p.take ≤ f.chunkSize)
    (hcap : p.idx * f.chunkSize + p.within + p.take ≤ f.capacity) (hlen : bytes.length = p.take)
    (retries : Nat) :
    (writePieceLoop p bytes retries).Succeeds (Paid etag B) s b fun _ s' b' =>
      s' = s ∧ Stores s b' (f.write (p.idx * f.chunkSize + p.within) bytes) := by
  have hi : p.idx < u64Size := by
    have := Nat.le_mul_of_pos_right p.idx hst.proper.chunkSize_pos
    have := hst.proper.capacity_lt
    omega
  have hputs : Flat.Puts f (f.write (p.idx * f.chunkSize + p.within) bytes) p.idx :=
    hst.proper.puts_write (by omega) (by omega) (by omega)
  have put : ∀ {found : Bytes × Option Str}, splice found.1 p.within bytes =
      splice (f.chunk p.idx) p.within bytes → b.matches etag (s.chunkKey p.idx) found.2 = true →
      (putChunk p.idx (splice found.1 p.within bytes) found.2).Succeeds (Paid etag B) s b
        fun _ s' b' => s' = s ∧ Stores s b' (f.write (p.idx * f.chunkSize + p.within) bytes) := by
    intro found hchunk hmatch
    rw [hchunk, ← Flat.chunk_write_within (by omega)]
    exact putChunk_succeeds h headed hst hputs hi hmatch
  have base : (baseChunk p).Reads (Paid etag B) s b (Returns fun found =>
      splice found.1 p.within bytes = splice (f.chunk p.idx) p.within bytes ∧
        Tagged (Paid etag B) b (s.chunkKey p.idx) found.2) :=
    baseChunk_spliced (hst.chunk p.idx hi) hlen
  cases retries with
  | zero => exact base.andThen fun found hfound => put hfound.1 hfound.2.matches
  | succ retries =>
    refine base.andThen fun found hfound => Succeeds.bind (Succeeds.attempt ?_)
    exact (put hfound.1 hfound.2.matches).mono fun _ _ _ hdone => Succeeds.pure hdone

structure Holding (P : Promise) (v : Shape) (F : Bucket → Prop) (s : S3ChunkStore) (b : Bucket)
    (f : Flat) : Prop where
  opened : Opened P v F false s b
  stores : Stores s b f

theorem writeAt_succeeds (headed : Headed v.chunkSize v.compression)
    (elsewhere : Elsewhere v.family F) (h : Holding (exactPayload B inj roundTrip) v F s b f)
    (hin : offset + data.length ≤ f.capacity) :
    (writeAt offset data).Succeeds (Paid etag B) s b fun _ s' b' => s' = s ∧
      Holding (exactPayload B inj roundTrip) v F s' b' (f.write offset data) := by
  refine Reads.get.andThen fun t ht => ?_
  subst t
  have hst := h.stores
  rw [hst.capacity]
  refine Succeeds.bind (Succeeds.lift ((checkRange_ok hst.proper.capacity_lt).mpr hin) ?_)
  rw [hst.chunkSize]
  refine writePieces_succeeds (fun s' b' g => s' = s ∧
    Holding (exactPayload B inj roundTrip) v F s' b' g) hst.proper.chunkSize_pos hin ?_ ⟨rfl, h⟩
  rintro t b₁ g p ⟨ht, hg⟩ alike hpos hfit hcap hdata
  subst t
  refine Reads.get.andThen fun t ht => ?_
  subst t
  rw [hst.chunkSize]
  have hlen : (slice data (p.idx * f.chunkSize + p.within - offset) p.take).length = p.take :=
    length_slice hdata
  have hsize : v.chunkSize = f.chunkSize := by rw [← h.opened.has.chunkSize, hst.chunkSize]
  have hfit' := hfit
  have hcap' := hcap
  rw [← alike.chunkSize] at hfit' hcap'
  rw [← alike.capacity] at hcap'
  have hidx : p.idx < u64Size := by
    have := Nat.le_mul_of_pos_right p.idx hst.proper.chunkSize_pos
    have := hst.proper.capacity_lt
    omega
  rw [← alike.chunkSize] at hlen ⊢
  refine ((writePieceLoop_succeeds hg.opened headed hg.stores hpos hfit' hcap' hlen _).keeps
    (writePieceLoop_keeps (pays_paid etag inj roundTrip) elsewhere hg.opened
    (by rwa [hsize]) (by rwa [hsize, hst.capacity]) hlen hidx (maxCasAttempts - 1))).mono ?_
  rintro - t b₂ ⟨⟨ht, hstored⟩, ⟨-, hopened⟩, -⟩
  subst t
  exact ⟨rfl, hopened, hstored⟩

theorem deleteChunkObject_stored (h : Opened (exactPayload B inj roundTrip) v F locked s b)
    (hst : Stores s b f) (hi : i < u64Size) :
    (deleteChunkObject i).Succeeds (Paid etag B) s b fun _ s' b' =>
      s' = s ∧ Stores s b' (f.delete i) := by
  refine Reads.get.andThen fun t ht => ?_
  subst t
  cases hs : s.storage with
  | legacy =>
    have hfront : s.chunksFront = areaFront s.family .legacyChunks := by
      simp [S3ChunkStore.chunksFront, hs]
    refine Succeeds.bind (deleteObjectKey_paid.mono ?_)
    rintro - t _ ⟨ht, rfl⟩
    subst t
    refine deleteObjectKey_paid.mono ?_
    rintro - t _ ⟨ht, rfl⟩
    subst t
    refine ⟨rfl, hst.delete ?_ (fun j hj hji => ?_) fun j => ?_⟩
    · simp only [plainChunk, storedBody, hs, AList.lookup_erase,
        AList.lookup_erase_ne (shard_ne_flat s.family i i), Option.or_none]
    · refine plainChunk_congr_legacy hs ?_ ?_
      · rw [AList.lookup_erase_ne (shard_ne_flat _ _ _),
          AList.lookup_erase_ne fun heq => hji (legacyChunkKey_inj hj hi heq)]
      · rw [AList.lookup_erase_ne fun heq => hji (legacyFlatChunkKey_inj hj hi heq),
          AList.lookup_erase_ne (shard_ne_flat _ _ _).symm]
    · -- no key of the chunk is left
      rw [hfront, mem_indices_erase (parseChunkIndex_flat _ hi),
        mem_indices_erase (parseChunkIndex_legacy _ hi), and_assoc]
      refine and_congr_right fun _ => ⟨fun hleft hji => ?_, fun hji =>
        ⟨fun heq => absurd heq hji, fun heq => absurd heq hji⟩⟩
      obtain ⟨l, hl, hne, hparse⟩ := hleft.2 hji
      obtain ⟨hne', hl⟩ := AList.mem_erase.mp hl
      obtain ⟨body, hbody⟩ := mem_iff_lookup.mp hl
      have harea : InArea v.family .legacyChunks l := by
        obtain ⟨rel, hrel, -⟩ := Option.bind_eq_some_iff.mp hparse
        rw [stripFront_eq_some hrel, h.has.family]
        exact List.prefix_append _ _
      obtain ⟨j', hj', hkey, -⟩ := h.sound.legacy l body harea hbody
      rw [← h.has.family] at hkey
      rw [parseChunkIndex_of_legacy hj' hkey] at hparse
      obtain rfl := Option.some.inj hparse
      exact hkey.elim hne' hne
  | cow =>
    have hfront : s.chunksFront = areaFront s.family .liveChunks := by
      simp [S3ChunkStore.chunksFront, hs]
    have hkey : s.chunkKey i = liveChunkKey s.family i := by simp [S3ChunkStore.chunkKey, hs]
    simp only [hkey]
    refine deleteObjectKey_paid.mono ?_
    rintro - t _ ⟨ht, rfl⟩
    subst t
    refine ⟨rfl, hst.delete ?_ (fun j hj hji => ?_) fun j => ?_⟩
    · exact plainChunk_missing hs (AList.lookup_erase _ _)
    · refine plainChunk_congr_cow hs ?_ fun x _ => ?_
      · exact AList.lookup_erase_ne fun heq => hji (liveChunkKey_inj hj hi heq)
      · exact AList.lookup_erase_ne ((inArea_live _ _).ne (inArea_object _ _) (by decide)).symm
    · rw [hfront, mem_indices_erase (parseChunkIndex_live _ hi)]
      refine and_congr_right fun _ => ⟨fun hleft hji => ?_, fun hji heq => absurd heq hji⟩
      obtain ⟨l, hl, hne, hparse⟩ := hleft hji
      obtain ⟨body, hbody⟩ := mem_iff_lookup.mp hl
      have harea : InArea v.family .liveChunks l := by
        obtain ⟨rel, hrel, -⟩ := Option.bind_eq_some_iff.mp hparse
        rw [stripFront_eq_some hrel, h.has.family]
        exact List.prefix_append _ _
      obtain ⟨j', x, hj', rfl, -⟩ := h.sound.live l body harea hbody
      rw [← h.has.family, parseChunkIndex_live _ hj'] at hparse
      obtain rfl := Option.some.inj hparse
      exact hne (by rw [h.has.family])

theorem deleteChunk_succeeds (elsewhere : Elsewhere v.family F)
    (h : Holding (exactPayload B inj roundTrip) v F s b f) (hi : i < u64Size) :
    (deleteChunkObject i).Succeeds (Paid etag B) s b fun _ s' b' => s' = s ∧
      Holding (exactPayload B inj roundTrip) v F s' b' (f.delete i) := by
  refine ((deleteChunkObject_stored h.opened h.stores hi).keeps
    (deleteChunk_keeps elsewhere h.opened i)).mono ?_
  rintro - t b' ⟨⟨ht, hstored⟩, ⟨-, hopened⟩, -⟩
  subst t
  exact ⟨rfl, hopened, hstored⟩

variable {capacity : Nat}

theorem setCapacity_stored (hst : Stores s b f) (hle : f.capacity ≤ capacity)
    (hlt : capacity < u64Size) (hblock : capacity % f.blockSize = 0) :
    (setCapacity capacity).Succeeds (Paid etag B) s b fun _ s' b' =>
      s' = { s with capacity := capacity } ∧ Stores s' b' (f.resize capacity) := by
  have resized : ∀ {b'}, (∀ area, area ∈ [Area.liveChunks, .legacyChunks, .objects] →
      Same s.family area b b') →
      Stores { s with capacity := capacity } b' (f.resize capacity) := fun same => by
    have hsame := hst.congr same
    exact ⟨hst.proper.resize hle hlt, rfl, hst.chunkSize, hst.blockSize, hsame.chunk, hsame.present⟩
  refine Reads.get.andThen fun t ht => ?_
  subst t
  rw [if_neg (by simpa [hst.blockSize] using hblock), if_neg (by rw [hst.capacity]; omega)]
  split
  · rename_i heq
    have hs : ({ s with capacity := capacity } : S3ChunkStore) = s := by rw [heq]
    have hstay : Stores { s with capacity := capacity } b (f.resize capacity) :=
      resized fun _ _ _ _ => rfl
    rw [hs] at hstay
    exact Succeeds.pure ⟨hs.symm, hstay⟩
  · refine Succeeds.bind (Succeeds.bind (Succeeds.get ((putBytes_paid rfl).mono ?_)))
    rintro - t _ ⟨ht, rfl, -⟩
    subst t
    refine Succeeds.modify ⟨rfl, resized fun area harea => ?_⟩
    cases hs : s.storage with
    | legacy =>
      rw [S3ChunkStore.metaKey, hs]
      exact same_insert (inArea_flatMeta _) (by rintro rfl; simp at harea)
    | cow =>
      rw [S3ChunkStore.metaKey, hs]
      exact same_insert (inArea_liveMeta _) (by rintro rfl; simp at harea)

theorem setCapacity_succeeds (json : JsonRoundTrips) (elsewhere : Elsewhere v.family F)
    (h : Holding (exactPayload B inj roundTrip) v F s b f) (hle : f.capacity ≤ capacity)
    (hlt : capacity < u64Size) (hblock : capacity % f.blockSize = 0) :
    (setCapacity capacity).Succeeds (Paid etag B) s b fun _ s' b' =>
      s' = { s with capacity := capacity } ∧
        Holding (exactPayload B inj roundTrip) v F s' b' (f.resize capacity) := by
  refine ((setCapacity_stored h.stores hle hlt hblock).keeps
    (setCapacity_keeps json elsewhere h.opened (fun hs => h.opened.unmigrated hs rfl) hlt)).mono ?_
  rintro - s' b' ⟨⟨hs', hstored⟩, hopened, -⟩
  exact ⟨hs', hopened, hstored⟩

section Fails

variable {Q : S3ChunkStore → Bucket → Prop} {env : Env Req Reply Bucket}

variable (hst : Stores s b f) (hq : Q s b)

include hst hq

theorem readAt_fails {offset len : Nat} (hout : f.capacity < offset + len) :
    (readAt offset len).Fails env s b Q := by
  refine Reads.get.andFail fun t ht => ?_
  subst t
  rw [hst.capacity, checkRange_error hout]
  exact Fails.bind (Fails.throw hq) _

theorem writeAt_fails (hout : f.capacity < offset + data.length) :
    (writeAt offset data).Fails env s b Q := by
  refine Reads.get.andFail fun t ht => ?_
  subst t
  rw [hst.capacity, checkRange_error hout]
  exact Fails.bind (Fails.throw hq) _

theorem setCapacity_fails (hbad : capacity < f.capacity ∨ capacity % f.blockSize ≠ 0) :
    (setCapacity capacity).Fails env s b Q := by
  refine Reads.get.andFail fun t ht => ?_
  subst t
  rw [hst.blockSize, hst.capacity]
  split
  · exact Fails.throw hq
  · rename_i hblock
    rw [if_pos (hbad.resolve_right hblock)]
    exact Fails.throw hq

end Fails

theorem serves {env : Env Req Reply Bucket} [Honest env] : Serves env Stores where
  proper := Stores.proper
  capacity := Stores.capacity
  chunkSize := Stores.chunkSize
  blockSize := Stores.blockSize
  read := fun {s b f offset len} h hin => by
    have hpos : 0 < s.chunkSize := by
      rw [h.chunkSize]
      exact h.proper.chunkSize_pos
    have hcap : s.capacity < u64Size := by
      rw [h.capacity]
      exact h.proper.capacity_lt
    refine (readAt_reads h.bytes hpos hcap (by rwa [h.capacity])).succeeds.mono ?_
    rintro _ s' b' ⟨rfl, rfl, rfl⟩
    exact ⟨rfl, h⟩

theorem actsAs (json : JsonRoundTrips) (headed : Headed v.chunkSize v.compression)
    (elsewhere : Elsewhere v.family F) :
    ActsAs (Paid etag B) (Holding (exactPayload B inj roundTrip) v F) where
  proper := fun h => h.stores.proper
  capacity := fun h => h.stores.capacity
  chunkSize := fun h => h.stores.chunkSize
  blockSize := fun h => h.stores.blockSize
  read := fun {s b f offset len} h hin => by
    have hpos : 0 < s.chunkSize := by
      rw [h.stores.chunkSize]
      exact h.stores.proper.chunkSize_pos
    refine (readAt_reads h.stores.bytes hpos h.opened.cap
      (by rwa [h.stores.capacity])).succeeds.mono ?_
    rintro _ s' b' ⟨rfl, rfl, rfl⟩
    exact ⟨rfl, h⟩
  readOut := fun h hout => readAt_fails h.stores h hout
  write := fun h hin => (writeAt_succeeds headed elsewhere h hin).mono fun _ _ _ hdone => hdone.2
  writeOut := fun h hout => writeAt_fails h.stores h hout
  delete := fun h hi => (deleteChunk_succeeds elsewhere h hi).mono fun _ _ _ hdone => hdone.2
  grow := fun h hle hlt hblock =>
    (setCapacity_succeeds json elsewhere h hle hlt hblock).mono fun _ _ _ hdone => hdone.2
  shrink := fun h hbad => setCapacity_fails h.stores h hbad
  flush := fun h => Succeeds.pure h
  list := fun {s b f} h => by
    refine presentChunks_reads.succeeds.mono ?_
    rintro _ s' b' ⟨rfl, rfl, rfl⟩
    exact ⟨indices_pairwise _ _, fun i => (h.stores.present i).symm, h⟩

end Calls

end IscsiS3.S3
