import IscsiS3.S3.Reads

/-! When the objects of a volume are sound: live pointers and snapshots name objects that are in the
pool, an object in the pool has the hash that its key names, and the metadata allows for the data.
-/

namespace IscsiS3.S3

open External

structure Shape where
  family : Str
  chunkSize : Nat
  blockSize : Nat
  compression : Compression
  chunkSize_pos : 0 < chunkSize

/-- The opened volume is one of this shape. -/
structure S3ChunkStore.Has (v : Shape) (s : S3ChunkStore) : Prop where
  family : s.family = v.family
  chunkSize : s.chunkSize = v.chunkSize
  blockSize : s.blockSize = v.blockSize
  compression : s.compression = v.compression

section Soundness

variable [External]

/-- What a run promises about payloads beyond their presence.  `Fits size c cap i body` is about the
body of chunk `i` in a volume with chunks of `size` bytes, compression `c` and capacity `cap`; only
bodies in `payloads` are put into a pool.  The promise is `strict` if it depends on the capacity,
and then the metadata is accounted for; otherwise every body fits. -/
structure Promise where
  payloads : Set Bytes
  Fits : (size : Nat) → Compression → (cap i : Nat) → Bytes → Prop
  strict : Prop
  lax : ¬strict → ∀ {size c cap i body}, Fits size c cap i body
  grow : ∀ {size c cap cap' i body}, Fits size c cap i body → cap ≤ cap' → Fits size c cap' i body
  named : ∀ {size c cap i body other}, Fits size c cap i body → body ∈ payloads →
    other ∈ payloads → blake3 other = blake3 body → Fits size c cap i other
  patched : ∀ {size c cap plain bytes body} {p : Piece},
    (plain = zeros size ∨ ∃ old, Fits size c cap p.idx old ∧
      decodeChunk codecs c old size = .ok plain) →
    p.within + p.take ≤ size → p.idx * size + p.within + p.take ≤ cap → bytes.length = p.take →
    encodeChunk codecs c (Splice.splice plain p.within bytes) = .ok body →
    Fits size c cap p.idx body

/-- The payload with this hash, whichever it is, fits chunk `i` of the volume. -/
def Promise.FitsHash (P : Promise) (v : Shape) (cap i : Nat) (h : Hash) : Prop :=
  ∀ body ∈ P.payloads, blake3 body = h → P.Fits v.chunkSize v.compression cap i body

variable (P : Promise) (v : Shape) (cap : Nat) (b : Bucket)

/-- The metadata that `open` goes by. -/
def Effective (m : VolumeMeta) : Prop :=
  ∃ json, parseMeta json = .ok m ∧ (b.lookup (liveMetaKey v.family) = some json ∨
    liveMetaKey v.family ∉ b ∧ b.lookup (flatMetaKey v.family) = some json)

def LiveOk : Prop :=
  ∀ k body, InArea v.family .liveChunks k → b.lookup k = some body →
    ∃ i h, i < u64Size ∧ k = liveChunkKey v.family i ∧ body = encodePointer h ∧
      objectKey v.family h ∈ b ∧ P.FitsHash v cap i h

def PoolOk : Prop :=
  ∀ h body, b.lookup (objectKey v.family h) = some body → blake3 body = h ∧ body ∈ P.payloads

def LegacyOk : Prop :=
  ∀ k body, InArea v.family .legacyChunks k → b.lookup k = some body →
    ∃ i, i < u64Size ∧ (k = legacyChunkKey v.family i ∨ k = legacyFlatChunkKey v.family i) ∧
      P.Fits v.chunkSize v.compression cap i body

def ManifestsOk : Prop :=
  ∀ id body m, b.lookup (snapshotManifestKey v.family id) = some body →
    parseManifest body = .ok m → m.capacityBytes < u64Size

/-- The references of a snapshot of a volume that had this capacity. -/
def RefsOk (refs : List ChunkRef) : Prop :=
  ∀ r ∈ refs, r.index < u64Size ∧ objectKey v.family r.hash ∈ b ∧ P.FitsHash v cap r.index r.hash

def IndexesOk : Prop :=
  ∀ id body, b.lookup (snapshotChunksKey v.family id) = some body →
    ∃ json m refs, b.lookup (snapshotManifestKey v.family id) = some json ∧
      parseManifest json = .ok m ∧ m.id = id ∧ body = writeChunksBin refs ∧
      40 * refs.length < 2 ^ 63 ∧ RefsOk P v m.capacityBytes b refs

/-- There is metadata with at least this capacity, unless there is no data. -/
def BooksOk : Prop :=
  P.strict → (∃ m, Effective v b m ∧ cap ≤ m.capacityBytes) ∨
    ∀ k, InArea v.family .liveChunks k ∨ InArea v.family .legacyChunks k → k ∉ b

/-- The objects of a volume are sound, its data being that of a volume with capacity `cap`. -/
structure Sound : Prop where
  live : LiveOk P v cap b
  pool : PoolOk P v b
  legacy : LegacyOk P v cap b
  manifests : ManifestsOk v b
  indexes : IndexesOk P v b
  books : BooksOk P v cap b

end Soundness

def Same (family : Str) (area : Area) (b b' : Bucket) : Prop :=
  ∀ k, InArea family area k → b'.lookup k = b.lookup k

section Same

variable {family : Str} {area other : Area} {b b' : Bucket} {k : Key} {body : Bytes} {l : Key}

theorem mem_iff_lookup : k ∈ b ↔ ∃ body, b.lookup k = some body := by
  rw [← AList.lookup_isSome, Option.isSome_iff_exists]

theorem Same.mem (h : Same family area b b') (hk : InArea family area k) : k ∈ b' ↔ k ∈ b := by
  rw [mem_iff_lookup, mem_iff_lookup, h k hk]

theorem same_insert (hk : InArea family area k) (hne : area ≠ other) :
    Same family other b (b.insert k body) := fun _ hl =>
  AList.lookup_insert_ne (hl.ne hk hne.symm)

theorem same_erase (hk : InArea family area k) (hne : area ≠ other) :
    Same family other b (b.erase k) := fun _ hl => AList.lookup_erase_ne (hl.ne hk hne.symm)

theorem mem_insert_of_mem (l : Key) (body : Bytes) (h : k ∈ b) : k ∈ b.insert l body :=
  (AList.mem_insert b).mpr (.inr h)

theorem lookup_of_erase (h : (b.erase k).lookup l = some body) :
    l ≠ k ∧ b.lookup l = some body := by
  have hne : l ≠ k := by
    rintro rfl
    rw [AList.lookup_erase] at h
    cases h
  exact ⟨hne, by rwa [AList.lookup_erase_ne hne] at h⟩

theorem mem_of_erase (h : l ∈ b.erase k) : l ∈ b := (AList.mem_erase.mp h).2

end Same

theorem Same.less {family : Str} {b b' : Bucket} (live : Same family .liveChunks b b')
    (legacy : Same family .legacyChunks b b') (k : Key)
    (hk : InArea family .liveChunks k ∨ InArea family .legacyChunks k) (hmem : k ∈ b') : k ∈ b :=
  hk.elim (fun h => (live.mem h).mp hmem) fun h => (legacy.mem h).mp hmem

section Congruence

variable [External] {P : Promise} {v : Shape} {cap : Nat} {b b' : Bucket}

theorem LiveOk.congr (h : LiveOk P v cap b) (same : Same v.family .liveChunks b b')
    (grows : ∀ x, objectKey v.family x ∈ b → objectKey v.family x ∈ b') : LiveOk P v cap b' := by
  intro k body hk hbody
  rw [same k hk] at hbody
  obtain ⟨i, x, hi, rfl, rfl, hx, hfits⟩ := h k body hk hbody
  exact ⟨i, x, hi, rfl, rfl, grows x hx, hfits⟩

theorem PoolOk.congr (h : PoolOk P v b) (same : Same v.family .objects b b') : PoolOk P v b' :=
  fun x body hbody => h x body (by rwa [← same _ (inArea_object _ x)])

theorem LegacyOk.congr (h : LegacyOk P v cap b) (same : Same v.family .legacyChunks b b') :
    LegacyOk P v cap b' := fun k body hk hbody => h k body hk (by rwa [← same k hk])

theorem ManifestsOk.congr (h : ManifestsOk v b) (same : Same v.family .snapshots b b') :
    ManifestsOk v b' := fun id body m hbody =>
  h id body m (by rwa [← same _ (inArea_manifest _ id)])

theorem RefsOk.congr {refs : List ChunkRef} (h : RefsOk P v cap b refs)
    (grows : ∀ r ∈ refs, objectKey v.family r.hash ∈ b → objectKey v.family r.hash ∈ b') :
    RefsOk P v cap b' refs := fun r hr =>
  ⟨(h r hr).1, grows r hr (h r hr).2.1, (h r hr).2.2⟩

theorem IndexesOk.congr (h : IndexesOk P v b) (same : Same v.family .snapshots b b')
    (grows : ∀ x, objectKey v.family x ∈ b → objectKey v.family x ∈ b') : IndexesOk P v b' := by
  intro id body hbody
  rw [same _ (inArea_chunks _ id)] at hbody
  obtain ⟨json, m, refs, hjson, hm, hid, rfl, hlen, hrefs⟩ := h id body hbody
  refine ⟨json, m, refs, ?_, hm, hid, rfl, hlen, hrefs.congr fun r _ => grows r.hash⟩
  rwa [same _ (inArea_manifest _ id)]

theorem Effective.congr {m : VolumeMeta} (h : Effective v b m)
    (live : Same v.family .liveMeta b b') (flat : Same v.family .flatMeta b b') :
    Effective v b' m := by
  obtain ⟨json, hm, hjson⟩ := h
  refine ⟨json, hm, ?_⟩
  rwa [live _ (inArea_liveMeta _), live.mem (inArea_liveMeta _), flat _ (inArea_flatMeta _)]

theorem BooksOk.congr (h : BooksOk P v cap b) (live : Same v.family .liveMeta b b')
    (flat : Same v.family .flatMeta b b')
    (less : ∀ k, InArea v.family .liveChunks k ∨ InArea v.family .legacyChunks k → k ∈ b' → k ∈ b) :
    BooksOk P v cap b' := by
  intro hstrict
  rcases h hstrict with ⟨m, hm, hcap⟩ | hnone
  · exact .inl ⟨m, hm.congr live flat, hcap⟩
  · exact .inr fun k hk hmem => hnone k hk (less k hk hmem)

variable {cap' : Nat}

theorem Sound.of_data (h : Sound P v cap b) (live : LiveOk P v cap' b)
    (legacy : LegacyOk P v cap' b)
    (same : ∀ area, area ∉ [Area.liveMeta, .flatMeta, .migrating] → Same v.family area b b')
    (books : BooksOk P v cap' b') : Sound P v cap' b' where
  live := live.congr (same _ (by decide)) fun x =>
    ((same .objects (by decide)).mem (inArea_object _ x)).mpr
  pool := h.pool.congr (same _ (by decide))
  legacy := legacy.congr (same _ (by decide))
  manifests := h.manifests.congr (same _ (by decide))
  indexes := h.indexes.congr (same _ (by decide)) fun x =>
    ((same .objects (by decide)).mem (inArea_object _ x)).mpr
  books := books

theorem Sound.of_books (h : Sound P v cap b)
    (same : ∀ area, area ∉ [Area.liveMeta, .flatMeta, .migrating] → Same v.family area b b')
    (books : BooksOk P v cap b') : Sound P v cap b' :=
  h.of_data h.live h.legacy same books

theorem Sound.congr (h : Sound P v cap b)
    (same : ∀ area, area ≠ .migrating → Same v.family area b b') : Sound P v cap b' := by
  refine h.of_books (fun area ha => same area fun heq => ha (by simp [heq])) ?_
  exact h.books.congr (same _ (by decide)) (same _ (by decide))
    (Same.less (same _ (by decide)) (same _ (by decide)))

theorem Promise.FitsHash.grow {cap' i : Nat} {x : Hash} (h : P.FitsHash v cap i x)
    (hcap : cap ≤ cap') : P.FitsHash v cap' i x := fun body hbody hx =>
  P.grow (h body hbody hx) hcap

theorem LiveOk.grow (h : LiveOk P v cap b) (hcap : cap ≤ cap') :
    LiveOk P v cap' b := fun k body hk hbody => by
  obtain ⟨i, x, hi, rfl, rfl, hx, hfits⟩ := h k body hk hbody
  exact ⟨i, x, hi, rfl, rfl, hx, hfits.grow hcap⟩

theorem LegacyOk.grow (h : LegacyOk P v cap b) (hcap : cap ≤ cap') :
    LegacyOk P v cap' b := fun k body hk hbody => by
  obtain ⟨i, hi, hkey, hfits⟩ := h k body hk hbody
  exact ⟨i, hi, hkey, P.grow hfits hcap⟩

theorem Sound.grow (h : Sound P v cap b) (hcap : cap ≤ cap') (books : BooksOk P v cap' b) :
    Sound P v cap' b :=
  ⟨h.live.grow hcap, h.pool, h.legacy.grow hcap, h.manifests, h.indexes, books⟩

end Congruence

section Changes

variable [External] {P : Promise} {v : Shape} {cap : Nat} {b : Bucket} {body : Bytes} {b' : Bucket}

theorem Sound.insert_object (h : Sound P v cap b) (hbody : body ∈ P.payloads) :
    Sound P v cap (b.insert (objectKey v.family (blake3 body)) body) where
  live := h.live.congr (same_insert (inArea_object _ _) (by decide)) fun _ => mem_insert_of_mem _ _
  pool := by
    intro x found hfound
    by_cases hx : x = blake3 body
    · subst hx
      rw [AList.lookup_insert] at hfound
      cases hfound
      exact ⟨rfl, hbody⟩
    · rw [AList.lookup_insert_ne fun heq => hx (objectKey_inj heq)] at hfound
      exact h.pool x found hfound
  legacy := h.legacy.congr (same_insert (inArea_object _ _) (by decide))
  manifests := h.manifests.congr (same_insert (inArea_object _ _) (by decide))
  indexes := h.indexes.congr (same_insert (inArea_object _ _) (by decide)) fun _ =>
    mem_insert_of_mem _ _
  books := h.books.congr (same_insert (inArea_object _ _) (by decide))
    (same_insert (inArea_object _ _) (by decide))
    (Same.less (same_insert (inArea_object _ _) (by decide))
      (same_insert (inArea_object _ _) (by decide)))

/-- The metadata of an opened volume is there, with its capacity at least. -/
def Metered (P : Promise) (v : Shape) (cap : Nat) (b : Bucket) : Prop :=
  P.strict → ∃ m, Effective v b m ∧ cap ≤ m.capacityBytes

theorem Metered.books (h : Metered P v cap b) : BooksOk P v cap b := fun hs => .inl (h hs)

theorem Metered.congr (h : Metered P v cap b) (live : Same v.family .liveMeta b b')
    (flat : Same v.family .flatMeta b b') :
    Metered P v cap b' := fun hs => (h hs).imp fun _ hm => ⟨hm.1.congr live flat, hm.2⟩

section

variable (h : Sound P v cap b) {m : SnapshotManifest} {id : Str} {k : Key} {i : Nat}

include h

theorem Sound.insert_pointer (metered : Metered P v cap b) {x : Hash} (hi : i < u64Size)
    (hx : objectKey v.family x ∈ b) (fits : P.FitsHash v cap i x) :
    Sound P v cap (b.insert (liveChunkKey v.family i) (encodePointer x)) where
  live := by
    intro k body hk hbody
    by_cases hki : k = liveChunkKey v.family i
    · subst hki
      rw [AList.lookup_insert] at hbody
      cases hbody
      exact ⟨i, x, hi, rfl, rfl, mem_insert_of_mem _ _ hx, fits⟩
    · rw [AList.lookup_insert_ne hki] at hbody
      obtain ⟨j, y, hj, rfl, rfl, hy, hfits⟩ := h.live k body hk hbody
      exact ⟨j, y, hj, rfl, rfl, mem_insert_of_mem _ _ hy, hfits⟩
  pool := h.pool.congr (same_insert (inArea_live _ _) (by decide))
  legacy := h.legacy.congr (same_insert (inArea_live _ _) (by decide))
  manifests := h.manifests.congr (same_insert (inArea_live _ _) (by decide))
  indexes := h.indexes.congr (same_insert (inArea_live _ _) (by decide)) fun _ =>
    mem_insert_of_mem _ _
  books := (metered.congr (same_insert (inArea_live _ _) (by decide))
    (same_insert (inArea_live _ _) (by decide))).books

theorem Sound.insert_legacy (metered : Metered P v cap b) (hi : i < u64Size)
    (fits : P.Fits v.chunkSize v.compression cap i body) :
    Sound P v cap (b.insert (legacyChunkKey v.family i) body) where
  live := h.live.congr (same_insert (inArea_legacy _ _) (by decide)) fun _ => mem_insert_of_mem _ _
  pool := h.pool.congr (same_insert (inArea_legacy _ _) (by decide))
  legacy := by
    intro k found hk hfound
    by_cases hki : k = legacyChunkKey v.family i
    · subst hki
      rw [AList.lookup_insert] at hfound
      cases hfound
      exact ⟨i, hi, .inl rfl, fits⟩
    · rw [AList.lookup_insert_ne hki] at hfound
      exact h.legacy k found hk hfound
  manifests := h.manifests.congr (same_insert (inArea_legacy _ _) (by decide))
  indexes := h.indexes.congr (same_insert (inArea_legacy _ _) (by decide)) fun _ =>
    mem_insert_of_mem _ _
  books := (metered.congr (same_insert (inArea_legacy _ _) (by decide))
    (same_insert (inArea_legacy _ _) (by decide))).books

theorem Sound.erase_chunk (hk : InArea v.family .liveChunks k ∨ InArea v.family .legacyChunks k) :
    Sound P v cap (b.erase k) := by
  have same : ∀ area, area ≠ .liveChunks → area ≠ .legacyChunks →
      Same v.family area b (b.erase k) := fun area h₁ h₂ =>
    hk.elim (fun h => same_erase h h₁.symm) fun h => same_erase h h₂.symm
  have keeps : ∀ x, objectKey v.family x ∈ b → objectKey v.family x ∈ b.erase k := fun x =>
    ((same .objects (by decide) (by decide)).mem (inArea_object _ x)).mpr
  exact {
    live := fun l body hl hbody => by
      obtain ⟨i, x, hi, rfl, rfl, hx, hfits⟩ := h.live l body hl (lookup_of_erase hbody).2
      exact ⟨i, x, hi, rfl, rfl, keeps x hx, hfits⟩
    pool := h.pool.congr (same _ (by decide) (by decide))
    legacy := fun l body hl hbody => h.legacy l body hl (lookup_of_erase hbody).2
    manifests := h.manifests.congr (same _ (by decide) (by decide))
    indexes := h.indexes.congr (same _ (by decide) (by decide)) keeps
    books := h.books.congr (same _ (by decide) (by decide)) (same _ (by decide) (by decide))
      fun _ _ => mem_of_erase }

theorem Sound.of_snapshots (same : ∀ area, area ≠ .snapshots → Same v.family area b b')
    (manifests : ManifestsOk v b') (indexes : IndexesOk P v b') : Sound P v cap b' where
  live := h.live.congr (same _ (by decide)) fun x =>
    ((same .objects (by decide)).mem (inArea_object _ x)).mpr
  pool := h.pool.congr (same _ (by decide))
  legacy := h.legacy.congr (same _ (by decide))
  manifests := manifests
  indexes := indexes
  books := h.books.congr (same _ (by decide)) (same _ (by decide))
    (Same.less (same _ (by decide)) (same _ (by decide)))

theorem Sound.insert_manifest (hm : parseManifest body = .ok m) (hid : m.id = id)
    (hcap : m.capacityBytes < u64Size)
    (old : ∀ json m', b.lookup (snapshotManifestKey v.family id) = some json →
      parseManifest json = .ok m' → m'.capacityBytes = m.capacityBytes) :
    Sound P v cap (b.insert (snapshotManifestKey v.family id) body) := by
  refine h.of_snapshots (fun area ha => same_insert (inArea_manifest _ _) ha.symm) ?_ ?_
  · intro id' found m' hfound hm'
    by_cases heq : id' = id
    · subst heq
      rw [AList.lookup_insert] at hfound
      cases hfound
      rw [hm] at hm'
      cases hm'
      exact hcap
    · rw [AList.lookup_insert_ne fun h => heq (snapshotManifestKey_inj h)] at hfound
      exact h.manifests id' found m' hfound hm'
  · intro id' found hfound
    rw [AList.lookup_insert_ne (manifest_ne_chunks _ _ _ _).symm] at hfound
    obtain ⟨json, m', refs, hjson, hm', hid', rfl, hlen, hrefs⟩ := h.indexes id' found hfound
    have grown : ∀ cap, RefsOk P v cap b refs →
        RefsOk P v cap (b.insert (snapshotManifestKey v.family id) body) refs := fun cap h =>
      h.congr fun _ _ => mem_insert_of_mem _ _
    by_cases heq : id' = id
    · subst heq
      refine ⟨body, m, refs, AList.lookup_insert _, hm, hid, rfl, hlen, grown _ ?_⟩
      rwa [← old json m' hjson hm']
    · refine ⟨json, m', refs, ?_, hm', hid', rfl, hlen, grown _ hrefs⟩
      rwa [AList.lookup_insert_ne fun h => heq (snapshotManifestKey_inj h)]

theorem Sound.insert_index {json : Bytes} {refs : List ChunkRef}
    (hjson : b.lookup (snapshotManifestKey v.family id) = some json)
    (hm : parseManifest json = .ok m) (hid : m.id = id) (hlen : 40 * refs.length < 2 ^ 63)
    (hrefs : RefsOk P v m.capacityBytes b refs) :
    Sound P v cap (b.insert (snapshotChunksKey v.family id) (writeChunksBin refs)) := by
  refine h.of_snapshots (fun area ha => same_insert (inArea_chunks _ _) ha.symm) ?_ ?_
  · intro id' found m' hfound hm'
    rw [AList.lookup_insert_ne (manifest_ne_chunks _ _ _ _)] at hfound
    exact h.manifests id' found m' hfound hm'
  · intro id' found hfound
    by_cases heq : id' = id
    · subst heq
      rw [AList.lookup_insert] at hfound
      cases hfound
      refine ⟨json, m, refs, ?_, hm, hid, rfl, hlen, hrefs.congr fun _ _ => mem_insert_of_mem _ _⟩
      rwa [AList.lookup_insert_ne (manifest_ne_chunks _ _ _ _)]
    · rw [AList.lookup_insert_ne fun h => heq (snapshotChunksKey_inj h)] at hfound
      obtain ⟨json, m', refs, hjson, hm', hid', rfl, hlen, hrefs⟩ := h.indexes id' found hfound
      refine ⟨json, m', refs, ?_, hm', hid', rfl, hlen,
        hrefs.congr fun _ _ => mem_insert_of_mem _ _⟩
      rwa [AList.lookup_insert_ne (manifest_ne_chunks _ _ _ _)]

theorem Sound.erase_snapshot
    (hk : k = snapshotChunksKey v.family id ∨ k = snapshotManifestKey v.family id ∧
      snapshotChunksKey v.family id ∉ b) :
    Sound P v cap (b.erase k) := by
  have harea : InArea v.family .snapshots k := by
    rcases hk with rfl | ⟨rfl, -⟩
    · exact inArea_chunks _ _
    · exact inArea_manifest _ _
  refine h.of_snapshots (fun area ha => same_erase harea ha.symm) ?_ ?_
  · exact fun id' found m' hfound => h.manifests id' found m' (lookup_of_erase hfound).2
  · intro id' found hfound
    replace hfound := (lookup_of_erase hfound).2
    obtain ⟨json, m', refs, hjson, hm', hid', rfl, hlen, hrefs⟩ := h.indexes id' found hfound
    refine ⟨json, m', refs, ?_, hm', hid', rfl, hlen, hrefs.congr fun r _ hr => ?_⟩
    · rw [AList.lookup_erase_ne, hjson]
      rcases hk with rfl | ⟨rfl, hnone⟩
      · exact manifest_ne_chunks _ _ _ _
      · intro heq
        rw [snapshotManifestKey_inj heq] at hfound
        exact hnone (mem_iff_lookup.mpr ⟨_, hfound⟩)
    · exact ((same_erase harea (by decide : Area.snapshots ≠ .objects)).mem
        (inArea_object _ _)).mpr hr

theorem Sound.erase_object (hk : InArea v.family .objects k)
    (live : ∀ i x, i < u64Size → pointer b v.family i = some x → objectKey v.family x ≠ k)
    (index : ∀ id refs, snapshotRefs b v.family id = some refs →
      ∀ r ∈ refs, objectKey v.family r.hash ≠ k) : Sound P v cap (b.erase k) := by
  have same : ∀ area, area ≠ .objects → Same v.family area b (b.erase k) := fun area ha =>
    same_erase hk ha.symm
  exact {
    live := fun l body hl hbody => by
      rw [same _ (by decide) l hl] at hbody
      obtain ⟨i, x, hi, rfl, rfl, hx, hfits⟩ := h.live l body hl hbody
      refine ⟨i, x, hi, rfl, rfl, AList.mem_erase.mpr ⟨?_, hx⟩, hfits⟩
      exact live i x hi (pointer_eq_some.mpr ⟨_, hbody, decodePointer_encodePointer x⟩)
    pool := fun x body hbody => h.pool x body (lookup_of_erase hbody).2
    legacy := h.legacy.congr (same _ (by decide))
    manifests := h.manifests.congr (same _ (by decide))
    indexes := fun id body hbody => by
      rw [same _ (by decide) _ (inArea_chunks _ id)] at hbody
      obtain ⟨json, m, refs, hjson, hm, hid, rfl, hlen, hrefs⟩ := h.indexes id body hbody
      refine ⟨json, m, refs, ?_, hm, hid, rfl, hlen, hrefs.congr fun r hr hmem => ?_⟩
      · rwa [same _ (by decide) _ (inArea_manifest _ id)]
      · refine AList.mem_erase.mpr ⟨index id refs ?_ r hr, hmem⟩
        exact snapshotRefs_eq_some.mpr
          ⟨_, hbody, readChunksBin_writeChunksBin (fun r hr => (hrefs r hr).1) hlen⟩
    books := h.books.congr (same _ (by decide)) (same _ (by decide))
      (Same.less (same _ (by decide)) (same _ (by decide))) }

end

end Changes

end IscsiS3.S3
