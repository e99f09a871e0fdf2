import IscsiS3.Admin.Operations
import IscsiS3.Cache.Served
import IscsiS3.S3.Acts
import IscsiS3.S3.Plain
import IscsiS3.WriteCache.Served

/-! `volume.write_image`. The volume is taken to be empty when the listing of its prefix shows no
chunk. The listing does not show what the caches of the daemon hold, and so the volume reads as zero
exactly if what they hold is zero. -/

namespace IscsiS3

open Request StoreM Splice

namespace Flat

variable {f : Flat} {i : Nat} {data : Bytes} {within take : Nat}

/-- Below the capacity, these bytes are those of chunk `i`. -/
def Agrees (f : Flat) (i : Nat) (data : Bytes) : Prop :=
  ∀ k < f.chunkSize, i * f.chunkSize + k < f.capacity →
    data[k]? = some (f.byte (i * f.chunkSize + k))

theorem agrees_chunk (f : Flat) (i : Nat) : f.Agrees i (f.chunk i) := fun k hk _ => by
  rw [chunk, getElem?_span, if_pos hk]

theorem Agrees.slice (h : f.Agrees i data) (hfit : within + take ≤ f.chunkSize)
    (hcap : i * f.chunkSize + within + take ≤ f.capacity) :
    slice data within take = slice (f.chunk i) within take := by
  apply List.ext_getElem?
  intro k
  rw [getElem?_slice, getElem?_slice]
  split
  · rw [h (within + k) (by omega) (by omega), agrees_chunk f i (within + k) (by omega) (by omega)]
  · rfl

theorem Agrees.length_le (h : f.Agrees i data) (htake : 0 < take)
    (hfit : within + take ≤ f.chunkSize) (hcap : i * f.chunkSize + within + take ≤ f.capacity) :
    within + take ≤ data.length := by
  have hlast := h (within + take - 1) (by omega) (by omega)
  have := (List.getElem?_eq_some_iff.mp hlast).1
  omega

end Flat

namespace CachedStore

variable {Req : Type} {Reply : Req → Type} {S W : Type} {env : Env Req Reply W}
variable {Inner : S → W → Flat → Prop} {T : Set Nat} {s : CachedStore S} {w : W} {f : Flat}

/-- As `Holds`, but of the chunks of the pool only those in `T` are those of the array, and only
below the capacity. -/
structure Agrees (Inner : S → W → Flat → Prop) (T : Set Nat) (s : CachedStore S)
    (w : W) (f : Flat) : Prop where
  unlocked : s.ioLocked = false
  inner : Inner s.inner w f
  pool : ∀ i ∈ T, ∀ data, s.cache.lookup s.volume i = some data → f.Agrees i data

variable [BlockStore Reply S]

section

variable (inner : Serves env Inner) (h : s.Agrees Inner T w f) {i : Nat}

include inner h

theorem fillChunk_agrees (hi : i * f.chunkSize < f.capacity) :
    (fillChunk i).Succeeds env s w fun chunk s' w' => f.Agrees i chunk ∧
      s'.Agrees Inner T w' f := by
  refine Reads.get.andThen ?_
  rintro _ rfl
  have hcap := inner.capacity h.inner
  have hsize := inner.chunkSize h.inner
  simp only [hcap, hsize]
  rw [if_neg (by omega)]
  refine Succeeds.bind ((onInner_succeeds (inner.read h.inner ?_)).mono ?_)
  · have := Nat.min_le_left (f.capacity - i * f.chunkSize) f.chunkSize
    omega
  · rintro _ s' w' ⟨hs', rfl, hinner⟩
    rw [(inner.proper h.inner).fill]
    refine Succeeds.bind (Succeeds.modify (Succeeds.pure ⟨f.agrees_chunk i, ?_⟩))
    rw [hs']
    refine ⟨h.unlocked, hinner, fun j hT data hj => ?_⟩
    have hput := ChunkCache.lookup_put hj
    split at hput
    · rename_i heq
      obtain ⟨-, rfl⟩ := heq
      rw [hput]
      exact f.agrees_chunk j
    · exact h.pool j hT data hput

theorem loadChunk_agrees (hT : i ∈ T) (hi : i * f.chunkSize < f.capacity) :
    (loadChunk i).Succeeds env s w fun chunk s' w' => f.Agrees i chunk ∧
      s'.Agrees Inner T w' f := by
  refine (ensureUnlocked_reads h.unlocked).andThen fun _ _ => ?_
  refine Succeeds.bind ⟨trivial, _, rfl, ?_⟩
  have hget : (s.withCache (s.cache.get s.volume i).2).Agrees Inner T w f := by
    refine ⟨h.unlocked, h.inner, fun j hT data hj => h.pool j hT data ?_⟩
    change (s.cache.get s.volume i).2.lookup s.volume j = some data at hj
    rwa [ChunkCache.lookup_get] at hj
  rw [ChunkCache.get_fst]
  cases hlook : s.cache.lookup s.volume i with
  | some data => exact Succeeds.pure ⟨h.pool i hT data hlook, hget⟩
  | none => exact fillChunk_agrees inner hget hi

theorem readAt_agrees {offset len : Nat} (hin : offset + len ≤ f.capacity)
    (hT : ∀ p ∈ pieces f.chunkSize offset len, p.idx ∈ T) :
    (readAt offset len).Succeeds env s w fun bytes s' w' =>
      bytes = span f.byte offset len ∧ s'.Agrees Inner T w' f := by
  have proper := inner.proper h.inner
  refine (ensureUnlocked_reads h.unlocked).andThen fun _ _ => Reads.get.andThen ?_
  rintro _ rfl
  rw [inner.capacity h.inner, inner.chunkSize h.inner]
  refine Succeeds.bind (Succeeds.lift ((checkRange_ok proper.capacity_lt).mpr hin) ?_)
  refine Succeeds.bind ((Succeeds.collect (K := fun s w => s.Agrees Inner T w f)
    (fun p => slice (f.chunk p.idx) p.within p.take) _ h fun p hp s w h => ?_).mono ?_)
  · obtain ⟨hpos, hfit, -, hend⟩ := mem_pieces proper.chunkSize_pos hp
    refine Succeeds.bind ((loadChunk_agrees inner h (hT p hp) (by omega)).mono ?_)
    rintro chunk s' w' ⟨hchunk, h'⟩
    rw [if_neg (Nat.not_lt.mpr (hchunk.length_le hpos hfit (by omega)))]
    exact Succeeds.pure ⟨hchunk.slice hfit (by omega), h'⟩
  · rintro _ s' w' ⟨rfl, h'⟩
    exact Succeeds.pure ⟨flatten_pieces proper.chunkSize_pos f.byte offset len, h'⟩

end

theorem readAt_cached {i k : Nat} {data : Bytes} (hk : k < BlockStore.chunkSize Reply s.inner)
    (hdata : s.cache.lookup s.volume i = some data) :
    (readAt (i * BlockStore.chunkSize Reply s.inner + k) 1 : StoreM Reply _ _).Keeps Anything
      (fun _ _ => True) s () fun bytes _ _ => bytes = slice data k 1 := by
  have unlocked : ∀ {R : Unit → CachedStore S → Unit → Prop}, R () s () →
      (ensureUnlocked : StoreM Reply (CachedStore S) Unit).Keeps Anything
        (fun _ _ => True) s () R := by
    intro R h
    refine Keeps.bind (Keeps.get trivial ?_)
    split
    · exact Keeps.throw trivial
    · exact Keeps.pure trivial h
  refine Keeps.bind (unlocked (Keeps.bind (Keeps.get trivial (Keeps.bind (Keeps.lift trivial ?_)))))
  rintro - -
  rw [pieces_one hk]
  refine Keeps.bind (Keeps.bind (Keeps.bind (Keeps.bind (unlocked (Keeps.bind ?_)))))
  refine ⟨⟨s, trivial⟩, trivial, ?_⟩
  rw [ChunkCache.get_fst, hdata]
  refine Keeps.pure trivial ?_
  split
  · exact Keeps.done trivial (by simp)
  · refine Keeps.pure trivial (Keeps.pure trivial (Keeps.pure trivial ?_))
    simp

end CachedStore

namespace WriteCachedStore

variable {Req : Type} {Reply : Req → Type} {S W : Type} {env : Env Req Reply W}
variable {Inner : S → W → Flat → Prop} {s : WriteCachedStore S} {w : W} {f : Flat}

def kept (s : WriteCachedStore S) (i : Nat) : Option Bytes :=
  if s.mode = .none then none else s.lookup i

variable [BlockStore Reply S]

theorem readAt_agrees {s : WriteCachedStore (CachedStore S)} (inner : Serves env Inner)
    (h : s.inner.Agrees Inner { i | s.kept i = none } w f)
    (agrees : ∀ i data, s.kept i = some data → f.Agrees i data) {offset len : Nat}
    (hin : offset + len ≤ f.capacity) :
    (readAt offset len).Succeeds env s w fun bytes _ _ => bytes = span f.byte offset len := by
  have proper := inner.proper h.inner
  refine Reads.get.andThen fun t ht => ?_
  subst t
  split
  · rename_i hmode
    refine (onInner_succeeds (CachedStore.readAt_agrees inner h hin fun p _ => if_pos
      hmode)).mono ?_
    rintro bytes s' w' ⟨-, hbytes, -⟩
    exact hbytes
  · rename_i hmode
    change (lift (checkRange (BlockStore.capacity Reply s.inner.inner) offset len) >>=
      _).Succeeds _ _ _ _
    rw [inner.capacity h.inner]
    refine Succeeds.bind (Succeeds.lift ((checkRange_ok proper.capacity_lt).mpr hin) ?_)
    refine Succeeds.bind ((Succeeds.collect
      (K := fun s' w' => s' = s.withInner s'.inner ∧
        s'.inner.Agrees Inner { i | s.kept i = none } w' f)
      (fun p => slice (f.chunk p.idx) p.within p.take) _ ⟨rfl, h⟩ fun p hp s₁ w₁ h₁ => ?_).mono ?_)
    · change p ∈ pieces (BlockStore.chunkSize Reply s.inner.inner) offset len at hp
      rw [inner.chunkSize h.inner] at hp
      obtain ⟨-, hfit, -, hend⟩ := mem_pieces proper.chunkSize_pos hp
      obtain ⟨hs₁, hinner⟩ := h₁
      refine Reads.get.andThen fun t ht => ?_
      subst t
      have hlook : s₁.lookup p.idx = s.kept p.idx := by
        rw [kept, if_neg hmode, hs₁]
        rfl
      have hsize : BlockStore.chunkSize Reply s₁.inner = f.chunkSize := inner.chunkSize hinner.inner
      rw [hlook, hsize]
      cases hkept : s.kept p.idx with
      | some data =>
        exact Succeeds.pure ⟨(agrees _ _ hkept).slice hfit (by omega), hs₁, hinner⟩
      | none =>
        have same : ∀ q ∈ pieces f.chunkSize (p.idx * f.chunkSize + p.within) p.take,
            s.kept q.idx = none := by
          intro q hq
          obtain ⟨hpos, hshort, hlow, hhigh⟩ := mem_pieces proper.chunkSize_pos hq
          have hq : (q.idx * f.chunkSize + q.within) / f.chunkSize = q.idx :=
            (Flat.div_eq_iff proper.chunkSize_pos).mpr ⟨by omega, by omega⟩
          have hp : (q.idx * f.chunkSize + q.within) / f.chunkSize = p.idx :=
            (Flat.div_eq_iff proper.chunkSize_pos).mpr ⟨by omega, by omega⟩
          rw [← hq, hp, hkept]
        refine (onInner_succeeds (CachedStore.readAt_agrees inner hinner (by omega) same)).mono ?_
        rintro _ s₂ w₂ ⟨hs₂, rfl, hinner₂⟩
        refine ⟨(slice_span f.byte hfit).symm, ?_, hinner₂⟩
        rw [hs₂, hs₁]
        rfl
    · rintro _ s' w' ⟨rfl, -⟩
      refine Succeeds.pure ?_
      change (List.map _ (pieces (BlockStore.chunkSize Reply s.inner.inner) offset len)).flatten = _
      rw [inner.chunkSize h.inner]
      exact flatten_pieces proper.chunkSize_pos f.byte offset len

theorem readAt_one {i k : Nat} (hk : k < BlockStore.chunkSize Reply s.inner) {P : Bytes → Prop}
    (hkept : ∀ data, s.kept i = some data → P (slice data k 1))
    (hinner : s.kept i = none →
      (BlockStore.readAt (i * BlockStore.chunkSize Reply s.inner + k) 1 :
        StoreM Reply S Bytes).Keeps Anything (fun _ _ => True) s.inner ()
          fun bytes _ _ => P bytes) :
    (readAt (i * BlockStore.chunkSize Reply s.inner + k) 1 : StoreM Reply _ _).Keeps Anything
      (fun _ _ => True) s () fun bytes _ _ => P bytes := by
  refine Keeps.bind (Keeps.get trivial ?_)
  split
  · rename_i hmode
    exact Keeps.within (hinner (if_pos hmode))
  · rename_i hmode
    rw [kept, if_neg hmode] at hkept hinner
    refine Keeps.bind (Keeps.lift trivial ?_)
    rintro - -
    rw [pieces_one hk]
    refine Keeps.bind (Keeps.bind (Keeps.bind (Keeps.get trivial ?_)))
    have last : ∀ bytes : Bytes, P bytes → ∀ s' : WriteCachedStore S,
        (collect readPiece [] >>= fun rest => pure (bytes :: rest) :
          StoreM Reply _ _).Keeps Anything (fun _ _ => True) s' () fun parts s' w' =>
            (pure parts.flatten : StoreM Reply _ _).Keeps Anything (fun _ _ => True) s' w'
              fun bytes _ _ => P bytes := by
      intro bytes hbytes s'
      refine Keeps.pure trivial (Keeps.pure trivial ?_)
      simpa using hbytes
    cases hlook : s.lookup i with
    | some data => exact Keeps.pure trivial (last _ (hkept data hlook) s)
    | none => exact Keeps.within ((hinner hlook).mono fun bytes _ _ _ hbytes => last _ hbytes _)

end WriteCachedStore

namespace S3

/-- `PrefixObjectStats`, without the sizes. -/
structure PrefixObjectStats where
  objectCount : Nat := 0
  chunkCount : Nat := 0
  metaCount : Nat := 0
  otherCount : Nat := 0
  deriving DecidableEq, Repr

inductive KeyClass where
  | metadata
  | chunk
  | other
  deriving DecidableEq, Repr

/-- A key is counted by its text: first as metadata, then as a chunk. -/
def keyClass (family : Str) (key : Key) : KeyClass :=
  if "/meta.json".toList <:+ key ∨ key = family ++ "/meta.json".toList then .metadata
  else if "/chunks/".toList <:+: key then .chunk
  else .other

def PrefixObjectStats.add (family : Str) (stats : PrefixObjectStats) (key : Key) :
    PrefixObjectStats :=
  let stats := { stats with objectCount := stats.objectCount + 1 }
  match keyClass family key with
  | .metadata => { stats with metaCount := stats.metaCount + 1 }
  | .chunk => { stats with chunkCount := stats.chunkCount + 1 }
  | .other => { stats with otherCount := stats.otherCount + 1 }

/-- `list_prefix_stats` for the prefix of a volume, which is trimmed as when the volume is
opened. -/
def listPrefixStats : VolM PrefixObjectStats := do
  let s ← StoreM.get
  let keys ← listKeys (s.family ++ "/".toList)
  pure (keys.foldl (PrefixObjectStats.add s.family) ⟨0, 0, 0, 0⟩)

theorem PrefixObjectStats.chunkCount_add (family : Str) (stats : PrefixObjectStats) (key : Key) :
    (stats.add family key).chunkCount =
      stats.chunkCount + (if keyClass family key = .chunk then 1 else 0) := by
  unfold PrefixObjectStats.add
  cases keyClass family key <;> rfl

theorem PrefixObjectStats.chunkCount_foldl (family : Str) (keys : List Key)
    (stats : PrefixObjectStats) : (keys.foldl (PrefixObjectStats.add family) stats).chunkCount =
      stats.chunkCount + keys.countP (keyClass family · = .chunk) := by
  induction keys generalizing stats with
  | nil => rfl
  | cons key keys ih =>
    rw [List.foldl_cons, ih, chunkCount_add, List.countP_cons]
    simp only [decide_eq_true_eq]
    omega

theorem PrefixObjectStats.no_chunk {family : Str} {keys : List Key} {stats : PrefixObjectStats}
    (h : (keys.foldl (PrefixObjectStats.add family) stats).chunkCount = 0) {key : Key}
    (hkey : key ∈ keys) (hchunk : "/chunks/".toList <:+: key) :
    "/meta.json".toList <:+ key ∨ key = family ++ "/meta.json".toList := by
  rw [chunkCount_foldl] at h
  have hnone := List.countP_eq_zero.mp (Nat.eq_zero_of_add_eq_zero_left h) key hkey
  by_contra hmeta
  exact hnone (decide_eq_true (by rw [keyClass, if_neg hmeta, if_pos hchunk]))

theorem not_meta {front name : Str} (family : Str) (hne : name ≠ [])
    (hhex : ∀ c ∈ name, c ∈ "0123456789abcdef".toList) :
    ¬("/meta.json".toList <:+ front ++ name ∨ front ++ name = family ++ "/meta.json".toList) := by
  have last : ∀ t, front ++ name ≠ t ++ "/meta.json".toList := by
    intro t heq
    have hlast := congrArg List.getLast? heq
    rw [List.getLast?_append_of_ne_nil _ hne, List.getLast?_append_of_ne_nil _ (by decide)] at hlast
    exact absurd (hhex 'n' (List.mem_of_getLast? hlast)) (by decide)
  rintro (⟨t, ht⟩ | heq)
  · exact last t ht.symm
  · exact last family heq

section Empty

variable {family : Str} {keys : List Key} {i : Nat} {b : Bucket}

theorem no_chunk_key (hkeys : ∀ k, k ∈ keys ↔ k ∈ b ∧ family ++ "/".toList <+: k)
    (h : (keys.foldl (PrefixObjectStats.add family) ⟨0, 0, 0, 0⟩).chunkCount = 0) {area : Area}
    (harea : "/chunks/".toList <:+: area.path) (dir : Str) {name : Str} (hne : name ≠ [])
    (hhex : ∀ c ∈ name, c ∈ "0123456789abcdef".toList) :
    b.lookup (areaFront family area ++ dir ++ name) = none := by
  by_contra hsome
  obtain ⟨body, hbody⟩ := Option.ne_none_iff_exists'.mp hsome
  have hfront : areaFront family area <+: areaFront family area ++ dir ++ name := by
    rw [List.append_assoc]
    exact List.prefix_append _ _
  have hmem : areaFront family area ++ dir ++ name ∈ keys :=
    (hkeys _).mpr ⟨mem_iff_lookup.mpr ⟨body, hbody⟩, (slash_areaFront family area).trans hfront⟩
  have hchunk : "/chunks/".toList <:+: areaFront family area ++ dir ++ name :=
    (harea.trans (List.suffix_append family area.path).isInfix).trans hfront.isInfix
  exact not_meta family hne hhex (PrefixObjectStats.no_chunk h hmem hchunk)

theorem hex_ne_nil (i : Nat) : hex 16 i ≠ [] := by
  intro h
  have hlen := length_hex 16 i
  rw [h] at hlen
  exact absurd hlen (by decide)

theorem plainChunk_empty [External] {s : S3ChunkStore}
    (hkeys : ∀ k, k ∈ keys ↔ k ∈ b ∧ s.family ++ "/".toList <+: k)
    (h : (keys.foldl (PrefixObjectStats.add s.family) ⟨0, 0, 0, 0⟩).chunkCount = 0) (i : Nat) :
    plainChunk b s i = .ok (zeros s.chunkSize) := by
  have flat : ∀ {area : Area}, "/chunks/".toList <:+: area.path →
      b.lookup (areaFront s.family area ++ hex 16 i) = none := fun harea => by
    have hnone := no_chunk_key hkeys h harea [] (hex_ne_nil i) fun c hc => mem_hex hc
    rwa [List.append_nil] at hnone
  cases hs : s.storage with
  | cow => exact plainChunk_missing hs (flat (by decide))
  | legacy =>
    have hshard : b.lookup (legacyChunkKey s.family i) = none := by
      have hname : (hex 16 i).take 12 ≠ [] := by
        intro hnil
        have hlen := congrArg List.length hnil
        rw [List.length_take, length_hex] at hlen
        exact absurd hlen (by decide)
      have hkey : legacyChunkKey s.family i = areaFront s.family .legacyChunks ++
          ((hex 16 i).drop 14 ++ '/' :: ((hex 16 i).drop 12).take 2 ++ ['/']) ++
            (hex 16 i).take 12 := by
        simp [legacyChunkKey, shardChunkIndex]
      rw [hkey]
      exact no_chunk_key hkeys h (by decide) _ hname fun c hc => mem_hex (List.mem_of_mem_take hc)
    simp only [plainChunk, storedBody, hs, hshard, Option.none_or]
    rw [legacyFlatChunkKey, flat (by decide)]

end Empty

end S3

namespace Admin

open S3

section WriteImage

variable [External] {V : Type} [DecidableEq V]

/-- Volume is seedable when it has no live chunk or pointer objects yet. -/
def ensurePrefixEmptyForSeed (stats : PrefixObjectStats) : Except StoreError Unit :=
  if 0 < stats.chunkCount then
    .error (.other ("volume is not empty: " ++ toString stats.chunkCount ++
      " chunk object(s) already exist under the prefix"))
  else .ok ()

structure WriteImagePrep where
  volumeName : Str
  size : Nat
  capacity : Nat
  chunkSize : Nat
  deriving DecidableEq, Repr

def prepareWriteImage (v : V) (bucket : Option Str) (size : Option Nat) :
    StoreM Reply (AdminState V) WriteImagePrep := do
  match size with
  | none => StoreM.throw (.other "size is required for volume.write_image")
  | some size =>
    if size = 0 then StoreM.throw (.other "size must be greater than 0")
    else do
      let st ← StoreM.get
      let capacity := BlockStore.capacity Reply ((storeOf v).get st)
      if capacity < size then
        StoreM.throw (.other ("image size " ++ toString size ++ " exceeds volume capacity " ++
          toString capacity))
      else match bucket with
      | none => StoreM.throw (.other "s3.bucket is not configured")
      | some _ => do
        let stats ← onS3 v listPrefixStats
        StoreM.lift (ensurePrefixEmptyForSeed stats)
        pure ⟨nameOf v st, size, capacity, BlockStore.chunkSize Reply ((storeOf v).get st)⟩

/-- What the caches of the daemon have of a chunk, as a read finds it. -/
def VolumeStore.kept (s : VolumeStore) (i : Nat) : Option Bytes :=
  (s.store.kept i).or (s.cached.cache.lookup s.cached.volume i)

section Admission

variable {env : Env Req Reply Bucket} [Honest env] {v : V} {st : AdminState V} {b : Bucket}

theorem listPrefixStats_reads (s : S3ChunkStore) :
    listPrefixStats.Reads env s b (Returns fun stats => stats.chunkCount = 0 →
      ∀ i, plainChunk b s i = .ok (zeros s.chunkSize)) := by
  refine Reads.get.bind_returns fun t ht => ?_
  subst t
  refine (listKeys_reads _).bind_returns fun keys hkeys => ?_
  exact Reads.pure (Returns.ok.mpr fun h i => plainChunk_empty hkeys h i)

theorem prepareWriteImage_keeps (bucket : Option Str) (size : Option Nat) :
    (prepareWriteImage v bucket size).Keeps env
      (fun st' b' => (storeOf v).get st' = (storeOf v).get st ∧ b' = b) st b fun prep _ _ =>
        prep.capacity = ((storeOf v).get st).s3.capacity ∧
        prep.chunkSize = ((storeOf v).get st).s3.chunkSize ∧ prep.size ≤ prep.capacity ∧
        ∀ i, plainChunk b ((storeOf v).get st).s3 i =
          .ok (zeros ((storeOf v).get st).s3.chunkSize) := by
  unfold prepareWriteImage
  cases size with
  | none => exact Keeps.throw ⟨rfl, rfl⟩
  | some size =>
    dsimp only
    split
    · exact Keeps.throw ⟨rfl, rfl⟩
    refine Keeps.bind (Keeps.get ⟨rfl, rfl⟩ ?_)
    split
    · exact Keeps.throw ⟨rfl, rfl⟩
    rename_i hfits
    cases bucket with
    | none => exact Keeps.throw ⟨rfl, rfl⟩
    | some name =>
      have listed : (onVolume v (VolumeStore.onS3 listPrefixStats)).Keeps env
          (fun st' b' => (storeOf v).get st' = (storeOf v).get st ∧ b' = b) st b fun stats _ _ =>
            stats.chunkCount = 0 → ∀ i, plainChunk b ((storeOf v).get st).s3 i =
              .ok (zeros ((storeOf v).get st).s3.chunkSize) := by
        refine Keeps.within ((Reads.within (listPrefixStats_reads _) rfl).keeps ?_ fun _ h =>
          Returns.ok.mp h)
        exact ⟨storeOf_get_set st _, rfl⟩
      refine Keeps.bind ((mapErr_keeps listed "" "").mono fun stats st' b' hK hstats => ?_)
      refine Keeps.bind (Keeps.lift hK fun _ hempty => Keeps.pure hK ⟨rfl, rfl, ?_, hstats ?_⟩)
      · exact Nat.not_lt.mp hfits
      · unfold ensurePrefixEmptyForSeed at hempty
        split at hempty
        · cases hempty
        · omega

omit [External] in
theorem span_zero (start len : Nat) : span (fun _ => (0 : UInt8)) start len = zeros len := by
  simp [span, zeros, List.map_const']

def emptyArray (s : S3ChunkStore) (b : Bucket) : Flat where
  capacity := s.capacity
  chunkSize := s.chunkSize
  blockSize := s.blockSize
  byte _ := 0
  present := { i | i ∈ indices b s.chunksFront }

theorem stores_emptyArray {s : S3ChunkStore} (hpos : 0 < s.chunkSize) (hcap : s.capacity < u64Size)
    (h : ∀ i, plainChunk b s i = .ok (zeros s.chunkSize)) : Stores s b (emptyArray s b) := by
  refine ⟨⟨hpos, hcap, fun _ _ => rfl, fun _ _ => rfl⟩, rfl, rfl, rfl, fun i _ => ?_,
    fun i => Iff.rfl⟩
  rw [h i]
  exact congrArg Except.ok (span_zero _ _).symm

/-- A volume that has been admitted reads as zero if and only if what the caches of the daemon hold
of it is zero. -/
theorem prepare_write_image_reads_zero_iff {bucket : Option Str} {size : Option Nat}
    {prep : WriteImagePrep} {st' : AdminState V} {b' : Bucket}
    (run : (prepareWriteImage v bucket size st).Runs env b (.ok prep, st') b')
    (chunkSize_pos : 0 < prep.chunkSize) (capacity_lt : prep.capacity < u64Size)
    (unlocked : ((storeOf v).get st').cached.ioLocked = false) (etag : Bytes → Str) :
    (∀ offset len, offset + len ≤ prep.capacity →
      ((storeOf v).on (BlockStore.readAt offset len)).Succeeds (Reliable etag) st' b'
        fun bytes _ _ => bytes = zeros len) ↔
    ∀ i data, ((storeOf v).get st').kept i = some data → ∀ k < prep.chunkSize,
      i * prep.chunkSize + k < prep.capacity → data[k]? = some 0 := by
  obtain ⟨⟨hst, rfl⟩, hcap, hsize, -, hempty⟩ :=
    Prog.Safe.runs (prepareWriteImage_keeps bucket size) run
  change (storeOf v).get st' = _ at hst
  rw [← hst] at hcap hsize hempty
  rw [hcap] at capacity_lt ⊢
  rw [hsize] at chunkSize_pos ⊢
  generalize hs : (storeOf v).get st' = s at *
  have stores := stores_emptyArray chunkSize_pos capacity_lt hempty
  constructor
  · -- a byte that is kept is read
    intro reads i data hdata k hk hin
    have value : ((storeOf v).on (BlockStore.readAt (i * s.s3.chunkSize + k) 1) :
        StoreM Reply (AdminState V) Bytes).Keeps Anything (fun _ _ => True) st' ()
          fun bytes _ _ => bytes = slice data k 1 := by
      refine Keeps.within (Keeps.within ?_)
      rw [hs]
      refine WriteCachedStore.readAt_one hk (fun bytes hbytes => ?_) fun hnone => ?_
      · rw [VolumeStore.kept, hbytes] at hdata
        rw [Option.some.inj hdata]
      · rw [VolumeStore.kept, hnone] at hdata
        exact CachedStore.readAt_cached hk hdata
    obtain ⟨bytes, st₁, b₁, hrun, hzero⟩ :=
      (reads (i * s.s3.chunkSize + k) 1 (by omega)).exec (reliable_answer etag)
    have hbytes := Prog.Safe.runs value (runs_anything (answer etag) _ b')
    rw [hrun] at hbytes
    have hslice : slice data k 1 = zeros 1 := hbytes.2.symm.trans hzero
    have hfirst := congrArg (fun xs : Bytes => xs[0]?) hslice
    simpa [getElem?_slice, zeros] using hfirst
  · intro zero offset len hin
    have agrees : ∀ i data, s.kept i = some data → (emptyArray s.s3 b').Agrees i data := zero
    refine Succeeds.within (Succeeds.within ?_)
    rw [hs]
    refine (WriteCachedStore.readAt_agrees (f := emptyArray s.s3 b') serves
      ⟨unlocked, stores, fun i hi data hdata => agrees i data ?_⟩
        (fun i data hdata => agrees i data ?_) hin).mono ?_
    · rw [VolumeStore.kept, hi]
      exact hdata
    · rw [VolumeStore.kept, hdata]
      rfl
    · rintro bytes _ _ rfl
      exact span_zero _ _

end Admission

end WriteImage

section Unwritten

open Plain

def blank : Bucket :=
  (∅ : Bucket).insert (flatMetaKey "v".toList)
    (json (⟨metaVersion, 4, 1, 1, .none, .legacy⟩ : VolumeMeta))

def memoryDaemon : AdminState Unit where
  cache := .new 64
  volumeStores _ := ⟨.opened ⟨⟨"v".toList, 1, 1, .none, .legacy, 4, "v".toList⟩, .new 64,
    "v".toList, false⟩ .memory 64 0 ∅, []⟩

/-- The daemon after a read of the first chunk, whose zero the pool keeps. -/
def warmDaemon : AdminState Unit :=
  { memoryDaemon with cache := (memoryDaemon.cache.get "v".toList 0).2.put "v".toList 0 [0] }

@[irreducible] def admitted (st : AdminState Unit) (b : Bucket) :
    (Outcome WriteImagePrep × AdminState Unit) × Bucket :=
  (prepareWriteImage () (some "bucket".toList) (some 4) st).run (answer fun _ => []) b

theorem runs_admitted (st : AdminState Unit) (b : Bucket) :
    (prepareWriteImage () (some "bucket".toList) (some 4) st).Runs (Reliable fun _ => []) b
      (admitted st b).1 (admitted st b).2 := by
  rw [admitted]
  exact Prog.runs_run (reliable_answer _) _ b

/-- Nothing has been written and one chunk read: the volume is admitted, and it reads as zero. -/
theorem prepare_write_image_warm :
    (((storeOf ()).on (BlockStore.readAt 0 1) : StoreM Reply (AdminState Unit) Bytes)
      memoryDaemon |>.run (answer fun _ => []) blank).1.2.cache.entries.entries =
        warmDaemon.cache.entries.entries ∧
    (admitted warmDaemon blank).1.1 = .ok ⟨"v".toList, 4, 4, 1⟩ ∧
    ((storeOf ()).on (BlockStore.readAt 0 4)).Succeeds (Reliable fun _ => [])
      (admitted warmDaemon blank).1.2 (admitted warmDaemon blank).2
        fun bytes _ _ => bytes = zeros 4 := by
  have hok : (admitted warmDaemon blank).1.1 = .ok ⟨"v".toList, 4, 4, 1⟩ := by
    rw [admitted]
    decide +kernel
  have run := runs_admitted warmDaemon blank
  have same : (storeOf ()).get (admitted warmDaemon blank).1.2 = (storeOf ()).get warmDaemon :=
    (Prog.Safe.runs (prepareWriteImage_keeps _ _).ends run).1
  generalize admitted warmDaemon blank = result at *
  obtain ⟨⟨prep, st⟩, b⟩ := result
  obtain rfl : prep = _ := hok
  refine ⟨by decide +kernel, rfl,
    (prepare_write_image_reads_zero_iff run (by decide) (by decide) ?_ _).mpr ?_ 0 4 (by decide)⟩
  · rw [same]
    rfl
  · rw [same]
    intro i data hkept k hk _
    obtain rfl : k = 0 := Nat.lt_one_iff.mp hk
    have hput := ChunkCache.lookup_put hkept
    split at hput
    · rw [hput]
      rfl
    · cases hput

@[irreducible] def dirtied : (Outcome Unit × AdminState Unit) × Bucket :=
  ((storeOf ()).on (BlockStore.writeAt 0 [7]) memoryDaemon).run (answer fun _ => []) blank

/-- A byte has been written and is still in the write cache: the volume is admitted all the same,
and the byte is read. -/
theorem write_image_admits_dirty :
    dirtied.1.1 = .ok () ∧
    (admitted dirtied.1.2 dirtied.2).1.1 = .ok ⟨"v".toList, 4, 4, 1⟩ ∧
    (((storeOf ()).on (BlockStore.readAt 0 4) : StoreM Reply (AdminState Unit) Bytes)
      (admitted dirtied.1.2 dirtied.2).1.2 |>.run (answer fun _ => [])
        (admitted dirtied.1.2 dirtied.2).2).1.1 = .ok [7, 0, 0, 0] := by
  rw [admitted, dirtied]
  decide +kernel

end Unwritten

end Admin

end IscsiS3
