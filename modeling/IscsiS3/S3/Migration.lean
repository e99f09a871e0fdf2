import IscsiS3.S3.Exact
import IscsiS3.S3.LivePointers

/-! A migration that is interrupted any number of times. A chunk that is under both its legacy keys
loses the sharded one first, and for a moment only the older body is left: an attempt that begins in
such a state takes the older body for the chunk's. -/

namespace IscsiS3.S3

open Request External StoreM

/-- The body of a chunk in the legacy layout: that of the sharded key, or else of the flat one. -/
def legacyStored (b : Bucket) (family : Str) (i : Nat) : Option Bytes :=
  (b.lookup (legacyChunkKey family i)).or (b.lookup (legacyFlatChunkKey family i))

/-- Of the chunk only the flat key is left, with another body than the chunk had in `b₀`. -/
def Stale (family : Str) (b₀ b : Bucket) (i : Nat) : Prop :=
  ∃ old, b.lookup (legacyChunkKey family i) = none ∧
    b.lookup (legacyFlatChunkKey family i) = some old ∧ legacyStored b₀ family i ≠ some old

/-- The service may fail, and no attempt begins while a chunk is stale; the first request of an
attempt puts the marker. -/
def FreshStarts (family : Str) (b₀ : Bucket) : Env Req Reply Bucket := fun r b x b' =>
  Unreliable r b x b' ∧ ∀ body ifMatch, r = .put (migratingKey family) body ifMatch →
    ∀ i < u64Size, ¬Stale family b₀ b i

instance (family : Str) (b₀ : Bucket) : Honest (FreshStarts family b₀) := ⟨fun _ _ _ _ h => h.1⟩

theorem not_stale_self (family : Str) (b : Bucket) (i : Nat) : ¬Stale family b b i := by
  rintro ⟨old, hsharded, hflat, hne⟩
  exact hne (by simp [legacyStored, hsharded, hflat])

theorem legacyStored_of_not_stale {family : Str} {b₀ b : Bucket} {i : Nat} {body : Bytes}
    (sharded : ∀ body, b.lookup (legacyChunkKey family i) = some body →
      legacyStored b₀ family i = some body)
    (fresh : ¬Stale family b₀ b i) (hbody : legacyStored b family i = some body) :
    legacyStored b₀ family i = some body := by
  rcases Option.or_eq_some_iff.mp hbody with hbody | ⟨hnone, hbody⟩
  · exact sharded body hbody
  · by_contra hne
    exact fresh ⟨body, hnone, hbody, hne⟩

theorem legacyKey_ne {family : Str} {i j : Nat} (hi : i < u64Size) (hj : j < u64Size) (hij : i ≠ j)
    {k l : Key} (hk : k = legacyChunkKey family i ∨ k = legacyFlatChunkKey family i)
    (hl : l = legacyChunkKey family j ∨ l = legacyFlatChunkKey family j) : k ≠ l := by
  rintro rfl
  have h := parseChunkIndex_of_legacy hi hk
  rw [parseChunkIndex_of_legacy hj hl] at h
  exact hij (Option.some.inj h).symm

section Moving

variable [External]

/-- The chunk has been moved: its live pointer names the object with the body. -/
def Moved (family : Str) (b : Bucket) (i : Nat) (body : Bytes) : Prop :=
  b.lookup (liveChunkKey family i) = some (encodePointer (blake3 body)) ∧
    b.lookup (objectKey family (blake3 body)) = some body

/-- Every chunk has been moved with the body that it had in `b₀`. -/
def Complete (family : Str) (b₀ b : Bucket) : Prop :=
  ∀ i < u64Size, ∀ body, legacyStored b₀ family i = some body → Moved family b i body

/-- A chunk before it is moved, while it is moved and after that. -/
structure ChunkOk (family : Str) (b₀ b : Bucket) (i : Nat) : Prop where
  sharded : ∀ body, b.lookup (legacyChunkKey family i) = some body →
    legacyStored b₀ family i = some body
  kept : ∀ body, legacyStored b₀ family i = some body →
    legacyStored b family i = some body ∨ Moved family b i body
  empty : legacyStored b₀ family i = none →
    legacyStored b family i = none ∧ b.lookup (liveChunkKey family i) = none

/-- A volume of capacity `cap` whose migration began in `b₀`: once the new metadata is there, every
chunk has been moved. -/
structure Moving (v : Shape) (cap : Nat) (b₀ b : Bucket) : Prop where
  chunks : ∀ i < u64Size, ChunkOk v.family b₀ b i
  books : ∃ m, Effective v b m ∧ m.capacityBytes = cap
  committed : liveMetaKey v.family ∈ b → Complete v.family b₀ b

def NoCollisions (family : Str) (b₀ : Bucket) : Prop :=
  Set.InjOn blake3 {body | ∃ i < u64Size, legacyStored b₀ family i = some body}

variable {v : Shape} {cap : Nat} {family : Str} {b₀ b b' : Bucket} {i j : Nat} {body : Bytes}
variable {rest : List Nat} {other : Bytes} {k : Key}

theorem Moved.congr (h : Moved family b i body) (live : Same family .liveChunks b b')
    (objects : Same family .objects b b') : Moved family b' i body :=
  ⟨(live _ (inArea_live _ _)).trans h.1, (objects _ (inArea_object _ _)).trans h.2⟩

theorem ChunkOk.congr (h : ChunkOk family b₀ b i) (legacy : Same family .legacyChunks b b')
    (live : b'.lookup (liveChunkKey family i) = b.lookup (liveChunkKey family i))
    (moved : ∀ body, legacyStored b₀ family i = some body → Moved family b i body →
      Moved family b' i body) : ChunkOk family b₀ b' i := by
  have hstored : legacyStored b' family i = legacyStored b family i := by
    simp only [legacyStored, legacy _ (inArea_legacy _ _), legacy _ (inArea_flat _ _)]
  refine ⟨fun body hbody => ?_, fun body hbody => ?_, fun hnone => ?_⟩
  · exact h.sharded body ((legacy _ (inArea_legacy _ _)).symm.trans hbody)
  · rw [hstored]
    exact (h.kept body hbody).imp id (moved body hbody)
  · rw [hstored, live]
    exact h.empty hnone

theorem Moving.change (h : Moving v cap b₀ b) (live : Same v.family .liveMeta b b')
    (flat : Same v.family .flatMeta b b') (chunks : ∀ i < u64Size, ChunkOk v.family b₀ b' i)
    (moved : ∀ i < u64Size, ∀ body, legacyStored b₀ v.family i = some body →
      Moved v.family b i body → Moved v.family b' i body) : Moving v cap b₀ b' := by
  refine ⟨chunks, ?_, fun hmem i hi body hbody => ?_⟩
  · obtain ⟨m, hm, hcap⟩ := h.books
    exact ⟨m, hm.congr live flat, hcap⟩
  · exact moved i hi body hbody
      (h.committed ((live.mem (inArea_liveMeta _)).mp hmem) i hi body hbody)

theorem Moved.insert_object (collisions : NoCollisions family b₀) (hi : i < u64Size)
    (hj : j < u64Size) (hbody : legacyStored b₀ family i = some body)
    (hother : legacyStored b₀ family j = some other) (h : Moved family b i body) :
    Moved family (b.insert (objectKey family (blake3 other)) other) i body := by
  refine ⟨(same_insert (inArea_object _ _) (by decide) _ (inArea_live _ _)).trans h.1, ?_⟩
  by_cases heq : blake3 body = blake3 other
  · obtain rfl := collisions ⟨i, hi, hbody⟩ ⟨j, hj, hother⟩ heq
    exact AList.lookup_insert _
  · rw [AList.lookup_insert_ne fun hkey => heq (objectKey_inj hkey)]
    exact h.2

theorem Moving.insert_object (collisions : NoCollisions v.family b₀) (h : Moving v cap b₀ b)
    (hj : j < u64Size) (hbody : legacyStored b₀ v.family j = some body) :
    Moving v cap b₀ (b.insert (objectKey v.family (blake3 body)) body) := by
  have moved : ∀ i < u64Size, ∀ other, legacyStored b₀ v.family i = some other →
      Moved v.family b i other →
        Moved v.family (b.insert (objectKey v.family (blake3 body)) body) i other :=
    fun i hi other hother h => h.insert_object collisions hi hj hother hbody
  refine h.change (same_insert (inArea_object _ _) (by decide))
    (same_insert (inArea_object _ _) (by decide)) (fun i hi => ?_) moved
  exact (h.chunks i hi).congr (same_insert (inArea_object _ _) (by decide))
    (same_insert (inArea_object _ _) (by decide) _ (inArea_live _ _)) (moved i hi)

theorem Moved.insert_pointer (hi : i < u64Size) (hj : j < u64Size)
    (hbody : legacyStored b₀ family i = some body) (hother : legacyStored b₀ family j = some other)
    (object : b.lookup (objectKey family (blake3 other)) = some other)
    (h : i = j ∨ Moved family b i body) :
    Moved family (b.insert (liveChunkKey family j) (encodePointer (blake3 other))) i body := by
  have objects : Same family .objects b
      (b.insert (liveChunkKey family j) (encodePointer (blake3 other))) :=
    same_insert (inArea_live _ _) (by decide)
  by_cases hij : i = j
  · subst hij
    obtain rfl := Option.some.inj (hbody.symm.trans hother)
    exact ⟨AList.lookup_insert _, (objects _ (inArea_object _ _)).trans object⟩
  · have h := h.resolve_left hij
    exact ⟨(AList.lookup_insert_ne fun hkey => hij (liveChunkKey_inj hi hj hkey)).trans h.1,
      (objects _ (inArea_object _ _)).trans h.2⟩

section

variable (h : Moving v cap b₀ b) (hj : j < u64Size) (hbody : legacyStored b₀ v.family j = some body)

include h hj hbody

theorem Moving.insert_pointer (object : b.lookup (objectKey v.family (blake3 body)) = some body) :
    Moving v cap b₀ (b.insert (liveChunkKey v.family j) (encodePointer (blake3 body))) := by
  have moved : ∀ i < u64Size, ∀ other, legacyStored b₀ v.family i = some other →
      i = j ∨ Moved v.family b i other →
        Moved v.family (b.insert (liveChunkKey v.family j) (encodePointer (blake3 body))) i other :=
    fun i hi other hother => Moved.insert_pointer hi hj hother hbody object
  have legacy : Same v.family .legacyChunks b
      (b.insert (liveChunkKey v.family j) (encodePointer (blake3 body))) :=
    same_insert (inArea_live _ _) (by decide)
  refine h.change (same_insert (inArea_live _ _) (by decide))
    (same_insert (inArea_live _ _) (by decide)) (fun i hi => ?_)
    fun i hi other hother hm => moved i hi other hother (.inr hm)
  by_cases hij : i = j
  · subst hij
    refine ⟨fun other hother => ?_, fun other hother => ?_, fun hnone => ?_⟩
    · exact (h.chunks i hi).sharded other ((legacy _ (inArea_legacy _ _)).symm.trans hother)
    · exact .inr (moved i hi other hother (.inl rfl))
    · rw [hbody] at hnone
      cases hnone
  · refine (h.chunks i hi).congr legacy ?_ fun other hother hm => moved i hi other hother (.inr hm)
    exact AList.lookup_insert_ne fun hkey => hij (liveChunkKey_inj hi hj hkey)

theorem Moving.erase_legacy (hmoved : Moved v.family b j body)
    (hk : k = legacyChunkKey v.family j ∨ k = legacyFlatChunkKey v.family j) :
    Moving v cap b₀ (b.erase k) := by
  have harea : InArea v.family .legacyChunks k := by
    rcases hk with rfl | rfl
    · exact inArea_legacy _ _
    · exact inArea_flat _ _
  have live := same_erase (b := b) harea (by decide : Area.legacyChunks ≠ .liveChunks)
  have objects := same_erase (b := b) harea (by decide : Area.legacyChunks ≠ .objects)
  refine h.change (same_erase harea (by decide)) (same_erase harea (by decide)) (fun i hi => ?_)
    fun i _ other _ hm => hm.congr live objects
  have hok := h.chunks i hi
  by_cases hij : i = j
  · subst hij
    refine ⟨fun other hother => ?_, fun other hother => .inr ?_, fun hnone => ?_⟩
    · by_cases hkey : legacyChunkKey v.family i = k
      · rw [hkey, AList.lookup_erase] at hother
        cases hother
      · rw [AList.lookup_erase_ne hkey] at hother
        exact hok.sharded other hother
    · obtain rfl := Option.some.inj (hbody.symm.trans hother)
      exact hmoved.congr live objects
    · rw [hbody] at hnone
      cases hnone
  · have hsharded := AList.lookup_erase_ne (s := b) (legacyKey_ne hi hj hij (.inl rfl) hk)
    have hflat := AList.lookup_erase_ne (s := b) (legacyKey_ne hi hj hij (.inr rfl) hk)
    have hstored : legacyStored (b.erase k) v.family i = legacyStored b v.family i := by
      simp only [legacyStored, hsharded, hflat]
    refine ⟨fun other hother => hok.sharded other (hsharded.symm.trans hother),
      fun other hother => ?_, fun hnone => ?_⟩
    · rw [hstored]
      exact (hok.kept other hother).imp id fun hm => hm.congr live objects
    · rw [hstored, live _ (inArea_live _ _)]
      exact hok.empty hnone

end

theorem Moving.marker (h : Moving v cap b₀ b)
    (same : ∀ area, area ≠ .migrating → Same v.family area b b') : Moving v cap b₀ b' := by
  have moved : ∀ {i body}, Moved v.family b i body → Moved v.family b' i body := fun h =>
    h.congr (same _ (by decide)) (same _ (by decide))
  refine h.change (same _ (by decide)) (same _ (by decide)) (fun i hi => ?_)
    fun _ _ _ _ hm => moved hm
  exact (h.chunks i hi).congr (same _ (by decide)) (same _ (by decide) _ (inArea_live _ _))
    fun _ _ hm => moved hm

structure Turning (family : Str) (b₀ : Bucket) (rest : List Nat) (b : Bucket) : Prop where
  fresh : ∀ i ∈ rest, ¬Stale family b₀ b i
  lt : ∀ i ∈ rest, i < u64Size
  distinct : rest.Nodup
  moved : ∀ i < u64Size, i ∉ rest → ∀ body, legacyStored b₀ family i = some body →
    Moved family b i body

omit [External] in
theorem not_stale_congr (h : ¬Stale family b₀ b i)
    (sharded : b'.lookup (legacyChunkKey family i) = b.lookup (legacyChunkKey family i))
    (flat : b'.lookup (legacyFlatChunkKey family i) = b.lookup (legacyFlatChunkKey family i)) :
    ¬Stale family b₀ b' i := by
  unfold Stale at h ⊢
  rwa [sharded, flat]

theorem Turning.skip (h : Turning family b₀ (i :: rest) b) (hok : ChunkOk family b₀ b i)
    (hnone : legacyStored b family i = none) : Turning family b₀ rest b where
  fresh := fun j hj => h.fresh j (List.mem_cons_of_mem _ hj)
  lt := fun j hj => h.lt j (List.mem_cons_of_mem _ hj)
  distinct := (List.nodup_cons.mp h.distinct).2
  moved := fun j hj hmem body hbody => by
    by_cases hij : j = i
    · subst hij
      refine (hok.kept body hbody).resolve_left fun hstored => ?_
      rw [hnone] at hstored
      cases hstored
    · exact h.moved j hj (by simp [hij, hmem]) body hbody

theorem Turning.insert_object (collisions : NoCollisions family b₀)
    (h : Turning family b₀ (i :: rest) b) (hbody : legacyStored b₀ family i = some body) :
    Turning family b₀ (i :: rest) (b.insert (objectKey family (blake3 body)) body) := by
  have legacy : Same family .legacyChunks b (b.insert (objectKey family (blake3 body)) body) :=
    same_insert (inArea_object _ _) (by decide)
  refine ⟨fun j hj => ?_, h.lt, h.distinct, fun j hj hmem other hother => ?_⟩
  · exact not_stale_congr (h.fresh j hj) (legacy _ (inArea_legacy _ _)) (legacy _ (inArea_flat _ _))
  · exact (h.moved j hj hmem other hother).insert_object collisions hj
      (h.lt i List.mem_cons_self) hother hbody

theorem Turning.insert_pointer (h : Turning family b₀ (i :: rest) b)
    (hbody : legacyStored b₀ family i = some body)
    (object : b.lookup (objectKey family (blake3 body)) = some body) :
    Turning family b₀ rest
      (b.insert (liveChunkKey family i) (encodePointer (blake3 body))) := by
  have legacy : Same family .legacyChunks b
      (b.insert (liveChunkKey family i) (encodePointer (blake3 body))) :=
    same_insert (inArea_live _ _) (by decide)
  refine ⟨fun j hj => ?_, fun j hj => h.lt j (List.mem_cons_of_mem _ hj),
    (List.nodup_cons.mp h.distinct).2, fun j hj hmem other hother => ?_⟩
  · exact not_stale_congr (h.fresh j (List.mem_cons_of_mem _ hj)) (legacy _ (inArea_legacy _ _))
      (legacy _ (inArea_flat _ _))
  · refine Moved.insert_pointer hj (h.lt i List.mem_cons_self) hother hbody object ?_
    by_cases hij : j = i
    · exact .inl hij
    · exact .inr (h.moved j hj (by simp [hij, hmem]) other hother)

theorem Turning.erase_legacy (h : Turning family b₀ rest b) (hi : i < u64Size) (hmem : i ∉ rest)
    (hk : k = legacyChunkKey family i ∨ k = legacyFlatChunkKey family i) :
    Turning family b₀ rest (b.erase k) := by
  have harea : InArea family .legacyChunks k := by
    rcases hk with rfl | rfl
    · exact inArea_legacy _ _
    · exact inArea_flat _ _
  refine ⟨fun j hj => ?_, h.lt, h.distinct, fun j hj hmem other hother => ?_⟩
  · have hji : j ≠ i := fun heq => hmem (heq ▸ hj)
    exact not_stale_congr (h.fresh j hj)
      (AList.lookup_erase_ne (legacyKey_ne (h.lt j hj) hi hji (.inl rfl) hk))
      (AList.lookup_erase_ne (legacyKey_ne (h.lt j hj) hi hji (.inr rfl) hk))
  · exact (h.moved j hj hmem other hother).congr (same_erase harea (by decide))
      (same_erase harea (by decide))

theorem Moving.turning (h : Moving v cap b₀ b) (fresh : ∀ i < u64Size, ¬Stale v.family b₀ b i) :
    Turning v.family b₀ (indices b (areaFront v.family .legacyChunks)) b where
  fresh := fun i hi => fresh i (lt_of_mem_indices hi)
  lt := fun i hi => lt_of_mem_indices hi
  distinct := (indices_pairwise _ _).imp fun h => h.ne
  moved := fun i hi hmem body hbody => by
    refine ((h.chunks i hi).kept body hbody).resolve_left fun hstored => hmem ?_
    rcases Option.or_eq_some_iff.mp hstored with hkey | ⟨-, hkey⟩
    · exact mem_indices.mpr ⟨_, mem_iff_lookup.mpr ⟨_, hkey⟩, parseChunkIndex_legacy _ hi⟩
    · exact mem_indices.mpr ⟨_, mem_iff_lookup.mpr ⟨_, hkey⟩, parseChunkIndex_flat _ hi⟩

theorem Turning.complete (h : Turning family b₀ [] b) : Complete family b₀ b :=
  fun i hi => h.moved i hi List.not_mem_nil

section Calls

variable {env : Env Req Reply Bucket} [Honest env] {s : S3ChunkStore}

omit [External] in
theorem tryDelete_keeps {K : S3ChunkStore → Bucket → Prop} {key : Key} (hK : K s b)
    (hK' : K s (b.erase key)) :
    (deleteObjectKey key).attempt.Keeps env K s b fun _ s' b' =>
      s' = s ∧ (b' = b ∨ b' = b.erase key) := by
  refine (Keeps.weaken (tryDelete_fixed (J := fun b' => b' = b ∨ b' = b.erase key) (.inl rfl)
    (.inr rfl)) ?_).mono fun _ _ _ _ hr => hr.1
  rintro _ _ ⟨rfl, rfl | rfl⟩
  · exact hK
  · exact hK'

section

variable (collisions : NoCollisions v.family b₀) (hs : s.family = v.family) (h : Moving v cap b₀ b)
variable (turning : Turning v.family b₀ (i :: rest) b)

include collisions hs h turning

theorem migrateBody_moves (hbody : legacyStored b₀ v.family i = some body) :
    (migrateBody i body).Keeps env (Fixed s (Moving v cap b₀)) s b
      fun _ _ b' => Turning v.family b₀ rest b' := by
  have hi := turning.lt i List.mem_cons_self
  have hmem := (List.nodup_cons.mp turning.distinct).1
  refine Reads.get.then ⟨rfl, h⟩ fun t ht => ?_
  obtain rfl := Returns.ok.mp ht
  simp only [hs]
  refine Keeps.bind ((putBytes_fixed h fun _ _ => h.insert_object collisions hi hbody).mono ?_)
  rintro - _ b₁ ⟨-, h₁⟩ ⟨rfl, rfl, -⟩
  have turning₁ := turning.insert_object collisions hbody
  have object : (b.insert (objectKey v.family (blake3 body)) body).lookup
      (objectKey v.family (blake3 body)) = some body := AList.lookup_insert _
  refine Keeps.bind ((putBytes_fixed h₁ fun _ _ => h₁.insert_pointer hi hbody object).mono ?_)
  rintro - _ b₂ ⟨-, h₂⟩ ⟨rfl, rfl, -⟩
  have turning₂ := turning₁.insert_pointer hbody object
  -- from here on the chunk has been moved, and its legacy keys may stay or go
  have erase : ∀ {b k}, (k = legacyChunkKey v.family i ∨ k = legacyFlatChunkKey v.family i) →
      Moving v cap b₀ b ∧ Turning v.family b₀ rest b →
        Moving v cap b₀ (b.erase k) ∧ Turning v.family b₀ rest (b.erase k) := fun hk hb =>
    ⟨hb.1.erase_legacy hi hbody (hb.2.moved i hi hmem body hbody) hk,
      hb.2.erase_legacy hi hmem hk⟩
  have hb₂ := And.intro h₂ turning₂
  refine Keeps.bind ((tryDelete_keeps ⟨rfl, hb₂.1⟩ ⟨rfl, (erase (.inl rfl) hb₂).1⟩).mono ?_)
  rintro - _ b₃ - ⟨rfl, hb₃⟩
  replace hb₃ : Moving v cap b₀ b₃ ∧ Turning v.family b₀ rest b₃ := by
    rcases hb₃ with rfl | rfl
    · exact hb₂
    · exact erase (.inl rfl) hb₂
  refine Keeps.bind ((tryDelete_keeps ⟨rfl, hb₃.1⟩ ⟨rfl, (erase (.inr rfl) hb₃).1⟩).mono ?_)
  rintro - _ b₄ hK ⟨rfl, rfl | rfl⟩
  · exact Keeps.pure hK hb₃.2
  · exact Keeps.pure hK (erase (.inr rfl) hb₃).2

theorem migrateChunk_moves :
    (migrateChunk i).Keeps env (Fixed s (Moving v cap b₀)) s b
      fun _ _ b' => Turning v.family b₀ rest b' := by
  have hok := h.chunks i (turning.lt i List.mem_cons_self)
  refine (legacyBody_reads i).then ⟨rfl, h⟩ fun body hbody => ?_
  replace hbody : body = legacyStored b v.family i := by
    have := Returns.ok.mp hbody
    rwa [hs] at this
  cases body with
  | none => exact Keeps.pure ⟨rfl, h⟩ (turning.skip hok hbody.symm)
  | some body =>
    have hbody₀ := legacyStored_of_not_stale hok.sharded (turning.fresh i List.mem_cons_self)
      hbody.symm
    exact Keeps.bind ((migrateBody_moves collisions hs h turning hbody₀).mono
      fun _ _ _ hK ht => Keeps.pure hK ht)

end

end Calls

structure Migrating (v : Shape) (cap : Nat) (b₀ : Bucket) (s : S3ChunkStore)
    (b : Bucket) : Prop where
  has : s.Has v
  capacity : s.capacity = cap
  moving : Moving v cap b₀ b
  complete : s.storage = .cow → Complete v.family b₀ b

variable {m : VolumeMeta}

theorem Moving.commit (json : JsonRoundTrips) (h : Moving v cap b₀ b)
    (complete : Complete v.family b₀ b) (hm : m.capacityBytes = cap) :
    Moving v cap b₀ (b.insert (liveMetaKey v.family) (metaJson m)) := by
  have same : ∀ area, area ≠ .liveMeta → Same v.family area b
      (b.insert (liveMetaKey v.family) (metaJson m)) := fun area ha =>
    same_insert (inArea_liveMeta _) ha.symm
  have moved : ∀ {i body}, Moved v.family b i body →
      Moved v.family (b.insert (liveMetaKey v.family) (metaJson m)) i body := fun h =>
    h.congr (same _ (by decide)) (same _ (by decide))
  refine ⟨fun i hi => ?_, ⟨m, ⟨_, json.volume m, .inl (AList.lookup_insert _)⟩, hm⟩,
    fun _ i hi body hbody => moved (complete i hi body hbody)⟩
  exact (h.chunks i hi).congr (same _ (by decide)) (same _ (by decide) _ (inArea_live _ _))
    fun _ _ hm => moved hm

theorem Moving.erase_flatMeta (h : Moving v cap b₀ b) (hmem : liveMetaKey v.family ∈ b) :
    Moving v cap b₀ (b.erase (flatMetaKey v.family)) := by
  have same : ∀ area, area ≠ .flatMeta → Same v.family area b (b.erase (flatMetaKey v.family)) :=
    fun area ha => same_erase (inArea_flatMeta _) ha.symm
  have moved : ∀ {i body}, Moved v.family b i body →
      Moved v.family (b.erase (flatMetaKey v.family)) i body := fun h =>
    h.congr (same _ (by decide)) (same _ (by decide))
  refine ⟨fun i hi => ?_, ?_, fun _ i hi body hbody => moved (h.committed hmem i hi body hbody)⟩
  · exact (h.chunks i hi).congr (same _ (by decide)) (same _ (by decide) _ (inArea_live _ _))
      fun _ _ hm => moved hm
  · obtain ⟨m, ⟨json, hm, hjson⟩, hcap⟩ := h.books
    refine ⟨m, ⟨json, hm, .inl ?_⟩, hcap⟩
    rw [same .liveMeta (by decide) _ (inArea_liveMeta _)]
    exact hjson.resolve_right fun hnone => hnone.1 hmem

section Attempts

variable {s : S3ChunkStore}

theorem migrateToCow_migrates (json : JsonRoundTrips) (collisions : NoCollisions v.family b₀)
    (h : Migrating v cap b₀ s b) :
    migrateToCow.Keeps (FreshStarts v.family b₀) (Migrating v cap b₀) s b
      fun _ s' _ => s'.storage = .cow := by
  refine Reads.get.then h fun t ht => ?_
  obtain rfl := Returns.ok.mp ht
  have hfamily := h.has.family
  simp only [hfamily]
  have eraseMarker : ∀ {s b}, Migrating v cap b₀ s b →
      Migrating v cap b₀ s (b.erase (migratingKey v.family)) := fun hb =>
    ⟨hb.has, hb.capacity, hb.moving.marker fun _ ha => same_erase (inArea_migrating _) ha.symm,
      fun hs i hi body hbody => (hb.complete hs i hi body hbody).congr
        (same_erase (inArea_migrating _) (by decide)) (same_erase (inArea_migrating _) (by decide))⟩
  split
  · exact Keeps.bind ((tryDelete_keeps h (eraseMarker h)).mono fun _ _ _ hK _ => Keeps.throw hK)
  rename_i hlegacy
  have ofMoving : ∀ {b}, Moving v cap b₀ b → Migrating v cap b₀ t b := fun hb =>
    ⟨h.has, h.capacity, hb, fun hs => absurd (fun heq => by simp [heq] at hs) hlegacy⟩
  have h₁ : Moving v cap b₀ (b.insert (migratingKey v.family)
      ("\x7b\"state\":\"migrating\"\x7d".toUTF8.toList)) :=
    h.moving.marker fun _ ha => same_insert (inArea_migrating _) ha.symm
  refine Keeps.bind (putBytes_keeps h (fun _ _ => ofMoving h₁) fun _ step => ?_)
  refine (listChunkIndices_reads _).then (ofMoving h₁) fun is his => ?_
  obtain rfl := Returns.ok.mp his
  have fresh : ∀ i < u64Size, ¬Stale v.family b₀ (b.insert (migratingKey v.family)
      ("\x7b\"state\":\"migrating\"\x7d".toUTF8.toList)) i := fun i hi =>
    not_stale_congr (step.2 _ _ rfl i hi)
      (same_insert (inArea_migrating _) (by decide) _ (inArea_legacy _ _))
      (same_insert (inArea_migrating _) (by decide) _ (inArea_flat _ _))
  refine Keeps.bind ((Keeps.weaken (Keeps.collect (K := Fixed t (Moving v cap b₀))
    (fun rest _ b' => Turning v.family b₀ rest b') _ ⟨rfl, h₁⟩ (h₁.turning fresh) ?_) ?_).mono ?_)
  · rintro i rest _ b' ⟨rfl, hK⟩ turning
    exact migrateChunk_moves collisions hfamily hK turning
  · rintro _ _ ⟨rfl, hK⟩
    exact ofMoving hK
  rintro moved u b₂ - ⟨⟨rfl, h₂⟩, turning⟩
  have h₃ := h₂.commit json turning.complete
    (m := ⟨metaVersion, u.capacity, u.chunkSize, u.blockSize, u.compression, .cow⟩) h.capacity
  refine Keeps.bind (putBytes_keeps (ofMoving h₂) (fun _ _ => ofMoving h₃) fun _ _ => ?_)
  have hmem : liveMetaKey v.family ∈ b₂.insert (liveMetaKey v.family)
      (metaJson ⟨metaVersion, u.capacity, u.chunkSize, u.blockSize, u.compression, .cow⟩) :=
    (AList.mem_insert _).mpr (.inl rfl)
  have h₄ : Migrating v cap b₀ { u with storage := .cow } _ :=
    ⟨⟨h.has.family, h.has.chunkSize, h.has.blockSize, h.has.compression⟩, h.capacity, h₃,
      fun _ => h₃.committed hmem⟩
  refine Keeps.bind (Keeps.modify (ofMoving h₃) h₄ ?_)
  have h₅ : Migrating v cap b₀ { u with storage := .cow } (AList.erase (flatMetaKey v.family) _) :=
    ⟨h₄.has, h₄.capacity, h₃.erase_flatMeta hmem, fun _ i hi body hbody =>
      (h₃.committed hmem i hi body hbody).congr (same_erase (inArea_flatMeta _) (by decide))
        (same_erase (inArea_flatMeta _) (by decide))⟩
  refine Keeps.bind ((tryDelete_keeps h₄ h₅).mono ?_)
  rintro - _ b₅ hK ⟨rfl, -⟩
  refine Keeps.bind ((tryDelete_keeps hK (eraseMarker hK)).mono ?_)
  rintro - _ b₆ hK ⟨rfl, -⟩
  exact Keeps.pure hK rfl

end Attempts

section Opening

variable {s : S3ChunkStore}

theorem probeLayout_effective {env : Env Req Reply Bucket} [Honest env]
    (hfamily : s.family = v.family) (config : StorageMode) (h : Effective v b m) :
    (probeLayout config).Reads env s b (Value fun found =>
      found.2 = some m ∧ (found.1 = .cow → liveMetaKey v.family ∈ b)) := by
  refine Reads.get.bind_returns fun t ht => ?_
  subst t
  rw [hfamily]
  refine (getMetaAt_reads _).bind fun live hlive => (getMetaAt_reads _).bind fun flat hflat => ?_
  replace hlive := Value.ok.mp hlive
  replace hflat := Value.ok.mp hflat
  cases live with
  | some m' =>
    obtain ⟨json, hjson, hm'⟩ := hlive.1 m' rfl
    obtain rfl : m' = m := Effective.unique ⟨json, hm', .inl hjson⟩ h
    simp only
    split
    · exact Reads.throw nofun
    · split
      · exact Reads.throw nofun
      · exact Reads.pure (Value.ok.mpr ⟨rfl, fun _ => mem_iff_lookup.mpr ⟨json, hjson⟩⟩)
  | none =>
    have hnone := hlive.2 rfl
    obtain ⟨json, hm, hjson⟩ := h
    have hjson := (hjson.resolve_left fun hjson => hnone (mem_iff_lookup.mpr ⟨json, hjson⟩)).2
    cases flat with
    | some m' =>
      obtain ⟨json', hjson', hm'⟩ := hflat.1 m' rfl
      obtain rfl := Option.some.inj (hjson.symm.trans hjson')
      obtain rfl := Except.ok.inj (hm.symm.trans hm')
      simp only
      split
      · exact Reads.throw nofun
      · split
        · exact Reads.throw nofun
        · exact Reads.pure (Value.ok.mpr ⟨rfl, nofun⟩)
    | none => exact absurd (mem_iff_lookup.mpr ⟨json, hjson⟩) (hflat.2 rfl)

omit [External] in
theorem planCapacity_of_le {cap size block effective : Nat} {c : Compression} {mode : StorageMode}
    {toWrite : Option VolumeMeta} (hle : cap ≤ m.capacityBytes)
    (h : planCapacity (some m) cap size block c mode = .ok (effective, toWrite)) :
    effective = m.capacityBytes ∧ toWrite = none := by
  unfold planCapacity at h
  simp only at h
  repeat' split at h
  all_goals cases h
  · omega
  · exact ⟨rfl, rfl⟩

theorem openVolume_migrates (json : JsonRoundTrips) (collisions : NoCollisions v.family b₀)
    {cfg : S3StoreConfig} (has : s.Has v) (hcap : cfg.capacity ≤ cap) (h : Moving v cap b₀ b) :
    (openVolume cfg).Keeps (FreshStarts v.family b₀) (fun s' b' => s'.Has v ∧
      Moving v cap b₀ b') s b fun _ s' b' => Migrating v cap b₀ s' b' := by
  obtain ⟨m, hm, hmcap⟩ := h.books
  refine (probeLayout_effective has.family cfg.storage hm).then ⟨has, h⟩ fun layout hlayout => ?_
  obtain ⟨mode, existing⟩ := layout
  obtain ⟨rfl, hmode⟩ := Value.ok.mp hlayout
  have has' : ∀ {effective}, ({ s with storage := mode, capacity := effective } :
    S3ChunkStore).Has v :=
    ⟨has.family, has.chunkSize, has.blockSize, has.compression⟩
  refine Keeps.bind (Keeps.modify ⟨has, h⟩ ⟨has', h⟩ ?_)
  refine Keeps.bind ?_
  refine Reads.get.then ⟨has', h⟩ fun t ht => ?_
  obtain rfl := Returns.ok.mp ht
  refine Keeps.bind (Keeps.lift ⟨has', h⟩ fun plan hplan => ?_)
  obtain ⟨effective, toWrite⟩ := plan
  obtain ⟨rfl, rfl⟩ := planCapacity_of_le (hmcap ▸ hcap) hplan
  refine Keeps.pure ⟨has', h⟩ ?_
  have opened : Migrating v cap b₀ { s with storage := mode, capacity := m.capacityBytes } b :=
    ⟨has', hmcap, h, fun hs => h.committed (hmode hs)⟩
  refine Keeps.bind (Keeps.modify ⟨has', h⟩ ⟨has', h⟩ ?_)
  split
  · refine Reads.then (R := Returns fun _ => True) (Reads.get.bind_returns fun _ _ =>
      (getBytes_reads _).bind_returns fun _ _ => Reads.pure (Returns.ok.mpr trivial)) ⟨has', h⟩
      fun marked _ => ?_
    split
    · refine Keeps.bind ((Keeps.weaken (migrateToCow_migrates json collisions opened)
        fun _ _ hK => ⟨hK.has, hK.moving⟩).mono ?_)
      rintro - s' b' hK ⟨h', -⟩
      exact Keeps.pure hK h'
    · exact Keeps.pure ⟨has', h⟩ opened
  · exact Keeps.pure ⟨has', h⟩ opened

end Opening

/-- A legacy volume before its migration: its metadata is there, and nothing of the new layout. -/
structure LegacyVolume (v : Shape) (cap : Nat) (b : Bucket) : Prop where
  books : ∃ m, Effective v b m ∧ m.capacityBytes = cap
  uncommitted : liveMetaKey v.family ∉ b
  pointers : ∀ i < u64Size, liveChunkKey v.family i ∉ b

theorem LegacyVolume.moving (h : LegacyVolume v cap b) : Moving v cap b b where
  chunks := fun i hi => {
    sharded := fun body hbody => by simp [legacyStored, hbody]
    kept := fun _ hbody => .inl hbody
    empty := fun hnone => ⟨hnone, AList.lookup_eq_none.mpr (h.pointers i hi)⟩ }
  books := h.books
  committed := fun hmem => absurd hmem h.uncommitted

theorem Migrating.plainChunk_eq {s s₀ : S3ChunkStore} (h : Migrating v cap b₀ s b)
    (hs : s.storage = .cow) (has₀ : s₀.Has v) (hs₀ : s₀.storage = .legacy) (hi : i < u64Size) :
    plainChunk b s i = plainChunk b₀ s₀ i := by
  have hstored : storedBody b s i = storedBody b₀ s₀ i := by
    have hlegacy : storedBody b₀ s₀ i = .ok (legacyStored b₀ v.family i) := by
      simp only [storedBody, hs₀]
      rw [has₀.family]
      rfl
    rw [hlegacy]
    simp only [storedBody, hs, readHash]
    rw [h.has.family]
    cases hbody : legacyStored b₀ v.family i with
    | none => rw [((h.moving.chunks i hi).empty hbody).2]
    | some body =>
      obtain ⟨hpointer, hobject⟩ := h.complete hs i hi body hbody
      simp only [hpointer, decodePointer_encodePointer, Except.map, hobject]
  simp only [plainChunk, hstored, h.has.chunkSize, has₀.chunkSize, h.has.compression,
    has₀.compression]

end Moving

section Process

variable {V : Type} [DecidableEq V] [External]

/-- Attempts to migrate a volume, in the process or when the volume is opened, with a configuration
that does not ask for a larger volume. -/
def Attempts (v : V) (cap : Nat) (_ : Memory V) (c : Call V) : Prop :=
  c = .migrateToCow v ∨ ∃ cfg, c = .openVolume v cfg ∧ cfg.capacity ≤ cap

theorem attempts_keep (site : Site V) (json : JsonRoundTrips) {v : V} {cap : Nat} {b₀ : Bucket}
    (collisions : NoCollisions (site.shape v).family b₀) :
    Session.Keeps (process site (Attempts v cap)) (FreshStarts (site.shape v).family b₀)
      (fun mem b => Moving (site.shape v) cap b₀ b ∧
        ∀ vol, mem v = some vol → Migrating (site.shape v) cap b₀ vol.store b)
      (Moving (site.shape v) cap b₀) where
  left := fun h => h.1
  start := fun h => ⟨h, fun _ hvol => by cases hvol⟩
  call := by
    rintro mem b p ⟨h, hmounted⟩ ⟨c, hvalid, rfl | ⟨cfg, rfl, hcap⟩, hp⟩
    · obtain ⟨vol, hv, rfl⟩ := Option.map_eq_some_iff.mp hp
      have keeps := migrateToCow_migrates json collisions (hmounted vol hv)
      refine Prog.Safe.bind (Prog.Safe.mono (keeps.safe fun _ _ hK => hK.moving) ?_)
      rintro ⟨r, s'⟩ b' hb' hr
      have hmigrating : Migrating _ _ _ s' b' := hr.keeps
      refine ⟨hb', hb', fun vol' hvol' => ?_⟩
      rw [Function.update_self] at hvol'
      cases hvol'
      exact hmigrating
    · cases hp
      have keeps := openVolume_migrates json collisions hvalid.1 hcap h
      refine Prog.Safe.bind (Prog.Safe.mono (keeps.safe fun _ _ hK => hK.2) ?_)
      rintro ⟨r, s'⟩ b' hb' hr
      refine ⟨hb', hb', fun vol' hvol' => ?_⟩
      rw [Function.update_self] at hvol'
      cases r with
      | ok u =>
        cases hvol'
        exact hr.2
      | error _ | panic | waits => cases hvol'

/-- Whatever attempts were made, stopped at any request or failed, once the volume has the new
layout it reads as the legacy volume did, as long as no attempt began while a chunk was stale. -/
theorem migration_keeps_content (site : Site V) (json : JsonRoundTrips) (v : V) {s₀ : S3ChunkStore}
    {b₀ : Bucket} (has₀ : s₀.Has (site.shape v)) (hlegacy : s₀.storage = .legacy)
    (hcap : s₀.capacity < u64Size) (start : LegacyVolume (site.shape v) s₀.capacity b₀)
    (collisions : NoCollisions (site.shape v).family b₀) {f : Nat → UInt8}
    (holds : HoldsBytes f s₀ b₀) {mem₀ mem : Memory V} {locked : Bool} {b : Bucket}
    (mounted : mem₀ v = some ⟨s₀, locked⟩)
    (run : Relation.ReflTransGen (Session.Step (process site (Attempts v s₀.capacity))
      (FreshStarts (site.shape v).family b₀)) ⟨mem₀, none, b₀⟩ ⟨mem, none, b⟩) {vol : Mounted}
    (hvol : mem v = some vol) (migrated : vol.store.storage = .cow) :
    vol.store.Has (site.shape v) ∧ vol.store.capacity = s₀.capacity ∧
      HoldsBytes f vol.store b ∧ ∀ offset len, offset + len ≤ s₀.capacity →
        (readAt offset len).Reads Unreliable vol.store b
          (Returns (· = Splice.span f offset len)) := by
  have start' := start.moving
  have idle : Moving (site.shape v) s₀.capacity b₀ b₀ ∧ ∀ vol, mem₀ v = some vol →
      Migrating (site.shape v) s₀.capacity b₀ vol.store b₀ := by
    refine ⟨start', fun vol hvol => ?_⟩
    rw [mounted] at hvol
    cases hvol
    exact ⟨has₀, rfl, start', fun hs => by simp [hlegacy] at hs⟩
  have final := ((attempts_keep site json collisions).run idle run).2 vol hvol
  have holds' : HoldsBytes f vol.store b := fun i hi => by
    rw [final.plainChunk_eq migrated has₀ hlegacy hi, holds i hi, final.has.chunkSize,
      has₀.chunkSize]
  refine ⟨final.has, final.capacity, holds', fun offset len hin => ?_⟩
  have hpos : 0 < vol.store.chunkSize := by
    rw [final.has.chunkSize]
    exact (site.shape v).chunkSize_pos
  exact readAt_reads holds' hpos (final.capacity ▸ hcap) (final.capacity ▸ hin)

end Process

section BothKeys

open Plain

def legacyStore : S3ChunkStore := ⟨"v".toList, 1, 1, .none, .legacy, 4, "v".toList⟩

def migratedStore : S3ChunkStore := { legacyStore with storage := .cow }

/-- A legacy volume with one chunk, whose older body is still under the flat key. -/
def bothKeys : Bucket :=
  (((∅ : Bucket).insert (flatMetaKey "v".toList)
    (json (⟨metaVersion, 4, 1, 1, .none, .legacy⟩ : VolumeMeta))).insert
      (legacyChunkKey "v".toList 0) [7]).insert (legacyFlatChunkKey "v".toList 0) [9]

def legacyMounted : Memory Unit := fun _ => some ⟨legacyStore, false⟩

theorem legacyStored_bothKeys {i : Nat} (hi : i < u64Size) :
    legacyStored bothKeys "v".toList i = if i = 0 then some [7] else none := by
  split
  · rename_i h
    subst h
    decide
  · rename_i h
    have hkey : ∀ k, k = legacyChunkKey "v".toList i ∨ k = legacyFlatChunkKey "v".toList i →
        bothKeys.lookup k = none := by
      intro k hk
      have harea : InArea "v".toList .legacyChunks k := by
        rcases hk with rfl | rfl
        · exact inArea_legacy _ _
        · exact inArea_flat _ _
      rw [bothKeys, AList.lookup_insert_ne (legacyKey_ne hi (by decide) h hk (.inr rfl)),
        AList.lookup_insert_ne (legacyKey_ne hi (by decide) h hk (.inl rfl)),
        AList.lookup_insert_ne (harea.ne (inArea_flatMeta _) (by decide))]
      rfl
    simp [legacyStored, hkey]

theorem legacyVolume_bothKeys :
    LegacyVolume (oneVolume.shape ()) legacyStore.capacity bothKeys where
  books := ⟨_, ⟨_, parse_json _, .inr ⟨by decide, rfl⟩⟩, rfl⟩
  uncommitted := by decide
  pointers := fun i _ hmem => by
    have hlive := inArea_live "v".toList i
    simp only [bothKeys, AList.mem_insert] at hmem
    rcases hmem with heq | heq | heq | hmem
    · exact hlive.ne (inArea_flat _ _) (by decide) heq
    · exact hlive.ne (inArea_legacy _ _) (by decide) heq
    · exact hlive.ne (inArea_flatMeta _) (by decide) heq
    · exact AList.notMem_empty _ hmem

theorem calls_migrate : (process oneVolume (Attempts () 4)).calls legacyMounted
    (legacyMounted.migrate () ⟨legacyStore, false⟩) :=
  ⟨.migrateToCow (), trivial, .inl rfl, rfl⟩

def legacyConfig : S3StoreConfig := ⟨"v/".toList, 4, 1, 1, .none, .legacy, "v".toList⟩

theorem calls_mount : (process oneVolume (Attempts () 4)).calls (fun _ => none)
    (Memory.mount (fun _ => none) () legacyConfig) :=
  ⟨.openVolume () legacyConfig, ⟨⟨rfl, rfl, rfl, rfl⟩, by decide⟩,
    .inr ⟨legacyConfig, rfl, by decide⟩, rfl⟩

/-- The attempt stops after `n` requests, and the volume is opened again. -/
def stoppedAfter (n : Nat) : Bucket :=
  (legacyMounted.migrate () ⟨legacyStore, false⟩).after (answer fun _ => []) n bothKeys

def resumed (n : Nat) : Memory Unit × Bucket :=
  (Memory.mount (fun _ => none) () legacyConfig).run (answer fun _ => []) (stoppedAfter n)

def startsFresh (start : Bucket) : Req → Bucket → Bool
  | .put key _ _, b => decide (key = migratingKey "v".toList → b.entries = start.entries)
  | _, _ => true

theorem freshStarts_answer {start : Bucket}
    (fresh : ∀ i < u64Size, ¬Stale "v".toList bothKeys start i) (r : Req) (b : Bucket)
    (hok : startsFresh start r b = true) : FreshStarts "v".toList bothKeys r b
      (answer (fun _ => []) r b).1 (answer (fun _ => []) r b).2 := by
  refine ⟨unreliable_answer _ r b, ?_⟩
  rintro body ifMatch rfl
  rwa [AList.ext ((decide_eq_true_iff.mp hok) rfl)]

def marked (marker : Bytes) : Bucket :=
  ((bothKeys.insert (migratingKey "v".toList) marker).insert
    (objectKey "v".toList (pad [7])) [7]).insert
    (liveChunkKey "v".toList 0) (encodePointer (pad [7]))

/-- After five requests the chunk has its object and its pointer, and still both old keys. -/
theorem not_stale_stoppedAfter (i : Nat) : ¬Stale "v".toList bothKeys (stoppedAfter 5) i := by
  have hbucket : stoppedAfter 5 =
      marked (((stoppedAfter 5).lookup (migratingKey "v".toList)).getD []) :=
    AList.ext (by decide +kernel)
  rw [hbucket]
  have same : ∀ k marker, InArea "v".toList .legacyChunks k →
      (marked marker).lookup k = bothKeys.lookup k := fun k marker hk => by
    rw [marked, AList.lookup_insert_ne (hk.ne (inArea_live _ _) (by decide)),
      AList.lookup_insert_ne (hk.ne (inArea_object _ _) (by decide)),
      AList.lookup_insert_ne (hk.ne (inArea_migrating _) (by decide))]
  exact not_stale_congr (not_stale_self _ _ _) (same _ _ (inArea_legacy _ _))
    (same _ _ (inArea_flat _ _))

theorem run_interrupted : Relation.ReflTransGen (Session.Step (process oneVolume (Attempts () 4))
    (FreshStarts "v".toList bothKeys)) ⟨legacyMounted, none, bothKeys⟩
      ⟨(resumed 5).1, none, (resumed 5).2⟩ := by
  refine (Session.run_stop calls_migrate (startsFresh bothKeys)
    (freshStarts_answer fun _ _ => not_stale_self _ _ _) (by decide +kernel) 5).trans ?_
  exact Session.run_call calls_mount (Prog.runs_of_checked (startsFresh (stoppedAfter 5))
    (freshStarts_answer fun i _ => not_stale_stoppedAfter i) _ _ (by decide +kernel))

theorem migration_keeps_content_interrupted :
    (readAt 0 1).Reads Unreliable migratedStore (resumed 5).2 (Returns (· = [7])) := by
  have holds : HoldsBytes (fun n => if n = 0 then 7 else 0) legacyStore bothKeys := by
    intro i hi
    have hstored : storedBody bothKeys legacyStore i = .ok (if i = 0 then some [7] else none) :=
      congrArg Except.ok (legacyStored_bothKeys hi)
    by_cases h : i = 0
    · subst h
      rfl
    · simp only [plainChunk, hstored, if_neg h]
      have hspan : Splice.span (fun n : Nat => if n = 0 then (7 : UInt8) else 0)
          (i * legacyStore.chunkSize) legacyStore.chunkSize = [0] := by
        simp [Splice.span, legacyStore, h]
      rw [hspan]
      rfl
  have collisions : NoCollisions "v".toList bothKeys := by
    rintro x ⟨i, hi, hx⟩ y ⟨j, hj, hy⟩ -
    rw [legacyStored_bothKeys hi] at hx
    rw [legacyStored_bothKeys hj] at hy
    split at hx <;> split at hy <;> cases hx <;> cases hy
    rfl
  have mounted : (resumed 5).1 () = some ⟨migratedStore, false⟩ := by decide +kernel
  have has : legacyStore.Has (oneVolume.shape ()) := ⟨rfl, rfl, rfl, rfl⟩
  exact (migration_keeps_content oneVolume jsonRoundTrips () has rfl (by decide)
    legacyVolume_bothKeys collisions holds rfl run_interrupted mounted rfl).2.2.2 0 1 (by decide)

/-- The attempt that is resumed after six requests takes the older body for the chunk's. -/
theorem resumed_migration_reads_older :
    Relation.ReflTransGen (Session.Step (process oneVolume (Attempts () 4)) Unreliable)
        ⟨legacyMounted, none, bothKeys⟩ ⟨(resumed 6).1, none, (resumed 6).2⟩ ∧
      (resumed 6).1 () = some ⟨migratedStore, false⟩ ∧
      ((readAt 0 1 legacyStore).run (answer fun _ => []) bothKeys).1.1 = .ok [7] ∧
      ((readAt 0 1 migratedStore).run (answer fun _ => []) (resumed 6).2).1.1 = .ok [9] := by
  refine ⟨(Session.run_stop calls_migrate (fun _ _ => true)
    (fun r b _ => unreliable_answer (fun _ => []) r b) (by decide +kernel) 6).trans ?_,
    by decide +kernel, by decide +kernel, by decide +kernel⟩
  exact Session.run_call calls_mount (runs_answer _ _ _)

end BothKeys

end IscsiS3.S3
