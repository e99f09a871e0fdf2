import IscsiS3.Cache.Store
import IscsiS3.Served

/-! The read cache over a store that holds an array holds the same array: every chunk of the volume
that the pool has is the chunk of the array. -/

namespace IscsiS3.CachedStore

open Request StoreM Splice

variable {Req : Type} {Reply : Req → Type} {S W : Type}

def Mirrors (s : CachedStore S) (f : Flat) : Prop :=
  ∀ i data, s.cache.lookup s.volume i = some data → data = f.chunk i

/-- The volume is not locked, the inner store holds the array and the pool mirrors it. -/
structure Holds (Inner : S → W → Flat → Prop) (s : CachedStore S) (w : W) (f : Flat) : Prop where
  unlocked : s.ioLocked = false
  inner : Inner s.inner w f
  mirrors : s.Mirrors f

variable {env : Env Req Reply W} {Inner : S → W → Flat → Prop} {s : CachedStore S}
    {w : W} {f : Flat}
variable {i : Nat} {data : Bytes} {cache : ChunkCache} {α : Type} {m : StoreM Reply S α}

theorem Mirrors.withCache (h : s.Mirrors f)
    (hcache : ∀ i data, cache.lookup s.volume i = some data →
      s.cache.lookup s.volume i = some data ∨ data = f.chunk i) :
        (s.withCache cache).Mirrors f := by
  intro i data hi
  rcases hcache i data hi with hold | hnew
  · exact h i data hold
  · exact hnew

theorem Mirrors.get (h : s.Mirrors f) (i : Nat) :
    (s.withCache (s.cache.get s.volume i).2).Mirrors f :=
  h.withCache fun _ _ hj => .inl (by simpa using hj)

theorem Mirrors.put (h : s.Mirrors f) (hdata : data = f.chunk i) :
    (s.withCache (s.cache.put s.volume i data)).Mirrors f := by
  refine h.withCache fun j bytes hj => ?_
  have hput := ChunkCache.lookup_put hj
  split at hput
  · rename_i heq
    exact .inr (by rw [hput, heq.2, hdata])
  · exact .inl hput

theorem Holds.withCache (h : s.Holds Inner w f) (mirrors : (s.withCache cache).Mirrors f) :
    (s.withCache cache).Holds Inner w f :=
  ⟨h.unlocked, h.inner, mirrors⟩

theorem ensureUnlocked_reads (h : s.ioLocked = false) :
    (ensureUnlocked : StoreM Reply (CachedStore S) Unit).Reads env s w (Returns fun _ => True) := by
  refine Reads.bind_returns Reads.get ?_
  rintro _ rfl
  rw [h]
  exact Reads.pure (Returns.ok.mpr trivial)

theorem onInner_succeeds {Q : α → S → W → Prop} (h : m.Succeeds env s.inner w Q) :
    (onInner m).Succeeds env s w fun a s' w' => s' = s.withInner s'.inner ∧ Q a s'.inner w' :=
  Succeeds.within (h.mono fun _ _ _ hQ => ⟨rfl, hQ⟩)

section Calls

variable [BlockStore Reply S] {offset len : Nat} {g : Flat}

section

variable (inner : Serves env Inner) (h : s.Holds Inner w f)

include inner h

theorem fillChunk_succeeds (hi : i * f.chunkSize < f.capacity) :
    (fillChunk i).Succeeds env s w fun chunk s' w' => chunk = f.chunk i ∧ s'.Holds Inner w' f := by
  refine Reads.get.andThen ?_
  rintro _ rfl
  have hcap := inner.capacity h.inner
  have hsize := inner.chunkSize h.inner
  simp only [hcap, hsize]
  rw [if_neg (by omega)]
  refine Succeeds.bind ((onInner_succeeds (inner.read h.inner ?_)).mono ?_)
  · have := Nat.min_le_left (f.capacity - i * f.chunkSize) f.chunkSize
    omega
  · rintro _ s' w' ⟨hs', rfl, hinner⟩
    rw [(inner.proper h.inner).fill]
    have h' : s'.Holds Inner w' f := by
      rw [hs']
      exact ⟨h.unlocked, hinner, h.mirrors⟩
    exact Succeeds.bind (Succeeds.modify
      (Succeeds.pure ⟨rfl, h'.withCache (h'.mirrors.put rfl)⟩))

theorem loadChunk_succeeds (hi : i * f.chunkSize < f.capacity) :
    (loadChunk i).Succeeds env s w fun chunk s' w' => chunk = f.chunk i ∧ s'.Holds Inner w' f := by
  refine (ensureUnlocked_reads h.unlocked).andThen fun _ _ => ?_
  refine Succeeds.bind ⟨trivial, _, rfl, ?_⟩
  have h' := h.withCache (h.mirrors.get i)
  rw [ChunkCache.get_fst]
  cases hlook : s.cache.lookup s.volume i with
  | some data => exact Succeeds.pure ⟨h.mirrors i data hlook, h'⟩
  | none => exact fillChunk_succeeds inner h' hi

theorem readPiece_succeeds {p : Piece} (hfit : p.within + p.take ≤ f.chunkSize)
    (hi : p.idx * f.chunkSize < f.capacity) :
    (readPiece p).Succeeds env s w fun bytes s' w' =>
      bytes = slice (f.chunk p.idx) p.within p.take ∧ s'.Holds Inner w' f := by
  refine Succeeds.bind ((loadChunk_succeeds inner h hi).mono ?_)
  rintro _ s' w' ⟨rfl, h'⟩
  rw [if_neg (by rw [Flat.length_chunk]; omega)]
  exact Succeeds.pure ⟨rfl, h'⟩

theorem readAt_succeeds (hin : offset + len ≤ f.capacity) :
    (readAt offset len).Succeeds env s w fun bytes s' w' =>
      bytes = span f.byte offset len ∧ s'.Holds Inner w' f := by
  have proper := inner.proper h.inner
  refine (ensureUnlocked_reads h.unlocked).andThen fun _ _ => Reads.get.andThen ?_
  rintro _ rfl
  rw [inner.capacity h.inner, inner.chunkSize h.inner]
  refine Succeeds.bind (Succeeds.lift ((checkRange_ok proper.capacity_lt).mpr hin) ?_)
  refine Succeeds.bind ((Succeeds.collect (K := fun s w => s.Holds Inner w f)
    (fun p => slice (f.chunk p.idx) p.within p.take) _ h fun p hp s w h => ?_).mono ?_)
  · obtain ⟨hpos, hfit, -, hend⟩ := mem_pieces proper.chunkSize_pos hp
    exact readPiece_succeeds inner h hfit (by omega)
  · rintro _ s' w' ⟨rfl, h'⟩
    exact Succeeds.pure ⟨flatten_pieces proper.chunkSize_pos f.byte offset len, h'⟩

end

theorem serves (inner : Serves env Inner) : Serves env (CachedStore.Holds Inner) where
  proper := fun h => inner.proper h.inner
  capacity := fun h => inner.capacity h.inner
  chunkSize := fun h => inner.chunkSize h.inner
  blockSize := fun h => inner.blockSize h.inner
  read := fun h hin => readAt_succeeds inner h hin

theorem readAt_fails (inner : Serves env Inner) (h : s.Holds Inner w f)
    (hout : f.capacity < offset + len) :
    (readAt offset len).Fails env s w fun s' w' => s'.Holds Inner w' f := by
  refine (ensureUnlocked_reads h.unlocked).andFail fun _ _ => Reads.get.andFail ?_
  rintro _ rfl
  rw [inner.capacity h.inner, checkRange_error hout]
  exact Fails.bind (Q := fun s' w' => Holds Inner s' w' f) (Fails.throw h) _

/-- During the loop that patches the pool after the inner write: a cached chunk is still that of the
old array if its patch is to come. -/
structure HalfPatched (Inner : S → W → Flat → Prop) (f g : Flat) (ps : List Patch)
    (s : CachedStore S) (w : W) : Prop where
  unlocked : s.ioLocked = false
  inner : Inner s.inner w g
  nodup : (ps.map Patch.idx).Nodup
  mirrors : ∀ i data, s.cache.lookup s.volume i = some data →
    data = (if i ∈ ps.map Patch.idx then f else g).chunk i

omit [BlockStore Reply S] in
theorem patchCache_succeeds {p : Patch} {ps : List Patch} (h : HalfPatched Inner f g (p :: ps) s w)
    (hfit : p.within + p.bytes.length ≤ f.chunkSize)
    (hchunk : g.chunk p.idx = p.apply (f.chunk p.idx)) :
    (patchCache p : StoreM Reply (CachedStore S) Unit).Succeeds env s w fun _ s' w' =>
      HalfPatched Inner f g ps s' w' := by
  obtain ⟨hnot, hnodup⟩ := List.nodup_cons.mp h.nodup
  have hother : ∀ i, i ≠ p.idx → (i ∈ (p :: ps).map Patch.idx ↔ i ∈ ps.map Patch.idx) :=
    fun i hi => by simp [hi]
  refine Succeeds.bind ⟨trivial, _, rfl, ?_⟩
  rw [ChunkCache.get_fst]
  cases hlook : s.cache.lookup s.volume p.idx with
  | some cached =>
    have hcached : cached = f.chunk p.idx := by
      rw [h.mirrors _ _ hlook, if_pos (by simp)]
    have hshort : ¬cached.length < p.within + p.bytes.length := by
      rw [hcached, Flat.length_chunk]
      omega
    simp only [if_neg hshort]
    refine Succeeds.modify ⟨h.unlocked, h.inner, hnodup, fun i data hi => ?_⟩
    have hput := ChunkCache.lookup_put hi
    split at hput
    · rename_i heq
      rw [heq.2, if_neg hnot, hput, hchunk, hcached]
    · rename_i hne
      have hi' : i ≠ p.idx := fun heq => hne ⟨rfl, heq⟩
      change (s.cache.get s.volume p.idx).2.lookup s.volume i = some data at hput
      rw [ChunkCache.lookup_get] at hput
      rw [h.mirrors i data hput]
      simp only [hother i hi']
  | none =>
    refine Succeeds.modify ⟨h.unlocked, h.inner, hnodup, fun i data hi => ?_⟩
    change ((s.cache.get s.volume p.idx).2.invalidate s.volume p.idx).lookup s.volume i =
      some data at hi
    rw [ChunkCache.lookup_invalidate, ChunkCache.lookup_get] at hi
    split at hi
    · cases hi
    · rename_i hne
      have hi' : i ≠ p.idx := fun heq => hne ⟨rfl, heq⟩
      rw [h.mirrors i data hi]
      simp only [hother i hi']

section

variable (inner : ActsAs env Inner) (h : s.Holds Inner w f)

include inner h

theorem writeAt_succeeds {offset : Nat} (hin : offset + data.length ≤ f.capacity) :
    (writeAt offset data).Succeeds env s w fun _ s' w' =>
      s'.Holds Inner w' (f.write offset data) := by
  have hpos := (inner.proper h.inner).chunkSize_pos
  refine (ensureUnlocked_reads h.unlocked).andThen fun _ _ => ?_
  refine Succeeds.bind ((onInner_succeeds (inner.write h.inner hin)).mono ?_)
  rintro - s' w' ⟨hs', hinner⟩
  refine Reads.get.andThen fun t ht => ?_
  subst t
  rw [inner.chunkSize hinner]
  change Succeeds env (StoreM.each patchCache (patches f.chunkSize offset data)) s' w' _
  refine (Succeeds.each (fun ps s w => HalfPatched Inner f (f.write offset data) ps s w ∧
    ∀ p ∈ ps, p ∈ patches f.chunkSize offset data) _ ⟨?_, fun _ hp => hp⟩ ?_).mono ?_
  · refine ⟨by rw [hs']; exact h.unlocked, hinner, patches_nodup hpos offset data,
      fun i bytes hi => ?_⟩
    rw [hs'] at hi
    split
    · exact h.mirrors i bytes hi
    · rename_i hno
      rw [Flat.chunk_write_other hpos fun p hp heq => hno (List.mem_map.mpr ⟨p, hp, heq⟩)]
      exact h.mirrors i bytes hi
  · rintro p ps s w ⟨hpatching, hmem⟩
    have hp := hmem p (by simp)
    obtain ⟨-, hfit, -⟩ := mem_patches hpos hp
    exact (patchCache_succeeds hpatching hfit (Flat.chunk_write hpos hp)).mono fun _ _ _ h' =>
      ⟨h', fun q hq => hmem q (List.mem_cons_of_mem _ hq)⟩
  · rintro - s'' w'' ⟨hdone, -⟩
    exact ⟨hdone.unlocked, hdone.inner, fun i bytes hi => by simpa using hdone.mirrors i bytes hi⟩

theorem writeAt_fails {offset : Nat} (hout : f.capacity < offset + data.length) :
    (writeAt offset data).Fails env s w fun s' w' => s'.Holds Inner w' f := by
  refine (ensureUnlocked_reads h.unlocked).andFail fun _ _ => Fails.bind (Fails.within ?_) _
  exact (inner.writeOut h.inner hout).mono fun _ _ hinner => ⟨h.unlocked, hinner, h.mirrors⟩

theorem deleteChunk_succeeds (hi : i < u64Size) :
    (deleteChunk i).Succeeds env s w fun _ s' w' => s'.Holds Inner w' (f.delete i) := by
  refine (ensureUnlocked_reads h.unlocked).andThen fun _ _ => ?_
  refine Succeeds.bind ((onInner_succeeds (inner.delete h.inner hi)).mono ?_)
  rintro - s' w' ⟨hs', hinner⟩
  rw [hs']
  refine Succeeds.modify ⟨h.unlocked, hinner, fun j data hj => ?_⟩
  change ChunkCache.lookup (ChunkCache.invalidate _ s.volume i) s.volume j = some data at hj
  rw [ChunkCache.lookup_invalidate] at hj
  split at hj
  · cases hj
  · rename_i hne
    rw [Flat.chunk_delete (inner.proper h.inner).chunkSize_pos, if_neg fun heq => hne ⟨rfl, heq⟩]
    exact h.mirrors j data hj

end

omit [BlockStore Reply S] in
theorem passed_succeeds {R : α → Prop} (h : s.Holds Inner w f) (hchunk : ∀ i, g.chunk i = f.chunk i)
    (hm : m.Succeeds env s.inner w fun a s' w' => R a ∧ Inner s' w' g) :
    (do ensureUnlocked; onInner m : StoreM Reply (CachedStore S) α).Succeeds env s w
      fun a s' w' => R a ∧ s'.Holds Inner w' g := by
  refine (ensureUnlocked_reads h.unlocked).andThen fun _ _ => Succeeds.within (hm.mono ?_)
  rintro a s' w' ⟨hR, hinner⟩
  refine ⟨hR, h.unlocked, hinner, fun i data hi => ?_⟩
  rw [hchunk]
  exact h.mirrors i data hi

theorem actsAs (inner : ActsAs env Inner) : ActsAs env (CachedStore.Holds Inner) where
  toServes := serves inner.toServes
  readOut := fun h hout => readAt_fails inner.toServes h hout
  write := fun h hin => writeAt_succeeds inner h hin
  writeOut := fun h hout => writeAt_fails inner h hout
  delete := fun h hi => deleteChunk_succeeds inner h hi
  grow := fun {_ _ f c} h hle hlt hblock => (passed_succeeds (g := f.resize c)
    (R := fun _ => True) h (fun _ => rfl)
      ((inner.grow h.inner hle hlt hblock).mono fun _ _ _ hg => ⟨trivial, hg⟩)).mono
      fun _ _ _ hg => hg.2
  shrink := fun {s w f _} h hbad => by
    refine (ensureUnlocked_reads h.unlocked).andFail fun _ _ => Fails.within ?_
    exact (inner.shrink h.inner hbad).mono fun _ _ hinner => ⟨h.unlocked, hinner, h.mirrors⟩
  flush := fun h => (passed_succeeds (R := fun _ => True) h (fun _ => rfl)
    ((inner.flush h.inner).mono fun _ _ _ hg => ⟨trivial, hg⟩)).mono fun _ _ _ hg => hg.2
  list := fun {_ _ f} h => (passed_succeeds (R := fun idxs => idxs.Pairwise (· < ·) ∧
    ∀ i, i ∈ idxs ↔ i ∈ f.present) h (fun _ => rfl)
    ((inner.list h.inner).mono fun _ _ _ hg => ⟨⟨hg.1, hg.2.1⟩, hg.2.2⟩)).mono
      fun _ _ _ hg => ⟨hg.1.1, hg.1.2, hg.2⟩

end Calls

end IscsiS3.CachedStore
