import IscsiS3.S3.Exact
import IscsiS3.S3.Keep
import IscsiS3.Served

/-! The array of bytes that a volume in S3 holds: every chunk can be read, with zeros above the
capacity, and the calls act on the array when no request fails. -/

namespace IscsiS3.S3

open Request External StoreM Splice

section Content

variable [External] {i : Nat}

def ZeroAbove (cap start : Nat) (plain : Bytes) : Prop := ∀ k, cap ≤ start + k →
    plain[k]?.getD 0 = 0

/-- The header of a compressed chunk has room for the length. -/
def Headed (size : Nat) (c : Compression) : Prop := c ≠ .none → size < 2 ^ 32

/-- A payload is decoded to a chunk that is zero above the capacity, and the hash of a payload in
`B` names it among them. -/
def exactPayload (B : Set Bytes) (inj : Set.InjOn blake3 B) (roundTrip : codecs.RoundTrip) :
    Promise where
  payloads := B
  Fits size c cap i body := Headed size c →
    ∃ plain, decodeChunk codecs c body size = .ok plain ∧ ZeroAbove cap (i * size) plain
  strict := True
  lax := fun h => absurd trivial h
  grow := fun fits hcap headed => by
    obtain ⟨plain, hplain, hzero⟩ := fits headed
    exact ⟨plain, hplain, fun k hk => hzero k (Nat.le_trans hcap hk)⟩
  named := fun fits hbody hother heq => inj hother hbody heq ▸ fits
  patched := by
    intro size c cap plain bytes body p hplain hfit hcap hlen hencode headed
    have hzero : plain.length = size ∧ ZeroAbove cap (p.idx * size) plain := by
      rcases hplain with rfl | ⟨old, hold, hdecode⟩
      · exact ⟨List.length_replicate, fun k _ => getD_zeros size k⟩
      · obtain ⟨plain', hplain', hzero⟩ := hold headed
        rw [hdecode] at hplain'
        cases hplain'
        exact ⟨length_decodeChunk hdecode, hzero⟩
    have hspliced : (splice plain p.within bytes).length = size := by
      rw [length_splice (by omega), hzero.1]
    have hheaded : c ≠ .none → (splice plain p.within bytes).length < 2 ^ 32 := by rwa [hspliced]
    obtain ⟨stored, hstored, hdecode⟩ := decodeChunk_encodeChunk roundTrip hheaded
    rw [hencode] at hstored
    cases hstored
    rw [hspliced] at hdecode
    refine ⟨_, hdecode, fun k hk => ?_⟩
    rw [getElem?_splice (by omega), if_neg (by omega)]
    exact hzero.2 k hk

/-- The service at its best, when only payloads in `B` are put into a pool. -/
def Paid (etag : Bytes → Str) (B : Set Bytes) : Env Req Reply Bucket := fun r b x b' =>
  Reliable etag r b x b' ∧
    ∀ family h body ifMatch, r = .put (objectKey family h) body ifMatch → body ∈ B

instance (etag : Bytes → Str) (B : Set Bytes) : Honest (Paid etag B) where
  below := fun r b x b' h => (inferInstance : Honest (Reliable etag)).below r b x b' h.1

theorem pays_paid (etag : Bytes → Str) {B : Set Bytes} (inj : Set.InjOn blake3 B)
    (roundTrip : codecs.RoundTrip) : Pays (exactPayload B inj roundTrip) (Paid etag B) :=
  fun _ _ _ _ _ _ _ h => h.2 _ _ _ _ rfl

/-- The volume holds the array: each chunk is read as that of the array, and the chunks that are
listed are those that are present. -/
structure Stores (s : S3ChunkStore) (b : Bucket) (f : Flat) : Prop where
  proper : f.Proper
  capacity : s.capacity = f.capacity
  chunkSize : s.chunkSize = f.chunkSize
  blockSize : s.blockSize = f.blockSize
  chunk : ∀ i < u64Size, plainChunk b s i = .ok (f.chunk i)
  present : ∀ i, i ∈ f.present ↔ i ∈ indices b s.chunksFront

theorem Stores.bytes {s : S3ChunkStore} {b : Bucket} {f : Flat} (h : Stores s b f) :
    HoldsBytes f.byte s b := fun i hi => by
  rw [h.chunk i hi, h.chunkSize]
  rfl

def array (b : Bucket) (s : S3ChunkStore) : Flat where
  capacity := s.capacity
  chunkSize := s.chunkSize
  blockSize := s.blockSize
  byte pos := if pos < s.capacity then
      match plainChunk b s (pos / s.chunkSize) with
      | .ok plain => plain[pos % s.chunkSize]?.getD 0
      | .error _ => 0
    else 0
  present := { i | i ∈ indices b s.chunksFront }

theorem plainChunk_unlisted {s : S3ChunkStore} {b : Bucket} (hi : i < u64Size)
    (h : i ∉ indices b s.chunksFront) : plainChunk b s i = .ok (zeros s.chunkSize) := by
  have absent : ∀ {key}, parseChunkIndexFromKey s.chunksFront key = some i →
      b.lookup key = none := fun {key} hkey => by
    cases hl : b.lookup key with
    | none => rfl
    | some body => exact absurd (mem_indices.mpr ⟨key, mem_iff_lookup.mpr ⟨body, hl⟩, hkey⟩) h
  unfold plainChunk storedBody
  cases hs : s.storage with
  | legacy =>
    have hfront : s.chunksFront = areaFront s.family .legacyChunks := by
      simp [S3ChunkStore.chunksFront, hs]
    rw [hfront] at absent
    simp only [absent (parseChunkIndex_legacy _ hi), absent (parseChunkIndex_flat _ hi),
      Option.or_none]
  | cow =>
    have hfront : s.chunksFront = areaFront s.family .liveChunks := by
      simp [S3ChunkStore.chunksFront, hs]
    rw [hfront] at absent
    simp only [readHash, absent (parseChunkIndex_live _ hi)]

variable {B : Set Bytes} {inj : Set.InjOn blake3 B} {roundTrip : codecs.RoundTrip} {v : Shape}
variable {F : Bucket → Prop} {locked : Bool} {s : S3ChunkStore} {b : Bucket} {f : Flat}

theorem Opened.readable (h : Opened (exactPayload B inj roundTrip) v F locked s b)
    (headed : Headed v.chunkSize v.compression) (hi : i < u64Size) :
    ∃ plain, plainChunk b s i = .ok plain ∧ ZeroAbove s.capacity (i * s.chunkSize) plain := by
  have found : ∃ stored, storedBody b s i = .ok stored := by
    unfold storedBody
    cases hs : s.storage with
    | legacy => exact ⟨_, rfl⟩
    | cow =>
      simp only [readHash]
      cases hl : b.lookup (liveChunkKey s.family i) with
      | none => exact ⟨_, rfl⟩
      | some body =>
        rw [h.has.family] at hl ⊢
        obtain ⟨j, x, -, -, rfl, hx, -⟩ := h.sound.live _ body (inArea_live _ i) hl
        obtain ⟨object, hobject⟩ := mem_iff_lookup.mp hx
        simp [decodePointer_encodePointer, Except.map, hobject]
  obtain ⟨stored, hstored⟩ := found
  cases stored with
  | none =>
    refine ⟨zeros s.chunkSize, ?_, fun k _ => getD_zeros _ k⟩
    rw [plainChunk, hstored]
  | some body =>
    obtain ⟨plain, hplain, hzero⟩ := h.stored hi hstored headed
    rw [← h.has.chunkSize] at hzero
    refine ⟨plain, ?_, hzero⟩
    rw [plainChunk, hstored]
    simp only [h.has.chunkSize, h.has.compression, hplain]

theorem array_proper (hpos : 0 < s.chunkSize) (hcap : s.capacity < u64Size) :
    (array b s).Proper := by
  have hsmall : ∀ pos, pos < s.capacity → pos / s.chunkSize < u64Size := fun pos hlt => by
    have := Nat.div_le_self pos s.chunkSize
    omega
  refine ⟨hpos, hcap, fun pos hle => if_neg (by simpa [array] using hle), fun pos hnot => ?_⟩
  change (if _ then _ else _) = _
  split
  · rename_i hlt
    rw [plainChunk_unlisted (hsmall pos hlt) hnot]
    exact getD_zeros _ _
  · rfl

theorem Opened.stores (h : Opened (exactPayload B inj roundTrip) v F locked s b)
    (headed : Headed v.chunkSize v.compression) : Stores s b (array b s) := by
  have hpos : 0 < s.chunkSize := by
    rw [h.has.chunkSize]
    exact v.chunkSize_pos
  refine ⟨array_proper hpos h.cap, rfl, rfl, rfl, fun i hi => ?_, fun i => Iff.rfl⟩
  obtain ⟨plain, hplain, hzero⟩ := h.readable headed hi
  rw [hplain]
  refine congrArg Except.ok (List.ext_getElem? fun k => ?_)
  have hlen := length_plainChunk hplain
  change _ = (span (array b s).byte (i * s.chunkSize) s.chunkSize)[k]?
  rw [getElem?_span]
  split
  · rename_i hk
    have hdiv : (i * s.chunkSize + k) / s.chunkSize = i := by
      rw [Nat.mul_comm, Nat.mul_add_div hpos, Nat.div_eq_of_lt hk, Nat.add_zero]
    have hmod : (i * s.chunkSize + k) % s.chunkSize = k := by
      rw [Nat.mul_comm, Nat.mul_add_mod, Nat.mod_eq_of_lt hk]
    have hget : plain[k]? = some plain[k] := List.getElem?_eq_getElem _
    simp only [array, hdiv, hmod, hplain]
    split
    · rw [hget]
      rfl
    · rename_i hout
      have := hzero k (by omega)
      rw [hget] at this ⊢
      exact congrArg some this
  · exact List.getElem?_eq_none (by omega)

end Content

end IscsiS3.S3
