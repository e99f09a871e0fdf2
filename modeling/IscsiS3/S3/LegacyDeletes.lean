import IscsiS3.S3.Acts
import IscsiS3.S3.Plain

/-! Deletes that fail on a legacy volume. A chunk can have two objects, at the sharded key and at
the flat one from before, which is read if the sharded one is gone. A ledger keeps what every chunk
was left with. -/

namespace IscsiS3.S3

open Request StoreM Splice External

/-- The service when deletes can fail, with or without their effect; everything else succeeds. -/
def DeletesFail (etag : Bytes → Str) : Env Req Reply Bucket
  | .get key, b, x, b' => (x, b') = answer etag (.get key) b
  | .put key body ifMatch, b, x, b' => (x, b') = answer etag (.put key body ifMatch) b
  | .delete key, b, x, b' => Changes () (b.erase key) b x b'
  | .list front, b, x, b' => (x, b') = answer etag (.list front) b

instance (etag : Bytes → Str) : Honest (DeletesFail etag) where
  below := by
    intro r b x b' h
    cases r with
    | get key =>
      obtain ⟨rfl, rfl⟩ := Prod.mk.inj h
      exact unreliable_answer etag (.get key) b
    | put key body ifMatch =>
      obtain ⟨rfl, rfl⟩ := Prod.mk.inj h
      exact unreliable_answer etag (.put key body ifMatch) b
    | delete key => exact h
    | list front =>
      obtain ⟨rfl, rfl⟩ := Prod.mk.inj h
      exact unreliable_answer etag (.list front) _

variable {ps : List Patch} {data : Bytes} {tag : Option Str} {body : Bytes} {p : Patch}

section Objects

variable (s : S3ChunkStore) (b b' : Bucket) (i : Nat)

def shardOf : Option Bytes := b.lookup (legacyChunkKey s.family i)

def flatOf : Option Bytes := b.lookup (legacyFlatChunkKey s.family i)

def OthersKept : Prop :=
  ∀ j < u64Size, j ≠ i → shardOf s b' j = shardOf s b j ∧ flatOf s b' j = flatOf s b j

/-- What a delete can do: both objects stay, or the sharded one is gone. -/
structure Deletes : Prop where
  objects : shardOf s b' i = none ∧ (flatOf s b' i = none ∨ flatOf s b' i = flatOf s b i) ∨
    shardOf s b' i = shardOf s b i ∧ flatOf s b' i = flatOf s b i
  others : OthersKept s b b' i

variable [External]

def Readable : Prop :=
  ∀ i < u64Size, ∀ body, shardOf s b i = some body ∨ flatOf s b i = some body →
    ∃ chunk, decodeChunk codecs s.compression body s.chunkSize = .ok chunk

/-- What putting a chunk does: the sharded object is the new one, and the flat one may be gone. -/
structure Rewrites (data : Bytes) : Prop where
  shard : ∃ body, shardOf s b' i = some body ∧
    decodeChunk codecs s.compression body s.chunkSize = .ok data
  flat : flatOf s b' i = none ∨ flatOf s b' i = flatOf s b i
  others : OthersKept s b b' i

structure Written (ps : List Patch) : Prop where
  patched : ∀ p ∈ ps, ∃ body, shardOf s b' p.idx = some body ∧
    decodeChunk codecs s.compression body s.chunkSize = (plainChunk b s p.idx).map p.apply
  flat : ∀ i < u64Size, flatOf s b' i = none ∨ flatOf s b' i = flatOf s b i
  others : ∀ i < u64Size, (∀ p ∈ ps, p.idx ≠ i) →
    shardOf s b' i = shardOf s b i ∧ flatOf s b' i = flatOf s b i

/-- The chunk has a flat object that is older than its sharded one, and is not zero. -/
def Outdated : Prop :=
  ∃ body old, shardOf s b i = some body ∧ flatOf s b i = some old ∧
    decodeChunk codecs s.compression old s.chunkSize ≠
      decodeChunk codecs s.compression body s.chunkSize ∧
    decodeChunk codecs s.compression old s.chunkSize ≠ .ok (zeros s.chunkSize)

end Objects

section Chunks

variable [External] {s : S3ChunkStore} {b b' b'' : Bucket} {i : Nat}

section

variable (hs : s.storage = .legacy)

include hs

theorem plainChunk_shard (h : shardOf s b i = some body) :
    plainChunk b s i = decodeChunk codecs s.compression body s.chunkSize := plainChunk_legacy hs h

theorem plainChunk_flat (hshard : shardOf s b i = none) {old : Bytes}
    (h : flatOf s b i = some old) :
    plainChunk b s i = decodeChunk codecs s.compression old s.chunkSize := by
  unfold shardOf flatOf at *
  simp only [plainChunk, storedBody, hs, hshard, h, Option.none_or]

theorem plainChunk_none (hshard : shardOf s b i = none) (h : flatOf s b i = none) :
    plainChunk b s i = .ok (zeros s.chunkSize) := by
  unfold shardOf flatOf at *
  simp only [plainChunk, storedBody, hs, hshard, h, Option.none_or]

theorem plainChunk_same (h : shardOf s b' i = shardOf s b i ∧ flatOf s b' i = flatOf s b i) :
    plainChunk b' s i = plainChunk b s i := plainChunk_congr_legacy hs h.1 h.2

theorem Readable.plainChunk (h : Readable s b) (hi : i < u64Size) :
    ∃ chunk, S3.plainChunk b s i = .ok chunk := by
  cases hshard : shardOf s b i with
  | some body =>
    rw [plainChunk_shard hs hshard]
    exact h i hi body (.inl hshard)
  | none =>
    cases hflat : flatOf s b i with
    | some old =>
      rw [plainChunk_flat hs hshard hflat]
      exact h i hi old (.inr hflat)
    | none => exact ⟨_, plainChunk_none hs hshard hflat⟩

end

theorem Rewrites.readable (h : Rewrites s b b' i data) (hread : Readable s b) :
    Readable s b' := by
  intro j hj body hbody
  by_cases hji : j = i
  · subst hji
    rcases hbody with hbody | hbody
    · obtain ⟨new, hnew, hdecode⟩ := h.shard
      obtain rfl := Option.some.inj (hnew.symm.trans hbody)
      exact ⟨data, hdecode⟩
    · rcases h.flat with hflat | hflat
      · rw [hflat] at hbody
        cases hbody
      · exact hread j hj body (.inr (hflat ▸ hbody))
  · obtain ⟨hshard, hflat⟩ := h.others j hj hji
    exact hread j hj body (by rwa [hshard, hflat] at hbody)

theorem Deletes.readable (h : Deletes s b b' i) (hread : Readable s b) : Readable s b' := by
  intro j hj body hbody
  by_cases hji : j = i
  · subst hji
    rcases h.objects with ⟨hshard, hflat | hflat⟩ | ⟨hshard, hflat⟩
    · rw [hshard, hflat] at hbody
      rcases hbody with hbody | hbody <;> cases hbody
    · rw [hshard, hflat] at hbody
      exact hread j hj body (.inr (hbody.resolve_left nofun))
    · exact hread j hj body (by rwa [hshard, hflat] at hbody)
  · obtain ⟨hshard, hflat⟩ := h.others j hj hji
    exact hread j hj body (by rwa [hshard, hflat] at hbody)

end Chunks

section Requests

variable {etag : Bytes → Str} {s : S3ChunkStore} {b : Bucket} {key : Key}

theorem putBytes_deletesFail {ifMatch : Option Str} (hmatch : b.matches etag key ifMatch = true) :
    (putBytes key body ifMatch).Succeeds (DeletesFail etag) s b fun _ s' b' =>
      s' = s ∧ b' = b.insert key body := by
  refine Succeeds.bind ⟨trivial, fun x b' step => ⟨trivial, x, rfl, ?_⟩⟩
  simp only [DeletesFail, answer, hmatch, if_true, Prod.mk.injEq] at step
  obtain ⟨rfl, rfl⟩ := step
  exact Succeeds.pure ⟨rfl, rfl⟩

theorem deleteObjectKey_fails :
    (deleteObjectKey key).Safe (DeletesFail etag) (fun _ => True) s b fun r s' b' => s' = s ∧
      (r = .ok () ∧ b' = b.erase key ∨ (∃ e, r = .error e) ∧ (b' = b ∨ b' = b.erase key)) := by
  refine Safe.bind (Safe.request trivial fun x b' step => ⟨trivial, ?_⟩)
  dsimp only [Then]
  rcases step with ⟨rfl, rfl⟩ | ⟨e, rfl, heffect⟩
  · exact Safe.pure trivial ⟨rfl, .inl ⟨rfl, rfl⟩⟩
  · exact Safe.done trivial ⟨rfl, .inr ⟨⟨_, rfl⟩, heffect⟩⟩

theorem deleteObjectKey_attempt :
    (deleteObjectKey key).attempt.Succeeds (DeletesFail etag) s b fun _ s' b' => s' = s ∧
      (b' = b ∨ b' = b.erase key) := by
  refine Safe.attempt (Safe.mono deleteObjectKey_fails ?_)
  rintro _ s' b' - ⟨hs, ⟨rfl, heffect⟩ | ⟨⟨e, rfl⟩, heffect⟩⟩
  · exact ⟨_, rfl, hs, .inr heffect⟩
  · exact ⟨_, rfl, hs, heffect⟩

theorem Tagged.matches_deletesFail (h : Tagged (DeletesFail etag) b key tag) :
    b.matches etag key tag = true := by
  rcases h with rfl | ⟨body, hanswer⟩
  · rfl
  · simp only [DeletesFail, answer] at hanswer
    cases hl : b.lookup key with
    | none => simp [hl] at hanswer
    | some old =>
      simp only [hl, Prod.mk.injEq, Except.ok.injEq, and_true] at hanswer
      simp [hanswer.2, Bucket.matches, hl]

end Requests

section Calls

variable [External] {etag : Bytes → Str} {s : S3ChunkStore} {b : Bucket} {i : Nat}

section

variable (hs : s.storage = .legacy)

include hs

section

variable (roundTrip : codecs.RoundTrip) (headed : Headed s.chunkSize s.compression)

include roundTrip headed

theorem putChunk_rewrites (hi : i < u64Size) (hlen : data.length = s.chunkSize)
    (hmatch : b.matches etag (s.chunkKey i) tag = true) :
    (putChunk i data tag).Succeeds (DeletesFail etag) s b fun _ s' b' =>
      s' = s ∧ Rewrites s b b' i data := by
  have hheaded : s.compression ≠ .none → data.length < 2 ^ 32 := by rwa [hlen]
  obtain ⟨body, hencode, hdecode⟩ := decodeChunk_encodeChunk roundTrip hheaded
  rw [hlen] at hdecode
  have hkey : s.chunkKey i = legacyChunkKey s.family i := by simp [S3ChunkStore.chunkKey, hs]
  rw [hkey] at hmatch
  refine Reads.get.andThen fun t ht => ?_
  subst t
  rw [if_neg (by simpa using hlen)]
  simp only [hs]
  refine Succeeds.bind (Succeeds.lift hencode ?_)
  refine Succeeds.bind ((putBytes_deletesFail hmatch).mono ?_)
  rintro - t _ ⟨ht, rfl⟩
  subst t
  refine Succeeds.bind (deleteObjectKey_attempt.mono ?_)
  rintro - t b' ⟨ht, heffect⟩
  subst t
  refine Succeeds.pure ⟨rfl, ?_⟩
  have hput : Rewrites s b (b.insert (legacyChunkKey s.family i) body) i data := by
    refine ⟨⟨body, AList.lookup_insert _, hdecode⟩, .inr ?_, fun j hj hji => ⟨?_, ?_⟩⟩
    · exact AList.lookup_insert_ne (shard_ne_flat _ _ _).symm
    · exact AList.lookup_insert_ne fun heq => hji (legacyChunkKey_inj hj hi heq)
    · exact AList.lookup_insert_ne (shard_ne_flat _ _ _).symm
  rcases heffect with rfl | rfl
  · exact hput
  · obtain ⟨new, hnew, hdecode⟩ := hput.shard
    refine ⟨⟨new, ?_, hdecode⟩, .inl (AList.lookup_erase _ _), fun j hj hji => ?_⟩
    · exact (AList.lookup_erase_ne (shard_ne_flat _ _ _)).trans hnew
    · obtain ⟨hshard, hflat⟩ := hput.others j hj hji
      exact ⟨(AList.lookup_erase_ne (shard_ne_flat _ _ _)).trans hshard,
        (AList.lookup_erase_ne fun heq => hji (legacyFlatChunkKey_inj hj hi heq)).trans hflat⟩

theorem writePieceLoop_rewrites (hread : Readable s b) {p : Piece} {bytes : Bytes}
    (hi : p.idx < u64Size) (hfit : p.within + p.take ≤ s.chunkSize) (hlen : bytes.length = p.take)
    (retries : Nat) :
    (writePieceLoop p bytes retries).Succeeds (DeletesFail etag) s b fun _ s' b' => s' = s ∧
      ∃ chunk, plainChunk b s p.idx = .ok chunk ∧
        Rewrites s b b' p.idx (splice chunk p.within bytes) := by
  obtain ⟨chunk, hchunk⟩ := hread.plainChunk hs hi
  have hsplice : (splice chunk p.within bytes).length = s.chunkSize := by
    have hchunklen := length_plainChunk hchunk
    rw [length_splice (by omega), hchunklen]
  have put : ∀ {found : Bytes × Option Str}, splice found.1 p.within bytes =
      splice chunk p.within bytes → Tagged (DeletesFail etag) b (s.chunkKey p.idx) found.2 →
      (putChunk p.idx (splice found.1 p.within bytes) found.2).Succeeds (DeletesFail etag) s b
        fun _ s' b' => s' = s ∧ ∃ chunk, plainChunk b s p.idx = .ok chunk ∧
          Rewrites s b b' p.idx (splice chunk p.within bytes) := by
    intro found hfound htag
    rw [hfound]
    refine (putChunk_rewrites hs roundTrip headed hi hsplice htag.matches_deletesFail).mono ?_
    exact fun _ _ _ ⟨ht, hrewrites⟩ => ⟨ht, chunk, hchunk, hrewrites⟩
  have base : (baseChunk p).Reads (DeletesFail etag) s b (Returns fun found =>
      splice found.1 p.within bytes = splice chunk p.within bytes ∧
        Tagged (DeletesFail etag) b (s.chunkKey p.idx) found.2) := baseChunk_spliced hchunk hlen
  cases retries with
  | zero => exact base.andThen fun found hfound => put hfound.1 hfound.2
  | succ retries =>
    refine base.andThen fun found hfound => Succeeds.bind (Succeeds.attempt ?_)
    exact (put hfound.1 hfound.2).mono fun _ _ _ hdone => Succeeds.pure hdone

end

theorem Rewrites.written {b' b'' : Bucket} {chunk : Bytes}
    (hchunk : plainChunk b s p.idx = .ok chunk) (hi : p.idx < u64Size)
    (hps : ∀ q ∈ ps, p.idx < q.idx ∧ q.idx < u64Size) (h : Rewrites s b b' p.idx (p.apply chunk))
    (rest : Written s b' b'' ps) : Written s b b'' (p :: ps) := by
  have hlater : ∀ q ∈ ps, q.idx ≠ p.idx := fun q hq => (Nat.ne_of_lt (hps q hq).1).symm
  refine ⟨fun q hq => ?_, fun j hj => ?_, fun j hj hother => ?_⟩
  · rcases List.mem_cons.mp hq with rfl | hq
    · obtain ⟨body, hbody, hdecode⟩ := h.shard
      refine ⟨body, ?_, by rw [hdecode, hchunk]; rfl⟩
      rw [(rest.others q.idx hi hlater).1, hbody]
    · obtain ⟨body, hbody, hdecode⟩ := rest.patched q hq
      have hsame := plainChunk_same hs (h.others q.idx (hps q hq).2 (hlater q hq))
      exact ⟨body, hbody, by rw [hdecode, hsame]⟩
  · rcases rest.flat j hj with hgone | hkept
    · exact .inl hgone
    · rw [hkept]
      by_cases hji : j = p.idx
      · subst hji
        exact h.flat
      · exact .inr (h.others j hj hji).2
  · obtain ⟨hshard, hflat⟩ := rest.others j hj fun q hq => hother q (List.mem_cons_of_mem p hq)
    obtain ⟨hshard', hflat'⟩ := h.others j hj (hother p List.mem_cons_self).symm
    exact ⟨hshard.trans hshard', hflat.trans hflat'⟩

section

variable (roundTrip : codecs.RoundTrip) (headed : Headed s.chunkSize s.compression)

include roundTrip headed

theorem writePieces_written (hread : Readable s b) {offset : Nat} (ps : List Piece)
    (hsorted : ps.Pairwise fun p q => p.idx < q.idx)
    (hps : ∀ p ∈ ps, p.idx < u64Size ∧ p.within + p.take ≤ s.chunkSize ∧
      p.idx * s.chunkSize + p.within - offset + p.take ≤ data.length) :
    (StoreM.each (writePiece offset data) ps).Succeeds (DeletesFail etag) s b
      fun _ s' b' => s' = s ∧ Written s b b' (ps.map fun p =>
        ⟨p.idx, p.within, slice data (p.idx * s.chunkSize + p.within - offset) p.take⟩) := by
  induction ps generalizing b with
  | nil => exact Succeeds.pure ⟨rfl, nofun, fun _ _ => .inr rfl, fun _ _ _ => ⟨rfl, rfl⟩⟩
  | cons p ps ih =>
    obtain ⟨hi, hfit, hdata⟩ := hps p List.mem_cons_self
    obtain ⟨hfirst, hrest⟩ := List.pairwise_cons.mp hsorted
    refine Succeeds.bind (Reads.get.andThen fun t ht => ?_)
    subst t
    refine (writePieceLoop_rewrites hs roundTrip headed hread hi hfit
      (length_slice hdata) _).mono ?_
    rintro - t b' ⟨ht, chunk, hchunk, hrewrites⟩
    subst t
    have hlater : ∀ q ∈ ps, q.idx < u64Size ∧ q.within + q.take ≤ s.chunkSize ∧
        q.idx * s.chunkSize + q.within - offset + q.take ≤ data.length :=
      fun q hq => hps q (List.mem_cons_of_mem p hq)
    refine (ih (hrewrites.readable hread) hrest hlater).mono ?_
    rintro - t b'' ⟨ht, hwritten⟩
    subst t
    refine ⟨rfl, hrewrites.written hs hchunk hi ?_ hwritten⟩
    intro q hq
    obtain ⟨piece, hpiece, rfl⟩ := List.mem_map.mp hq
    exact ⟨hfirst piece hpiece, (hlater piece hpiece).1⟩

theorem writeAt_written (hc : 0 < s.chunkSize) (hcap : s.capacity < u64Size) (hread : Readable s b)
    (offset : Nat) (data : Bytes) :
    (writeAt offset data).Safe (DeletesFail etag) (fun _ => True) s b fun r s' b' => s' = s ∧
      (r = .ok () ∧ Written s b b' (patches s.chunkSize offset data) ∨ r ≠ .ok () ∧ b' = b) := by
  refine Safe.bind (Safe.get trivial ?_)
  dsimp only [Then]
  refine Safe.bind (Safe.lift trivial (fun _ hrange => ?_) fun e _ => ?_)
  · have hin := (checkRange_ok hcap).mp hrange
    dsimp only [Then]
    refine Safe.mono (writePieces_written hs roundTrip headed hread
      (pieces s.chunkSize offset data.length) (pieces_pairwise hc offset data.length) ?_) ?_
    · intro p hp
      obtain ⟨hpos, hfit, hlow, hhigh⟩ := mem_pieces hc hp
      have := Nat.le_mul_of_pos_right p.idx hc
      exact ⟨by omega, hfit, by omega⟩
    · rintro _ t b' - ⟨_, rfl, ht, hwritten⟩
      exact ⟨ht, .inl ⟨rfl, hwritten⟩⟩
  · exact ⟨rfl, .inr ⟨nofun, rfl⟩⟩

end

end

omit [External] in
theorem deleteChunkObject_deletes (hs : s.storage = .legacy) (hi : i < u64Size) :
    (deleteChunkObject i).Safe (DeletesFail etag) (fun _ => True) s b fun _ s' b' =>
      s' = s ∧ Deletes s b b' i := by
  have kept : Deletes s b b i := ⟨.inr ⟨rfl, rfl⟩, fun _ _ _ => ⟨rfl, rfl⟩⟩
  have sharded : Deletes s b (b.erase (legacyChunkKey s.family i)) i := by
    refine ⟨.inl ⟨AList.lookup_erase _ _, .inr ?_⟩, fun j hj hji => ⟨?_, ?_⟩⟩
    · exact AList.lookup_erase_ne (shard_ne_flat _ _ _).symm
    · exact AList.lookup_erase_ne fun heq => hji (legacyChunkKey_inj hj hi heq)
    · exact AList.lookup_erase_ne (shard_ne_flat _ _ _).symm
  have both : Deletes s b ((b.erase (legacyChunkKey s.family i)).erase
      (legacyFlatChunkKey s.family i)) i := by
    refine ⟨.inl ⟨?_, .inl (AList.lookup_erase _ _)⟩, fun j hj hji => ?_⟩
    · exact (AList.lookup_erase_ne (shard_ne_flat _ _ _)).trans (AList.lookup_erase _ _)
    · obtain ⟨hshard, hflat⟩ := sharded.others j hj hji
      exact ⟨(AList.lookup_erase_ne (shard_ne_flat _ _ _)).trans hshard,
        (AList.lookup_erase_ne fun heq => hji (legacyFlatChunkKey_inj hj hi heq)).trans hflat⟩
  refine Safe.bind (Safe.get trivial ?_)
  dsimp only [Then]
  simp only [hs]
  refine Safe.bind (Safe.mono deleteObjectKey_fails ?_)
  rintro _ t b' - ⟨ht, ⟨rfl, rfl⟩ | ⟨⟨e, rfl⟩, rfl | rfl⟩⟩
  · subst t
    dsimp only [Then]
    refine Safe.mono deleteObjectKey_fails ?_
    rintro _ t b' - ⟨ht, ⟨-, rfl⟩ | ⟨-, rfl | rfl⟩⟩
    · exact ⟨ht, both⟩
    · exact ⟨ht, sharded⟩
    · exact ⟨ht, both⟩
  · exact ⟨ht, kept⟩
  · exact ⟨ht, sharded⟩

end Calls

/-- What every chunk was left with by the last write that returned `Ok`, or at the start, and the
chunks of which a delete was attempted since. -/
structure Ledger where
  content : Nat → Except StoreError Bytes
  deleted : Set Nat

inductive LegacyCall where
  | writeAt (offset : Nat) (data : Bytes)
  | deleteChunk (index : Nat)

section Runs

variable [External]

def LegacyCall.prog : LegacyCall → VolM Unit
  | .writeAt offset data => S3.writeAt offset data
  | .deleteChunk index => deleteChunkObject index

/-- A chunk index is a `u64`. -/
def LegacyCall.Typed : LegacyCall → Prop
  | .writeAt _ _ => True
  | .deleteChunk index => index < u64Size

/-- A delete does not meet an older flat object. -/
def LegacyCall.Harmless (s : S3ChunkStore) (b : Bucket) : LegacyCall → Prop
  | .writeAt _ _ => True
  | .deleteChunk index => ¬Outdated s b index

namespace Ledger

def start (s : S3ChunkStore) (b : Bucket) : Ledger := ⟨plainChunk b s, ∅⟩

def write (s : S3ChunkStore) (b : Bucket) (ps : List Patch) (l : Ledger) : Ledger where
  content i := match ps.find? fun p => p.idx = i with
    | some p => (plainChunk b s i).map p.apply
    | none => l.content i
  deleted := { i ∈ l.deleted | ∀ p ∈ ps, p.idx ≠ i }

def delete (i : Nat) (l : Ledger) : Ledger := { l with deleted := insert i l.deleted }

/-- The ledger after a call that was made in `b` and ended with `r`. -/
def after (s : S3ChunkStore) (b : Bucket) (l : Ledger) : LegacyCall → Outcome Unit → Ledger
  | .writeAt offset data, .ok () => l.write s b (patches s.chunkSize offset data)
  | .writeAt _ _, _ => l
  | .deleteChunk i, _ => l.delete i

end Ledger

/-- Every chunk reads as what it was left with, or as zeros if a delete of it was attempted
since. -/
def Faithful (s : S3ChunkStore) (l : Ledger) (b : Bucket) : Prop :=
  ∀ i < u64Size, plainChunk b s i = l.content i ∨
    i ∈ l.deleted ∧ plainChunk b s i = .ok (zeros s.chunkSize)

inductive LegacyStep (etag : Bytes → Str) (s : S3ChunkStore) : Ledger × Bucket →
    Ledger × Bucket → Prop
  | call {l : Ledger} {b b' : Bucket} {s' : S3ChunkStore} {r : Outcome Unit} (c : LegacyCall)
      (typed : c.Typed) (harmless : c.Harmless s b)
      (run : (c.prog s).Runs (DeletesFail etag) b (r, s') b') :
      LegacyStep etag s (l, b) (l.after s b c r, b')

structure Tracks (s : S3ChunkStore) (l : Ledger) (b : Bucket) : Prop where
  readable : Readable s b
  faithful : Faithful s l b
  shard : ∀ i < u64Size, ∀ body, shardOf s b i = some body →
    decodeChunk codecs s.compression body s.chunkSize = l.content i

end Runs

section Steps

variable [External] {etag : Bytes → Str} {s : S3ChunkStore} {l : Ledger} {b b' : Bucket} {i : Nat}

theorem Ledger.write_other (h : ∀ p ∈ ps, p.idx ≠ i) :
    (l.write s b ps).content i = l.content i := by
  have hnone : ps.find? (fun p => p.idx = i) = none := by simpa using h
  simp only [Ledger.write, hnone]

theorem Ledger.write_patched (hnodup : (ps.map Patch.idx).Nodup) (hp : p ∈ ps) :
    (l.write s b ps).content p.idx = (plainChunk b s p.idx).map p.apply := by
  obtain ⟨q, hq⟩ : ∃ q, ps.find? (fun q => q.idx = p.idx) = some q := by
    rw [← Option.isSome_iff_exists, List.find?_isSome]
    exact ⟨p, hp, by simp⟩
  have hidx : q.idx = p.idx := by simpa using List.find?_some hq
  have heq : q = p := List.inj_on_of_nodup_map hnodup (List.mem_of_find?_eq_some hq) hp hidx
  simp only [Ledger.write, hq, heq]

section

variable (hs : s.storage = .legacy)

include hs

theorem tracks_start (hread : Readable s b) :
    Tracks s (Ledger.start s b) b where
  readable := hread
  faithful := fun _ _ => .inl rfl
  shard := fun _ _ _ hbody => (plainChunk_shard hs hbody).symm

theorem Tracks.write (h : Tracks s l b) (hnodup : (ps.map Patch.idx).Nodup)
    (hwritten : Written s b b' ps) :
    Tracks s (l.write s b ps) b' := by
  have shard : ∀ i < u64Size, ∀ body, shardOf s b' i = some body →
      decodeChunk codecs s.compression body s.chunkSize = (l.write s b ps).content i := by
    intro i hi body hbody
    by_cases hother : ∀ p ∈ ps, p.idx ≠ i
    · rw [Ledger.write_other hother]
      exact h.shard i hi body ((hwritten.others i hi hother).1 ▸ hbody)
    · push Not at hother
      obtain ⟨p, hp, rfl⟩ := hother
      obtain ⟨new, hnew, hdecode⟩ := hwritten.patched p hp
      obtain rfl := Option.some.inj (hnew.symm.trans hbody)
      rw [hdecode, Ledger.write_patched hnodup hp]
  refine ⟨fun i hi body hbody => ?_, fun i hi => ?_, shard⟩
  · rcases hbody with hbody | hbody
    · by_cases hother : ∀ p ∈ ps, p.idx ≠ i
      · exact h.readable i hi body (.inl ((hwritten.others i hi hother).1 ▸ hbody))
      · push Not at hother
        obtain ⟨p, hp, rfl⟩ := hother
        obtain ⟨chunk, hchunk⟩ := h.readable.plainChunk hs hi
        exact ⟨p.apply chunk, by
          rw [shard _ hi body hbody, Ledger.write_patched hnodup hp, hchunk]
          rfl⟩
    · rcases hwritten.flat i hi with hgone | hkept
      · rw [hgone] at hbody
        cases hbody
      · exact h.readable i hi body (.inr (hkept ▸ hbody))
  · by_cases hother : ∀ p ∈ ps, p.idx ≠ i
    · rw [plainChunk_same hs (hwritten.others i hi hother), Ledger.write_other hother]
      exact (h.faithful i hi).imp_right fun ⟨hdeleted, hzero⟩ => ⟨⟨hdeleted, hother⟩, hzero⟩
    · push Not at hother
      obtain ⟨p, hp, rfl⟩ := hother
      obtain ⟨new, hnew, -⟩ := hwritten.patched p hp
      exact .inl ((plainChunk_shard hs hnew).trans (shard p.idx hi new hnew))

theorem Tracks.delete (h : Tracks s l b) (hi : i < u64Size) (houtdated : ¬Outdated s b i)
    (hdeletes : Deletes s b b' i) : Tracks s (l.delete i) b' := by
  refine ⟨hdeletes.readable h.readable, fun j hj => ?_, fun j hj body hbody => ?_⟩
  · have kept : plainChunk b s j = l.content j ∨ j ∈ insert i l.deleted ∧
        plainChunk b s j = .ok (zeros s.chunkSize) :=
      (h.faithful j hj).imp_right fun ⟨hdeleted, hzero⟩ => ⟨.inr hdeleted, hzero⟩
    by_cases hji : j = i
    · subst hji
      rcases hdeletes.objects with ⟨hshard, hflat | hflat⟩ | hsame
      · exact .inr ⟨.inl rfl, plainChunk_none hs hshard hflat⟩
      · cases hold : flatOf s b j with
        | none => exact .inr ⟨.inl rfl, plainChunk_none hs hshard (hflat.trans hold)⟩
        | some old =>
          have hread := plainChunk_flat hs hshard (hflat.trans hold)
          cases hbody : shardOf s b j with
          | none =>
            rw [plainChunk_flat hs hbody hold] at kept
            rw [hread]
            exact kept
          | some body =>
            -- the flat object is as old as the sharded one, or zero
            by_cases hzero : decodeChunk codecs s.compression old s.chunkSize = .ok
              (zeros s.chunkSize)
            · exact .inr ⟨.inl rfl, hread.trans hzero⟩
            · have heq : decodeChunk codecs s.compression old s.chunkSize =
                  decodeChunk codecs s.compression body s.chunkSize := by
                by_contra hne
                exact houtdated ⟨body, old, hbody, hold, hne, hzero⟩
              exact .inl (hread.trans (heq.trans (h.shard j hj body hbody)))
      · rw [plainChunk_same hs hsame]
        exact kept
    · rw [plainChunk_same hs (hdeletes.others j hj hji)]
      exact kept
  · by_cases hji : j = i
    · subst hji
      rcases hdeletes.objects with ⟨hshard, -⟩ | ⟨hshard, -⟩
      · rw [hshard] at hbody
        cases hbody
      · exact h.shard j hj body (hshard ▸ hbody)
    · exact h.shard j hj body ((hdeletes.others j hj hji).1 ▸ hbody)

theorem Tracks.step (roundTrip : codecs.RoundTrip) (headed : Headed s.chunkSize s.compression)
    (hc : 0 < s.chunkSize) (hcap : s.capacity < u64Size) (h : Tracks s l b) {c : LegacyCall}
    (typed : c.Typed) (harmless : c.Harmless s b) {r : Outcome Unit} {s' : S3ChunkStore}
    (run : (c.prog s).Runs (DeletesFail etag) b (r, s') b') : Tracks s (l.after s b c r) b' := by
  cases c with
  | writeAt offset data =>
    obtain ⟨-, ⟨rfl, hwritten⟩ | ⟨hr, rfl⟩⟩ := Prog.Safe.runs
      (writeAt_written hs roundTrip headed hc hcap h.readable offset data) run
    · exact h.write hs (patches_nodup hc offset data) hwritten
    · cases r with
      | ok u => exact absurd rfl hr
      | error _ | panic | waits => exact h
  | deleteChunk i =>
    obtain ⟨-, hdeletes⟩ := Prog.Safe.runs (deleteChunkObject_deletes hs typed) run
    exact h.delete hs typed harmless hdeletes

end

omit [External] in
theorem deleteChunkObject_torn (hs : s.storage = .legacy) (i : Nat) :
    (deleteChunkObject i s).Runs (DeletesFail etag) b (.error (.s3 "timeout"), s)
      (b.erase (legacyChunkKey s.family i)) := by
  obtain ⟨family, blockSize, chunkSize, compression, storage, capacity, volume⟩ := s
  obtain rfl : storage = .legacy := hs
  exact ⟨.ok (), _, .inl ⟨rfl, rfl⟩, .error (.failed "timeout"), _,
    .inr ⟨_, rfl, .inl rfl⟩, rfl, rfl⟩

theorem Tracks.resurrects (hs : s.storage = .legacy) (h : Tracks s l b) (hi : i < u64Size)
    (houtdated : Outdated s b i) :
    ¬Faithful s (l.delete i) (b.erase (legacyChunkKey s.family i)) := by
  obtain ⟨body, old, hbody, hold, hne, hzero⟩ := houtdated
  intro hfaithful
  have hread : plainChunk (b.erase (legacyChunkKey s.family i)) s i =
      decodeChunk codecs s.compression old s.chunkSize := by
    refine plainChunk_flat hs (AList.lookup_erase _ _) ?_
    exact (AList.lookup_erase_ne (shard_ne_flat _ _ _).symm).trans hold
  have hcontent := h.shard i hi body hbody
  rcases hfaithful i hi with heq | ⟨-, heq⟩
  · exact hne (hread.symm.trans (heq.trans hcontent.symm))
  · exact hzero (hread.symm.trans heq)

/-- In every run of writes and deletes in which any delete request may fail, but no chunk is deleted
while it has an older flat object, every chunk reads as what it was left with, or as zeros after an
attempt to delete it. The condition is exact. -/
theorem legacy_never_resurrects (etag : Bytes → Str) (roundTrip : codecs.RoundTrip)
    (hs : s.storage = .legacy) (hc : 0 < s.chunkSize) (hcap : s.capacity < u64Size)
    (headed : Headed s.chunkSize s.compression) {b₀ : Bucket} (hread : Readable s b₀)
    (run : Relation.ReflTransGen (LegacyStep etag s) (Ledger.start s b₀, b₀) (l, b)) :
    Faithful s l b ∧ ∀ c : LegacyCall, c.Typed →
      ((∀ r s' b', (c.prog s).Runs (DeletesFail etag) b (r, s') b' →
        Faithful s (l.after s b c r) b') ↔ c.Harmless s b) := by
  have tracks : Tracks s l b := by
    suffices hlast : ∀ x, Relation.ReflTransGen (LegacyStep etag s) (Ledger.start s b₀, b₀) x →
        Tracks s x.1 x.2 from hlast (l, b) run
    intro x hx
    induction hx with
    | refl => exact tracks_start hs hread
    | tail _ step ih =>
      cases step with
      | call c typed harmless run => exact ih.step hs roundTrip headed hc hcap typed harmless run
  refine ⟨tracks.faithful, fun c typed => ⟨fun hkeeps => ?_, fun harmless r s' b' hrun => ?_⟩⟩
  · cases c with
    | writeAt offset data => trivial
    | deleteChunk i =>
      intro houtdated
      exact tracks.resurrects hs typed houtdated (hkeeps _ _ _ (deleteChunkObject_torn hs i))
  · exact (tracks.step hs roundTrip headed hc hcap typed harmless hrun).faithful

end Steps

section Resurrected

open Plain

def flatStore : S3ChunkStore := ⟨"v".toList, 1, 1, .none, .legacy, 4, "v".toList⟩

def flatBucket : Bucket := AList.insert (legacyFlatChunkKey "v".toList 0) [1] ∅

theorem readable_flatStore (b : Bucket) (h : ∀ key body, b.lookup key = some body →
    body.length = 1) : Readable flatStore b := by
  rintro i - body (hbody | hbody)
  · exact ⟨body, by simp [decodeChunk, flatStore, h _ _ hbody]⟩
  · exact ⟨body, by simp [decodeChunk, flatStore, h _ _ hbody]⟩

theorem readable_flatBucket : Readable flatStore flatBucket := by
  refine readable_flatStore flatBucket fun key body hbody => ?_
  by_cases hkey : key = legacyFlatChunkKey "v".toList 0
  · rw [flatBucket, hkey, AList.lookup_insert] at hbody
    rw [← Option.some.inj hbody]
    rfl
  · rw [flatBucket, AList.lookup_insert_ne hkey] at hbody
    simp at hbody

/-- A write over the old object, which the failed delete leaves. -/
theorem runs_torn_write : (writeAt 0 [2] flatStore).Runs (DeletesFail fun _ => []) flatBucket
    (.ok (), flatStore) (flatBucket.insert (legacyChunkKey "v".toList 0) [2]) :=
  ⟨.ok (), _, rfl, .error (.failed "timeout"), _, .inr ⟨_, rfl, .inl rfl⟩, rfl, rfl⟩

theorem legacy_never_resurrects_written :
    plainChunk (flatBucket.insert (legacyChunkKey "v".toList 0) [2]) flatStore 0 = .ok [2] := by
  have run : Relation.ReflTransGen (LegacyStep (fun _ => []) flatStore)
      (Ledger.start flatStore flatBucket, flatBucket) (_, _) :=
    .single (.call (.writeAt 0 [2]) trivial trivial runs_torn_write)
  have faithful := (legacy_never_resurrects (fun _ => []) codecsRoundTrip rfl
    (by decide) (by decide) (fun h => absurd rfl h) readable_flatBucket run).1
  exact (faithful 0 (by decide)).resolve_right fun h => h.1.1

/-- After that write, a delete that fails in the same place leaves the chunk with what it had before
the write. -/
theorem old_payload_read :
    ∃ b b', (writeAt 0 [2] flatStore).Runs (DeletesFail fun _ => []) flatBucket
      (.ok (), flatStore) b ∧
    (deleteChunkObject 0 flatStore).Runs (DeletesFail fun _ => []) b
      (.error (.s3 "timeout"), flatStore) b' ∧
    plainChunk flatBucket flatStore 0 = .ok [1] ∧
    plainChunk b flatStore 0 = .ok [2] ∧
    plainChunk b' flatStore 0 = .ok [1] :=
  ⟨_, _, runs_torn_write, deleteChunkObject_torn rfl 0, by decide +kernel, by decide +kernel,
    by decide +kernel⟩

end Resurrected

end IscsiS3.S3
