import IscsiS3.Lib.Parallel
import IscsiS3.S3.Plain

/-! Several daemons write to one chunk of a volume. A call reads the chunk and puts it back on the
condition that the object has not changed, or without a condition where it read none. The log has
the calls whose put went through, in that order, and each call keeps the log as it was when it last
read the chunk. -/

namespace IscsiS3.S3

open Request External StoreM Splice

/-- Requests that act at once: a put is refused, with some error, if its condition does not hold,
and nothing else fails. -/
def Atomic (etag : Bytes → Str) : Env Req Reply Bucket
  | .get key, b, x, b' => b' = b ∧ x = match b.lookup key with
    | none => .error .noSuchKey
    | some body => .ok (body, some (etag body))
  | .put key body ifMatch, b, x, b' =>
    if b.matches etag key ifMatch then x = .ok () ∧ b' = b.insert key body
    else (∃ e, x = .error e) ∧ b' = b
  | .delete key, b, x, b' => x = .ok () ∧ b' = b.erase key
  | .list front, b, x, b' => x = .ok (b.listed front) ∧ b' = b

theorem atomic_answer (etag : Bytes → Str) (r : Req) (b : Bucket) :
    Atomic etag r b (answer etag r b).1 (answer etag r b).2 := by
  cases r with
  | get key =>
    simp only [Atomic, answer]
    cases b.lookup key <;> exact ⟨rfl, rfl⟩
  | put key body ifMatch =>
    simp only [Atomic, answer]
    split
    · exact ⟨rfl, rfl⟩
    · exact ⟨⟨_, rfl⟩, rfl⟩
  | delete _ | list _ => exact ⟨rfl, rfl⟩

/-- A call of `write_at` in a daemon that takes the volume's capacity to be `capacity`. -/
structure WriteCall where
  capacity : Nat
  offset : Nat
  data : Bytes
  deriving DecidableEq, Repr

namespace WriteCall

def store (c : WriteCall) (s : S3ChunkStore) : S3ChunkStore := { s with capacity := c.capacity }

def within (c : WriteCall) (s : S3ChunkStore) : Nat := c.offset % s.chunkSize

def apply (c : WriteCall) (s : S3ChunkStore) (chunk : Bytes) : Bytes :=
  splice chunk (c.within s) c.data

def Covers (c : WriteCall) (s : S3ChunkStore) (k : Nat) : Prop :=
  c.within s ≤ k ∧ k < c.within s + c.data.length

/-- The call writes into this one chunk. -/
structure On (c : WriteCall) (s : S3ChunkStore) (idx : Nat) : Prop where
  chunk : c.offset / s.chunkSize = idx
  inside : c.within s + c.data.length ≤ s.chunkSize

end WriteCall

/-- The bucket, the calls whose put of the chunk went through, and for each call the log at its last
get of the chunk's object or pointer. -/
structure Logged (ι : Type) where
  bucket : Bucket
  log : List ι
  seen : ι → List ι

/-- Calls of daemons that serve the same volume: its opened form apart from the capacity, the chunk
that the calls write to, and the bucket and the chunk's bytes before them. -/
structure Contention (ι : Type) where
  etag : Bytes → Str
  store : S3ChunkStore
  idx : Nat
  calls : ι → WriteCall
  bucket : Bucket
  content : Bytes

namespace Contention

variable {ι : Type} (x : Contention ι)

def key : Key := x.store.chunkKey x.idx

theorem key_legacy {x : Contention ι} (hs : x.store.storage = .legacy) :
    x.key = legacyChunkKey x.store.family x.idx := by
  simp only [key, S3ChunkStore.chunkKey, hs]

theorem key_cow {x : Contention ι} (hs : x.store.storage = .cow) :
    x.key = liveChunkKey x.store.family x.idx := by
  simp only [key, S3ChunkStore.chunkKey, hs]

theorem key_ne_object {x : Contention ι} (hash : Hash) : x.key ≠ objectKey x.store.family hash := by
  cases hs : x.store.storage with
  | legacy =>
    rw [key_legacy hs]
    exact (inArea_legacy _ _).ne (inArea_object _ _) (by decide)
  | cow =>
    rw [key_cow hs]
    exact (inArea_live _ _).ne (inArea_object _ _) (by decide)

def applied (log : List ι) : Bytes :=
  log.foldl (fun chunk t => (x.calls t).apply x.store chunk) x.content

theorem applied_concat (log : List ι) (t : ι) :
    x.applied (log ++ [t]) = (x.calls t).apply x.store (x.applied log) := by
  simp [applied]

def landed : (r : Req) → Reply r → Bool
  | .put key _ _, .ok () => key = x.key
  | _, _ => false

def looked [DecidableEq ι] (t : ι) (r : Req) (w : Logged ι) : ι → List ι :=
  if r = .get x.key then Function.update w.seen t w.log else w.seen

def serve [DecidableEq ι] (t : ι) : Env Req Reply (Logged ι) := fun r w reply w' =>
  Atomic x.etag r w.bucket reply w'.bucket ∧
    w'.log = (if x.landed r reply then w.log ++ [t] else w.log) ∧ w'.seen = x.looked t r w

section External

variable [External]

/-- What `put_chunk` stores under the chunk's key. -/
def object (chunk : Bytes) : Except StoreError Bytes :=
  (encodeChunk codecs x.store.compression chunk).map fun body => match x.store.storage with
    | .legacy => body
    | .cow => encodePointer (blake3 body)

/-- Where a call puts a part of the chunk without a condition, nobody has put the chunk since the
call last read it. -/
def Current (t : ι) (r : Req) (w : Logged ι) : Prop :=
  ∀ body, r = .put x.key body none → (x.calls t).data.length ≠ x.store.chunkSize →
    w.log = w.seen t

/-- The service, for calls whose puts without a condition are current. -/
def careful [DecidableEq ι] (t : ι) : Env Req Reply (Logged ι) := fun r w reply w' =>
  x.serve t r w reply w' ∧ x.Current t r w

/-- The bodies that the chunk's key can have. -/
def Versions : Set Bytes := { body | x.bucket.lookup x.key = some body ∨
  ∃ log, x.object (x.applied log) = .ok body }

/-- The payloads of the chunk: the one that its live pointer names at first, and those of the
calls. -/
def Payloads : Set Bytes := { payload |
  (x.bucket.lookup x.key = some (encodePointer (blake3 payload)) ∧
    x.bucket.lookup (objectKey x.store.family (blake3 payload)) = some payload) ∨
  ∃ log, encodeChunk codecs x.store.compression (x.applied log) = .ok payload }

/-- What is known before the calls: they are on the chunk, it can be read, a live pointer names its
object by the hash, and of the objects involved, different ones have different etags and different
hashes. -/
structure Ready : Prop where
  pos : 0 < x.store.chunkSize
  roundTrip : (codecs : Codecs).RoundTrip
  small : x.store.compression ≠ .none → x.store.chunkSize < 2 ^ 32
  on : ∀ t, (x.calls t).On x.store x.idx
  readable : plainChunk x.bucket x.store x.idx = .ok x.content
  pooled : x.store.storage = .cow → ∀ body, x.bucket.lookup x.key = some body →
    ∃ payload, body = encodePointer (blake3 payload) ∧
      x.bucket.lookup (objectKey x.store.family (blake3 payload)) = some payload
  tags : Set.InjOn x.etag x.Versions
  hashes : x.store.storage = .cow → Set.InjOn blake3 x.Payloads

/-- The chunk is what the calls of the log made of it. -/
structure Consistent (b : Bucket) (log : List ι) : Prop where
  plain : plainChunk b x.store x.idx = .ok (x.applied log)
  present : x.key ∈ b ↔ x.key ∈ x.bucket ∨ log ≠ []
  version : ∀ body, b.lookup x.key = some body → body ∈ x.Versions
  pooled : x.store.storage = .cow → ∀ body, b.lookup x.key = some body →
    ∃ payload ∈ x.Payloads, body = encodePointer (blake3 payload) ∧
      b.lookup (objectKey x.store.family (blake3 payload)) = some payload

/-- What no call takes away: the chunk's object or pointer, and the payloads in the pool. -/
structure Persists (b b' : Bucket) : Prop where
  present : x.key ∈ b → x.key ∈ b'
  pool : ∀ payload ∈ x.Payloads,
    b.lookup (objectKey x.store.family (blake3 payload)) = some payload →
      b'.lookup (objectKey x.store.family (blake3 payload)) = some payload

variable {x} {w : Logged ι} {b b' : Bucket} {log : List ι} {t : ι}

theorem Persists.refl (b : Bucket) : x.Persists b b := ⟨id, fun _ _ => id⟩

theorem Persists.trans {b'' : Bucket} (h : x.Persists b b') (h' : x.Persists b' b'') :
    x.Persists b b'' :=
  ⟨fun hb => h'.present (h.present hb), fun p hp hb => h'.pool p hp (h.pool p hp hb)⟩

theorem Ready.length_applied (h : x.Ready) (log : List ι) :
    (x.applied log).length = x.store.chunkSize := by
  induction log using List.reverseRecOn with
  | nil => exact length_plainChunk h.readable
  | append_singleton log t ih =>
    have hin := (h.on t).inside
    rw [applied_concat, WriteCall.apply, length_splice (by omega), ih]

theorem Ready.stored (h : x.Ready) (log : List ι) :
    ∃ payload, encodeChunk codecs x.store.compression (x.applied log) = .ok payload ∧
      decodeChunk codecs x.store.compression payload x.store.chunkSize = .ok (x.applied log) := by
  have hlen := h.length_applied log
  have hsmall : x.store.compression ≠ .none → (x.applied log).length < 2 ^ 32 := fun hc => by
    rw [hlen]
    exact h.small hc
  obtain ⟨payload, hpayload, hback⟩ := decodeChunk_encodeChunk h.roundTrip hsmall
  exact ⟨payload, hpayload, hlen ▸ hback⟩

theorem Ready.consistent (h : x.Ready) : x.Consistent x.bucket [] where
  plain := h.readable
  present := by simp
  version := fun _ hbody => .inl hbody
  pooled := fun hs body hbody => by
    obtain ⟨payload, rfl, hpayload⟩ := h.pooled hs body hbody
    exact ⟨payload, .inl ⟨hbody, hpayload⟩, rfl, hpayload⟩

variable {body : Bytes} {payload : Bytes}

/-- The chunk is put as the log with the new call has it, a pooled payload being there already. -/
theorem Ready.insert_chunk (h : x.Ready) (hbody : x.object (x.applied (log ++ [t])) = .ok body)
    (hpool : x.store.storage = .cow → ∀ payload, encodeChunk codecs x.store.compression
      (x.applied (log ++ [t])) = .ok payload →
        b.lookup (objectKey x.store.family (blake3 payload)) = some payload) :
    x.Consistent (b.insert x.key body) (log ++ [t]) := by
  obtain ⟨payload, hpayload, hback⟩ := h.stored (log ++ [t])
  have hversion : ∀ body', (b.insert x.key body).lookup x.key = some body' →
      body' = body := by
    intro body' hlook
    rw [AList.lookup_insert] at hlook
    exact (Option.some.inj hlook).symm
  have hpresent : x.key ∈ b.insert x.key body ↔ x.key ∈ x.bucket ∨ log ++ [t] ≠ [] := by simp
  simp only [object, hpayload, Except.map, Except.ok.injEq] at hbody
  cases hs : x.store.storage with
  | legacy =>
    simp only [hs] at hbody
    subst hbody
    have hnew : (b.insert x.key payload).lookup (legacyChunkKey x.store.family x.idx) =
        some payload := by
      rw [← key_legacy hs]
      exact AList.lookup_insert _
    refine ⟨?_, hpresent, fun body' hlook => ?_, fun hcow => ?_⟩
    · rw [plainChunk_legacy hs hnew]
      exact hback
    · obtain rfl := hversion body' hlook
      exact .inr ⟨log ++ [t], by simp only [object, hpayload, Except.map, hs]⟩
    · rw [hcow] at hs
      cases hs
  | cow =>
    simp only [hs] at hbody
    subst hbody
    have hold : (b.insert x.key (encodePointer (blake3 payload))).lookup
        (objectKey x.store.family (blake3 payload)) = some payload := by
      rw [AList.lookup_insert_ne (key_ne_object _).symm]
      exact hpool hs payload hpayload
    have hnew : (b.insert x.key (encodePointer (blake3 payload))).lookup
        (liveChunkKey x.store.family x.idx) = some (encodePointer (blake3 payload)) := by
      rw [← key_cow hs]
      exact AList.lookup_insert _
    refine ⟨?_, hpresent, fun body' hlook => ?_, fun _ body' hlook => ?_⟩
    · rw [plainChunk_pointer hs hnew hold]
      exact hback
    · obtain rfl := hversion body' hlook
      exact .inr ⟨log ++ [t], by simp only [object, hpayload, Except.map, hs]⟩
    · obtain rfl := hversion body' hlook
      exact ⟨payload, .inr ⟨_, hpayload⟩, rfl, hold⟩

theorem persists_insert_chunk (b : Bucket) (body : Bytes) : x.Persists b (b.insert x.key body) where
  present := fun _ => (AList.mem_insert b).mpr (.inl rfl)
  pool := fun payload _ hlook => by rwa [AList.lookup_insert_ne (key_ne_object _).symm]

theorem persists_insert_object (h : x.Ready) (hs : x.store.storage = .cow) (b : Bucket)
    (hpayload : payload ∈ x.Payloads) :
    x.Persists b (b.insert (objectKey x.store.family (blake3 payload)) payload) where
  present := fun hb => (AList.mem_insert b).mpr (.inr hb)
  pool := fun other hother hlook => by
    by_cases heq : blake3 other = blake3 payload
    · obtain rfl := h.hashes hs hother hpayload heq
      exact AList.lookup_insert _
    · rwa [AList.lookup_insert_ne fun hk => heq (objectKey_inj hk)]

theorem Consistent.insert_object (hw : x.Consistent b log) (h : x.Ready)
    (hs : x.store.storage = .cow) (hpayload : payload ∈ x.Payloads) :
    x.Consistent (b.insert (objectKey x.store.family (blake3 payload)) payload) log := by
  have hkey : (b.insert (objectKey x.store.family (blake3 payload)) payload).lookup x.key =
      b.lookup x.key := AList.lookup_insert_ne (key_ne_object _)
  have hpool : ∀ body, b.lookup x.key = some body → ∃ payload' ∈ x.Payloads,
      body = encodePointer (blake3 payload') ∧
        b.lookup (objectKey x.store.family (blake3 payload')) = some payload' ∧
        (b.insert (objectKey x.store.family (blake3 payload)) payload).lookup
          (objectKey x.store.family (blake3 payload')) = some payload' := by
    intro body hbody
    obtain ⟨payload', hmem, rfl, hlook⟩ := hw.pooled hs body hbody
    exact ⟨payload', hmem, rfl, hlook,
      (persists_insert_object h hs b hpayload).pool payload' hmem hlook⟩
  have hpresent : x.key ∈ b.insert (objectKey x.store.family (blake3 payload)) payload ↔
    x.key ∈ b := by
    rw [AList.mem_insert, or_iff_right (key_ne_object _)]
  refine ⟨?_, hpresent.trans hw.present, fun body hbody => hw.version body (hkey ▸ hbody),
    fun _ body hbody => ?_⟩
  · rw [← hw.plain]
    cases hlook : b.lookup x.key with
    | none =>
      rw [plainChunk_missing hs (by rw [← key_cow hs, hkey, hlook]),
        plainChunk_missing hs (by rw [← key_cow hs, hlook])]
    | some body =>
      obtain ⟨payload', -, rfl, hold, hnew⟩ := hpool body hlook
      rw [plainChunk_pointer hs (by rw [← key_cow hs, hkey, hlook]) hnew,
        plainChunk_pointer hs (by rw [← key_cow hs, hlook]) hold]
  · obtain ⟨payload', hmem, rfl, -, hnew⟩ := hpool body (hkey ▸ hbody)
    exact ⟨payload', hmem, rfl, hnew⟩

theorem Consistent.erase_flat (hw : x.Consistent b log) (hs : x.store.storage = .legacy)
    (hpresent : x.key ∈ b) :
    x.Consistent (b.erase (legacyFlatChunkKey x.store.family x.idx)) log := by
  have hne : x.key ≠ legacyFlatChunkKey x.store.family x.idx := by
    rw [key_legacy hs]
    exact shard_ne_flat _ _ _
  have hkey : (b.erase (legacyFlatChunkKey x.store.family x.idx)).lookup x.key =
      b.lookup x.key := AList.lookup_erase_ne hne
  obtain ⟨body, hbody⟩ := Option.isSome_iff_exists.mp (AList.lookup_isSome.mpr hpresent)
  have hmem : x.key ∈ b.erase (legacyFlatChunkKey x.store.family x.idx) ↔ x.key ∈ b := by
    rw [AList.mem_erase, and_iff_right hne]
  refine ⟨?_, hmem.trans hw.present, fun body' hbody' => hw.version body' (hkey ▸ hbody'),
    fun hcow => ?_⟩
  · rw [← hw.plain]
    rw [key_legacy hs] at hkey hbody
    exact (plainChunk_legacy hs (hkey.trans hbody)).trans (plainChunk_legacy hs hbody).symm
  · rw [hcow] at hs
    cases hs

theorem persists_erase_flat (b : Bucket) (hs : x.store.storage = .legacy) :
    x.Persists b (b.erase (legacyFlatChunkKey x.store.family x.idx)) where
  present := fun hb => AList.mem_erase.mpr ⟨by
    rw [key_legacy hs]
    exact shard_ne_flat _ _ _, hb⟩
  pool := fun payload _ hlook => by
    rwa [AList.lookup_erase_ne ((inArea_object _ _).ne (inArea_flat _ _) (by decide))]

/-- What call `t` knows of the chunk that it has read: with an etag, that it is the chunk as long as
the object has this etag. -/
structure Base (x : Contention ι) (t : ι) (found : Bytes × Option Str) : Prop where
  tagged : ∀ e, found.2 = some e → ∃ body ∈ x.Versions, e = x.etag body ∧
    ∀ b log, x.Consistent b log → b.lookup x.key = some body → found.1 = x.applied log
  whole : (x.calls t).data.length = x.store.chunkSize →
    found = (zeros x.store.chunkSize, none)
  involved : x.store.storage = .cow →
    ∃ log, (x.calls t).apply x.store found.1 = x.applied log

/-- What a call read of a chunk without an object is the chunk, if nobody has put it since. -/
def Fresh (x : Contention ι) (t : ι) (found : Bytes × Option Str) (w : Logged ι) : Prop :=
  found.2 = none → (x.calls t).data.length ≠ x.store.chunkSize → w.log = w.seen t →
    found.1 = x.applied w.log

variable {found : Bytes × Option Str}

theorem Ready.apply_whole (h : x.Ready) (hlen : (x.calls t).data.length = x.store.chunkSize)
    {chunk : Bytes} (hchunk : chunk.length = x.store.chunkSize) :
    (x.calls t).apply x.store chunk = (x.calls t).data := by
  have hin := (h.on t).inside
  have hzero : (x.calls t).within x.store = 0 := by omega
  simp [WriteCall.apply, splice, hzero, hlen, hchunk]

theorem Base.lands (h : x.Ready) (hbase : x.Base t found) (fresh : x.Fresh t found w)
    (hw : x.Consistent w.bucket w.log)
    (hbody : x.object ((x.calls t).apply x.store found.1) = .ok body)
    (hcurrent : x.Current t (.put x.key body found.2) w)
    (hmatch : w.bucket.matches x.etag x.key found.2 = true) :
    x.object (x.applied (w.log ++ [t])) = .ok body := by
  rw [applied_concat]
  cases htag : found.2 with
  | some e =>
    obtain ⟨version, hversion, rfl, hsame⟩ := hbase.tagged e htag
    rw [htag] at hmatch
    cases hlook : w.bucket.lookup x.key with
    | none => simp [Bucket.matches, hlook] at hmatch
    | some now =>
      simp only [Bucket.matches, hlook, decide_eq_true_eq] at hmatch
      obtain rfl := h.tags (hw.version now hlook) hversion hmatch
      rw [← hsame w.bucket w.log hw hlook]
      exact hbody
  | none =>
    by_cases hlen : (x.calls t).data.length = x.store.chunkSize
    · rw [h.apply_whole hlen (h.length_applied w.log)]
      have hzero : (x.calls t).apply x.store (zeros x.store.chunkSize) = (x.calls t).data :=
        h.apply_whole hlen List.length_replicate
      rwa [hbase.whole hlen, hzero] at hbody
    · rw [htag] at hcurrent
      rw [← fresh htag hlen (hcurrent body rfl hlen)]
      exact hbody

theorem Consistent.read_version (hw : x.Consistent b log) {body chunk : Bytes}
    (hs : x.store.storage = .legacy) (hlook : b.lookup x.key = some body)
    (hchunk : decodeChunk External.codecs x.store.compression body x.store.chunkSize = .ok chunk) :
    chunk = x.applied log := by
  have hplain := hw.plain
  rw [plainChunk_legacy hs (by rw [← key_legacy hs, hlook]), hchunk] at hplain
  exact Except.ok.inj hplain

theorem Consistent.read_pointer (h : x.Ready) (hw : x.Consistent b log)
    (hs : x.store.storage = .cow) {payload chunk : Bytes} (hpayload : payload ∈ x.Payloads)
    (hlook : b.lookup x.key = some (encodePointer (blake3 payload)))
    (hchunk : decodeChunk External.codecs x.store.compression payload x.store.chunkSize =
      .ok chunk) : chunk = x.applied log := by
  obtain ⟨payload', hmem, heq, hpool⟩ := hw.pooled hs _ hlook
  obtain rfl := h.hashes hs hpayload hmem (encodePointer_inj heq)
  have hplain := hw.plain
  rw [plainChunk_pointer hs (by rw [← key_cow hs, hlook]) hpool, hchunk] at hplain
  exact Except.ok.inj hplain

def piece (x : Contention ι) (t : ι) : Piece :=
  ⟨x.idx, (x.calls t).within x.store, (x.calls t).data.length⟩

theorem Ready.pieces (h : x.Ready) (t : ι) :
    IscsiS3.pieces x.store.chunkSize (x.calls t).offset (x.calls t).data.length =
      if (x.calls t).data = [] then [] else [x.piece t] := by
  have hon := h.on t
  have hin := hon.inside
  by_cases hnil : (x.calls t).data = []
  · rw [if_pos hnil, hnil]
    rfl
  · rw [if_neg hnil]
    have hpos := List.length_pos_of_ne_nil hnil
    have hfirst : firstTake x.store.chunkSize (x.calls t).offset (x.calls t).data.length =
        (x.calls t).data.length := by
      unfold WriteCall.within at hin
      unfold firstTake
      omega
    rw [pieces_succ h.pos hpos, hfirst, Nat.sub_self, pieces_zero, hon.chunk]
    rfl

theorem Ready.slice_piece (h : x.Ready) (t : ι) :
    slice (x.calls t).data ((x.piece t).idx * x.store.chunkSize + (x.piece t).within -
      (x.calls t).offset) (x.piece t).take = (x.calls t).data := by
  have hdiv := Nat.div_add_mod (x.calls t).offset x.store.chunkSize
  rw [(h.on t).chunk, Nat.mul_comm] at hdiv
  have hstart : x.idx * x.store.chunkSize + (x.calls t).within
    x.store - (x.calls t).offset = 0 := by
    unfold WriteCall.within
    omega
  simp only [piece, hstart]
  simp [slice]

section Among

variable [DecidableEq ι]

/-- What a call relies on and what it guarantees: the chunk stays what the log makes of it, nothing
that matters goes away, the log only grows, and only the call itself adds the call to it and notes
what it has seen. -/
def outline (x : Contention ι) : Parallel.Outline ι (Logged ι) where
  rely t w w' := (x.Consistent w.bucket w.log → x.Consistent w'.bucket w'.log) ∧
    x.Persists w.bucket w'.bucket ∧ w'.log.count t = w.log.count t ∧ w.log <+: w'.log ∧
    w'.seen t = w.seen t
  guar t w w' := x.Consistent w'.bucket w'.log ∧ x.Persists w.bucket w'.bucket ∧
    (∀ u, u ≠ t → w'.log.count u = w.log.count u) ∧ w.log <+: w'.log ∧
    ∀ u, u ≠ t → w'.seen u = w.seen u
  refl _ _ := ⟨id, .refl _, rfl, List.prefix_rfl, rfl⟩
  trans h h' := ⟨fun hw => h'.1 (h.1 hw), h.2.1.trans h'.2.1, h'.2.2.1.trans h.2.2.1,
    h.2.2.2.1.trans h'.2.2.2.1, h'.2.2.2.2.trans h.2.2.2.2⟩
  fits hne h := ⟨fun _ => h.1, h.2.1, h.2.2.1 _ hne, h.2.2.2.1, h.2.2.2.2 _ hne⟩

/-- Call `t` has kept its guarantee, it is in the log `n` times, and the log is at least what it has
seen. -/
structure At (x : Contention ι) (t : ι) (n : Nat) (v : Logged ι × Logged ι) : Prop where
  guar : x.outline.guar t v.1 v.2
  count : v.2.log.count t = n
  grown : v.2.seen t <+: v.2.log

/-- A part of call `t`, run among the others: a value satisfies `R`, and where there is none, the
call is not in the log. -/
def Among {α : Type} (x : Contention ι) (t : ι) (m : VolM α) (v : Logged ι × Logged ι)
    (R : α → Logged ι × Logged ι → Prop) : Prop :=
  m.Safe (Parallel.Interfered (x.careful t) (x.outline.rely t))
    (fun v => x.outline.guar t v.1 v.2) ((x.calls t).store x.store) v fun r s v =>
      s = (x.calls t).store x.store ∧ match r with
        | .ok a => R a v
        | _ => x.At t 0 v

variable {v : Logged ι × Logged ι} {n : Nat} {α β : Type}

theorem At.start (hw : x.Consistent w.bucket w.log) (hcount : w.log.count t = n)
    (grown : w.seen t <+: w.log) : x.At t n (w, w) :=
  ⟨⟨hw, .refl _, fun _ _ => rfl, List.prefix_rfl, fun _ _ => rfl⟩, hcount, grown⟩

theorem At.consistent (h : x.At t n v) : x.Consistent v.2.bucket v.2.log := h.guar.1

theorem At.wait (h : x.At t n v) (hrely : x.outline.rely t v.2 w) : x.At t n (w, w) :=
  .start (hrely.1 h.consistent) (hrely.2.2.1.trans h.count)
    (hrely.2.2.2.2 ▸ h.grown.trans hrely.2.2.2.1)

theorem At.fresh (hv : x.At t n v) (hrely : x.outline.rely t v.2 w) (h : x.Fresh t found v.2) :
    x.Fresh t found w := by
  intro htag hlen heq
  -- a log that is the one seen has not grown in between
  have hold : v.2.log = w.log := by
    refine hrely.2.2.2.1.eq_of_length_le ?_
    rw [heq, hrely.2.2.2.2]
    exact hv.grown.length_le
  rw [h htag hlen (by rw [hold, heq, hrely.2.2.2.2]), hold]

variable {key : Key} {ifMatch : Option Str}

omit [External] in
theorem looked_put :
    x.looked t (.put key body ifMatch) w = w.seen := if_neg nofun

omit [External] in
theorem looked_flat (hs : x.store.storage = .legacy) :
    x.looked t (.get (legacyFlatChunkKey x.store.family x.idx)) w = w.seen := by
  refine if_neg fun heq => ?_
  rw [Req.get.injEq, key_legacy hs] at heq
  exact shard_ne_flat _ _ _ heq.symm

theorem At.look {w' : Logged ι} (h : x.At t n (w, w)) (hb : w'.bucket = w.bucket)
    (hlog : w'.log = w.log) (hseen : w'.seen = x.looked t (.get key) w) : x.At t n (w, w') := by
  have hnext : w' = ⟨w.bucket, w.log, x.looked t (.get key) w⟩ := by
    cases w'
    cases hb
    cases hlog
    cases hseen
    rfl
  subst hnext
  refine ⟨⟨h.consistent, .refl _, fun _ _ => rfl, List.prefix_rfl, fun u hu => ?_⟩, h.count, ?_⟩
  · unfold looked
    split
    · exact Function.update_of_ne hu _ _
    · rfl
  · simp only [looked]
    split
    · rw [Function.update_self]
    · exact h.grown

namespace Among

variable {R : α → Logged ι × Logged ι → Prop} {m : VolM α}

theorem pure {a : α} (hv : x.At t n v) (h : R a v) :
    x.Among t (Pure.pure a) v R := ⟨hv.guar, rfl, h⟩

theorem throw {e : StoreError} (hv : x.At t 0 v) :
    x.Among t (StoreM.throw e) v R := ⟨hv.guar, rfl, hv⟩

theorem lift {r : Except StoreError α} (hv : x.At t 0 v) (h : ∀ a, r = .ok a → R a v) :
    x.Among t (StoreM.lift r) v R := by
  cases r with
  | ok a => exact ⟨hv.guar, rfl, h a rfl⟩
  | error e => exact ⟨hv.guar, rfl, hv⟩

theorem get {f : S3ChunkStore → VolM β} {R : β → Logged ι × Logged ι → Prop}
    (h : x.Among t (f ((x.calls t).store x.store)) v R) : x.Among t (StoreM.get >>= f) v R := h

theorem bind {f : α → VolM β} {R : β → Logged ι × Logged ι → Prop}
    (h : x.Among t m v fun a v' => x.Among t (f a) v' R) : x.Among t (m >>= f) v R := by
  refine Safe.bind (Safe.mono h ?_)
  rintro r s v' - ⟨rfl, hr⟩
  cases r with
  | ok a => exact hr
  | error _ | panic | waits => exact ⟨rfl, hr⟩

theorem mono {R R' : α → Logged ι × Logged ι → Prop} (h : x.Among t m v R)
    (imp : ∀ a v', R a v' → R' a v') : x.Among t m v R' := by
  refine Safe.mono h ?_
  rintro r s v' - ⟨rfl, hr⟩
  cases r with
  | ok a => exact ⟨rfl, imp a v' hr⟩
  | error _ | panic | waits => exact ⟨rfl, hr⟩

theorem attempt {R : Except StoreError α → Logged ι × Logged ι → Prop}
    (h : x.Among t m v fun a v' => R (.ok a) v') (error : ∀ e v', x.At t 0 v' → R (.error e) v') :
    x.Among t m.attempt v R := by
  refine Safe.attempt (Safe.mono h ?_)
  rintro r s v' - ⟨rfl, hr⟩
  cases r with
  | ok a => exact ⟨rfl, hr⟩
  | error e => exact ⟨rfl, error e v' hr⟩
  | panic | waits => exact ⟨rfl, hr⟩

theorem getBytes (hv : x.At t n v) {R : Option (Bytes × Option Str) → Logged ι × Logged ι → Prop}
    (h : ∀ w w', x.At t n (w, w') → x.outline.rely t v.2 w → w'.bucket = w.bucket → w'.log = w.log →
      w'.seen = x.looked t (.get key) w →
        R ((w.bucket.lookup key).map fun body => (body, some (x.etag body))) (w, w')) :
    x.Among t (S3.getBytes key) v R := by
  refine ⟨hv.guar, ?_⟩
  rintro reply ⟨w, w'⟩ ⟨hrely, ⟨⟨hb, hreply⟩, hlog, hseen⟩, -⟩
  have hw : x.At t n (w, w') := (hv.wait hrely).look hb hlog hseen
  have hR := h w w' hw hrely hb hlog hseen
  dsimp only at hreply
  cases hlook : w.bucket.lookup key with
  | none =>
    rw [hlook] at hreply hR
    subst hreply
    exact ⟨hw.guar, rfl, hR⟩
  | some body =>
    rw [hlook] at hreply hR
    subst hreply
    exact ⟨hw.guar, rfl, hR⟩

theorem putBytes (hv : x.At t 0 v) {R : Unit → Logged ι × Logged ι → Prop}
    (h : ∀ w w', x.At t 0 (w, w) → x.outline.rely t v.2 w → x.Current t (.put key body ifMatch) w →
      w.bucket.matches x.etag key ifMatch = true →
        w' = ⟨w.bucket.insert key body, if key = x.key then w.log ++ [t] else w.log, w.seen⟩ →
          x.outline.guar t w w' ∧ R () (w, w')) :
    x.Among t (S3.putBytes key body ifMatch) v R := by
  refine ⟨hv.guar, ?_⟩
  rintro reply ⟨w, b', log, seen⟩ ⟨hrely, ⟨hput, hlog, hseen⟩, hcurrent⟩
  have hw := hv.wait hrely
  obtain rfl : seen = w.seen := hseen.trans looked_put
  simp only [Atomic] at hput
  split at hput
  · rename_i hmatch
    obtain ⟨rfl, rfl⟩ := hput
    obtain ⟨hguar, hR⟩ := h w ⟨_, log, w.seen⟩ hw hrely hcurrent hmatch (by
      simp only [landed, decide_eq_true_eq] at hlog
      rw [hlog])
    exact ⟨hguar, rfl, hR⟩
  · obtain ⟨⟨e, rfl⟩, rfl⟩ := hput
    obtain rfl : log = w.log := hlog
    exact ⟨hw.guar, rfl, hw⟩

theorem deleteObjectKey (hv : x.At t n v) {R : Except StoreError Unit → Logged ι × Logged ι → Prop}
    (h : ∀ w, x.At t n (w, w) → x.Persists v.2.bucket w.bucket →
      x.outline.guar t w ⟨w.bucket.erase key, w.log, w.seen⟩ ∧
        R (.ok ()) (w, ⟨w.bucket.erase key, w.log, w.seen⟩)) :
    x.Among t (S3.deleteObjectKey key).attempt v R := by
  refine ⟨hv.guar, ?_⟩
  rintro reply ⟨w, b', log, seen⟩ ⟨hrely, ⟨⟨hreply, hb⟩, hlog, hseen⟩, -⟩
  obtain rfl : reply = .ok () := hreply
  obtain rfl : b' = w.bucket.erase key := hb
  obtain rfl : log = w.log := hlog
  obtain rfl : seen = w.seen := hseen.trans (if_neg nofun)
  obtain ⟨hguar, hR⟩ := h w (hv.wait hrely) hrely.2.1
  exact ⟨hguar, rfl, hR⟩

end Among

structure Known (x : Contention ι) (t : ι) (found : Bytes × Option Str) (v : Logged ι × Logged ι) :
    Prop where
  at_zero : x.At t 0 v
  base : x.Base t found
  fresh : x.Fresh t found v.2

theorem Among.getLegacyChunk (hv : x.At t 0 v) (hs : x.store.storage = .legacy)
    (hpart : (x.calls t).data.length ≠ x.store.chunkSize) :
    x.Among t (S3.getLegacyChunk x.idx) v (x.Known t) := by
  have untagged : ∀ chunk, x.Base t (chunk, none) := fun chunk =>
    ⟨nofun, fun hlen => absurd hlen hpart, fun hcow => by rw [hs] at hcow; cases hcow⟩
  refine .get (.bind (.getBytes hv fun w w' hw _ hb hlog hseen => ?_))
  have hkey : legacyChunkKey ((x.calls t).store x.store).family x.idx = x.key :=
    (key_legacy hs).symm
  rw [hkey] at hseen ⊢
  cases hlook : w.bucket.lookup x.key with
  | some body =>
    refine .bind (.lift hw fun chunk hchunk => .pure hw
      ⟨hw, ⟨?_, fun hlen => absurd hlen hpart, ?_⟩, nofun⟩)
    · intro e he
      obtain rfl := Option.some.inj he
      exact ⟨body, hw.consistent.version body (hb ▸ hlook), rfl, fun b log hw' hlook' =>
        hw'.read_version hs hlook' hchunk⟩
    · intro hcow
      rw [hs] at hcow
      cases hcow
  | none =>
    refine .bind (.getBytes hw fun u u' hu hrely hub hulog huseen => ?_)
    -- if the log has not grown since the first get, the object is still missing
    have missing : u'.log = u'.seen t → u.bucket.lookup x.key = none := by
      intro heq
      have hgone : x.key ∉ w'.bucket := by
        rw [hb]
        exact AList.lookup_eq_none.mp hlook
      have hsame : u'.seen t = w'.log := by
        rw [show u'.seen = u.seen from huseen.trans (looked_flat hs), hrely.2.2.2.2, hseen, looked,
          if_pos rfl, Function.update_self, hlog]
      rw [AList.lookup_eq_none, ← hub, hu.consistent.present, heq, hsame, ← hw.consistent.present]
      exact hgone
    have fresh : ∀ chunk, (u.bucket.lookup x.key = none → plainChunk u.bucket x.store x.idx =
        .ok chunk) → x.Fresh t (chunk, none) u' := fun chunk hchunk _ _ heq =>
      Except.ok.inj ((hchunk (missing heq)).symm.trans (hub ▸ hu.consistent.plain))
    rw [key_legacy hs] at fresh
    cases hflat : u.bucket.lookup (legacyFlatChunkKey ((x.calls t).store x.store).family x.idx) with
    | some body =>
      refine .bind (.lift hu fun chunk hchunk => .pure hu ⟨hu, untagged chunk, fresh chunk ?_⟩)
      intro hnone
      have hflat' : u.bucket.lookup (legacyFlatChunkKey x.store.family x.idx) = some body := hflat
      simp only [plainChunk, storedBody, hs, hnone, hflat', Option.none_or]
      exact hchunk
    | none =>
      refine .pure hu ⟨hu, untagged _, fresh _ fun hnone => ?_⟩
      have hflat' : u.bucket.lookup (legacyFlatChunkKey x.store.family x.idx) = none := hflat
      simp only [plainChunk, storedBody, hs, hnone, hflat', Option.none_or]
      rfl

section

variable (h : x.Ready)

include h

theorem Among.getPooledChunk (hv : x.At t 0 v) (hs : x.store.storage = .cow)
    (hpart : (x.calls t).data.length ≠ x.store.chunkSize) :
    x.Among t (S3.getChunk x.idx) v (x.Known t) := by
  refine .get ?_
  have hs' : ((x.calls t).store x.store).storage = .cow := hs
  rw [hs']
  refine .bind (.getBytes hv fun w w' hw _ hb hlog _ => ?_)
  have hkey : ((x.calls t).store x.store).chunkKey x.idx = x.key := rfl
  rw [hkey]
  cases hlook : w.bucket.lookup x.key with
  | none =>
    have hzero := hw.consistent.plain
    rw [plainChunk_missing hs (by rw [← key_cow hs, hb, hlook])] at hzero
    refine .pure hw ⟨hw, ⟨nofun, fun hlen => absurd hlen hpart, fun _ => ⟨w'.log ++ [t], ?_⟩⟩,
      fun _ _ _ => Except.ok.inj hzero⟩
    rw [applied_concat, ← Except.ok.inj hzero]
    rfl
  | some body =>
    rw [← hb] at hlook
    obtain ⟨payload, hmem, rfl, hpool⟩ := hw.consistent.pooled hs body hlook
    refine .bind (.lift hw fun hash hhash => ?_)
    rw [decodePointer_encodePointer] at hhash
    obtain rfl := Except.ok.inj hhash
    refine .bind (.get (.getBytes hw fun u u' hu hrely _ _ _ => ?_))
    have hpool' : u.bucket.lookup
        (objectKey ((x.calls t).store x.store).family (blake3 payload)) = some payload :=
      hrely.2.1.pool payload hmem hpool
    rw [hpool']
    refine .bind (.lift hu fun chunk hchunk => .pure hu ⟨hu, ⟨?_, fun hlen => absurd hlen hpart,
      fun _ => ⟨w'.log ++ [t], ?_⟩⟩, nofun⟩)
    · intro e he
      obtain rfl := Option.some.inj he
      exact ⟨_, hw.consistent.version _ hlook, rfl, fun b log hw'' hlook' =>
        hw''.read_pointer h hs hmem hlook' hchunk⟩
    · rw [applied_concat, ← hw.consistent.read_pointer h hs hmem hlook hchunk]

theorem Among.baseChunk (hv : x.At t 0 v) :
    x.Among t (S3.baseChunk (x.piece t)) v (x.Known t) := by
  refine .get ?_
  split
  · rename_i hwhole
    have hlen : (x.calls t).data.length = x.store.chunkSize := hwhole.2
    refine .pure hv ⟨hv, ⟨nofun, fun _ => rfl, fun _ => ⟨[t], ?_⟩⟩,
      fun _ hpart => absurd hlen hpart⟩
    have hconcat := x.applied_concat [] t
    rw [List.nil_append] at hconcat
    rw [hconcat, h.apply_whole hlen (h.length_applied [])]
    exact h.apply_whole hlen List.length_replicate
  · rename_i hpart
    have hne : (x.calls t).data.length ≠ x.store.chunkSize := fun hlen => hpart ⟨by
      have hin := (h.on t).inside
      simp only [piece]
      omega, hlen⟩
    cases hs : x.store.storage with
    | legacy =>
      refine .get ?_
      have hs' : ((x.calls t).store x.store).storage = .legacy := hs
      rw [hs']
      exact .getLegacyChunk hv hs hne
    | cow => exact .getPooledChunk h hv hs hne

theorem At.land (hw : x.At t 0 (w, w)) (hbody : x.object (x.applied (w.log ++ [t])) = .ok body)
    (hpool : x.store.storage = .cow → ∀ payload, encodeChunk External.codecs x.store.compression
      (x.applied (w.log ++ [t])) = .ok payload →
        w.bucket.lookup (objectKey x.store.family (blake3 payload)) = some payload) :
    x.At t 1 (w, ⟨w.bucket.insert x.key body, w.log ++ [t], w.seen⟩) := by
  refine ⟨⟨h.insert_chunk hbody hpool, persists_insert_chunk _ _, fun u hu => ?_,
    List.prefix_append _ _, fun _ _ => rfl⟩, ?_, hw.grown.trans (List.prefix_append _ _)⟩
  · simp [hu.symm]
  · have hcount : w.log.count t = 0 := hw.count
    simp [hcount]

theorem Among.putLegacyChunk (hknown : x.Known t found v) (hs : x.store.storage = .legacy) :
    x.Among t (S3.putChunk x.idx ((x.calls t).apply x.store found.1) found.2) v
      fun _ v' => x.At t 1 v' := by
  obtain ⟨hv, hbase, fresh⟩ := hknown
  refine .get ?_
  split
  · exact .throw hv
  have hs' : ((x.calls t).store x.store).storage = .legacy := hs
  have hkey : legacyChunkKey ((x.calls t).store x.store).family x.idx = x.key :=
    (key_legacy hs).symm
  rw [hs']
  refine .bind (.lift hv fun body hencode => ?_)
  rw [hkey]
  have hbody : x.object ((x.calls t).apply x.store found.1) = .ok body := by
    have hencode' : encodeChunk External.codecs x.store.compression
      ((x.calls t).apply x.store found.1) = .ok body := hencode
    simp only [object, hencode', Except.map, hs]
  refine .bind (.putBytes hv fun w w' hw hrely hcurrent hmatch hw' => ?_)
  rw [if_pos rfl] at hw'
  subst hw'
  have hland := hw.land h
    (hbase.lands h (hv.fresh hrely fresh) hw.consistent hbody hcurrent hmatch)
    fun hcow => by rw [hs] at hcow; cases hcow
  refine ⟨hland.guar, .bind (.deleteObjectKey hland fun u hu hpersist => ?_)⟩
  have hpresent : x.key ∈ u.bucket :=
    hpersist.present ((AList.mem_insert w.bucket).mpr (.inl rfl))
  have hafter : x.At t 1
      (u, ⟨u.bucket.erase (legacyFlatChunkKey x.store.family x.idx), u.log, u.seen⟩) :=
    ⟨⟨hu.consistent.erase_flat hs hpresent, persists_erase_flat _ hs, fun _ _ => rfl,
      List.prefix_rfl, fun _ _ => rfl⟩, hu.count, hu.grown⟩
  exact ⟨hafter.guar, .pure hafter hafter⟩

theorem Among.putPooledChunk (hknown : x.Known t found v) (hs : x.store.storage = .cow) :
    x.Among t (S3.putChunk x.idx ((x.calls t).apply x.store found.1) found.2) v
      fun _ v' => x.At t 1 v' := by
  obtain ⟨hv, hbase, fresh⟩ := hknown
  refine .get ?_
  split
  · exact .throw hv
  have hs' : ((x.calls t).store x.store).storage = .cow := hs
  rw [hs']
  refine .bind (.lift hv fun payload hencode => ?_)
  obtain ⟨log, hlog⟩ := hbase.involved hs
  have hencode' : encodeChunk External.codecs x.store.compression
    ((x.calls t).apply x.store found.1) = .ok payload := hencode
  have hpayload : payload ∈ x.Payloads := .inr ⟨log, hlog ▸ hencode'⟩
  have hbody : x.object ((x.calls t).apply x.store found.1) =
      .ok (encodePointer (blake3 payload)) := by
    simp only [object, hencode', Except.map, hs]
  refine .bind (.putBytes hv fun w w' hw hrely _ _ hw' => ?_)
  have hne : objectKey ((x.calls t).store x.store).family (blake3 payload) ≠ x.key :=
    (key_ne_object _).symm
  rw [if_neg hne] at hw'
  subst hw'
  have hpooled : x.At t 0
      (w, ⟨w.bucket.insert (objectKey x.store.family (blake3 payload)) payload, w.log, w.seen⟩) :=
    ⟨⟨hw.consistent.insert_object h hs hpayload, persists_insert_object h hs _ hpayload,
      fun _ _ => rfl, List.prefix_rfl, fun _ _ => rfl⟩, hw.count, hw.grown⟩
  have fresh' : x.Fresh t found w := hv.fresh hrely fresh
  refine ⟨hpooled.guar, .putBytes hpooled fun u u' hu hrely' hcurrent hmatch hu' => ?_⟩
  have hkey : ((x.calls t).store x.store).chunkKey x.idx = x.key := rfl
  rw [hkey] at hu' hcurrent hmatch
  rw [if_pos rfl] at hu'
  subst hu'
  have hlands := hbase.lands h (hpooled.fresh hrely' fresh') hu.consistent hbody hcurrent hmatch
  have hland := hu.land h hlands fun _ other hother => ?_
  · exact ⟨hland.guar, hland⟩
  · simp only [object, hother, Except.map, hs, Except.ok.injEq] at hlands
    obtain rfl := h.hashes hs (.inr ⟨_, hother⟩) hpayload (encodePointer_inj hlands)
    exact hrely'.2.1.pool other hpayload (AList.lookup_insert _)

theorem Among.putChunk (hknown : x.Known t found v) :
    x.Among t (S3.putChunk x.idx ((x.calls t).apply x.store found.1) found.2) v
      fun _ v' => x.At t 1 v' := by
  cases hs : x.store.storage with
  | legacy => exact .putLegacyChunk h hknown hs
  | cow => exact .putPooledChunk h hknown hs

theorem Among.writePieceLoop (retries : Nat) (hv : x.At t 0 v) :
    x.Among t (S3.writePieceLoop (x.piece t) (x.calls t).data retries) v
      fun _ v' => x.At t 1 v' := by
  induction retries generalizing v with
  | zero => exact .bind ((Among.baseChunk h hv).mono fun found v' hv' => .putChunk h hv')
  | succ retries ih =>
    refine .bind ((Among.baseChunk h hv).mono fun found v' hv' => .bind (.attempt ?_ ?_))
    · exact (Among.putChunk h hv').mono fun _ v'' hv'' => .pure hv'' hv''
    · intro e v'' hv''
      dsimp only
      split
      · exact ih hv''
      · exact .throw hv''

end

/-- How often a call that returns is in the log. -/
def Result (x : Contention ι) (t : ι) (r : Outcome Unit × S3ChunkStore) (w : Logged ι) : Prop :=
  (r.1 = .ok () → (x.calls t).data ≠ [] → w.log.count t = 1) ∧
    (r.1 ≠ .ok () → w.log.count t = 0)

theorem Ready.meets (h : x.Ready) (hw : x.Consistent w.bucket w.log) (hcount : w.log.count t = 0)
    (grown : w.seen t <+: w.log) :
    x.outline.Meets x.careful t (writeAt (x.calls t).offset (x.calls t).data
      ((x.calls t).store x.store)) (w, w) (x.Result t) := by
  have hv : x.At t 0 (w, w) := .start hw hcount grown
  have among : x.Among t (writeAt (x.calls t).offset (x.calls t).data) (w, w) fun _ v' =>
      (x.calls t).data ≠ [] → x.At t 1 v' := by
    refine .get (.bind (.lift hv fun _ _ => ?_))
    have hpieces : IscsiS3.pieces ((x.calls t).store x.store).chunkSize (x.calls t).offset
        (x.calls t).data.length = if (x.calls t).data = [] then [] else [x.piece t] := h.pieces t
    rw [hpieces]
    split
    · rename_i hnil
      exact .pure hv fun hne => absurd hnil hne
    · refine .bind (.get ?_)
      have hslice : slice (x.calls t).data
        ((x.piece t).idx * ((x.calls t).store x.store).chunkSize +
          (x.piece t).within - (x.calls t).offset) (x.piece t).take = (x.calls t).data :=
        h.slice_piece t
      dsimp only
      rw [hslice]
      exact (Among.writePieceLoop h _ hv).mono fun _ v' hv' => .pure hv' fun _ => hv'
  refine Prog.Safe.mono among ?_
  rintro ⟨r, s⟩ v - ⟨-, hr⟩
  cases r with
  | ok a => exact ⟨fun _ hne => (hr hne).count, fun hne => absurd rfl hne⟩
  | error _ | panic | waits => exact ⟨nofun, fun _ => hr.count⟩

theorem Ready.byte_kept (h : x.Ready) {log : List ι} (ht : t ∈ log) {k : Nat}
    (hk : k < (x.calls t).data.length) :
    (x.applied log)[(x.calls t).within x.store + k]? = (x.calls t).data[k]? ∨
      ∃ before later u, log = before ++ t :: later ∧ u ∈ later ∧
        (x.calls u).Covers x.store ((x.calls t).within x.store + k) := by
  induction log using List.reverseRecOn with
  | nil => cases ht
  | append_singleton log u ih =>
    have hfit : (x.calls u).within x.store + (x.calls u).data.length ≤ (x.applied log).length := by
      rw [h.length_applied]
      exact (h.on u).inside
    rw [applied_concat, WriteCall.apply, getElem?_splice hfit]
    by_cases hu : t ∈ log
    · by_cases hcovers : (x.calls u).Covers x.store ((x.calls t).within x.store + k)
      · obtain ⟨before, later, rfl⟩ := List.append_of_mem hu
        exact .inr ⟨before, later ++ [u], u, by simp, by simp, hcovers⟩
      · unfold WriteCall.Covers at hcovers
        rw [if_neg hcovers]
        rcases ih hu with hsame | ⟨before, later, u', rfl, hmem, hcovers'⟩
        · exact .inl hsame
        · exact .inr ⟨before, later ++ [u], u', by simp, by simp [hmem], hcovers'⟩
    · obtain rfl : t = u := by simpa [hu] using ht
      rw [if_pos ⟨Nat.le_add_right _ _, by omega⟩, Nat.add_sub_cancel_left]
      exact .inl rfl

def start (x : Contention ι) : Parallel Req Reply ι (Outcome Unit × S3ChunkStore) (Logged ι) where
  world := ⟨x.bucket, [], fun _ => []⟩
  progs t := writeAt (x.calls t).offset (x.calls t).data ((x.calls t).store x.store)

/-- No write is lost: a call that has returned `Ok` is in the log, so that its bytes are in the
chunk where no later call of the log covers them; one that has returned an error is not. -/
structure Kept (x : Contention ι)
    (st : Parallel Req Reply ι (Outcome Unit × S3ChunkStore) (Logged ι)) : Prop where
  plain : plainChunk st.world.bucket x.store x.idx = .ok (x.applied st.world.log)
  once : ∀ t s, st.progs t = .ret (.ok (), s) → (x.calls t).data ≠ [] → st.world.log.count t = 1
  bytes : ∀ t s, st.progs t = .ret (.ok (), s) → ∀ k < (x.calls t).data.length,
    (x.applied st.world.log)[(x.calls t).within x.store + k]? = (x.calls t).data[k]? ∨
      ∃ before later u, st.world.log = before ++ t :: later ∧ u ∈ later ∧
        (x.calls u).Covers x.store ((x.calls t).within x.store + k)
  refused : ∀ t e s, st.progs t = .ret (.error e, s) → t ∉ st.world.log

variable {st : Parallel Req Reply ι (Outcome Unit × S3ChunkStore) (Logged ι)}

section

variable (h : x.Ready) (run : Relation.ReflTransGen (Parallel.Step x.careful) x.start st)

include h run

theorem Ready.holds :
    x.outline.Holds x.careful x.Result st := by
  refine Parallel.Outline.Holds.run (fun t => ?_) run
  exact ⟨(x.start.world, x.start.world), x.outline.refl t _,
    h.meets h.consistent rfl List.prefix_rfl⟩

theorem Ready.run_consistent :
    x.Consistent st.world.bucket st.world.log := by
  have holds := h.holds run
  cases run with
  | refl => exact h.consistent
  | tail _ step =>
    cases step with
    | @ask t =>
      obtain ⟨v, hrely, meets⟩ := holds t
      exact hrely.1 meets.inv.1

theorem Ready.run_count {r : Outcome Unit × S3ChunkStore} (hret : st.progs t = .ret r) :
    x.Result t r st.world := by
  obtain ⟨w, hrely, hresult⟩ := (h.holds run).result hret
  unfold Result
  rw [hrely.2.2.1]
  exact hresult

end

end Among

end External

end Contention

namespace Contention

variable {ι : Type} (x : Contention ι)

variable [DecidableEq ι]

def answer (t : ι) (r : Req) (w : Logged ι) : Reply r × Logged ι :=
  ((S3.answer x.etag r w.bucket).1, ⟨(S3.answer x.etag r w.bucket).2,
    if x.landed r (S3.answer x.etag r w.bucket).1 then w.log ++ [t] else w.log, x.looked t r w⟩)

theorem serve_answer (t : ι) (r : Req) (w : Logged ι) :
    x.serve t r w (x.answer t r w).1 (x.answer t r w).2 := ⟨atomic_answer _ _ _, rfl, rfl⟩

/-- The test of `Current`. -/
def current (t : ι) : Req → Logged ι → Bool
  | .put key _ none, w =>
    key ≠ x.key || (x.calls t).data.length = x.store.chunkSize || w.log = w.seen t
  | _, _ => true

theorem careful_answer (t : ι) (r : Req) (w : Logged ι) (h : x.current t r w = true) :
    x.careful t r w (x.answer t r w).1 (x.answer t r w).2 := by
  refine ⟨x.serve_answer t r w, ?_⟩
  rintro body rfl hlen
  simpa [current, hlen] using h

end Contention

section Writers

open Plain

def hexTag (body : Bytes) : Str := body.flatMap fun byte => hex 2 byte.toNat

theorem hexTag_injective : Function.Injective hexTag := fun a b h => by
  have hback := parseHexPairs_hashHex a
  rw [show a.flatMap _ = b.flatMap _ from h, parseHexPairs_hashHex b] at hback
  exact (Option.some.inj hback).symm

/-- Daemons that write to chunk 0 of a volume with chunks of two bytes. -/
def writers {ι : Type} (calls : ι → WriteCall) (bucket : Bucket) : Contention ι where
  etag := hexTag
  store := ⟨"v".toList, 1, 2, .none, .legacy, 4, "v".toList⟩
  idx := 0
  calls := calls
  bucket := bucket
  content := [0, 0]

def ended {ι : Type} (st : Parallel Req Reply ι (Outcome Unit × S3ChunkStore) (Logged ι)) (t : ι) :
    Option (Outcome Unit) :=
  match st.progs t with
  | .ret r => some r.1
  | .ask _ _ => none

theorem exists_ret_of_ended {ι : Type}
    {st : Parallel Req Reply ι (Outcome Unit × S3ChunkStore) (Logged ι)} {t : ι} {r : Outcome Unit}
    (h : ended st t = some r) : ∃ s, st.progs t = .ret (r, s) := by
  unfold ended at h
  split at h
  · rename_i found hret
    exact ⟨found.2, by rw [hret, ← Option.some.inj h]⟩
  · cases h

/-- The first two calls write a byte each, and the third one writes the second byte again. -/
def threeCalls (t : Fin 3) : WriteCall :=
  if t = 0 then ⟨4, 0, [1]⟩ else if t = 1 then ⟨4, 1, [2]⟩ else ⟨4, 1, [3]⟩

/-- The first call writes the missing chunk. The others read it, the second one puts it, and the put
of the third one is refused. -/
@[irreducible] def conflict :
    Parallel Req Reply (Fin 3) (Outcome Unit × S3ChunkStore) (Logged (Fin 3)) :=
  Parallel.exec (writers threeCalls ∅).answer (writers threeCalls ∅).start
    [0, 0, 0, 1, 2, 0, 1, 2, 1]

theorem ready_threeCalls : (writers threeCalls ∅).Ready where
  pos := by decide
  roundTrip := codecsRoundTrip
  small := fun h => absurd rfl h
  on := fun t => ⟨by revert t; decide, by revert t; decide⟩
  readable := by decide +kernel
  pooled := nofun
  tags := hexTag_injective.injOn
  hashes := nofun

theorem run_conflict : Relation.ReflTransGen (Parallel.Step (writers threeCalls ∅).careful)
    (writers threeCalls ∅).start conflict := by
  rw [conflict]
  exact Parallel.run_exec_of_passes (writers threeCalls ∅).careful_answer (by decide +kernel)

def twoCalls (late : Bool) : WriteCall := if late then ⟨4, 1, [2]⟩ else ⟨4, 0, [1]⟩

@[irreducible] def race : Parallel Req Reply Bool (Outcome Unit × S3ChunkStore) (Logged Bool) :=
  Parallel.exec (writers twoCalls ∅).answer (writers twoCalls ∅).start
    [false, false, true, true, false, true, false, true]

/-- The second call writes to two chunks. -/
def longCall (late : Bool) : WriteCall := if late then ⟨4, 1, [2, 3]⟩ else ⟨4, 2, [1]⟩

def bothPresent : Bucket :=
  AList.insert (legacyChunkKey "v".toList 1) [0, 0]
    (AList.singleton (legacyChunkKey "v".toList 0) [0, 0])

/-- The long call puts its first chunk and reads the second one, which then changes. -/
@[irreducible] def halfRefused :
    Parallel Req Reply Bool (Outcome Unit × S3ChunkStore) (Logged Bool) :=
  Parallel.exec (writers longCall bothPresent).answer (writers longCall bothPresent).start
    [true, true, true, true, false, false, false, true]

end Writers

end IscsiS3.S3
