import IscsiS3.S3.Reads

/-! What the calls of a volume return when every request succeeds: a volume whose chunks hold the
values of a function of the position is read as that function. -/

namespace IscsiS3.S3

open Request External StoreM Splice

def Reliable (etag : Bytes → Str) : Env Req Reply Bucket :=
  fun r b x b' => (x, b') = answer etag r b

theorem reliable_answer (etag : Bytes → Str) (r : Req) (b : Bucket) :
    Reliable etag r b (answer etag r b).1 (answer etag r b).2 := rfl

instance (etag : Bytes → Str) : Honest (Reliable etag) where
  below := fun r b x b' h => by
    obtain ⟨rfl, rfl⟩ := Prod.mk.inj h
    exact unreliable_answer etag r b

def HoldsBytes [External] (f : Nat → UInt8) (s : S3ChunkStore) (b : Bucket) : Prop :=
  ∀ i < u64Size, plainChunk b s i = .ok (span f (i * s.chunkSize) s.chunkSize)

section Read

variable [External] {env : Env Req Reply Bucket} [Honest env] {s : S3ChunkStore} {b : Bucket}
variable {f : Nat → UInt8}

variable (h : HoldsBytes f s b)

include h

theorem readPiece_reads {p : Piece} (hi : p.idx < u64Size) :
    (readPiece p).Reads env s b
      (Returns (· = slice (span f (p.idx * s.chunkSize) s.chunkSize) p.within p.take)) := by
  refine Reads.bind_returns (P := fun found => found.1 = span f (p.idx * s.chunkSize) s.chunkSize)
    ((getChunk_reads p.idx).mono fun r hr => ?_) fun found hfound => Reads.pure ?_
  · rw [h p.idx hi] at hr
    cases r with
    | ok found => exact Returns.ok.mpr (Outcome.ok.inj hr.1)
    | error _ | panic | waits => cases hr.1
  · rw [hfound]
    exact Returns.ok.mpr rfl

theorem collect_readPiece_reads (ps : List Piece) (hps : ∀ p ∈ ps, p.idx < u64Size) :
    (StoreM.collect readPiece ps).Reads env s b (Returns (· = ps.map fun p =>
      slice (span f (p.idx * s.chunkSize) s.chunkSize) p.within p.take)) := by
  induction ps with
  | nil => exact Reads.pure (Returns.ok.mpr rfl)
  | cons p ps ih =>
    refine (readPiece_reads h (hps p (by simp))).bind_returns fun bytes hbytes =>
      (ih fun q hq => hps q (List.mem_cons_of_mem _ hq)).bind_returns fun parts hparts => ?_
    rw [hbytes, hparts]
    exact Reads.pure (Returns.ok.mpr rfl)

theorem readAt_reads (hc : 0 < s.chunkSize) (hcap : s.capacity < u64Size) {offset len : Nat}
    (hin : offset + len ≤ s.capacity) :
    (readAt offset len).Reads env s b (Returns (· = span f offset len)) := by
  refine Reads.get.bind_returns fun t ht => ?_
  subst t
  refine Reads.bind_returns (P := fun _ => True) (Reads.lift (fun _ _ => Returns.ok.mpr trivial)
    fun e he => ?_) fun _ _ => ?_
  · rw [(checkRange_ok hcap).mpr hin] at he
    cases he
  · refine (collect_readPiece_reads h _ fun p hp => ?_).bind_returns fun parts hparts => ?_
    · obtain ⟨-, -, -, hend⟩ := mem_pieces hc hp
      have := Nat.le_mul_of_pos_right p.idx hc
      omega
    · rw [hparts, flatten_pieces hc f]
      exact Reads.pure (Returns.ok.mpr rfl)

end Read

end IscsiS3.S3
