import IscsiS3.Overlay
import IscsiS3.Served
import IscsiS3.WriteCache.Calls

/-! The write cache over a store that holds an array holds an array over it: a chunk that is dirty
or in the buffer is that of the array above, and the other chunks are those of the array below. -/

namespace IscsiS3

open Request StoreM Splice WriteCache

/-- A buffer of chunks of `size` bytes that has no put in flight; its queue is the list of its
chunks, and there is room for one chunk at least.  There is a buffer only if `β`. -/
structure Buffer.Ok (b : Buffer) (β : Prop) (size : Nat) : Prop where
  settled : b.state.inflight = none
  queued : ∀ i, i ∈ b.state.order ↔ b.state.get i ≠ none
  nodup : b.state.order.Nodup
  sized : ∀ i data, b.state.get i = some data → data.length = size
  used : b.state.usedBytes ≤ size * b.state.order.length
  room : size ≤ b.maxBytes
  present : β

namespace Buffer.Ok

variable {b : Buffer} {β : Prop} {size i : Nat} {data : Bytes}

theorem new (room : size ≤ b.maxBytes) (present : β) : Buffer.Ok ⟨b.maxBytes, .new⟩ β size where
  settled := rfl
  queued := fun i => by simp [BufState.new, BufState.get]
  nodup := List.nodup_nil
  sized := fun i data h => by simp at h
  used := Nat.zero_le _
  room := room
  present := present

theorem push (h : b.Ok β size) (hnone : b.state.chunks.lookup i = none) (hlen : data.length = size)
    (generation : Nat) : Buffer.Ok ⟨b.maxBytes, b.state.push i data generation⟩ β size := by
  have horder : (b.state.push i data generation).order = b.state.order ++ [i] := by
    simp [BufState.push, hnone]
  have hused : (b.state.push i data generation).usedBytes ≤ b.state.usedBytes + size := by
    simp only [BufState.push, hnone, saturatingAdd, Payload.len, hlen]
    omega
  have hget : b.state.get i = none := by simp [BufState.get, hnone]
  have hnot : i ∉ b.state.order := fun hmem => (h.queued i).mp hmem hget
  refine ⟨h.settled, fun j => ?_, ?_, fun j bytes hj => ?_, ?_, h.room, h.present⟩
  · simp only [horder, BufState.get_push]
    by_cases hji : j = i
    · simp [hji]
    · simpa [hji] using h.queued j
  · simp only [horder]
    exact h.nodup.append (List.nodup_singleton i) (by simpa using hnot)
  · simp only [BufState.get_push] at hj
    split at hj
    · rw [← Option.some.inj hj, hlen]
    · exact h.sized j bytes hj
  · simp only [horder, List.length_append, List.length_singleton, Nat.mul_add, Nat.mul_one]
    have := h.used
    omega

theorem remove (h : b.Ok β size) (i : Nat) : Buffer.Ok ⟨b.maxBytes, b.state.remove i⟩ β size := by
  cases hi : b.state.chunks.lookup i with
  | none =>
    have : b.state.remove i = b.state := by simp [BufState.remove, hi]
    rw [this]
    exact h
  | some old =>
    have hget : b.state.get i = some old.data := by simp [BufState.get, hi]
    have hmem : i ∈ b.state.order := (h.queued i).mpr (by simp [hget])
    have horder : (b.state.remove i).order = b.state.order.erase i := by
      simp only [BufState.remove, hi]
      rw [h.nodup.erase_eq_filter]
      congr 1
      funext j
      by_cases hj : j = i <;> simp [hj]
    have hlen : (b.state.order.erase i).length + 1 = b.state.order.length := by
      rw [List.length_erase_of_mem hmem]
      have := List.length_pos_of_mem hmem
      omega
    refine ⟨?_, fun j => ?_, ?_, fun j bytes hj => ?_, ?_, h.room, h.present⟩
    · simp only [BufState.remove, hi, h.settled]
      simp
    · simp only [horder, BufState.get_remove, h.nodup.mem_erase_iff, h.queued]
      by_cases hji : j = i <;> simp [hji]
    · simp only [horder]
      exact h.nodup.erase i
    · simp only [BufState.get_remove] at hj
      split at hj
      · cases hj
      · exact h.sized j bytes hj
    · have hused : (b.state.remove i).usedBytes = b.state.usedBytes - size := by
        simp only [BufState.remove, hi, Payload.len, h.sized i _ hget]
      simp only [hused, horder]
      have := h.used
      rw [← hlen, Nat.mul_add, Nat.mul_one] at this
      omega

theorem finishPut {buf : BufState Bytes} {job : Job Bytes} (h : b.Ok β size)
    (hnext : b.state.nextJob = some (job, buf)) (ok : Bool) :
    Buffer.Ok ⟨b.maxBytes, buf.finishPut job ok⟩ β size ∧
      (ok = true → (buf.finishPut job ok).order.length < b.state.order.length) := by
  obtain ⟨hjob, rfl⟩ := BufState.nextJob_eq_some hnext
  have hclear : ({ b.state with inflight := some job.idx } : BufState Bytes).clearInflight job.idx =
      b.state := by
    have := h.settled
    cases hb : b.state
    simp_all [BufState.clearInflight]
  cases ok with
  | false =>
    have : ({ b.state with inflight := some job.idx } : BufState Bytes).finishPut job false =
        b.state := by simp [BufState.finishPut, hclear]
    rw [this]
    exact ⟨h, (fun h => by cases h)⟩
  | true =>
    have hfinish : ({ b.state with inflight := some job.idx } : BufState Bytes).finishPut job true =
        b.state.remove job.idx := by simp [BufState.finishPut, hclear, hjob]
    rw [hfinish]
    refine ⟨h.remove job.idx, fun _ => ?_⟩
    have hmem : job.idx ∈ b.state.order := (h.queued _).mpr (by simp [BufState.get, hjob])
    simp only [BufState.remove, hjob]
    exact List.length_filter_lt_length_iff_exists.mpr ⟨job.idx, hmem, by simp⟩

end Buffer.Ok

namespace WriteCachedStore

variable {Req : Type} {Reply : Req → Type} {S W : Type} {env : Env Req Reply W}
variable {Inner : S → W → Flat → Prop} {s s' : WriteCachedStore S} {w : W} {f : Flat}

def Shows (Inner : S → W → Flat → Prop) (s : WriteCachedStore S) (w : W) (f : Flat) : Prop :=
  ∃ g, Inner s.inner w g ∧ Overlaid s.lookup g f

/-- Without a write cache nothing is dirty and nothing is in the buffer. -/
def Direct (s : WriteCachedStore S) : Prop := s.mode = .none → ∀ i, s.lookup i = none

theorem Direct.of_lookup (h : s.Direct) (hmode : s'.mode = s.mode)
    (hlook : ∀ i, s'.lookup i = s.lookup i) : s'.Direct := fun hm i => by
  rw [hlook]
  exact h (hmode ▸ hm) i

theorem Shows.congr (h : s.Shows Inner w f) (hinner : s'.inner = s.inner)
    (hlook : ∀ i, s'.lookup i = s.lookup i) : s'.Shows Inner w f := by
  obtain ⟨g, hg, hover⟩ := h
  exact ⟨g, hinner ▸ hg, hover.congr hlook⟩

theorem Shows.proper (h : s.Shows Inner w f) : f.Proper := h.choose_spec.2.proper

theorem onInner_succeeds {α : Type} {m : StoreM Reply S α} {Q : α → S → W → Prop}
    (h : m.Succeeds env s.inner w Q) :
    (onInner m).Succeeds env s w fun a s' w' => s' = s.withInner s'.inner ∧ Q a s'.inner w' :=
  Succeeds.within (h.mono fun _ _ _ hQ => ⟨rfl, hQ⟩)

section Reading

variable [BlockStore Reply S] {offset len : Nat}

section

variable (inner : Serves env Inner) (h : s.Shows Inner w f)

include inner h

theorem Shows.shape :
    BlockStore.capacity Reply s.inner = f.capacity ∧
      BlockStore.chunkSize Reply s.inner = f.chunkSize ∧
      BlockStore.blockSize Reply s.inner = f.blockSize := by
  obtain ⟨g, hg, hover⟩ := h
  exact ⟨(inner.capacity hg).trans hover.capacity.symm,
    (inner.chunkSize hg).trans hover.chunkSize.symm,
    (inner.blockSize hg).trans hover.blockSize.symm⟩

theorem readInner_succeeds {i within take : Nat} (hi : s.lookup i = none)
    (hfit : within + take ≤ f.chunkSize) (hcap : i * f.chunkSize + within + take ≤ f.capacity) :
    (onInner (BlockStore.readAt (i * f.chunkSize + within) take) :
      StoreM Reply (WriteCachedStore S) Bytes).Succeeds env s w fun bytes s' w' =>
        bytes = slice (f.chunk i) within take ∧ s' = s.withInner s'.inner ∧
          s'.Shows Inner w' f := by
  obtain ⟨g, hg, hover⟩ := h
  rw [hover.capacity] at hcap
  refine (onInner_succeeds (inner.read hg hcap)).mono ?_
  rintro _ s' w' ⟨hs', rfl, hg'⟩
  refine ⟨?_, hs', g, hg', hover.congr fun j => by rw [hs']; rfl⟩
  rw [hover.chunk_none hi, Flat.chunk, slice_span _ (by rw [← hover.chunkSize]; exact hfit),
    hover.chunkSize]

theorem readPiece_succeeds {p : Piece} (hfit : p.within + p.take ≤ f.chunkSize)
    (hcap : p.idx * f.chunkSize + p.within + p.take ≤ f.capacity) :
    (readPiece p).Succeeds env s w fun bytes s' w' =>
      bytes = slice (f.chunk p.idx) p.within p.take ∧ s' = s.withInner s'.inner ∧
        s'.Shows Inner w' f := by
  refine Reads.get.andThen fun t ht => ?_
  subst t
  rw [(h.shape inner).2.1]
  cases hlook : s.lookup p.idx with
  | some data =>
    obtain ⟨g, hg, hover⟩ := h
    refine Succeeds.pure ⟨?_, rfl, g, hg, hover⟩
    rw [hover.chunk_some hlook]
  | none => exact readInner_succeeds inner h hlook hfit hcap

end

theorem readAt_succeeds (inner : Serves env Inner) (direct : s.Direct) (h : s.Shows Inner w f)
    (hin : offset + len ≤ f.capacity) :
    (readAt offset len).Succeeds env s w fun bytes s' w' =>
      bytes = span f.byte offset len ∧ s' = s.withInner s'.inner ∧ s'.Shows Inner w' f := by
  have hpos := h.proper.chunkSize_pos
  refine Reads.get.andThen fun t ht => ?_
  subst t
  split
  · rename_i hmode
    obtain ⟨g, hg, hover⟩ := h
    obtain rfl := hover.eq_of_none (direct hmode)
    refine (onInner_succeeds (inner.read hg hin)).mono ?_
    rintro _ s' w' ⟨hs', rfl, hg'⟩
    exact ⟨rfl, hs', f, hg', hover.congr fun j => by rw [hs']; rfl⟩
  · rw [(h.shape inner).1, (h.shape inner).2.1]
    refine Succeeds.bind (Succeeds.lift ((checkRange_ok h.proper.capacity_lt).mpr hin) ?_)
    refine Succeeds.bind ((Succeeds.collect
      (K := fun s' w' => s' = s.withInner s'.inner ∧ s'.Shows Inner w' f)
      (fun p => slice (f.chunk p.idx) p.within p.take) _ ⟨rfl, h⟩ fun p hp s₁ w₁ h₁ => ?_).mono ?_)
    · obtain ⟨-, hfit, -, hend⟩ := mem_pieces hpos hp
      refine (readPiece_succeeds inner h₁.2 hfit (by omega)).mono ?_
      rintro _ s₂ w₂ ⟨rfl, hs₂, h₂⟩
      refine ⟨rfl, ?_, h₂⟩
      rw [hs₂, h₁.1]
      rfl
    · rintro _ s' w' ⟨rfl, hs', h'⟩
      exact Succeeds.pure ⟨flatten_pieces hpos f.byte offset len, hs', h'⟩

theorem readAt_fails (inner : ActsAs env Inner) (direct : s.Direct) (h : s.Shows Inner w f)
    (hout : f.capacity < offset + len) :
    (readAt offset len).Fails env s w fun s' w' =>
      s' = s.withInner s'.inner ∧ s'.Shows Inner w' f := by
  refine Reads.get.andFail fun t ht => ?_
  subst t
  split
  · rename_i hmode
    obtain ⟨g, hg, hover⟩ := h
    obtain rfl := hover.eq_of_none (direct hmode)
    refine Fails.within ((inner.readOut hg hout).mono fun s' w' hg' => ?_)
    exact ⟨rfl, f, hg', hover⟩
  · rw [(h.shape inner.toServes).1, checkRange_error hout]
    exact Fails.bind (Q := fun s' w' => s' = s.withInner s'.inner ∧ s'.Shows Inner w' f)
      (Fails.throw ⟨rfl, h⟩) _

end Reading

end WriteCachedStore

end IscsiS3
