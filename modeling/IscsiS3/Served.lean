import IscsiS3.Calls
import IscsiS3.Flat

/-! A block store that holds an array of bytes: `Holds s w f` says that the store in state `s`, over
a service in state `w`, holds the array `f`, and the rules say what each call does to the array. -/

namespace IscsiS3

open Request StoreM Splice

variable {Req : Type} {Reply : Req → Type} {S W : Type} [BlockStore Reply S]

/-- A store that `Holds` an array has its shape, and reads give its bytes. -/
structure Serves (env : Env Req Reply W) (Holds : S → W → Flat → Prop) : Prop where
  proper : ∀ {s w f}, Holds s w f → f.Proper
  capacity : ∀ {s w f}, Holds s w f → BlockStore.capacity Reply s = f.capacity
  chunkSize : ∀ {s w f}, Holds s w f → BlockStore.chunkSize Reply s = f.chunkSize
  blockSize : ∀ {s w f}, Holds s w f → BlockStore.blockSize Reply s = f.blockSize
  read : ∀ {s w f offset len}, Holds s w f → offset + len ≤ f.capacity →
    (BlockStore.readAt offset len : StoreM Reply S Bytes).Succeeds env s w fun bytes s' w' =>
      bytes = span f.byte offset len ∧ Holds s' w' f

/-- The calls act on the array; a request that is out of range fails and leaves it as it is. -/
structure ActsAs (env : Env Req Reply W) (Holds : S → W → Flat → Prop) : Prop
    extends Serves env Holds where
  readOut : ∀ {s w f offset len}, Holds s w f → f.capacity < offset + len →
    (BlockStore.readAt offset len : StoreM Reply S Bytes).Fails env s w fun s' w' => Holds s' w' f
  write : ∀ {s w f offset data}, Holds s w f → offset + data.length ≤ f.capacity →
    (BlockStore.writeAt offset data : StoreM Reply S Unit).Succeeds env s w fun _ s' w' =>
      Holds s' w' (f.write offset data)
  writeOut : ∀ {s w f offset data}, Holds s w f → f.capacity < offset + data.length →
    (BlockStore.writeAt offset data : StoreM Reply S Unit).Fails env s w fun s' w' => Holds s' w' f
  delete : ∀ {s w f i}, Holds s w f → i < u64Size →
    (BlockStore.deleteChunk i : StoreM Reply S Unit).Succeeds env s w fun _ s' w' =>
      Holds s' w' (f.delete i)
  grow : ∀ {s w f capacity}, Holds s w f → f.capacity ≤ capacity → capacity < u64Size →
    capacity % f.blockSize = 0 →
    (BlockStore.setCapacity capacity : StoreM Reply S Unit).Succeeds env s w fun _ s' w' =>
      Holds s' w' (f.resize capacity)
  shrink : ∀ {s w f capacity}, Holds s w f → capacity < f.capacity ∨ capacity % f.blockSize ≠ 0 →
    (BlockStore.setCapacity capacity : StoreM Reply S Unit).Fails env s w fun s' w' => Holds s' w' f
  flush : ∀ {s w f}, Holds s w f →
    (BlockStore.flush : StoreM Reply S Unit).Succeeds env s w fun _ s' w' => Holds s' w' f
  list : ∀ {s w f}, Holds s w f →
    (BlockStore.presentChunks : StoreM Reply S (List Nat)).Succeeds env s w fun idxs s' w' =>
      idxs.Pairwise (· < ·) ∧ (∀ i, i ∈ idxs ↔ i ∈ f.present) ∧ Holds s' w' f

theorem writePieces_succeeds {T : Type} {env : Env Req Reply W} (Holds : T → W → Flat → Prop)
    {f : Flat} {offset : Nat} {data : Bytes} {turn : Piece → StoreM Reply T Unit}
    (hc : 0 < f.chunkSize) (hin : offset + data.length ≤ f.capacity)
    (write : ∀ {t w g p}, Holds t w g → Flat.Alike f g → 0 < p.take →
      p.within + p.take ≤ f.chunkSize → p.idx * f.chunkSize + p.within + p.take ≤ f.capacity →
      p.idx * f.chunkSize + p.within - offset + p.take ≤ data.length →
      (turn p).Succeeds env t w fun _ t' w' => Holds t' w' (g.write (p.idx * f.chunkSize + p.within)
        (slice data (p.idx * f.chunkSize + p.within - offset) p.take)))
    {t : T} {w : W} (h : Holds t w f) :
    (StoreM.each turn (pieces f.chunkSize offset data.length)).Succeeds env t w fun _ t' w' =>
      Holds t' w' (f.write offset data) := by
  -- the induction is along the loop: what is left is a request for the rest of the data
  have rest : ∀ start len, offset ≤ start → start + len ≤ offset + data.length →
      ∀ {t w g}, Flat.Alike f g → Holds t w g →
        (StoreM.each turn (pieces f.chunkSize start len)).Succeeds env t w fun _ t' w' =>
          Holds t' w' (g.write start (slice data (start - offset) len)) := by
    intro start len
    refine pieces_induction hc (P := fun start len => offset ≤ start →
      start + len ≤ offset + data.length → ∀ {t w g}, Flat.Alike f g → Holds t w g →
        (StoreM.each turn (pieces f.chunkSize start len)).Succeeds env t w fun _ t' w' =>
          Holds t' w' (g.write start (slice data (start - offset) len))) ?_ ?_ start len
    · intro start _ _ t w g _ h
      rw [slice, List.take_zero, Flat.write_nil]
      exact Succeeds.pure h
    · intro start len hlen ih hlow hhigh t w g hg h
      have hpos := firstTake_pos start hc hlen
      have hle := firstTake_le f.chunkSize start len
      have hfit := firstTake_chunk start len hc
      have hstart := Flat.div_mod_chunk (f := f) start
      rw [pieces_succ hc hlen]
      have first := write (p := ⟨start / f.chunkSize, start % f.chunkSize,
        firstTake f.chunkSize start len⟩) h hg hpos hfit (by simp only [hstart]; omega)
        (by simp only [hstart]; omega)
      simp only [hstart] at first
      refine Succeeds.bind (first.mono fun _ t' w' h' => ?_)
      refine (ih (by omega) (by omega) (hg.trans (g.alike_write _ _)) h').mono
        fun _ t'' w'' h'' => ?_
      have hlength : (slice data (start - offset) (firstTake f.chunkSize start len)).length =
          firstTake f.chunkSize start len := length_slice (by omega)
      have hnext : start + firstTake f.chunkSize start len - offset =
          start - offset + firstTake f.chunkSize start len := by omega
      have hwhole : len = firstTake f.chunkSize start len +
          (len - firstTake f.chunkSize start len) := by omega
      have happend := g.write_append start
        (slice data (start - offset) (firstTake f.chunkSize start len))
        (slice data (start - offset + firstTake f.chunkSize start len)
          (len - firstTake f.chunkSize start len))
      rw [hlength, ← slice_add, ← hwhole] at happend
      rwa [hnext, happend] at h''
  have whole := rest offset data.length (Nat.le_refl _) (Nat.le_refl _) (.refl f) h
  rwa [Nat.sub_self, slice_all] at whole

end IscsiS3
