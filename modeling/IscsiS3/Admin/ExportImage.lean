import IscsiS3.Admin.SeedImage
import IscsiS3.Memory

/-! Writing an image and exporting it. On any empty store that behaves as a flat array, an export
gives the image back that was written. The store in memory is such a store. -/

namespace IscsiS3

open Request StoreM Splice

namespace MemoryStore

variable {Req : Type} {Reply : Req → Type} {W : Type}

/-- The array that the store is, for capacities that a store can have. -/
def Holds (s : MemoryStore) (_ : W) (f : Flat) : Prop := s.flat = f ∧ f.Proper

theorem actsAs (env : Env Req Reply W) : ActsAs env (Holds : MemoryStore → W → Flat → Prop) where
  proper := fun h => h.2
  capacity := by
    rintro s w _ ⟨rfl, -⟩
    rfl
  chunkSize := by
    rintro s w _ ⟨rfl, -⟩
    rfl
  blockSize := by
    rintro s w _ ⟨rfl, -⟩
    rfl
  read := by
    rintro s w _ offset len ⟨rfl, proper⟩ hin
    refine Succeeds.bind (Succeeds.get (Succeeds.bind (Succeeds.lift
      ((checkRange_ok proper.capacity_lt).mpr hin) (Succeeds.pure ?_))))
    exact ⟨s.flatten_readPiece offset len, rfl, proper⟩
  readOut := by
    rintro s w _ offset len ⟨rfl, proper⟩ hout
    have hout' : s.capacity < offset + len := hout
    refine Succeeds.fails (Succeeds.get ?_)
    rw [checkRange_error hout']
    exact Fails.throw ⟨rfl, proper⟩
  write := by
    rintro s w _ offset data ⟨rfl, proper⟩ hin
    refine Succeeds.bind (Succeeds.get (Succeeds.bind (Succeeds.lift
      ((checkRange_ok proper.capacity_lt).mpr hin) (Succeeds.modify ?_))))
    exact ⟨s.flat_write offset data, proper.write hin⟩
  writeOut := by
    rintro s w _ offset data ⟨rfl, proper⟩ hout
    have hout' : s.capacity < offset + data.length := hout
    refine Succeeds.fails (Succeeds.get ?_)
    rw [checkRange_error hout']
    exact Fails.throw ⟨rfl, proper⟩
  delete := by
    rintro s w _ i ⟨rfl, proper⟩ -
    exact Succeeds.modify ⟨s.flat_erase i, proper.delete i⟩
  grow := by
    rintro s w _ capacity ⟨rfl, proper⟩ hle hlt hblock
    have hle' : s.capacity ≤ capacity := hle
    have hblock' : capacity % s.blockSize = 0 := hblock
    refine Succeeds.bind (Succeeds.get ?_)
    rw [if_neg (by omega), if_neg (by omega)]
    exact Succeeds.modify ⟨rfl, proper.resize hle hlt⟩
  shrink := by
    rintro s w _ capacity ⟨rfl, proper⟩ hbad
    have hbad' : capacity < s.capacity ∨ capacity % s.blockSize ≠ 0 := hbad
    refine Succeeds.fails (Succeeds.get ?_)
    split
    · exact Fails.throw ⟨rfl, proper⟩
    · rw [if_pos (by omega)]
      exact Fails.throw ⟨rfl, proper⟩
  flush := by
    rintro s w _ ⟨rfl, proper⟩
    exact Succeeds.pure ⟨rfl, proper⟩
  list := by
    rintro s w _ ⟨rfl, proper⟩
    refine Succeeds.bind (Succeeds.get (Succeeds.pure ?_))
    exact ⟨s.listed_flat.1, s.listed_flat.2, rfl, proper⟩

end MemoryStore

namespace Admin

variable {Req : Type} {Reply : Req → Type} {S W : Type} [BlockStore Reply S]
variable {env : Env Req Reply W} {Holds : S → W → Flat → Prop} {s : S} {w : W} {f g : Flat}

def whole : View S S := ⟨id, fun _ s => s⟩

theorem ActsAs.seedable (acts : ActsAs env Holds) (shape : Flat) :
    Seedable env False (whole : View S S) Holds shape where
  chunkSize := acts.chunkSize
  capacity := acts.capacity
  write := fun h _ hin => Finishes.within (acts.write h hin).finishes
  flush := fun h => Succeeds.within (acts.flush h)

theorem chunkCount_of_pos {c n remaining : Nat} (hc : 0 < c) (hpos : 0 < remaining)
    (hn : n = min remaining c) : chunkCount c remaining = chunkCount c (remaining - n) + 1 := by
  unfold chunkCount
  by_cases hle : remaining ≤ c
  · rw [hn, Nat.min_eq_left hle, Nat.sub_self, Nat.zero_add,
      Nat.div_eq_of_lt (by omega : c - 1 < c), Nat.div_eq_of_lt_le] <;> omega
  · have hsum : remaining + c - 1 = remaining - n + c - 1 + c := by omega
    rw [hsum, Nat.add_div_right _ hc]

/-- A writer that takes everything. -/
def steady : Writer := fun _ => .ok ()

theorem exportChunks_succeeds (acts : ActsAs env Holds) {turns offset remaining : Nat}
    (hturns : remaining ≤ turns) (hin : offset + remaining ≤ f.capacity) (h : Holds s w f) :
    (exportChunks whole steady f.chunkSize turns offset remaining).Succeeds env s w
      fun parts s' w' =>
      parts.flatten = span f.byte offset remaining ∧
        parts.length = chunkCount f.chunkSize remaining ∧ Holds s' w' f := by
  have hc := (acts.proper h).chunkSize_pos
  have hnone : chunkCount f.chunkSize 0 = 0 := Nat.div_eq_of_lt (by omega)
  induction turns generalizing offset remaining s w with
  | zero =>
    obtain rfl : remaining = 0 := by omega
    exact Succeeds.pure ⟨rfl, hnone.symm, h⟩
  | succ turns ih =>
    unfold exportChunks
    split
    · rename_i hdone
      subst hdone
      exact Succeeds.pure ⟨rfl, hnone.symm, h⟩
    obtain ⟨n, hn⟩ : ∃ n, n = min remaining f.chunkSize := ⟨_, rfl⟩
    rw [← hn]
    have hread : (mapErr ("read at offset " ++ toString offset ++ ": ")
        (whole.on (BlockStore.readAt offset n)) "" : StoreM Reply S Bytes).Succeeds env s w
          fun bytes s' w' => bytes = span f.byte offset n ∧ Holds s' w' f :=
      (mapErr_finishes (Finishes.within (acts.read h (by omega)).finishes) _ _).succeeds not_false
    refine Succeeds.bind (hread.mono ?_)
    rintro bytes s' w' ⟨rfl, h'⟩
    refine Succeeds.bind (Succeeds.pure ?_)
    refine Succeeds.bind ((ih (by omega) (by omega) h').mono ?_)
    rintro parts s'' w'' ⟨hparts, hlength, h''⟩
    refine Succeeds.pure ⟨?_, ?_, h''⟩
    · rw [List.flatten_cons, hparts, ← span_add, Nat.add_sub_cancel' (by omega)]
    · rw [List.length_cons, hlength, chunkCount_of_pos hc (by omega) hn]

theorem exportImageToWriter_succeeds (acts : ActsAs env Holds) {size : Nat}
    (hsize : size ≤ f.capacity) (h : Holds s w f) :
    (exportImageToWriter whole steady size).Succeeds env s w fun out s' w' =>
      out = (span f.byte 0 size, ⟨size, chunkCount f.chunkSize size⟩) ∧ Holds s' w' f := by
  have hc := (acts.proper h).chunkSize_pos
  refine Succeeds.bind (Succeeds.get ?_)
  rw [(ActsAs.seedable acts f).chunkSize h, (ActsAs.seedable acts f).capacity h, if_neg (by omega),
    if_neg (by omega)]
  refine Succeeds.bind ((exportChunks_succeeds acts (Nat.le_refl size) (by omega) h).mono ?_)
  rintro parts s' w' ⟨hparts, hlength, h'⟩
  exact Succeeds.pure ⟨by rw [hparts, hlength], h'⟩

/-- The store reads as the image followed by zeros, and its chunks are those in which the image is
not zero. -/
def ShowsImage (env : Env Req Reply W) (shape : Flat) (image : Bytes) (s : S) (w : W) : Prop :=
  (∀ offset len, offset + len ≤ shape.capacity →
    (BlockStore.readAt offset len : StoreM Reply S Bytes).Succeeds env s w fun bytes _ _ =>
      bytes = span (imageByte image) offset len) ∧
  (BlockStore.presentChunks : StoreM Reply S (List Nat)).Succeeds env s w fun idxs _ _ =>
    idxs.Pairwise (· < ·) ∧ ∀ i, i ∈ idxs ↔ ∃ pos, pos / shape.chunkSize = i ∧
      imageByte image pos ≠ 0

theorem imageByte_take (image : Bytes) (n pos : Nat) :
    imageByte (image.take n) pos = if pos < n then imageByte image pos else 0 := by
  simp only [imageByte, List.getElem?_take]
  split <;> rfl

theorem Seeded.shows (acts : ActsAs env Holds) {reader : Bytes} {size i : Nat} {r : SeedImageResult}
    (seeded : Seeded f reader size i g r) (hempty : f.present = ∅) (h : Holds s w g) :
    ShowsImage env f (reader.take (min (i * f.chunkSize) size)) s w := by
  constructor
  · intro offset len hin
    refine (acts.read h (by rwa [seeded.alike.capacity])).mono ?_
    rintro bytes s' w' ⟨hbytes, -⟩
    rw [hbytes, seeded.byte]
  · refine (acts.list h).mono ?_
    rintro idxs s' w' ⟨hsorted, hmem, -⟩
    refine ⟨hsorted, fun j => ?_⟩
    rw [hmem, seeded.present, hempty]
    simp only [imageByte_take, Set.mem_empty_iff_false, false_or]
    constructor
    · rintro ⟨pos, hpos, hj, hbyte⟩
      exact ⟨pos, hj, by rwa [if_pos hpos]⟩
    · rintro ⟨pos, hj, hbyte⟩
      by_cases hpos : pos < min (i * f.chunkSize) size
      · exact ⟨pos, hpos, hj, by rwa [if_pos hpos] at hbyte⟩
      · exact absurd (if_neg hpos) hbyte

theorem span_imageByte (image : Bytes) : span (imageByte image) 0 image.length = image := by
  apply List.ext_getElem?
  intro k
  rw [getElem?_span]
  split
  · rename_i hk
    simp [imageByte, hk]
  · rename_i hk
    simp [Nat.not_lt.mp hk]

def imagePieces (chunkSize : Nat) (image : Bytes) : List Bytes :=
  (List.range (chunkCount chunkSize image.length)).map (imagePiece chunkSize image)

theorem seedTally_counts (size : Nat) (pieces : List Bytes) :
    (seedTally size pieces).chunksWritten + (seedTally size pieces).zeroChunksSkipped =
      pieces.length := by
  have hcount := List.length_eq_countP_add_countP isZero (l := pieces)
  simp only [Bool.not_eq_true, Bool.decide_eq_false] at hcount
  rw [hcount, Nat.add_comm]
  rfl

/-- On every empty store that behaves as a flat array, an image that fits is written and shown, the
counters count its pieces, and an export of the same size gives it back; a body that is too short
makes writing fail, with its whole chunks in the store. -/
theorem export_undoes_write_image (acts : ActsAs env Holds) (h : Holds s w f)
    (hempty : f.present = ∅) (image rest : Bytes) (hfits : image.length ≤ f.capacity) :
    ((seedImageFromReader whole (image ++ rest) image.length).Succeeds env s w fun r s' w' =>
      ShowsImage env f image s' w' ∧
      r.bytesRead = image.length ∧
      r.chunksWritten + r.zeroChunksSkipped = chunkCount f.chunkSize image.length ∧
      r.chunksWritten = (imagePieces f.chunkSize image).countP (!isZero ·) ∧
      r.bytesStored = (((imagePieces f.chunkSize image).filter (!isZero ·)).map List.length).sum ∧
      (exportImageToWriter whole steady image.length).Succeeds env s' w' fun out _ _ =>
        out = (image, ⟨image.length, chunkCount f.chunkSize image.length⟩)) ∧
    ∀ size, image.length < size → size ≤ f.capacity →
      (seedImageFromReader whole image size).Fails env s w fun s' w' =>
        ShowsImage env f (image.take (image.length / f.chunkSize * f.chunkSize)) s' w' := by
  have hc := (acts.proper h).chunkSize_pos
  have hzero : ∀ pos, f.byte pos = 0 := fun pos =>
    (acts.proper h).absent pos (by rw [hempty]; exact Set.notMem_empty _)
  have seedable := ActsAs.seedable acts f
  constructor
  · have hreader : image.length ≤ (image ++ rest).length := by simp
    refine ((seedImageFromReader_finishes seedable hc hfits hreader hzero h).succeeds
      not_false).mono ?_
    rintro r s' w' ⟨g, hg, seeded⟩
    have htake : (image ++ rest).take image.length = image := List.take_left
    have hresult := seeded.result
    rw [htake] at hresult
    have hbyte := seeded.byte_all hc
    rw [htake] at hbyte
    have shows := seeded.shows acts hempty hg
    rw [Nat.min_eq_right (le_chunkCount_mul hc), htake] at shows
    have hfits' : image.length ≤ g.capacity := by rwa [seeded.alike.capacity]
    refine ⟨shows, by rw [hresult]; rfl, ?_, by rw [hresult]; rfl, by rw [hresult]; rfl, ?_⟩
    · rw [hresult]
      have hcount := seedTally_counts image.length (imagePieces f.chunkSize image)
      rwa [imagePieces, List.length_map, List.length_range] at hcount
    · refine (exportImageToWriter_succeeds acts hfits' hg).mono ?_
      rintro out _ _ ⟨hout, -⟩
      rw [hout, hbyte, span_imageByte, seeded.alike.chunkSize]
  · intro size hshort hsize
    refine Safe.mono (seedImageFromReader_ends seedable image hc hsize hzero h) ?_
    rintro (r | e | _ | _) s' w' - hends
    · exact absurd hends.1 (by omega)
    · obtain ⟨-, g, r, hg, seeded⟩ := hends
      have shows := seeded.shows acts hempty hg
      have hle := Nat.div_mul_le_self image.length f.chunkSize
      rw [Nat.min_eq_left (by omega)] at shows
      exact ⟨⟨e, rfl⟩, shows⟩
    · exact hends.elim
    · exact hends.elim

theorem length_of_empty (i : Nat) (chunk : Bytes)
    (h : (∅ : AList fun _ : Nat => Bytes).lookup i = some chunk) : chunk.length = 2 := by
  simp at h

def emptyStore : MemoryStore := ⟨6, 1, 2, ∅, Nat.two_pos, length_of_empty⟩

theorem emptyStore_holds : emptyStore.Holds () emptyStore.flat := by
  refine ⟨rfl, by decide, by decide, fun pos _ => ?_, fun pos _ => ?_⟩
  · simp [MemoryStore.flat, MemoryStore.chunkAt, emptyStore, getD_zeros]
  · simp [MemoryStore.flat, MemoryStore.chunkAt, emptyStore, getD_zeros]

/-- A store in memory asks no requests. -/
abbrev NoReply : Empty → Type := fun _ => Unit

def Alone : Env Empty NoReply Unit := fun _ _ _ _ => True

/-- An image of a zero chunk and a part of the next one. -/
theorem export_undoes_write_image_short :
    (seedImageFromReader whole [0, 0, 7] 3 :
      StoreM NoReply MemoryStore SeedImageResult).Succeeds Alone
      emptyStore () fun _ s' w' =>
        (exportImageToWriter whole steady 3 : StoreM NoReply MemoryStore _).Succeeds Alone s' w'
          fun out _ _ => out = ([0, 0, 7], ⟨3, 2⟩) := by
  have hempty : emptyStore.flat.present = ∅ := by
    ext i
    simp [MemoryStore.flat, emptyStore]
  have h := (export_undoes_write_image (MemoryStore.actsAs Alone) emptyStore_holds
    hempty [0, 0, 7] [] (by decide)).1
  exact h.mono fun _ _ _ hr => hr.2.2.2.2.2

end Admin

end IscsiS3
