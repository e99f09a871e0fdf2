import IscsiS3.Admin.WriteImage
import IscsiS3.WriteCache.Acts

/-! `seed_image_from_reader`: an image is written chunk by chunk and the chunks that are zero are
left out.  On a volume that reads as zero this leaves the image, followed by zeros. -/

namespace IscsiS3

open Request StoreM Splice

namespace Admin

variable {Req : Type} {Reply : Req → Type} {S X W : Type} [BlockStore Reply S] {x : X} {w : W}

theorem mapErr_finishes {α : Type} {env : Env Req Reply W} {late : Prop} {m : StoreM Reply X α}
    {Q : α → X → W → Prop} (h : m.Finishes env late x w Q) (before after : String) :
    (mapErr before m after).Finishes env late x w Q := by
  refine Finishes.bind (Finishes.attempt (h.mono ?_))
  exact fun a x' w' hQ => (Succeeds.pure hQ).finishes

structure SeedImageResult where
  bytesRead : Nat
  bytesStored : Nat
  chunksWritten : Nat
  zeroChunksSkipped : Nat
  deriving DecidableEq, Repr

/-- The loop of `seed_image_from_reader`; the reader gives these bytes and then ends. -/
def seedChunks (view : View X S) (chunkSize : Nat) :
    (turns offset remaining : Nat) → (reader : Bytes) → SeedImageResult →
      StoreM Reply X SeedImageResult
  | 0, _, _, _, r => pure r
  | turns + 1, offset, remaining, reader, r =>
    if remaining = 0 then pure r
    else
      let n := min remaining chunkSize
      if reader.length < n then
        StoreM.throw (.other ("read image body at offset " ++ toString offset ++
          ": failed to fill whole buffer"))
      else if (reader.take n).all (· == 0) then
        seedChunks view chunkSize turns (offset + n) (remaining - n) (reader.drop n)
          { r with zeroChunksSkipped := r.zeroChunksSkipped + 1 }
      else do
        mapErr ("write at offset " ++ toString offset ++ ": ")
          (view.on (BlockStore.writeAt offset (reader.take n))) ""
        seedChunks view chunkSize turns (offset + n) (remaining - n) (reader.drop n)
          { r with chunksWritten := r.chunksWritten + 1, bytesStored := r.bytesStored + n }

/-- Every turn of the loop takes a byte at least. -/
def seedImageFromReader (view : View X S) (reader : Bytes) (size : Nat) :
    StoreM Reply X SeedImageResult := do
  let x ← StoreM.get
  let chunkSize := BlockStore.chunkSize Reply (view.get x)
  let capacity := BlockStore.capacity Reply (view.get x)
  if chunkSize = 0 then StoreM.throw (.other "invalid chunk_size 0")
  else if capacity < size then
    StoreM.throw (.other ("image size " ++ toString size ++ " exceeds volume capacity " ++
      toString capacity))
  else do
    let r ← seedChunks view chunkSize size 0 size reader ⟨size, 0, 0, 0⟩
    mapErr "flush after image write: " (view.on BlockStore.flush) ""
    pure r

section Seeding

variable {env : Env Req Reply W} {late : Prop} {view : View X S} {Holds : X → W → Flat → Prop}

def imageByte (image : Bytes) (pos : Nat) : UInt8 := image[pos]?.getD 0

theorem overwrite_imageByte (image : Bytes) (offset n : Nat) :
    overwrite (imageByte (image.take offset)) offset (slice image offset n) =
      imageByte (image.take (offset + n)) := by
  funext pos
  simp only [overwrite, imageByte, getElem?_slice, List.getElem?_take]
  by_cases hlow : pos < offset
  · rw [if_neg (by omega), if_pos hlow, if_pos (by omega)]
  · have hpos : offset + (pos - offset) = pos := by omega
    rw [if_pos (by omega), hpos, if_neg hlow]
    by_cases hhigh : pos < offset + n
    · rw [if_pos (by omega), if_pos hhigh]
      rfl
    · rw [if_neg (by omega), if_neg hhigh]
      rfl

theorem imageByte_skip {image : Bytes} {offset n : Nat}
    (hzero : (slice image offset n).all (· == 0) = true) :
    imageByte (image.take offset) = imageByte (image.take (offset + n)) := by
  rw [← overwrite_imageByte image offset n]
  funext pos
  simp only [overwrite, imageByte]
  split
  · rename_i hlow
    cases hget : (slice image offset n)[pos - offset]? with
    | none => rfl
    | some c =>
      have hc : c = 0 := by simpa using List.all_eq_true.mp hzero c (List.mem_of_getElem? hget)
      rw [List.getElem?_take, if_neg (by omega), hc]
      rfl
  · rfl

/-- What seeding needs: the calls act on an array, and a write can wait if it is late. -/
structure Seedable (env : Env Req Reply W) (late : Prop) (view : View X S)
    (Holds : X → W → Flat → Prop) (shape : Flat) : Prop where
  chunkSize : ∀ {x w f}, Holds x w f → BlockStore.chunkSize Reply (view.get x) = f.chunkSize
  capacity : ∀ {x w f}, Holds x w f → BlockStore.capacity Reply (view.get x) = f.capacity
  write : ∀ {x w f offset data}, Holds x w f → Flat.Alike shape f →
    offset + data.length ≤ f.capacity →
    (view.on (BlockStore.writeAt offset data)).Finishes env late x w fun _ x' w' =>
      Holds x' w' (f.write offset data)
  flush : ∀ {x w f}, Holds x w f →
    (view.on BlockStore.flush : StoreM Reply X Unit).Succeeds env x w fun _ x' w' => Holds x' w' f

def chunkCount (chunkSize size : Nat) : Nat := (size + chunkSize - 1) / chunkSize

def imagePiece (chunkSize : Nat) (image : Bytes) (i : Nat) : Bytes :=
  slice image (i * chunkSize) chunkSize

def isZero (piece : Bytes) : Bool := piece.all (· == 0)

def seedTally (size : Nat) (pieces : List Bytes) : SeedImageResult where
  bytesRead := size
  bytesStored := ((pieces.filter (!isZero ·)).map List.length).sum
  chunksWritten := pieces.countP (!isZero ·)
  zeroChunksSkipped := pieces.countP isZero

/-- The array and the result after `i` turns: of the image, the first `i` pieces are there, and
their chunks are present if they are not zero. -/
structure Seeded (shape : Flat) (reader : Bytes) (size i : Nat) (g : Flat) (r : SeedImageResult) :
    Prop where
  alike : Flat.Alike shape g
  byte : g.byte = imageByte (reader.take (min (i * shape.chunkSize) size))
  present : ∀ j, j ∈ g.present ↔ j ∈ shape.present ∨
    ∃ pos < min (i * shape.chunkSize) size, pos / shape.chunkSize = j ∧ imageByte reader pos ≠ 0
  result : r = seedTally size ((List.range i).map (imagePiece shape.chunkSize (reader.take size)))

section Turn

variable {shape g : Flat} {reader : Bytes} {size i n : Nat} {r : SeedImageResult}

theorem Seeded.start (hzero : ∀ pos, shape.byte pos = 0) :
    Seeded shape reader size 0 shape ⟨size, 0, 0, 0⟩ where
  alike := .refl shape
  byte := by
    funext pos
    simp [hzero, imageByte]
  present := by simp
  result := rfl

section

variable (hn : n = min (size - i * shape.chunkSize) shape.chunkSize)

include hn

theorem slice_eq_imagePiece :
    slice reader (i * shape.chunkSize) n = imagePiece shape.chunkSize (reader.take size) i := by
  simp only [imagePiece, slice, List.drop_take, List.take_take, hn, Nat.min_comm]

theorem seedTally_succ :
    (List.range (i + 1)).map (imagePiece shape.chunkSize (reader.take size)) =
      (List.range i).map (imagePiece shape.chunkSize (reader.take size)) ++
        [slice reader (i * shape.chunkSize) n] := by
  rw [List.range_succ, List.map_append, List.map_singleton, slice_eq_imagePiece hn]

end

theorem isZero_slice : isZero (slice reader (i * shape.chunkSize) n) = true ↔
    ∀ pos, i * shape.chunkSize ≤ pos → pos < i * shape.chunkSize + n →
      imageByte reader pos = 0 := by
  simp only [isZero, List.all_eq_true, beq_iff_eq]
  constructor
  · intro hzero pos hlow hhigh
    have hget := getElem?_slice reader (i * shape.chunkSize) n (pos - i * shape.chunkSize)
    rw [if_pos (by omega), Nat.add_sub_cancel' hlow] at hget
    cases hpos : reader[pos]? with
    | none => simp [imageByte, hpos]
    | some c =>
      rw [hpos] at hget
      simp [imageByte, hpos, hzero c (List.mem_of_getElem? hget)]
  · intro hzero c hc
    obtain ⟨k, hk⟩ := List.mem_iff_getElem?.mp hc
    rw [getElem?_slice] at hk
    obtain ⟨hlt, hget⟩ := Option.ite_none_right_eq_some.mp hk
    have hpos := hzero (i * shape.chunkSize + k) (by omega) (by omega)
    simpa [imageByte, hget] using hpos

theorem Seeded.skip (h : Seeded shape reader size i g r) (hi : i * shape.chunkSize < size)
    (hn : n = min (size - i * shape.chunkSize) shape.chunkSize)
    (hzero : isZero (slice reader (i * shape.chunkSize) n) = true) :
    Seeded shape reader size (i + 1) g { r with zeroChunksSkipped := r.zeroChunksSkipped + 1 } := by
  have hnow : min (i * shape.chunkSize) size = i * shape.chunkSize := by omega
  have hnext : min ((i + 1) * shape.chunkSize) size = i * shape.chunkSize + n := by
    rw [Nat.succ_mul]
    omega
  refine ⟨h.alike, ?_, fun j => ?_, ?_⟩
  · rw [h.byte, hnow, hnext, imageByte_skip hzero]
  · rw [h.present, hnow, hnext]
    refine or_congr_right ⟨fun ⟨pos, hpos, hrest⟩ => ⟨pos, by omega, hrest⟩, ?_⟩
    rintro ⟨pos, hpos, hj, hbyte⟩
    refine ⟨pos, ?_, hj, hbyte⟩
    by_contra hlow
    exact hbyte (isZero_slice.mp hzero pos (by omega) hpos)
  · rw [seedTally_succ hn, h.result]
    simp [seedTally, hzero]

theorem Seeded.write (h : Seeded shape reader size i g r) (hc : 0 < shape.chunkSize)
    (hi : i * shape.chunkSize < size) (hn : n = min (size - i * shape.chunkSize) shape.chunkSize)
    (hlen : i * shape.chunkSize + n ≤ reader.length)
    (hzero : ¬isZero (slice reader (i * shape.chunkSize) n) = true) :
    Seeded shape reader size (i + 1)
      (g.write (i * shape.chunkSize) (slice reader (i * shape.chunkSize) n))
      { r with chunksWritten := r.chunksWritten + 1, bytesStored := r.bytesStored + n } := by
  have hnow : min (i * shape.chunkSize) size = i * shape.chunkSize := by omega
  have hnext : min ((i + 1) * shape.chunkSize) size = i * shape.chunkSize + n := by
    rw [Nat.succ_mul]
    omega
  have hslice : (slice reader (i * shape.chunkSize) n).length = n := length_slice hlen
  refine ⟨h.alike.trans (g.alike_write _ _), ?_, fun j => ?_, ?_⟩
  · change overwrite g.byte _ _ = _
    rw [h.byte, hnow, hnext, overwrite_imageByte]
  · change j ∈ g.present ∪ g.touched _ _ ↔ _
    rw [Set.mem_union, h.present, hnow, hnext, hslice, or_assoc]
    refine or_congr_right ⟨?_, ?_⟩
    · rintro (⟨pos, hpos, hrest⟩ | htouched)
      · exact ⟨pos, by omega, hrest⟩
      · -- the chunk that is written has a byte that is not zero
        have hj : j = i := by
          rw [← h.alike.chunkSize] at htouched hc
          exact Flat.eq_of_mem_touched hc (by rw [h.alike.chunkSize]; omega) htouched
        rw [isZero_slice] at hzero
        push Not at hzero
        obtain ⟨pos, hlow, hhigh, hbyte⟩ := hzero
        exact ⟨pos, hhigh, hj ▸ (Flat.div_eq_iff hc).mpr ⟨hlow, by omega⟩, hbyte⟩
    · rintro ⟨pos, hpos, hj, hbyte⟩
      by_cases hlow : pos < i * shape.chunkSize
      · exact .inl ⟨pos, hlow, hj, hbyte⟩
      · refine .inr ⟨pos, by omega, by omega, ?_⟩
        rw [h.alike.chunkSize, hj]
  · rw [seedTally_succ hn, h.result]
    simp [seedTally, hzero, hslice]

theorem le_chunkCount_mul (hc : 0 < shape.chunkSize) :
    size ≤ chunkCount shape.chunkSize size * shape.chunkSize := by
  have hlt := Nat.lt_div_mul_add hc (a := size + shape.chunkSize - 1)
  rw [← chunkCount] at hlt
  omega

theorem Seeded.byte_all (h : Seeded shape reader size (chunkCount shape.chunkSize size) g r)
    (hc : 0 < shape.chunkSize) : g.byte = imageByte (reader.take size) := by
  rw [h.byte, Nat.min_eq_right (le_chunkCount_mul hc)]

end Turn

/-- How the loop ends: after all pieces, or with an error after the whole pieces of a body that is
too short. -/
def SeedEnds (Holds : X → W → Flat → Prop) (late : Prop) (shape : Flat)
    (reader : Bytes) (size : Nat) : Outcome SeedImageResult → X → W → Prop
  | .ok r, x, w => size ≤ reader.length ∧ ∃ g, Holds x w g ∧
      Seeded shape reader size (chunkCount shape.chunkSize size) g r
  | .error _, x, w => reader.length < size ∧ ∃ g r, Holds x w g ∧
      Seeded shape reader size (reader.length / shape.chunkSize) g r
  | .waits, _, _ => late
  | .panic, _, _ => False

variable {reader : Bytes}

theorem Seeded.ends {shape g : Flat} {size i : Nat} {r : SeedImageResult}
    (seeded : Seeded shape reader size i g r) (hc : 0 < shape.chunkSize)
    (hcount : i ≤ chunkCount shape.chunkSize size)
    (hread : min (i * shape.chunkSize) size ≤ reader.length) (h : Holds x w g)
    (hsize : size ≤ i * shape.chunkSize) : SeedEnds Holds late shape reader size (.ok r) x w := by
  have hi : i = chunkCount shape.chunkSize size := by
    refine Nat.le_antisymm hcount (Nat.lt_succ_iff.mp ((Nat.div_lt_iff_lt_mul hc).mpr ?_))
    rw [Nat.succ_mul]
    omega
  exact ⟨by omega, g, h, hi ▸ seeded⟩

theorem seedChunks_ends {shape : Flat} (seedable : Seedable env late view Holds shape)
    {size turns i : Nat} {g : Flat} {r : SeedImageResult} (hc : 0 < shape.chunkSize)
    (hcap : size ≤ shape.capacity) (hturns : size - i * shape.chunkSize ≤ turns)
    (hcount : i ≤ chunkCount shape.chunkSize size)
    (hread : min (i * shape.chunkSize) size ≤ reader.length) (h : Holds x w g)
    (seeded : Seeded shape reader size i g r) :
    (seedChunks view shape.chunkSize turns (min (i * shape.chunkSize) size)
      (size - i * shape.chunkSize) (reader.drop (min (i * shape.chunkSize) size)) r).Safe env
        (fun _ => True) x w (SeedEnds Holds late shape reader size) := by
  induction turns generalizing i g r x w with
  | zero => exact Safe.pure trivial (seeded.ends hc hcount hread h (by omega))
  | succ turns ih =>
    unfold seedChunks
    split
    · exact Safe.pure trivial (seeded.ends hc hcount hread h (by omega))
    have hi : i * shape.chunkSize < size := by omega
    obtain ⟨n, hn⟩ : ∃ n, n = min (size - i * shape.chunkSize) shape.chunkSize := ⟨_, rfl⟩
    have hnext : min ((i + 1) * shape.chunkSize) size = i * shape.chunkSize + n := by
      rw [Nat.succ_mul]
      omega
    have hrest : size - (i + 1) * shape.chunkSize = size - i * shape.chunkSize - n := by
      rw [Nat.succ_mul]
      omega
    have hcount' : i + 1 ≤ chunkCount shape.chunkSize size := by
      rw [chunkCount, Nat.le_div_iff_mul_le hc, Nat.succ_mul]
      omega
    simp only [← hn, Nat.min_eq_left hi.le, List.length_drop] at hread ⊢
    rw [List.drop_drop]
    change Safe _ _ (if _ then _ else if isZero
      (slice reader (i * shape.chunkSize) n) then _ else _) _ _ _
    split
    · -- the body is too short for this piece
      have hshort : i = reader.length / shape.chunkSize :=
        ((Flat.div_eq_iff hc).mpr ⟨by omega, by omega⟩).symm
      exact Safe.done trivial ⟨by omega, g, r, h, hshort ▸ seeded⟩
    rw [← hnext, ← hrest]
    split
    · rename_i hzero
      exact ih (by omega) hcount' (by omega) h (seeded.skip hi hn hzero)
    · rename_i hfull hzero
      have hslice : (slice reader (i * shape.chunkSize) n).length = n := length_slice (by omega)
      refine Safe.bind (Safe.mono (mapErr_finishes (seedable.write h seeded.alike ?_) _ _) ?_)
      · change i * shape.chunkSize + (slice reader (i * shape.chunkSize) n).length ≤ g.capacity
        rw [hslice, seeded.alike.capacity]
        omega
      · rintro _ x' w' - (⟨rfl, hlate⟩ | ⟨_, rfl, h'⟩)
        · exact hlate
        · exact ih (by omega) hcount' (by omega) h' (seeded.write hc hi hn (by omega) hzero)

section

variable {f : Flat} {size : Nat} (seedable : Seedable env late view Holds f)

include seedable

/-- An image that is seeded on an array of zeros is there, followed by zeros; of a body that is too
short, the whole pieces are. -/
theorem seedImageFromReader_ends (reader : Bytes) (hc : 0 < f.chunkSize) (hsize : size ≤ f.capacity)
    (hzero : ∀ pos, f.byte pos = 0) (h : Holds x w f) :
    (seedImageFromReader view reader size).Safe env (fun _ => True) x w
      (SeedEnds Holds late f reader size) := by
  refine Safe.bind (Safe.get trivial ?_)
  change Safe _ _ (if _ then _ else if _ then _ else _) _ _ _
  rw [seedable.chunkSize h, seedable.capacity h, if_neg (by omega), if_neg (by omega)]
  have seeded : (seedChunks view f.chunkSize size (min (0 * f.chunkSize) size)
      (size - 0 * f.chunkSize) (reader.drop (min (0 * f.chunkSize) size)) ⟨size, 0, 0, 0⟩).Safe env
        (fun _ => True) x w (SeedEnds Holds late f reader size) :=
    seedChunks_ends seedable hc hsize (by omega) (Nat.zero_le _) (by omega) h (Seeded.start hzero)
  simp only [Nat.zero_mul, Nat.zero_min, Nat.sub_zero, List.drop_zero] at seeded
  refine Safe.bind (Safe.mono seeded ?_)
  rintro (r | e | _ | _) x' w' - hends
  · obtain ⟨hlen, g, hg, hseeded⟩ := hends
    have flushed : (view.on BlockStore.flush : StoreM Reply X Unit).Finishes env late x' w'
        fun _ x'' w'' => Holds x'' w'' g := (seedable.flush hg).finishes
    refine Safe.bind (Safe.mono (mapErr_finishes flushed _ _) ?_)
    rintro _ x'' w'' - (⟨rfl, hlate⟩ | ⟨_, rfl, hflushed⟩)
    · exact hlate
    · exact Safe.pure trivial ⟨hlen, g, hflushed, hseeded⟩
  · exact hends
  · exact hends
  · exact hends

theorem seedImageFromReader_finishes (hc : 0 < f.chunkSize) (hsize : size ≤ f.capacity)
    (hreader : size ≤ reader.length) (hzero : ∀ pos, f.byte pos = 0) (h : Holds x w f) :
    (seedImageFromReader view reader size).Finishes env late x w fun r x' w' => ∃ g, Holds x' w' g ∧
      Seeded f reader size (chunkCount f.chunkSize size) g r := by
  refine Safe.mono (seedImageFromReader_ends seedable reader hc hsize hzero h) ?_
  rintro (r | e | _ | _) x' w' - hends
  · exact .inr ⟨r, rfl, hends.2⟩
  · exact absurd hends.1 (by omega)
  · exact hends.elim
  · exact .inl ⟨rfl, hends⟩

end

end Seeding

section Volume

open S3

variable {V : Type} [DecidableEq V] {v : V} {env : Env S3.Req S3.Reply Bucket} {β : Prop}
variable {Inner : CachedStore S3ChunkStore → Bucket → Flat → Prop} {f : Flat}
variable {st st' : AdminState V} {b b' : Bucket}

/-- A volume that shows the array; it has a write buffer only if `β`. -/
def Shown (β : Prop) (v : V) (Inner : CachedStore S3ChunkStore → Bucket → Flat → Prop)
    (st : AdminState V) (b : Bucket) (f : Flat) : Prop :=
  ((storeOf v).get st).store.Held β Inner 0 b f

theorem shown_set {s : VolumeStore} (h : s.store.Held β Inner 0 b f) :
    Shown β v Inner ((storeOf v).set st s) b f := by
  rwa [Shown, storeOf_get_set]

variable [External]

theorem volume_seedable (inner : ActsAs env Inner) (shape : Flat) :
    Seedable env β (storeOf v) (Shown β v Inner) shape where
  chunkSize := fun h => (h.shows.shape inner.toServes).2.1
  capacity := fun h => (h.shows.shape inner.toServes).1
  write := fun h _ hin => by
    refine Finishes.within (Succeeds.then (Succeeds.get (Succeeds.then (Succeeds.modify ?_))))
    refine Finishes.within (Safe.mono (WriteCachedStore.writeAt_finishes inner h hin) ?_)
    rintro r s' b' - (⟨rfl, hlate⟩ | ⟨a, rfl, held⟩)
    · exact .inl ⟨rfl, hlate.1⟩
    · exact .inr ⟨a, rfl, shown_set held⟩
  flush := fun h => by
    refine Succeeds.within (Succeeds.within ((WriteCachedStore.flush_succeeds inner h).mono ?_))
    exact fun _ _ _ held => shown_set held.1

/-- An image written to a volume that reads as zero when it is admitted is there, followed by zeros,
unless the write waits for room in the buffer. -/
theorem write_image_exact [Honest env] (inner : ActsAs env Inner) {bucket : Option Str}
    {size : Option Nat} {prep : WriteImagePrep}
    (run : (prepareWriteImage v bucket size st).Runs env b (.ok prep, st') b')
    (shown : Shown β v Inner st b f) (zero : ∀ pos < prep.capacity, f.byte pos = 0) {reader : Bytes}
    (hreader : prep.size ≤ reader.length) :
    (seedImageFromReader (storeOf v) reader prep.size).Finishes env β st' b' fun _ st'' b'' =>
      ∀ offset len, offset + len ≤ prep.capacity →
        ((storeOf v).on (BlockStore.readAt offset len)).Succeeds env st'' b''
          fun bytes _ _ => bytes = span (imageByte (reader.take prep.size)) offset len := by
  obtain ⟨⟨hst, rfl⟩, hcap, -, hfits, -⟩ :=
    Prog.Safe.runs (prepareWriteImage_keeps bucket size) run
  change (storeOf v).get st' = _ at hst
  have proper := shown.shows.proper
  have hsame : prep.capacity = f.capacity := hcap.trans (shown.shows.shape inner.toServes).1
  rw [hsame] at zero hfits ⊢
  rw [Shown, ← hst] at shown
  refine (seedImageFromReader_finishes (volume_seedable inner f) proper.chunkSize_pos hfits hreader
    (fun pos => ?_) shown).mono ?_
  · by_cases hpos : pos < f.capacity
    · exact zero pos hpos
    · exact proper.above pos (Nat.not_lt.mp hpos)
  · rintro r st'' b'' ⟨g, held, seeded⟩ offset len hin
    rw [← seeded.alike.capacity] at hin
    rw [← seeded.byte_all proper.chunkSize_pos]
    refine Succeeds.within (Succeeds.within
      ((WriteCachedStore.readAt_held inner.toServes held hin).mono ?_))
    exact fun bytes _ _ hbytes => hbytes.1

end Volume

end Admin

end IscsiS3
